import RecencyCache.Proofs.Cache.Notes
import RecencyCache.Proofs.Cache.Room

/-!
# Making a value on demand is getting it, or making and putting it

A call that makes a value on demand has a way of its own to look the key up, to touch the entry and to count.  It comes
to the same as `getThenPut`, which gets the value and, if there is none, makes one and puts it, each by a call of its
own: in all that they leave, and in how often the value is made (`Op.GetsThenPuts`).  Only where the value cannot be
made has the composition counted a request that the call has not.
-/

namespace RecencyCache

open Sequence (keepAll locked)

variable {κ ν ρ ω ε α β : Type} [BEq κ] [Hashable κ]

/-- Counting a miss that can be counted adds a request. -/
private theorem Metrics.record_miss {m : Metrics} (h : m.Fits .miss) :
    Metrics.record .miss m = .ok () { m with requests := m.requests + 1 } := by
  have hbump : Metrics.bump .requests m = .ok () { m with requests := m.requests + 1 } :=
    Metrics.bump_of_lt (h .requests (List.mem_singleton_self _))
  show EStateM.bind (Metrics.bump .requests) _ m = _
  unfold EStateM.bind
  rw [hbump]
  rfl

/-- The world after a request more. -/
def World.requested (w : World κ ν ω) : World κ ν ω :=
  { w with cache := { w.cache with metrics := { w.cache.metrics with requests := w.cache.metrics.requests + 1 } } }

private theorem Effect.count_miss {w : World κ ν ω} (h : w.cache.metrics.Fits .miss) :
    (count .miss : Effect κ ν ω ε Unit) w = .ok () w.requested := by
  unfold count
  rw [Metrics.record_miss h]
  rfl

namespace Cache

open Effect

variable [EquivBEq κ] [LawfulHashable κ]

/-- Gets the value of a key; if there is none, makes one and puts it under the key. -/
def getThenPut (k : κ) (made : Effect κ ν ω ε ν) : Effect κ ν ω ε ν := do
  match ← Cache.get k with
  | some value => return value
  | none =>
    let value ← made
    let _ ← Cache.put k value
    return value

variable {w : World κ ν ω} {k key : κ} {s : Nat} {value : ν} {make : Callback ω ε ν} {caller : ω} {stop : Stop ε}

/-! ### The key has an entry -/

/-- Where there is a value, both touch the entry and count a hit, and nothing is made. -/
private theorem tryGetOrInsertWith_of_some (h : w.cache.Coherent) (hf : w.cache.find? k = some (s, key, value))
    (make : Callback ω ε ν) (made : Effect κ ν ω ε ν) : tryGetOrInsertWith k make w = getThenPut k made w := by
  let hit : Effect κ ν ω ε Unit := do change (·.touch s); count .hit
  have hcached : tryGetOrInsertWith k make w = exclusively (do let _ ← hit; return value) w := by
    have hheld : w.hold.cache.find? k = some (s, key, value) := hf
    refine exclusively_congr ?_
    rw [bind_ask, hheld, bind_assoc]
  have hgot : Cache.get k w = exclusively (do let _ ← hit; return some value) w := by
    rw [get_of_some h hf, bind_assoc]
  unfold getThenPut
  rw [hcached, bind_congr_left hgot, exclusively_bind_pure hit fun _ => value,
    exclusively_bind_pure hit fun _ => some value, bind_assoc]
  rfl

/-! ### The key has no entry -/

private theorem get_requested (hfree : w.cache.held = false) (hf : w.cache.find? k = none)
    (hfits : w.cache.metrics.Fits .miss) : (Cache.get k : Effect κ ν ω ε _) w = .ok none w.requested := by
  have hmiss : (count .miss : Effect κ ν ω ε Unit) w.hold = .ok () w.requested.hold := count_miss (w := w.hold) hfits
  rw [get_of_none hf]
  refine exclusively_of_ok hfree ?_
  rw [bind_of_ok hmiss]
  rfl

/-- Where a value has to be made and is, both leave the same. -/
private theorem tryGetOrInsertWith_of_made (hfree : w.cache.held = false) (hf : w.cache.find? k = none)
    (hfits : w.cache.metrics.Fits .miss) (hmake : make locked w.caller = .ok value caller) :
    tryGetOrInsertWith k make w = getThenPut k (exclusively (call make)) w := by
  let store : Effect κ ν ω ε ν := do let _ ← insertNew k value; return value
  have hmade : tryGetOrInsertWith k make w = exclusively store { w.requested with caller } := by
    have hcall : call make w.hold = .ok value ({ w with caller } : World κ ν ω).hold := call_of_ok rfl hmake
    have hmiss : (count .miss : Effect κ ν ω ε Unit) ({ w with caller } : World κ ν ω).hold =
        .ok () ({ w.requested with caller } : World κ ν ω).hold := count_miss (w := { w.hold with caller }) hfits
    have hheld : w.hold.cache.find? k = none := hf
    calc tryGetOrInsertWith k make w
        = exclusively (do
            let value ← call make
            count .miss
            let _ ← insertNew k value
            return value) w := exclusively_congr (by rw [bind_ask, hheld])
      _ = exclusively (do count .miss; store) { w with caller } := exclusively_bind_of_ok hcall _
      _ = exclusively store { w.requested with caller } := exclusively_bind_of_ok hmiss _
  have hput : (do let _ ← Cache.put k value; return value : Effect κ ν ω ε ν) { w.requested with caller } =
      exclusively store { w.requested with caller } := by
    have hnew : Cache.put k value ({ w.requested with caller } : World κ ν ω) =
        (exclusively (insertNew k value) : Effect κ ν ω ε _) { w.requested with caller } := by
      have hheld : ({ w.requested with caller } : World κ ν ω).hold.cache.find? k = none := hf
      refine exclusively_congr ?_
      rw [bind_ask, hheld]
    rw [bind_congr_left hnew, exclusively_bind_pure (insertNew k value) fun _ => value]
  have hcall : exclusively (call make) w.requested = .ok value { w.requested with caller } :=
    exclusively_of_ok hfree (call_of_ok (w := w.requested.hold) rfl hmake)
  unfold getThenPut
  rw [hmade, bind_of_ok (get_requested hfree hf hfits)]
  dsimp only
  rw [bind_of_ok hcall, hput]

/-- Where a value cannot be made, the composition has counted the request. -/
private theorem getThenPut_of_stopped (hfree : w.cache.held = false) (hf : w.cache.find? k = none)
    (hfits : w.cache.metrics.Fits .miss) (hmake : make locked w.caller = .error stop caller) :
    getThenPut k (exclusively (call make)) w = .error stop.toAbort { w.requested with caller } := by
  have hcall : exclusively (call make) w.requested = .error stop.toAbort { w.requested with caller } :=
    exclusively_of_error hfree (call_of_error (w := w.requested.hold) rfl hmake)
  unfold getThenPut
  rw [bind_of_ok (get_requested hfree hf hfits)]
  dsimp only
  rw [bind_of_error hcall]

/-! ### How often a value is made -/

/-- The composition makes a value as often as the call does: once if there is none. -/
private theorem getThenPut_notes (h : w.cache.Ready) (hfits : w.cache.metrics.Fits .miss) (k : κ)
    (make : Callback ω ε ν) :
    Notes (getThenPut k (exclusively (call make))) (getThenPut k (exclusively (call (make.noted .make)))) w
      (factoryAsks k w) := by
  cases hf : w.cache.find? k with
  | some found =>
    obtain ⟨s, key, value⟩ := found
    refine (tryGetOrInsertWith_notes k make w).congr ?_ fun notes => ?_
    · exact (tryGetOrInsertWith_of_some h.coherent hf make _).symm
    · exact (tryGetOrInsertWith_of_some (w := w.noted notes) h.coherent hf _ _).symm
  | none =>
    have hasks : factoryAsks k w = ([.make] : List (Asking ν)) := by
      unfold factoryAsks
      rw [hf]
    have hget : Notes (Cache.get k : Effect κ ν ω ε _) (Cache.get k) w [] := by
      rw [get_eq, get_eq, ← lookupAsks_nil k (keepAll (ε := ε)) w]
      exact tryGetOrEvict_notes keep_notes keepAll_notes k w
    have hcall : Notes (exclusively (call make)) (exclusively (call (make.noted .make))) w.requested [.make] :=
      Notes.exclusively (Notes.call rfl (make.noted_notes .make))
    rw [hasks, ← List.nil_append [Asking.make]]
    refine hget.bind_of_ok (get_requested h.free hf hfits) ?_
    exact hcall.bind fun value w => (put_notes k value w).bind fun _ w => Notes.pure _ w

/-- What makes a value without looking at the cache may as well make it while nobody holds the cache. -/
private theorem getThenPut_open (h : w.cache.Ready)
    (hblind : ∀ seen seen' caller, make seen caller = make seen' caller) :
    getThenPut k (call make) w = getThenPut k (exclusively (call make)) w := by
  have hopen (w : World κ ν ω) (hfree : w.cache.held = false) : call make w = exclusively (call make) w := by
    obtain ⟨⟨config, order, index, metrics, held⟩, log, caller⟩ := w
    cases hfree
    unfold exclusively call
    dsimp only
    rw [hblind _ locked, hblind (outline ⟨config, order, index, metrics, true⟩) locked]
    cases make locked caller <;> rfl
  unfold getThenPut
  cases hget : (Cache.get k : Effect κ ν ω ε _) w with
  | error e w' => rw [bind_of_error hget, bind_of_error hget]
  | ok value? w' =>
    rw [bind_of_ok hget, bind_of_ok hget]
    cases value? with
    | some value => rfl
    | none => exact bind_congr_left (hopen w' (ready_of_get h hget).free) _

/-! ### A run -/

/-- The call makes a value on demand as the composition of getting, making and putting does. -/
structure Op.GetsThenPuts (op : Op κ ν ρ ω ε) (k : κ) (make : Callback ω ε ν) (w : World κ ν ω) : Prop where
  /-- Where the key has an entry, the two end the same way and leave the same world. -/
  found : w.cache.find? k ≠ none →
    op.perform w = (Reply.value <$> getThenPut k (exclusively (Effect.call make))) w
  /-- So they do where a value is made. -/
  made : w.cache.find? k = none → w.cache.metrics.Fits .miss →
    ∀ {value caller}, make locked w.caller = .ok value caller →
      op.perform w = (Reply.value <$> getThenPut k (exclusively (Effect.call make))) w
  /-- Where it cannot be made, they differ in the request that the composition has counted. -/
  stopped : w.cache.find? k = none → ∀ {stop caller}, make locked w.caller = .error stop caller →
    op.perform w = .error stop.toAbort { w with caller } ∧
      (w.cache.metrics.Fits .miss →
        (Reply.value <$> getThenPut k (exclusively (Effect.call make)) : Effect κ ν ω ε (Reply κ ν ρ)) w =
          .error stop.toAbort { w.requested with caller })
  /-- Both make a value once if the key has no entry, and none if it has. -/
  makes : Notes op.perform op.noted.perform w (factoryAsks k w) ∧
    (w.cache.metrics.Fits .miss → Notes (getThenPut k (exclusively (Effect.call make)))
      (getThenPut k (exclusively (Effect.call (make.noted .make)))) w (factoryAsks k w))
  /-- What does not look at the cache may as well be called while nobody holds it. -/
  blind : (∀ seen seen' caller, make seen caller = make seen' caller) →
    getThenPut k (Effect.call make) w = getThenPut k (exclusively (Effect.call make)) w

private theorem Op.getsThenPuts {op : Op κ ν ρ ω ε} (h : w.cache.Ready) (hop : op.factory? = some (k, make)) :
    op.GetsThenPuts k make w := by
  have hperform : op.perform = Reply.value <$> Cache.tryGetOrInsertWith k make := Op.perform_of_factory? hop
  have hmap {x y : Effect κ ν ω ε ν} (hxy : x w = y w) :
      (Reply.value <$> x : Effect κ ν ω ε (Reply κ ν ρ)) w = (Reply.value <$> y) w := by
    rw [map_eq_pure_bind, map_eq_pure_bind]
    exact bind_congr_left hxy _
  refine ⟨fun hfound => ?_, fun hf hfits value caller hmake => ?_, fun hf stop caller hmake => ⟨?_, fun hfits => ?_⟩,
    ⟨?_, fun hfits => getThenPut_notes h hfits k make⟩, getThenPut_open h⟩
  · obtain ⟨⟨s, key, value⟩, hf⟩ := Option.ne_none_iff_exists'.1 hfound
    rw [hperform]
    exact hmap (tryGetOrInsertWith_of_some h.coherent hf make _)
  · rw [hperform]
    exact hmap (tryGetOrInsertWith_of_made h.free hf hfits hmake)
  · have hstops : op.StopsDeciding w stop caller := .make hop hf hmake
    have happly := Op.apply_of_deciding h.free hstops
    unfold Op.apply at happly
    cases hx : op.perform w with
    | ok reply w' =>
      rw [hx] at happly
      cases happly
    | error e w' =>
      rw [hx] at happly
      cases happly
      rfl
  · exact map_of_error (getThenPut_of_stopped h.free hf hfits hmake) _
  · obtain ⟨asked, hnotes, hasks⟩ := op.noted_perform h
    have hasked : op.asks w = factoryAsks k w ∧ op.predicate? = none := by
      cases op <;> cases hop <;> exact ⟨rfl, rfl⟩
    rw [← hasked.1, ← hasks hasked.2]
    exact hnotes

/-- Making a value on demand is getting it, or making it and putting it.  After every run from a new cache, however its
calls ended, a call that makes a value on demand goes as `getThenPut` goes: it ends the same way, makes a value as
often, and leaves the same entries under the same stored keys, in the same order and in the same slots, the same index,
vacant slots, counters and log, and the same state of the caller.  Where the value cannot be made, what the two leave
differs in one request.  Unless there have been as many calls as a counter can count, the miss can be counted, and the
call answers with the value of the entry, or with the value that has been made. -/
theorem Op.run_onDemand (config : Config) (caller : ω) (ops : List (Op κ ν ρ ω ε)) (op : Op κ ν ρ ω ε) (k : κ)
    (make : Callback ω ε ν) (hop : op.factory? = some (k, make)) :
    let w := (Op.run (World.new config caller) ops).2
    op.GetsThenPuts k make w ∧
      (ops.length + 1 < UInt64.size → w.cache.metrics.Fits .miss ∧
        (∀ s key value, w.cache.find? k = some (s, key, value) → (op.apply w).1 = .ok (.value value)) ∧
        (w.cache.find? k = none → ∀ value caller', make locked w.caller = .ok value caller' →
          (op.apply w).1 = .ok (.value value))) := by
  intro w
  have hready : w.cache.Ready := (Op.run_ready (ready_new config caller) ops).1
  refine ⟨Op.getsThenPuts hready hop, fun hfew => ⟨Op.run_fits config caller hfew .miss, ?_⟩⟩
  have hturn : (op.turn w).outcome =
      (Sequence.getOrInsertWith w.cache.capacity k make w.cache.toList w.caller).outcome.map .value := by
    rw [Op.turn, Sequence.step_of_factory? hop]
    rfl
  have houtcome : (op.apply w).1 = (op.turn w).outcome :=
    (Op.apply_carries hready (Op.apply_ne_overflow_of_few config caller hfew op)).outcome
  rw [houtcome, hturn]
  constructor
  · intro s key value hf
    unfold Sequence.getOrInsertWith
    rw [find?_toList_of_some hready hf]
    rfl
  · intro hf value caller' hmake
    rw [Sequence.getOrInsertWith_made (find?_toList_of_none hready hf) hmake]
    rfl

/-- In a full cache a value is made, and what makes it writes to the caller's state. -/
theorem Op.run_onDemand_instance :
    let ops : List (Op Key Nat Unit Nat String) := [.put (.int 1) 10]
    let make : Callback Nat String Nat := fun _ caller => .ok 20 (caller + 1)
    let w : World Key Nat Nat := (Op.run (World.new ⟨1, by decide⟩ 0) ops).2
    let op : Op Key Nat Unit Nat String := .tryGetOrInsertWith (.int 2) make
    op.factory? = some (.int 2, make) ∧
      op.perform w = (Reply.value <$> getThenPut (.int 2) (exclusively (Effect.call make))) w ∧
      getThenPut (.int 2) (Effect.call make) w = getThenPut (.int 2) (exclusively (Effect.call make)) w ∧
      (op.apply w).1 = .ok (.value 20) := by
  intro ops make w op
  have hready : w.cache.Ready := (Op.run_ready (ready_new _ _) ops).1
  have hover : Op.NoOverflow (World.new ⟨1, by decide⟩ 0) ops := Op.noOverflow_of_few _ _ (by decide)
  have hlist : w.cache.toList = [(.int 1, 10)] := ((Op.run_eq (ready_new _ _) hover).2 0 _ rfl).1
  have hnone : w.cache.find? (.int 2) = none := by
    have hfind := hready.coherent.agrees.find (.int 2)
    rw [hlist] at hfind
    exact Option.map_eq_none_iff.1 hfind
  obtain ⟨hcomposed, hfew⟩ := Op.run_onDemand ⟨1, by decide⟩ 0 ops op (.int 2) make rfl
  obtain ⟨hfits, -, hmade⟩ := hfew (by decide)
  exact ⟨rfl, hcomposed.made hnone hfits rfl, hcomposed.blind fun _ _ _ => rfl, hmade hnone _ _ rfl⟩

end Cache

end RecencyCache
