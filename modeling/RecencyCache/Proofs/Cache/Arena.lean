import RecencyCache.Proofs.Cache.Changes
import RecencyCache.Proofs.SlotList.Arena

/-!
# The slots of a cache

A cache has no more slots than it may have entries, at any moment.  Most steps leave the number of slots as it is
(`Effect.Steady`), whatever the cache is like; only an entry linked in can raise it, and before one is linked in the
entry touched longest ago has been dropped from a full cache, so its slot is vacant (`Cache.insertNew_size_le`).
-/

namespace RecencyCache

variable {κ ν ρ ω ε α β : Type} [BEq κ] [Hashable κ]

/-! ### Changes that leave the number of slots as it is -/

namespace Cache

private theorem size_setValue (c : Cache κ ν) (s : Nat) (value : ν) :
    (c.setValue s value).order.slots.size = c.order.slots.size := by
  unfold setValue
  split
  · exact SlotList.size_set ..
  · rfl

private theorem size_touch (c : Cache κ ν) (s : Nat) : (c.touch s).order.slots.size = c.order.slots.size :=
  SlotList.size_moveToFront ..

section

variable [EquivBEq κ] [LawfulHashable κ]

private theorem size_unlink (c : Cache κ ν) (s : Nat) : (c.unlink s).2.order.slots.size = c.order.slots.size := by
  have hsize := SlotList.size_remove c.order s
  unfold unlink
  split
  · rename_i hremove
    rw [hremove] at hsize
    exact hsize
  · rfl

private theorem size_takeOut (c : Cache κ ν) (k : κ) : (c.takeOut k).2.order.slots.size = c.order.slots.size := by
  unfold takeOut
  split
  · exact SlotList.size_remove ..
  · rfl

end

end Cache

/-! ### Effects that leave the number of slots as it is -/

/-- However it ends, an effect leaves as many slots as it found. -/
structure Effect.Steady (x : Effect κ ν ω ε α) : Prop where
  size : ∀ w, (x.leaves w).cache.order.slots.size = w.cache.order.slots.size

namespace Cache

open Effect

variable [EquivBEq κ] [LawfulHashable κ]

private theorem admits_size : Admits fun c c' : Cache κ ν => c'.order.slots.size = c.order.slots.size where
  refl _ := rfl
  trans h h' := h'.trans h
  hold _ _ := rfl
  record _ _ := rfl
  setValue := size_setValue
  touch := size_touch
  unlink := size_unlink
  takeOut := size_takeOut

private theorem Op.perform_steady {op : Op κ ν ρ ω ε} (hstores : op.stores = none) (hclear : op ≠ .clear) :
    Steady op.perform :=
  ⟨(Op.perform_within admits_size (fun h => absurd hstores h) fun h => absurd h hclear).leads⟩

/-! ### Storing -/

/-- The part of an insertion that comes before the entry is linked in: it drops the entry touched longest ago from a
full cache. -/
def makeRoom : Effect κ ν ω ε (Option (κ × ν)) := do
  if ← ask (·.isFull) then evictOldest else pure none

theorem insertNew_eq (k : κ) (value : ν) :
    (insertNew k value : Effect κ ν ω ε _) = do
      let evicted ← makeRoom
      change (·.link k value)
      count .insertion
      return evicted := by
  unfold insertNew makeRoom
  rw [bind_assoc]
  congr 1
  funext full
  cases full <;> rfl

private theorem makeRoom_steady : Steady (makeRoom : Effect κ ν ω ε _) := by
  refine ⟨(admits_size.bind (admits_size.ask _) fun full => ?_).leads⟩
  split
  · exact admits_size.evictOldest
  · exact admits_size.pure _

variable {w : World κ ν ω} {es : List (Nat × κ × ν)} {s : Nat} {k key : κ} {value : ν}

/-- However it ends, the eviction of the entry touched longest ago has dropped it. -/
private theorem evictOldest_holds (h : w.cache.Holds (es ++ [(s, key, value)])) :
    ((evictOldest : Effect κ ν ω ε _).leaves w).cache.Holds es := by
  obtain ⟨hfound, hrest⟩ := h.unlink
  rw [List.append_nil] at hrest
  have hback : w.cache.order.back = some s := by
    rw [h.layout.back]
    simp
  have hdropped : (changeGet (·.unlink s) : Effect κ ν ω ε _) w =
      .ok (some (key, value)) { w with cache := (w.cache.unlink s).2 } := by
    rw [← hfound]
    rfl
  unfold evictOldest
  rw [leaves_bind_ask, hback]
  dsimp only
  rw [leaves_bind_of_ok hdropped]
  dsimp only
  rcases count_cases (ε := ε) .eviction { w with cache := (w.cache.unlink s).2 } with ⟨m, hm, -⟩ | ⟨m, hm, -⟩
  · rw [leaves_bind_of_ok hm]
    exact hrest.congr rfl rfl rfl
  · rw [leaves_bind_of_error hm]
    exact hrest.congr rfl rfl rfl

/-- After room has been made, there is room. -/
private theorem makeRoom_holds (h : w.cache.Holds es) :
    ∃ es', ((makeRoom : Effect κ ν ω ε _).leaves w).cache.Holds es' ∧ es'.length < w.cache.capacity := by
  have hfull := h.isFull_eq
  by_cases hle : w.cache.capacity ≤ es.length
  · rw [decide_eq_true hle] at hfull
    have hroom : (makeRoom : Effect κ ν ω ε _).leaves w = (evictOldest : Effect κ ν ω ε _).leaves w := by
      unfold makeRoom
      rw [leaves_bind_ask, hfull]
      rfl
    rcases List.eq_nil_or_concat es with rfl | ⟨es, ⟨s, key, value⟩, rfl⟩
    · exact absurd hle (Nat.not_le_of_lt w.cache.config.limit_pos)
    rw [List.concat_eq_append] at h
    have hlength := h.le
    rw [List.length_append] at hlength
    rw [hroom]
    exact ⟨es, evictOldest_holds h, hlength⟩
  · rw [decide_eq_false hle] at hfull
    have hroom : (makeRoom : Effect κ ν ω ε _).leaves w = w := by
      unfold makeRoom
      rw [leaves_bind_ask, hfull]
      rfl
    rw [hroom]
    exact ⟨es, h, Nat.lt_of_not_le hle⟩

private theorem size_link_le (h : w.cache.Holds es) {slots : Nat} (hlt : es.length < slots)
    (hsize : w.cache.order.slots.size ≤ slots) (k : κ) (value : ν) :
    (w.cache.link k value).order.slots.size ≤ slots := by
  have hpush := SlotList.WellFormed.size_pushFront ⟨es, h.layout⟩ (k, value)
  have hlength : w.cache.order.length = es.length := h.length_eq
  show (w.cache.order.pushFront (k, value)).2.slots.size ≤ slots
  omega

/-- At no moment of an insertion are there more slots than the cache may have entries. -/
private theorem makeRoom_size_le (h : w.cache.Holds es) (hsize : w.cache.order.slots.size ≤ w.cache.capacity) :
    ((makeRoom : Effect κ ν ω ε _).leaves w).cache.order.slots.size ≤ w.cache.capacity ∧
      ∀ k value, (((makeRoom : Effect κ ν ω ε _).leaves w).cache.link k value).order.slots.size ≤ w.cache.capacity := by
  obtain ⟨es', hes', hlt⟩ := makeRoom_holds (ε := ε) h
  have hroom : ((makeRoom : Effect κ ν ω ε _).leaves w).cache.order.slots.size ≤ w.cache.capacity := by
    rw [makeRoom_steady.size]
    exact hsize
  exact ⟨hroom, size_link_le hes' hlt hroom⟩

theorem insertNew_size_le (h : w.cache.Holds es) (hsize : w.cache.order.slots.size ≤ w.cache.capacity) (k : κ)
    (value : ν) : ((insertNew k value : Effect κ ν ω ε _).leaves w).cache.order.slots.size ≤ w.cache.capacity := by
  obtain ⟨hroom, hlink⟩ := makeRoom_size_le (ε := ε) h hsize
  have hrest (evicted : Option (κ × ν)) :
      Steady (do count .insertion; return evicted : Effect κ ν ω ε _) :=
    ⟨(admits_size.bind (admits_size.count _) fun _ => admits_size.pure _).leads⟩
  rw [insertNew_eq]
  cases hmade : (makeRoom : Effect κ ν ω ε _) w with
  | ok evicted w' =>
    rw [leaves_of_ok hmade] at hlink
    rw [leaves_bind_of_ok hmade]
    exact ((hrest evicted).size { w' with cache := w'.cache.link k value }).trans_le (hlink k value)
  | error e w' =>
    rw [leaves_of_error hmade] at hroom
    rw [leaves_bind_of_error hmade]
    exact hroom

private theorem put_size_le (h : w.cache.Holds es) (hsize : w.cache.order.slots.size ≤ w.cache.capacity) (k : κ)
    (value : ν) :
    ((put k value : Effect κ ν ω ε _).leaves w).cache.order.slots.size ≤ w.cache.capacity := by
  have hv : w.hold.cache.Holds es := h.congr rfl rfl rfl
  unfold put
  rw [order_exclusively, leaves_bind_ask]
  cases w.hold.cache.find? k with
  | none => exact insertNew_size_le hv hsize k value
  | some found =>
    have hsteady : Steady (do change (·.setValue found.1 value); change (·.touch found.1); count .update; return none :
        Effect κ ν ω ε (Option (κ × ν))) :=
      ⟨(admits_size.bind (.change fun c => size_setValue c _ _) fun _ =>
        admits_size.bind (.change fun c => size_touch c _) fun _ =>
          admits_size.bind (admits_size.count _) fun _ => admits_size.pure _).leads⟩
    exact (hsteady.size w.hold).trans_le hsize

private theorem tryGetOrInsertWith_size_le (h : w.cache.Holds es) (hsize : w.cache.order.slots.size ≤ w.cache.capacity)
    (k : κ) (make : Callback ω ε ν) :
    ((tryGetOrInsertWith k make).leaves w).cache.order.slots.size ≤ w.cache.capacity := by
  have hv : w.hold.cache.Holds es := h.congr rfl rfl rfl
  unfold tryGetOrInsertWith
  rw [order_exclusively, leaves_bind_ask]
  cases w.hold.cache.find? k with
  | none =>
    dsimp only
    rcases call_cases make w.hold with ⟨value, caller, hcall⟩ | ⟨e, caller, hcall⟩
    · rw [leaves_bind_of_ok hcall]
      rcases count_cases (ε := ε) .miss { w.hold with caller } with ⟨m, hm, -⟩ | ⟨m, hm, -⟩
      · rw [leaves_bind_of_ok hm, bind_pure_comp, leaves_map]
        exact insertNew_size_le (w := { w.hold with cache := { w.hold.cache with metrics := m }, caller })
          (hv.congr rfl rfl rfl) hsize k value
      · rw [leaves_bind_of_error hm]
        exact hsize
    · rw [leaves_bind_of_error hcall]
      exact hsize
  | some found =>
    have hsteady : Steady (do change (·.touch found.1); count .hit; return found.2.2 : Effect κ ν ω ε ν) :=
      ⟨(admits_size.bind (.change fun c => size_touch c _) fun _ =>
        admits_size.bind (admits_size.count _) fun _ => admits_size.pure _).leads⟩
    exact (hsteady.size w.hold).trans_le hsize

/-! ### All operations -/

/-- A call does not bring about more slots than the cache may have entries. -/
private theorem Op.apply_size_le (h : w.cache.Ready) (hsize : w.cache.order.slots.size ≤ w.cache.capacity)
    (op : Op κ ν ρ ω ε) : (op.apply w).2.cache.order.slots.size ≤ w.cache.capacity := by
  obtain ⟨es, hes⟩ := h.coherent.exists_holds
  have hfactory {k : κ} {make : Callback ω ε ν} (hop : op.factory? = some (k, make)) :
      (op.apply w).2.cache.order.slots.size ≤ w.cache.capacity := by
    rw [apply_snd, Op.perform_of_factory? hop, leaves_map]
    exact tryGetOrInsertWith_size_le hes hsize k make
  have hsteady (hstores : op.stores = none) (hclear : op ≠ .clear) :
      (op.apply w).2.cache.order.slots.size ≤ w.cache.capacity := by
    rw [apply_snd, (Op.perform_steady hstores hclear).size]
    exact hsize
  cases op with
  | put k value =>
    have hperform : (Op.put k value : Op κ ν ρ ω ε).perform = Reply.evicted <$> Cache.put k value := rfl
    rw [apply_snd, hperform, leaves_map]
    exact put_size_le hes hsize k value
  | getOrInsertWith k make | tryGetOrInsertWith k make => exact hfactory rfl
  | clear => exact Nat.zero_le _
  | _ => exact hsteady rfl nofun

private theorem Op.run_size_le (h : w.cache.Ready) (hsize : w.cache.order.slots.size ≤ w.cache.capacity)
    (ops : List (Op κ ν ρ ω ε)) : (Op.run w ops).2.cache.order.slots.size ≤ w.cache.capacity := by
  induction ops generalizing w with
  | nil => exact hsize
  | cons op ops ih =>
    have hcapacity : (op.apply w).2.cache.capacity = w.cache.capacity := congrArg (·.limit) (Op.apply_config h op)
    have hnext := Op.apply_size_le h hsize op
    rw [← hcapacity] at hnext ⊢
    exact ih (Op.apply_ready h op) hnext

/-- Slots are given back and given out again, and never more of them are made than needed.  After every session on a
list, whatever slots its operations name, the slots in use and the vacant ones are all slots, each once; the slot
given back last and not given out again is given out next, or a new one if there is none; there are as many slots
as the list had nodes at most since it was cleared last, and after that they are numbered from the first again.
After every run of calls on a new cache, also one of which the counters, whatever they start from, stop some calls
half way, there are no more slots than the cache may have entries; so it is at every moment of an insertion, before
the entry is linked in and afterwards. -/
theorem Op.run_thrifty {α : Type} (session : List (SlotList.Op α)) (config : Config) (metrics : Metrics) (caller : ω)
    (ops : List (Op κ ν ρ ω ε)) :
    let left := SlotList.Op.performAll SlotList.empty session
    let empty : Cache κ ν := { Cache.empty config with metrics }
    let start : World κ ν ω := { cache := empty, log := #[.created config], caller }
    let w := (Op.run start ops).2
    let roomy := (makeRoom : Effect κ ν ω ε _).leaves w.hold
    SlotList.Op.Thrifty session left.1 left.2 ∧ w.cache.order.slots.size ≤ config.limit ∧
      roomy.cache.order.slots.size ≤ config.limit ∧
      ∀ k value, (roomy.cache.link k value).order.slots.size ≤ config.limit := by
  intro left empty start w roomy
  have hempty : empty.Holds [] := (Holds.empty config).congr rfl rfl rfl
  have hstart : start.cache.Ready := ⟨hempty.coherent, rfl⟩
  obtain ⟨hready, hconfig⟩ := Op.run_ready hstart ops
  have hcapacity : w.hold.cache.capacity = config.limit := congrArg (·.limit) hconfig
  have hsize : w.cache.order.slots.size ≤ config.limit := Op.run_size_le hstart (Nat.zero_le _) ops
  obtain ⟨es, hes⟩ := hready.coherent.exists_holds
  have hhold : w.hold.cache.Holds es := hes.congr rfl rfl rfl
  obtain ⟨hroom, hlink⟩ := makeRoom_size_le (ε := ε) hhold (hsize.trans_eq hcapacity.symm)
  rw [hcapacity] at hroom hlink
  exact ⟨SlotList.Op.performAll_thrifty session, hsize, hroom, hlink⟩

/-- A slot that is given back is given out again; four keys go through a cache of two, and a third entry is on its
way. -/
theorem Op.run_thrifty_instance :
    let session : List (SlotList.Op Nat) := [.pushFront 10, .pushFront 20, .remove 0, .pushFront 30, .pushFront 40]
    let ops : List (Op Key Nat Unit Unit Empty) :=
      [.put (.int 1) 10, .put (.int 2) 20, .put (.int 3) 30, .remove (.int 2), .put (.int 4) 40]
    let config : Config := ⟨2, by decide⟩
    let left := SlotList.Op.performAll SlotList.empty session
    let start : World Key Nat Unit := World.new config ()
    let w := (Op.run start ops).2
    let roomy := (makeRoom : Effect Key Nat Unit Empty _).leaves w.hold
    left.1 = [.slot 0, .slot 1, .value? (some 10), .slot 0, .slot 2] ∧ SlotList.Op.Thrifty session left.1 left.2 ∧
      w.cache.order.slots.size ≤ 2 ∧ (roomy.cache.link (.int 5) 50).order.slots.size ≤ 2 := by
  intro session ops config left start w roomy
  obtain ⟨hthrifty, hsize, -, hlink⟩ := Op.run_thrifty session config Metrics.zero () ops
  exact ⟨by decide, hthrifty, hsize, hlink (.int 5) 50⟩

end Cache

end RecencyCache
