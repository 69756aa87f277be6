import RecencyCache.Proofs.Cache.Forms
import RecencyCache.Proofs.Cache.Runs

/-!
# Calls whose callbacks stop early

A call on a key changes nothing before its callbacks are through, except what an update writes into the value that it
is given.  So a call whose predicate or factory stops early leaves everything as it was (`Op.apply_of_deciding`), and
one whose update does leaves the value as the update has (`Op.apply_of_updating`), in its place.  A failure comes from
a callback that has run, and from nowhere else (`Op.apply_failed_iff`).
-/

namespace RecencyCache

open Sequence (Turn locked)

variable {κ ν ρ ω ε α β : Type}

private theorem Stop.toAbort_eq_failed_iff {stop : Stop ε} {e : ε} : stop.toAbort = .failed e ↔ stop = .failed e := by
  cases stop <;> simp [Stop.toAbort]

variable [BEq κ] [Hashable κ]

/-! ### Effects that stop early -/

namespace Effect

variable {w w' : World κ ν ω} {x : Effect κ ν ω ε α} {e : Abort ε}

theorem bind_ask (f : Cache κ ν → α) (g : α → Effect κ ν ω ε β) (w : World κ ν ω) :
    (ask f >>= g) w = g (f w.cache) w := rfl

theorem bind_of_error (h : x w = .error e w') (f : α → Effect κ ν ω ε β) : (x >>= f) w = .error e w' := by
  show EStateM.bind x f w = _
  unfold EStateM.bind
  rw [h]

theorem bind_of_ok {a : α} (h : x w = .ok a w') (f : α → Effect κ ν ω ε β) : (x >>= f) w = f a w' := by
  show EStateM.bind x f w = _
  unfold EStateM.bind
  rw [h]

theorem map_of_error (h : x w = .error e w') (f : α → β) : (f <$> x) w = .error e w' := by
  show EStateM.map f x w = _
  unfold EStateM.map
  rw [h]

/-- Where an effect that holds the cache stops early, nobody holds it any more. -/
theorem exclusively_of_error (hfree : w'.cache.held = false) (h : x w.hold = .error e w'.hold) :
    exclusively x w = .error e w' := by
  unfold World.hold at h
  unfold exclusively
  rw [h]
  obtain ⟨⟨config, order, index, metrics, held⟩, log, caller⟩ := w'
  cases hfree
  rfl

variable [EquivBEq κ] [LawfulHashable κ] {stop : Stop ε}

theorem call_of_error (hd : w.cache.held = true) {run : Callback ω ε α} {caller : ω}
    (h : run locked w.caller = .error stop caller) : call run w = .error stop.toAbort { w with caller } := by
  unfold call
  rw [Cache.outline_of_held hd, h]

theorem call_of_ok (hd : w.cache.held = true) {run : Callback ω ε α} {a : α} {caller : ω}
    (h : run locked w.caller = .ok a caller) : call run w = .ok a { w with caller } := by
  unfold call
  rw [Cache.outline_of_held hd, h]

private theorem edit_of_error (hd : w.cache.held = true) {s : Nat} {key : κ} {value value' : ν} {caller : ω}
    (hs : w.cache.order.get? s = some (key, value)) {update : Update ν ω ε}
    (h : update locked (value, w.caller) = .error stop (value', caller)) :
    edit s update w = .error stop.toAbort
      { w with cache := { w.cache with order := w.cache.order.set s (key, value') }, caller } := by
  unfold edit
  rw [Cache.outline_of_held hd, hs]
  dsimp only
  rw [h]
  dsimp only
  rw [Cache.setValue, hs]

end Effect

namespace Cache

open Effect

variable [EquivBEq κ] [LawfulHashable κ]

/-! ### Callbacks that stop -/

/-- Before a call has changed anything, a callback stops: the one that makes a value for a key that has none, or the
one that is offered the value of an entry. -/
inductive Op.StopsDeciding (op : Op κ ν ρ ω ε) (w : World κ ν ω) (stop : Stop ε) (caller : ω) : Prop
  | make {k make} : op.factory? = some (k, make) → w.cache.find? k = none →
    make locked w.caller = .error stop caller → StopsDeciding op w stop caller
  | evictIf {k update evictIf s key value} : op.lookup? = some (k, update, evictIf) →
    w.cache.find? k = some (s, key, value) → evictIf value locked w.caller = .error stop caller →
    StopsDeciding op w stop caller

/-- The update of the entry in slot `s`, which is kept, stops and leaves `value'` in place of `value`. -/
inductive Op.StopsUpdating (op : Op κ ν ρ ω ε) (w : World κ ν ω) (s : Nat) (key : κ) (value value' : ν)
    (stop : Stop ε) (caller : ω) : Prop
  | intro {k update evictIf caller'} : op.lookup? = some (k, update, evictIf) →
    w.cache.find? k = some (s, key, value) → evictIf value locked w.caller = .ok false caller' →
    update locked (value, caller') = .error stop (value', caller) →
    StopsUpdating op w s key value value' stop caller

variable {w : World κ ν ω} {op : Op κ ν ρ ω ε} {k key : κ} {s : Nat} {value value' : ν} {stop : Stop ε} {caller : ω}

theorem get?_of_find? {c : Cache κ ν} {e : κ × ν} (h : c.find? k = some (s, e)) : c.order.get? s = some e := by
  unfold find? at h
  obtain ⟨s', -, hs⟩ := Option.bind_eq_some_iff.1 h
  obtain ⟨e', he, heq⟩ := Option.map_eq_some_iff.1 hs
  cases heq
  exact he

/-- A lookup whose predicate stops has changed nothing. -/
private theorem lookup_of_evictIf_error (hd : w.cache.held = true) (hf : w.cache.find? k = some (s, key, value))
    {update : Update ν ω ε} {evictIf : ν → Callback ω ε Bool}
    (hstop : evictIf value locked w.caller = .error stop caller) :
    lookup k update evictIf w = .error stop.toAbort { w with caller } := by
  unfold lookup
  rw [bind_ask, hf]
  exact bind_of_error (call_of_error hd hstop) _

/-- A lookup whose update stops has changed the value only. -/
theorem lookup_of_update_error (hd : w.cache.held = true) (hf : w.cache.find? k = some (s, key, value))
    {update : Update ν ω ε} {evictIf : ν → Callback ω ε Bool} {caller' : ω}
    (hkeep : evictIf value locked w.caller = .ok false caller')
    (hstop : update locked (value, caller') = .error stop (value', caller)) :
    lookup k update evictIf w = .error stop.toAbort
      { w with cache := { w.cache with order := w.cache.order.set s (key, value') }, caller } := by
  unfold lookup
  rw [bind_ask, hf]
  dsimp only
  rw [bind_of_ok (call_of_ok hd hkeep)]
  exact bind_of_error (edit_of_error (w := { w with caller := caller' }) hd (get?_of_find? hf) hstop) _

private theorem Op.apply_of_error {e : Abort ε} {w' : World κ ν ω} (h : op.perform w = .error e w') :
    op.apply w = (.error e, w') := by
  unfold apply
  rw [h]

/-- A callback that decides and stops leaves the cache and the log as they were. -/
theorem Op.apply_of_deciding (hfree : w.cache.held = false) (h : op.StopsDeciding w stop caller) :
    op.apply w = (.error stop.toAbort, { w with caller }) := by
  refine Op.apply_of_error ?_
  cases h with
  | make hop hf hstop =>
    rw [Op.perform_of_factory? hop]
    refine map_of_error (exclusively_of_error ?_ ?_) _
    · exact hfree
    have hnone : w.hold.cache.find? _ = none := hf
    rw [bind_ask, hnone]
    exact bind_of_error (call_of_error (w := w.hold) rfl hstop) _
  | evictIf hop hf hstop =>
    obtain ⟨α, f, g, hperform⟩ := Op.perform_of_lookup? hop
    rw [hperform]
    refine map_of_error (exclusively_of_error ?_ ?_) _
    · exact hfree
    exact bind_of_error (lookup_of_evictIf_error (w := w.hold) rfl hf hstop) _

/-- An update that stops leaves everything as it was, except for the value that it was given. -/
theorem Op.apply_of_updating (hfree : w.cache.held = false) (h : op.StopsUpdating w s key value value' stop caller) :
    op.apply w = (.error stop.toAbort,
      { w with cache := { w.cache with order := w.cache.order.set s (key, value') }, caller }) := by
  refine Op.apply_of_error ?_
  obtain ⟨hop, hf, hkeep, hstop⟩ := h
  obtain ⟨α, f, g, hperform⟩ := Op.perform_of_lookup? hop
  rw [hperform]
  refine map_of_error (exclusively_of_error ?_ ?_) _
  · exact hfree
  · exact bind_of_error (lookup_of_update_error (w := w.hold) rfl hf hkeep hstop) _

/-! ### Where failures come from -/

/-- A call on one key. -/
def Op.Keyed : Op κ ν ρ ω ε → Prop
  | .removeIf _ | .tryRemoveIf _ | .clear => False
  | _ => True

/-- A callback that runs in a call fails. -/
def Op.Fails (op : Op κ ν ρ ω ε) (w : World κ ν ω) (e : ε) : Prop :=
  (∃ caller, op.StopsDeciding w (.failed e) caller) ∨
    ∃ s key value value' caller, op.StopsUpdating w s key value value' (.failed e) caller

theorem find?_of_toList {e : κ × ν} (h : w.cache.Ready) (hf : w.cache.toList.find? (·.1 == k) = some e) :
    ∃ s, w.cache.find? k = some (s, e) := by
  rw [← h.coherent.agrees.find k] at hf
  obtain ⟨⟨s, e'⟩, hs, rfl⟩ := Option.map_eq_some_iff.1 hf
  exact ⟨s, hs⟩

private theorem Op.fails_of_lookup (h : w.cache.Ready) {update : Update ν ω ε} {evictIf : ν → Callback ω ε Bool} {e : ε}
    (hop : op.lookup? = some (k, update, evictIf))
    (ho : (Sequence.lookup k update evictIf w.cache.toList w.caller).outcome = .error (.failed e)) : op.Fails w e := by
  obtain ⟨key, value, hf, hstops⟩ := Sequence.lookup_error _ _ _ ho
  obtain ⟨s, hs⟩ := find?_of_toList h hf
  rcases hstops with ⟨stop, caller, hstop, he⟩ | ⟨caller, stop, value', caller', hkeep, hstop, he⟩
  · obtain rfl := Stop.toAbort_eq_failed_iff.1 he.symm
    exact .inl ⟨caller, .evictIf hop hs hstop⟩
  · obtain rfl := Stop.toAbort_eq_failed_iff.1 he.symm
    exact .inr ⟨s, key, value, value', caller', .intro hop hs hkeep hstop⟩

/-- A call on a key ends with a failure exactly when a callback that runs in it fails so. -/
theorem Op.apply_failed_iff (h : w.cache.Ready) (hkeyed : op.Keyed) {e : ε} :
    (op.apply w).1 = .error (.failed e) ↔ op.Fails w e := by
  constructor
  · intro ho
    have hover : (op.apply w).1 ≠ .error (.faulted .addOverflow) := by simp [ho]
    rw [(Op.apply_carries h hover).outcome] at ho
    have hwide : ∀ a : Abort Empty, (a.widen : Abort ε) ≠ .failed e := fun a => by
      cases a with
      | failed error => exact error.elim
      | faulted fault => simp [Abort.widen]
    cases op with
    | tryGetOrEvict k update evictIf | tryExistsOrEvict k update evictIf =>
      exact Op.fails_of_lookup h rfl (Turn.outcome_of_map ho)
    | tryGetOrInsertWith k make =>
      obtain ⟨hf, stop, caller, hstop, he⟩ := Sequence.getOrInsertWith_error _ _ _ _ (Turn.outcome_of_map ho)
      obtain rfl := Stop.toAbort_eq_failed_iff.1 he.symm
      refine .inl ⟨caller, .make rfl ?_ hstop⟩
      rw [← h.coherent.agrees.find k] at hf
      exact Option.map_eq_none_iff.1 hf
    | removeIf matches? | tryRemoveIf matches? | clear => exact hkeyed.elim
    | _ =>
      -- the other calls have no callback that could fail
      refine absurd rfl (Sequence.step_stopsIn (P := (· ≠ .failed e)) _ _ _ ?_ _ ho)
      simp [Op.StopsIn, Callback.StopsIn, hwide]
  · rintro (⟨caller, hstop⟩ | ⟨s, key, value, value', caller, hstop⟩)
    · rw [Op.apply_of_deciding h.free hstop]
      rfl
    · rw [Op.apply_of_updating h.free hstop]
      rfl

/-! ### A run -/

/-- A callback of a call on a key that stops early changes nothing but what the caller itself has written.  After every
run from a new cache, however its calls ended, if the predicate of a lookup stops early, or what is to make a value for
a key that has none, the call stops for the same reason and the cache and the log are left as they were.  If the update
of a lookup does, so they are but for the value of the entry looked up, which is what the update has left: the entry
keeps its slot, its stored key and its place.  And a call on a key ends with a failure exactly when one of its callbacks
that has run fails so. -/
theorem Op.run_atomic (config : Config) (caller : ω) (ops : List (Op κ ν ρ ω ε)) (op : Op κ ν ρ ω ε) :
    let w := (Op.run (World.new config caller) ops).2
    (∀ stop caller', op.StopsDeciding w stop caller' →
        op.apply w = (.error stop.toAbort, { w with caller := caller' })) ∧
      (∀ s key value value' stop caller', op.StopsUpdating w s key value value' stop caller' →
        op.apply w = (.error stop.toAbort,
            { w with cache := { w.cache with order := w.cache.order.set s (key, value') }, caller := caller' }) ∧
          (op.apply w).2.cache.order.order = w.cache.order.order ∧
          ∃ L R, w.cache.toList = L ++ (key, value) :: R ∧
            (op.apply w).2.cache.toList = L ++ (key, value') :: R) ∧
      (op.Keyed → ∀ e, (op.apply w).1 = .error (.failed e) ↔ op.Fails w e) := by
  intro w
  have hready : w.cache.Ready := (Op.run_ready (ready_new config caller) ops).1
  refine ⟨fun stop caller' hstop => Op.apply_of_deciding hready.free hstop,
    fun s key value value' stop caller' hstop => ?_, fun hkeyed e => Op.apply_failed_iff hready hkeyed⟩
  have hcall := Op.apply_of_updating hready.free hstop
  refine ⟨hcall, ?_⟩
  rw [hcall]
  obtain ⟨es, hes⟩ := hready.coherent.exists_holds
  obtain ⟨-, hf, -, -⟩ := hstop
  rw [hes.find?_eq] at hf
  obtain ⟨-, L, R, rfl⟩ := exists_split_of_find? hf
  have hset := hes.layout.set (key, value')
  refine ⟨?_, L.map (·.2), R.map (·.2), ?_, ?_⟩
  · show (w.cache.order.set s (key, value')).order = _
    rw [hset.order_eq, hes.layout.order_eq]
    simp
  · rw [hes.toList_eq]
    simp
  · show (w.cache.order.set s (key, value')).toList = _
    rw [hset.toList_eq]
    simp

/-- In a full cache a value cannot be made, and an update writes and then fails. -/
theorem Op.run_atomic_instance :
    let start : World Key Nat Unit := World.new ⟨1, by decide⟩ ()
    let w := (Op.run start [(.put (.int 1) 10 : Op Key Nat Unit Unit String)]).2
    let make : Op Key Nat Unit Unit String := .tryGetOrInsertWith (.int 2) fun _ _ => .error (.failed "no") ()
    let update : Op Key Nat Unit Unit String :=
      .tryGetOrEvict (.int 1) (fun _ _ => .error (.failed "no") (99, ())) fun _ => pure false
    make.apply w = (.error (.failed "no"), w) ∧ make.Fails w "no" ∧
      (update.apply w).1 = .error (.failed "no") ∧ (update.apply w).2.cache.toList = [(.int 1, 99)] := by
  intro start w make update
  have hnew := ready_new (κ := Key) (ν := Nat) ⟨1, by decide⟩ ()
  have hover : Op.NoOverflow start [(.put (.int 1) 10 : Op Key Nat Unit Unit String)] :=
    (Op.noOverflow_iff hnew _).2 fun c => by cases c <;> decide
  have hlist : w.cache.toList = [(.int 1, 10)] := ((Op.run_eq hnew hover).2 0 _ rfl).1
  have hready : w.cache.Ready := (Op.run_ready hnew _).1
  obtain ⟨hdeciding, -, hfails⟩ := Op.run_atomic ⟨1, by decide⟩ () [.put (.int 1) 10] make
  obtain ⟨-, hupdating, -⟩ := Op.run_atomic ⟨1, by decide⟩ () [.put (.int 1) 10] update
  have hnone : w.cache.find? (.int 2) = none := by
    have hfind := hready.coherent.agrees.find (.int 2)
    rw [hlist] at hfind
    exact Option.map_eq_none_iff.1 hfind
  have hmake : make.StopsDeciding w (.failed "no") () := .make rfl hnone rfl
  obtain ⟨s, hs⟩ : ∃ s, w.cache.find? (.int 1) = some (s, .int 1, 10) := find?_of_toList hready (by rw [hlist]; rfl)
  have hupdate : update.StopsUpdating w s (.int 1) 10 99 (.failed "no") () := .intro rfl hs rfl rfl
  obtain ⟨hcall, -, L, R, hbefore, hafter⟩ := hupdating _ _ _ _ _ _ hupdate
  have hcalled : make.apply w = (.error (.failed "no"), w) := hdeciding _ _ hmake
  have hsides : L = [] ∧ R = [] := by
    rw [hlist] at hbefore
    cases L <;> simp_all
  obtain ⟨rfl, rfl⟩ := hsides
  exact ⟨hcalled, (hfails trivial _).1 (congrArg Prod.fst hcalled), congrArg Prod.fst hcall, hafter⟩

end Cache

end RecencyCache
