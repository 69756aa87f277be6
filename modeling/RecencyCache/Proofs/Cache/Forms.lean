import RecencyCache.Cache.Op
import RecencyCache.Proofs.Sequence

/-!
# Callbacks that cannot fail

An operation whose callbacks cannot fail is the one whose callbacks can, with callbacks that do not: `widen` goes
through an effect from its start to its end (`widen_bind`, `widen_lookup`).  So there are three ways only in which a
call runs callbacks and then goes by what they say: it looks a key up (`Op.perform_of_lookup?`), makes a value for a
key that has none (`Op.perform_of_factory?`), or offers all values to a predicate (`Op.perform_of_predicate?`).
-/

namespace RecencyCache

variable {κ ν ρ ω ε α β : Type}

/-! ### Widening -/

namespace Stop

/-- Where callbacks cannot fail, only what they raise remains. -/
def widen : Stop Empty → Stop ε
  | .raised message => .raised message

theorem toAbort_widen (stop : Stop Empty) : (stop.widen : Stop ε).toAbort = stop.toAbort.widen := by
  cases stop with
  | failed error => exact error.elim
  | raised message => rfl

end Stop

/-- A callback that cannot fail, among callbacks that can. -/
def Callback.widen (run : Callback ω Empty α) : Callback ω ε α := fun seen caller =>
  match run seen caller with
  | .ok a caller => .ok a caller
  | .error stop caller => .error stop.widen caller

namespace Effect

variable [BEq κ] [Hashable κ]

@[simp] theorem widen_pure (a : α) : (widen (pure a) : Effect κ ν ω ε α) = pure a := rfl

@[simp] theorem widen_bind (x : Effect κ ν ω Empty α) (f : α → Effect κ ν ω Empty β) :
    (widen (x >>= f) : Effect κ ν ω ε β) = widen x >>= fun a => widen (f a) := by
  funext w
  show widen (EStateM.bind x f) w = EStateM.bind (widen x) (fun a => widen (f a)) w
  dsimp only [widen, EStateM.bind]
  cases x w <;> rfl

@[simp] theorem widen_map (f : α → β) (x : Effect κ ν ω Empty α) :
    (widen (f <$> x) : Effect κ ν ω ε β) = f <$> widen x := by
  funext w
  show widen (EStateM.map f x) w = EStateM.map f (widen x) w
  dsimp only [widen, EStateM.map]
  cases x w <;> rfl

@[simp] theorem widen_ask (f : Cache κ ν → α) : (widen (ask f) : Effect κ ν ω ε α) = ask f := rfl

@[simp] theorem widen_change (f : Cache κ ν → Cache κ ν) : (widen (change f) : Effect κ ν ω ε Unit) = change f := rfl

@[simp] theorem widen_changeGet (f : Cache κ ν → α × Cache κ ν) :
    (widen (changeGet f) : Effect κ ν ω ε α) = changeGet f := rfl

@[simp] theorem widen_say (event : Cache κ ν → Event) : (widen (say event) : Effect κ ν ω ε Unit) = say event := rfl

@[simp] theorem widen_count (what : Metrics.Happening) :
    (widen (count what) : Effect κ ν ω ε Unit) = count what := by
  funext w
  unfold widen count
  cases Metrics.record what w.cache.metrics <;> rfl

@[simp] theorem widen_exclusively (x : Effect κ ν ω Empty α) :
    (widen (exclusively x) : Effect κ ν ω ε α) = exclusively (widen x) := by
  funext w
  dsimp only [widen, exclusively]
  cases x { w with cache := { w.cache with held := true } } <;> rfl

variable [EquivBEq κ] [LawfulHashable κ]

@[simp] theorem widen_call (run : Callback ω Empty α) :
    (widen (call run) : Effect κ ν ω ε α) = call run.widen := by
  funext w
  unfold widen call Callback.widen
  cases run w.cache.outline w.caller with
  | ok a caller => rfl
  | error stop caller => exact congrArg (EStateM.Result.error · _) stop.toAbort_widen.symm

@[simp] theorem widen_edit (s : Nat) (update : Update ν ω Empty) :
    (widen (edit s update) : Effect κ ν ω ε Unit) = edit s (Callback.widen update) := by
  funext w
  unfold widen edit Callback.widen
  cases w.cache.order.get? s with
  | none => rfl
  | some e =>
    dsimp only
    cases update w.cache.outline (e.2, w.caller) with
    | ok _ world => rfl
    | error stop world => exact congrArg (EStateM.Result.error · _) stop.toAbort_widen.symm

end Effect

/-! ### Operations -/

namespace Cache

open Effect

variable [BEq κ] [Hashable κ] [EquivBEq κ] [LawfulHashable κ]

@[simp] theorem widen_evictOldest : (widen evictOldest : Effect κ ν ω ε _) = evictOldest := by
  unfold evictOldest
  rw [widen_bind, widen_ask]
  refine bind_congr fun back => ?_
  cases back with
  | none => rfl
  | some s =>
    dsimp only
    rw [widen_bind, widen_changeGet]
    refine bind_congr fun entry => ?_
    cases entry with
    | none => rfl
    | some entry => simp

@[simp] theorem widen_insertNew (k : κ) (value : ν) :
    (widen (insertNew k value) : Effect κ ν ω ε _) = insertNew k value := by
  unfold insertNew
  rw [widen_bind, widen_ask]
  refine bind_congr fun full => ?_
  cases full <;> simp

@[simp] theorem widen_lookup (k : κ) (update : Update ν ω Empty) (evictIf : ν → Callback ω Empty Bool) :
    (widen (lookup k update evictIf) : Effect κ ν ω ε _) =
      lookup k (Callback.widen update) fun value => (evictIf value).widen := by
  unfold lookup
  rw [widen_bind, widen_ask]
  refine bind_congr fun found => ?_
  cases found with
  | none => simp
  | some e =>
    dsimp only
    rw [widen_bind, widen_call]
    refine bind_congr fun matched => ?_
    cases matched <;> simp

/-- What looks a key up by callbacks that cannot fail looks it up by callbacks that do not. -/
theorem getOrEvict_eq (k : κ) (update : Update ν ω Empty) (evictIf : ν → Callback ω Empty Bool) :
    (getOrEvict k update evictIf : Effect κ ν ω ε _) =
      tryGetOrEvict k (Callback.widen update) fun value => (evictIf value).widen := by
  unfold getOrEvict tryGetOrEvict
  rw [widen_exclusively, widen_bind, widen_lookup]
  congr 2
  funext slot
  cases slot <;> simp

theorem existsOrEvict_eq (k : κ) (update : Update ν ω Empty) (evictIf : ν → Callback ω Empty Bool) :
    (existsOrEvict k update evictIf : Effect κ ν ω ε _) =
      tryExistsOrEvict k (Callback.widen update) fun value => (evictIf value).widen := by
  unfold existsOrEvict tryExistsOrEvict
  simp

private theorem getOrInsertWith_eq (k : κ) (make : Callback ω Empty ν) :
    (getOrInsertWith k make : Effect κ ν ω ε _) = tryGetOrInsertWith k make.widen := by
  unfold getOrInsertWith tryGetOrInsertWith
  rw [widen_exclusively, widen_bind, widen_ask]
  congr 2
  funext found
  cases found <;> simp

theorem getWith_eq (k : κ) (view : ν → Callback ω Empty α) :
    (getWith k view : Effect κ ν ω ε _) = exclusively do
      match ← lookup k .keep Sequence.keepAll with
      | none => return none
      | some s =>
        match ← ask (·.order.get? s) with
        | none => return none
        | some (_, value) => return some (← call (view value).widen) := by
  unfold getWith
  rw [widen_exclusively, widen_bind, widen_lookup]
  congr 2
  funext slot
  cases slot with
  | none => simp
  | some s =>
    dsimp only
    rw [widen_bind, widen_ask]
    refine bind_congr fun entry => ?_
    cases entry <;> simp

@[simp] theorem widen_sweepFrom (matches? : ν → Callback ω Empty Bool) (fuel : Nat) (from? : Option Nat)
    (removed : Nat) : (widen (sweepFrom matches? fuel from? removed) : Effect κ ν ω ε _) =
      sweepFrom (fun value => (matches? value).widen) fuel from? removed := by
  induction fuel generalizing from? removed with
  | zero => cases from? <;> rfl
  | succ fuel ih =>
    cases from? with
    | none => rfl
    | some s =>
      unfold sweepFrom
      rw [widen_bind, widen_ask]
      refine bind_congr fun next => ?_
      rw [widen_bind, widen_ask]
      refine bind_congr fun entry => ?_
      cases entry with
      | none => simp [ih]
      | some e =>
        dsimp only
        rw [widen_bind, widen_call]
        refine bind_congr fun matched => ?_
        cases matched with
        | false => simp [ih]
        | true =>
          rw [if_pos rfl, if_pos rfl, widen_bind, widen_changeGet]
          refine bind_congr fun unlinked => ?_
          cases unlinked <;> simp [ih]

private theorem removeIf_eq (matches? : ν → Callback ω Empty Bool) :
    (removeIf matches? : Effect κ ν ω ε _) = tryRemoveIf fun value => (matches? value).widen := by
  unfold removeIf tryRemoveIf
  rw [widen_exclusively, widen_bind, widen_ask]
  congr 2
  funext front
  rw [widen_bind, widen_ask]
  refine bind_congr fun size => ?_
  rw [widen_bind, widen_sweepFrom]
  refine bind_congr fun removed => ?_
  by_cases hpos : 0 < removed <;> simp [hpos]

/-- The key, the update and the predicate of a lookup. -/
def Op.lookup? : Op κ ν ρ ω ε → Option (κ × Update ν ω ε × (ν → Callback ω ε Bool))
  | .get k | .getWith k _ => some (k, .keep, Sequence.keepAll)
  | .getAndUpdate k update => some (k, Callback.widen update, Sequence.keepAll)
  | .getOrEvict k update evictIf | .existsOrEvict k update evictIf =>
    some (k, Callback.widen update, fun value => (evictIf value).widen)
  | .tryGetOrEvict k update evictIf | .tryExistsOrEvict k update evictIf => some (k, update, evictIf)
  | _ => none

/-- The key of a call that makes a value on demand, and what makes it. -/
def Op.factory? : Op κ ν ρ ω ε → Option (κ × Callback ω ε ν)
  | .getOrInsertWith k make => some (k, make.widen)
  | .tryGetOrInsertWith k make => some (k, make)
  | _ => none

/-- The predicate to which a call offers all values. -/
def Op.predicate? : Op κ ν ρ ω ε → Option (ν → Callback ω ε Bool)
  | .removeIf matches? => some fun value => (matches? value).widen
  | .tryRemoveIf matches? => some matches?
  | _ => none

variable {op : Op κ ν ρ ω ε} {k : κ}

/-- A call that looks a key up starts with the lookup. -/
theorem Op.perform_of_lookup? {update : Update ν ω ε} {evictIf : ν → Callback ω ε Bool}
    (h : op.lookup? = some (k, update, evictIf)) :
    ∃ (α : Type) (f : α → Reply κ ν ρ) (g : Option Nat → Effect κ ν ω ε α),
      op.perform = f <$> exclusively (lookup k update evictIf >>= g) := by
  cases op with
  | get k =>
    cases h
    exact ⟨_, _, _, congrArg (Reply.found <$> ·) (getOrEvict_eq k _ _)⟩
  | getWith k view =>
    cases h
    exact ⟨_, _, _, congrArg (Reply.viewed <$> ·) (getWith_eq k view)⟩
  | getAndUpdate k update | getOrEvict k update evictIf =>
    cases h
    exact ⟨_, _, _, congrArg (Reply.found <$> ·) (getOrEvict_eq k _ _)⟩
  | existsOrEvict k update evictIf =>
    cases h
    exact ⟨_, _, _, congrArg (Reply.present <$> ·) (existsOrEvict_eq k _ _)⟩
  | tryGetOrEvict k update evictIf | tryExistsOrEvict k update evictIf =>
    cases h
    exact ⟨_, _, _, rfl⟩
  | _ => cases h

/-- A call that makes a value on demand looks whether there is one, and if not, makes it before all else. -/
theorem Op.perform_of_factory? {make : Callback ω ε ν} (h : op.factory? = some (k, make)) :
    op.perform = Reply.value <$> Cache.tryGetOrInsertWith k make := by
  cases op with
  | getOrInsertWith k make =>
    cases h
    exact congrArg (Reply.value <$> ·) (getOrInsertWith_eq k make)
  | tryGetOrInsertWith k make =>
    cases h
    rfl
  | _ => cases h

/-- A call that offers all values to a predicate is a sweep. -/
theorem Op.perform_of_predicate? {matches? : ν → Callback ω ε Bool} (h : op.predicate? = some matches?) :
    op.perform = Reply.removed <$> Cache.tryRemoveIf matches? := by
  cases op with
  | removeIf matches? =>
    cases h
    exact congrArg (Reply.removed <$> ·) (removeIf_eq matches?)
  | tryRemoveIf matches? =>
    cases h
    rfl
  | _ => cases h

end Cache

end RecencyCache
