import RecencyCache.Proofs.Cache.Atomic

/-!
# Getting a value and viewing it

A lookup whose predicate and update are built in finds an entry, touches it and counts a hit, or counts a miss
(`lookup_of_none`, `lookup_keep_of_some`).  So a view of a value runs as if the value had been got before, by a call of
its own (`getWith_eq_getThenView`): what the view does comes after all that `get` has done.
-/

namespace RecencyCache

open Sequence (keepAll)

variable {κ ν ρ ω ε α β : Type}

/-- A value put where it already is changes nothing. -/
private theorem SlotList.set_of_get? {l : SlotList α} {s : Nat} {value : α} (h : l.get? s = some value) :
    l.set s value = l := by
  obtain ⟨node, hnode, rfl⟩ := Option.map_eq_some_iff.1 h
  have hslots : l.slots.modify s (Option.map fun n : Node α => { n with value := node.value }) = l.slots := by
    apply Array.ext_getElem?
    intro t
    rw [Array.getElem?_modify]
    split
    · rename_i hst
      subst hst
      unfold SlotList.node? at hnode
      cases hs : l.slots[s]? with
      | none => rfl
      | some node? =>
        rw [hs] at hnode
        cases hnode
        rfl
    · rfl
  rw [SlotList.set, SlotList.modifyNode, hslots]

variable [BEq κ] [Hashable κ]

namespace Effect

variable {x y : Effect κ ν ω ε α} {w w' : World κ ν ω}

/-- How an effect goes while it holds the cache is all that matters. -/
theorem exclusively_congr (h : x w.hold = y w.hold) : exclusively x w = exclusively y w := by
  unfold World.hold at h
  unfold exclusively
  rw [h]

theorem bind_congr_left (h : x w = y w) (f : α → Effect κ ν ω ε β) : (x >>= f) w = (y >>= f) w := by
  show EStateM.bind x f w = EStateM.bind y f w
  unfold EStateM.bind
  rw [h]

theorem bind_change (f : Cache κ ν → Cache κ ν) (g : Unit → Effect κ ν ω ε β) (w : World κ ν ω) :
    (change f >>= g) w = g () { w with cache := f w.cache } := rfl

/-- Two ways to go on after counting are the same if they go the same from whatever has been counted. -/
private theorem count_bind_congr {what : Metrics.Happening} {f g : Unit → Effect κ ν ω ε β}
    (h : ∀ m, f () { w with cache := { w.cache with metrics := m } } =
      g () { w with cache := { w.cache with metrics := m } }) : (count what >>= f) w = (count what >>= g) w := by
  rcases count_cases (ε := ε) what w with ⟨m, hm, -⟩ | ⟨m, hm, -⟩
  · rw [bind_of_ok hm, bind_of_ok hm]
    exact h m
  · rw [bind_of_error hm, bind_of_error hm]

/-- Only the answer is changed while the cache is held, or afterwards. -/
theorem exclusively_bind_pure (x : Effect κ ν ω ε α) (f : α → β) :
    (exclusively (do return f (← x)) : Effect κ ν ω ε β) = do return f (← exclusively x) := by
  funext w
  show exclusively (EStateM.bind x fun a => pure (f a)) w = EStateM.bind (exclusively x) (fun a => pure (f a)) w
  unfold EStateM.bind exclusively
  dsimp only
  cases x { w with cache := { w.cache with held := true } } <;> rfl

/-- Letting go of the cache and holding it again is no different from holding it on. -/
private theorem exclusively_bind (hheld : ∀ a w', x w.hold = .ok a w' → w'.cache.held = true)
    (f : α → Effect κ ν ω ε β) :
    exclusively (x >>= f) w = (exclusively x >>= fun a => exclusively (f a)) w := by
  show exclusively (EStateM.bind x f) w = EStateM.bind (exclusively x) (fun a => exclusively (f a)) w
  unfold World.hold at hheld
  unfold EStateM.bind exclusively
  dsimp only
  cases hx : x { w with cache := { w.cache with held := true } } with
  | error e w' => rfl
  | ok a w' =>
    obtain ⟨⟨config, order, index, metrics, held⟩, log, caller⟩ := w'
    cases hheld _ _ hx
    rfl

/-- Where an effect that holds the cache comes to its end, nobody holds it any more. -/
theorem exclusively_of_ok {a : α} (hfree : w'.cache.held = false) (h : x w.hold = .ok a w'.hold) :
    exclusively x w = .ok a w' := by
  unfold World.hold at h
  unfold exclusively
  rw [h]
  obtain ⟨⟨config, order, index, metrics, held⟩, log, caller⟩ := w'
  cases hfree
  rfl

/-- What holds the cache after its first step goes on as if it had held the cache from there on only. -/
theorem exclusively_bind_of_ok {a : α} (h : x w.hold = .ok a w'.hold) (f : α → Effect κ ν ω ε β) :
    exclusively (x >>= f) w = exclusively (f a) w' := by
  have hbind : (x >>= f) w.hold = f a w'.hold := bind_of_ok h f
  unfold World.hold at hbind
  unfold exclusively
  rw [hbind]

end Effect

namespace Cache

open Effect

private theorem setValue_of_get? {c : Cache κ ν} {s : Nat} {key : κ} {value : ν}
    (h : c.order.get? s = some (key, value)) :
    c.setValue s value = c := by
  rw [setValue, h]
  dsimp only
  rw [SlotList.set_of_get? h]

variable [EquivBEq κ] [LawfulHashable κ] {w : World κ ν ω} {k key : κ} {s : Nat} {value : ν}

theorem lookup_of_none (hf : w.cache.find? k = none) (update : Update ν ω ε) (evictIf : ν → Callback ω ε Bool) :
    lookup k update evictIf w = (do count .miss; return none : Effect κ ν ω ε _) w := by
  unfold lookup
  rw [bind_ask, hf]

/-- A lookup that neither drops nor edits only touches the entry and counts. -/
theorem lookup_keep_of_some (hf : w.cache.find? k = some (s, key, value)) :
    lookup k .keep keepAll w = (do change (·.touch s); count .hit; return some s : Effect κ ν ω ε _) w := by
  have hs := get?_of_find? hf
  have hcall : call (keepAll value) w = (.ok false w : EStateM.Result (Abort ε) _ _) := rfl
  have hedit : edit s .keep w = (.ok () w : EStateM.Result (Abort ε) _ _) := by
    unfold edit
    rw [hs]
    show EStateM.Result.ok () { w with cache := w.cache.setValue s value } = _
    rw [setValue_of_get? hs]
  unfold lookup
  rw [bind_ask, hf]
  dsimp only
  rw [bind_of_ok hcall, if_neg Bool.false_ne_true, bind_of_ok hedit]

/-- Getting a value is looking it up with callbacks that do nothing. -/
theorem get_eq (k : κ) : (Cache.get k : Effect κ ν ω ε _) = tryGetOrEvict k .keep keepAll :=
  getOrEvict_eq k .keep keepAll

theorem get_of_none (hf : w.cache.find? k = none) :
    Cache.get k w = (exclusively (do count .miss; return none) : Effect κ ν ω ε _) w := by
  rw [get_eq]
  refine exclusively_congr ?_
  have hlookup := lookup_of_none (w := w.hold) hf .keep (keepAll (ε := ε))
  rw [bind_congr_left hlookup]
  simp

/-- The entry touched is still there when its value is read. -/
theorem get?_touch {c : Cache κ ν} (h : c.Coherent) (hf : c.find? k = some (s, key, value)) :
    (c.touch s).order.get? s = some (key, value) := by
  obtain ⟨es, hes⟩ := h.exists_holds
  rw [hes.find?_eq] at hf
  obtain ⟨-, L, R, rfl⟩ := exists_split_of_find? hf
  exact Holds.get?_eq (L := []) hes.touch

theorem get_of_some (h : w.cache.Coherent) (hf : w.cache.find? k = some (s, key, value)) :
    Cache.get k w = (exclusively (do change (·.touch s); count .hit; return some value) : Effect κ ν ω ε _) w := by
  rw [get_eq]
  refine exclusively_congr ?_
  have hlookup := lookup_keep_of_some (ε := ε) (w := w.hold) hf
  rw [bind_congr_left hlookup]
  simp only [bind_assoc, pure_bind]
  rw [bind_change, bind_change]
  refine count_bind_congr fun m => ?_
  have hs : (w.hold.cache.touch s).order.get? s = some (key, value) := get?_touch (c := w.cache) h hf
  show EStateM.Result.ok (((w.hold.cache.touch s).order.get? s).map (·.2)) _ = _
  rw [hs]
  rfl

theorem ready_of_get (h : w.cache.Ready) {value? : Option ν} {w' : World κ ν ω}
    (hget : (Cache.get k : Effect κ ν ω ε _) w = .ok value? w') : w'.cache.Ready := by
  have hready := Op.apply_ready h (Op.get k : Op κ ν Unit ω ε)
  have hperform : (Op.get k : Op κ ν Unit ω ε).perform w = .ok (.found value?) w' := by
    show EStateM.map Reply.found (Cache.get k) w = _
    unfold EStateM.map
    rw [hget]
  unfold Op.apply at hready
  rw [hperform] at hready
  exact hready

theorem getWith_of_none (hf : w.cache.find? k = none) (view : ν → Callback ω Empty α) :
    getWith k view w = (exclusively (do count .miss; return none) : Effect κ ν ω ε _) w := by
  rw [getWith_eq]
  refine exclusively_congr ?_
  have hlookup := lookup_of_none (w := w.hold) hf .keep (keepAll (ε := ε))
  rw [bind_congr_left hlookup]
  simp

theorem getWith_of_some (h : w.cache.Coherent) (hf : w.cache.find? k = some (s, key, value))
    (view : ν → Callback ω Empty α) :
    getWith k view w = (exclusively (do
      change (·.touch s)
      count .hit
      return some (← call (view value).widen)) : Effect κ ν ω ε _) w := by
  rw [getWith_eq]
  refine exclusively_congr ?_
  have hlookup := lookup_keep_of_some (ε := ε) (w := w.hold) hf
  rw [bind_congr_left hlookup]
  simp only [bind_assoc, pure_bind]
  rw [bind_change, bind_change]
  refine count_bind_congr fun m => ?_
  have hs : (w.hold.cache.touch s).order.get? s = some (key, value) := get?_touch (c := w.cache) h hf
  rw [bind_ask]
  dsimp only
  rw [hs]

/-! ### A view comes after the value has been got -/

/-- Gets the value of a key, and then, in a call of its own, shows it to `view`. -/
def getThenView (k : κ) (view : ν → Callback ω ε α) : Effect κ ν ω ε (Option α) := do
  match ← Cache.get k with
  | none => return none
  | some value => return some (← exclusively (call (view value)))

/-- A view runs where `get` has left the world, and does nothing to it but what it does to the caller's state. -/
theorem getWith_eq_getThenView (h : w.cache.Ready) (k : κ) (view : ν → Callback ω Empty α) :
    getWith k view w = (getThenView k fun value => (view value).widen : Effect κ ν ω ε _) w := by
  unfold getThenView
  cases hf : w.cache.find? k with
  | none =>
    have hmiss : (exclusively (do count .miss; return none) : Effect κ ν ω ε (Option ν)) = _ :=
      exclusively_bind_pure (count .miss) fun _ => none
    have hmiss' : (exclusively (do count .miss; return none) : Effect κ ν ω ε (Option α)) = _ :=
      exclusively_bind_pure (count .miss) fun _ => none
    rw [getWith_of_none hf, bind_congr_left (get_of_none hf), hmiss, hmiss', bind_assoc]
    rfl
  | some found =>
    obtain ⟨s, key, value⟩ := found
    let hit : Effect κ ν ω ε Unit := do change (·.touch s); count .hit
    have hhit : (exclusively (do change (·.touch s); count .hit; return some value) : Effect κ ν ω ε (Option ν)) =
        do let _ ← exclusively hit; return some value := by
      rw [← exclusively_bind_pure hit fun _ => some value, bind_assoc]
    have hheld (a : Unit) (w' : World κ ν ω) (hok : hit w.hold = .ok a w') : w'.cache.held = true := by
      rcases count_cases (ε := ε) .hit { w.hold with cache := w.hold.cache.touch s } with ⟨m, hm, -⟩ | ⟨m, hm, -⟩
      · cases hm.symm.trans hok
        rfl
      · cases hm.symm.trans hok
    rw [getWith_of_some h.coherent hf, bind_congr_left (get_of_some h.coherent hf), hhit, bind_assoc]
    have hview := exclusively_bind hheld fun _ => do return some (← call (view value).widen)
    rw [bind_assoc] at hview
    rw [hview]
    refine congrFun (congrArg (exclusively hit >>= ·) (funext fun _ => ?_)) w
    rw [pure_bind]
    exact exclusively_bind_pure _ _

end Cache

end RecencyCache
