import RecencyCache.Proofs.Cache.Atomic
import RecencyCache.Proofs.Sequence.Recency

/-!
# What calls do to a cache

However it ends, a call changes a cache in few ways: it lets a happening be counted, or sets the value of an entry,
touches one, takes one out or links one in, or drops them all.  So a relation between what a cache is and what becomes
of it that admits each of these (`Cache.Admits`) holds between a cache before a call and after it
(`Op.perform_within`), whether or not the cache holds its entries and wherever the call is stopped.
-/

namespace RecencyCache

variable {κ ν ρ ω ε α β : Type} [BEq κ] [Hashable κ]

/-! ### What effects leave behind -/

namespace Effect

/-- The world that an effect leaves behind, also where it stops early. -/
def leaves (x : Effect κ ν ω ε α) (w : World κ ν ω) : World κ ν ω :=
  match x w with
  | .ok _ w' => w'
  | .error _ w' => w'

theorem leaves_map (x : Effect κ ν ω ε α) (f : α → β) (w : World κ ν ω) :
    leaves (f <$> x : Effect κ ν ω ε β) w = leaves x w := by
  show leaves (EStateM.map f x) w = _
  unfold leaves EStateM.map
  cases x w <;> rfl

section

variable {x : Effect κ ν ω ε α} {w w' : World κ ν ω} {a : α} {e : Abort ε}

theorem leaves_of_ok (h : x w = .ok a w') : leaves x w = w' := by
  unfold leaves
  rw [h]

theorem leaves_of_error (h : x w = .error e w') : leaves x w = w' := by
  unfold leaves
  rw [h]

theorem leaves_bind_of_ok (h : x w = .ok a w') (f : α → Effect κ ν ω ε β) : leaves (x >>= f) w = leaves (f a) w' := by
  unfold leaves
  rw [bind_of_ok h]

theorem leaves_bind_of_error (h : x w = .error e w') (f : α → Effect κ ν ω ε β) : leaves (x >>= f) w = w' :=
  leaves_of_error (bind_of_error h f)

end

theorem leaves_bind_ask (f : Cache κ ν → α) (g : α → Effect κ ν ω ε β) (w : World κ ν ω) :
    leaves (ask f >>= g) w = leaves (g (f w.cache)) w := rfl

/-- All that has happened to the cache while it was held has happened to it. -/
theorem cache_exclusively (x : Effect κ ν ω ε α) (w : World κ ν ω) :
    ((exclusively x).leaves w).cache = { (x.leaves w.hold).cache with held := false } := by
  unfold leaves exclusively World.hold
  cases x { w with cache := { w.cache with held := true } } <;> rfl

theorem order_exclusively (x : Effect κ ν ω ε α) (w : World κ ν ω) :
    ((exclusively x).leaves w).cache.order = (x.leaves w.hold).cache.order := by
  rw [cache_exclusively]

private theorem cache_widen (x : Effect κ ν ω Empty α) (w : World κ ν ω) :
    ((widen x : Effect κ ν ω ε α).leaves w).cache = (x.leaves w).cache := by
  unfold leaves widen
  cases x w <;> rfl

private theorem cache_count (what : Metrics.Happening) (w : World κ ν ω) :
    ((count what : Effect κ ν ω ε Unit).leaves w).cache =
      { w.cache with metrics := (Metrics.Op.record what).left w.cache.metrics } := by
  unfold leaves count
  cases hrecord : Metrics.record what w.cache.metrics with
  | ok _ m => rw [Metrics.Op.left_record_of_ok hrecord]
  | error fault m => rw [Metrics.Op.left_record_of_error hrecord]

/-- A callback leaves everything but the caller's state as it is. -/
theorem call_cases [EquivBEq κ] [LawfulHashable κ] (run : Callback ω ε α) (w : World κ ν ω) :
    (∃ a caller, call run w = .ok a { w with caller }) ∨ ∃ e caller, call run w = .error e { w with caller } := by
  unfold call
  cases run w.cache.outline w.caller with
  | ok a caller => exact .inl ⟨a, caller, rfl⟩
  | error e caller => exact .inr ⟨e.toAbort, caller, rfl⟩

/-- However it ends, an effect leaves a cache to which the one that it found is related. -/
structure Within (R : Cache κ ν → Cache κ ν → Prop) (x : Effect κ ν ω ε α) : Prop where
  leads : ∀ w, R w.cache (x.leaves w).cache

namespace Within

variable {R : Cache κ ν → Cache κ ν → Prop}

private theorem map {x : Effect κ ν ω ε α} (hx : Within R x) (f : α → β) : Within R (f <$> x) := by
  refine ⟨fun w => ?_⟩
  rw [leaves_map]
  exact hx.leads w

private theorem widen {x : Effect κ ν ω Empty α} (hx : Within R x) : Within R (widen x : Effect κ ν ω ε α) := by
  refine ⟨fun w => ?_⟩
  rw [cache_widen]
  exact hx.leads w

theorem change {f : Cache κ ν → Cache κ ν} (hf : ∀ c, R c (f c)) : Within R (change f : Effect κ ν ω ε Unit) :=
  ⟨fun w => hf w.cache⟩

private theorem changeGet {f : Cache κ ν → α × Cache κ ν} (hf : ∀ c, R c (f c).2) :
    Within R (changeGet f : Effect κ ν ω ε α) :=
  ⟨fun w => hf w.cache⟩

end Within

end Effect

/-! ### Relations that admit single changes -/

namespace Cache

variable [EquivBEq κ] [LawfulHashable κ]

/-- A relation that admits every single change of a cache except an entry linked in and all of them dropped. -/
structure Admits (R : Cache κ ν → Cache κ ν → Prop) : Prop where
  refl : ∀ c, R c c
  trans : ∀ {c c' c''}, R c c' → R c' c'' → R c c''
  hold : ∀ c held, R c { c with held }
  record : ∀ c what, R c { c with metrics := (Metrics.Op.record what).left c.metrics }
  setValue : ∀ c s value, R c (c.setValue s value)
  touch : ∀ c s, R c (c.touch s)
  unlink : ∀ c s, R c (c.unlink s).2
  takeOut : ∀ c k, R c (c.takeOut k).2

namespace Admits

open Effect

variable {R : Cache κ ν → Cache κ ν → Prop} (hR : Admits R)

include hR

theorem pure (a : α) : Within R (Pure.pure a : Effect κ ν ω ε α) :=
  ⟨fun w => hR.refl w.cache⟩

private theorem throw (e : Abort ε) : Within R (throw e : Effect κ ν ω ε α) :=
  ⟨fun w => hR.refl w.cache⟩

theorem bind {x : Effect κ ν ω ε α} {f : α → Effect κ ν ω ε β} (hx : Within R x) (hf : ∀ a, Within R (f a)) :
    Within R (x >>= f) := by
  refine ⟨fun w => ?_⟩
  have hfirst := hx.leads w
  cases hxw : x w with
  | ok a w' =>
    rw [leaves_of_ok hxw] at hfirst
    rw [leaves_bind_of_ok hxw]
    exact hR.trans hfirst ((hf a).leads w')
  | error e w' =>
    rw [leaves_of_error hxw] at hfirst
    rw [leaves_bind_of_error hxw]
    exact hfirst

private theorem exclusively {x : Effect κ ν ω ε α} (hx : Within R x) : Within R (exclusively x) := by
  refine ⟨fun w => ?_⟩
  rw [cache_exclusively]
  exact hR.trans (hR.trans (hR.hold w.cache true) (hx.leads w.hold)) (hR.hold _ false)

private theorem say (event : Cache κ ν → Event) : Within R (say event : Effect κ ν ω ε Unit) :=
  ⟨fun w => hR.refl w.cache⟩

theorem ask (f : Cache κ ν → α) : Within R (ask f : Effect κ ν ω ε α) :=
  ⟨fun w => hR.refl w.cache⟩

theorem count (what : Metrics.Happening) : Within R (count what : Effect κ ν ω ε Unit) := by
  refine ⟨fun w => ?_⟩
  rw [cache_count]
  exact hR.record w.cache what

private theorem call (run : Callback ω ε α) : Within R (call run : Effect κ ν ω ε α) := by
  refine ⟨fun w => ?_⟩
  rcases call_cases run w with ⟨a, caller, hcall⟩ | ⟨e, caller, hcall⟩
  · rw [leaves_of_ok hcall]
    exact hR.refl w.cache
  · rw [leaves_of_error hcall]
    exact hR.refl w.cache

private theorem edit (s : Nat) (update : Update ν ω ε) : Within R (edit s update : Effect κ ν ω ε Unit) := by
  refine ⟨fun w => ?_⟩
  unfold leaves Effect.edit
  cases w.cache.order.get? s with
  | none => exact hR.refl w.cache
  | some e =>
    dsimp only
    cases update w.cache.outline (e.2, w.caller) <;> exact hR.setValue ..

/-! ### Operations -/

theorem evictOldest : Within R (evictOldest : Effect κ ν ω ε _) := by
  unfold Cache.evictOldest
  refine hR.bind (hR.ask _) fun s? => ?_
  split
  · exact hR.pure _
  refine hR.bind (.changeGet fun c => hR.unlink c _) fun entry? => ?_
  split
  · exact hR.pure _
  exact hR.bind (hR.count _) fun _ => hR.bind (hR.say _) fun _ => hR.pure _

private theorem insertNew (hlink : ∀ c key value, R c (c.link key value)) (k : κ) (value : ν) :
    Within R (insertNew k value : Effect κ ν ω ε _) := by
  have hrest (evicted : Option (κ × ν)) :
      Within R (do change (·.link k value); Effect.count .insertion; return evicted : Effect κ ν ω ε _) :=
    hR.bind (.change fun c => hlink c k value) fun _ => hR.bind (hR.count _) fun _ => hR.pure _
  unfold Cache.insertNew
  refine hR.bind (hR.ask _) fun full => ?_
  cases full with
  | true => exact hR.bind hR.evictOldest hrest
  | false => exact hrest none

private theorem put (hlink : ∀ c key value, R c (c.link key value)) (k : κ) (value : ν) :
    Within R (put k value : Effect κ ν ω ε _) := by
  refine hR.exclusively (hR.bind (hR.ask _) fun found => ?_)
  split
  · exact hR.bind (.change fun c => hR.setValue c _ value) fun _ => hR.bind (.change fun c => hR.touch c _) fun _ =>
      hR.bind (hR.count _) fun _ => hR.pure _
  · exact hR.insertNew hlink k value

private theorem tryGetOrInsertWith (hlink : ∀ c key value, R c (c.link key value)) (k : κ) (make : Callback ω ε ν) :
    Within R (tryGetOrInsertWith k make) := by
  refine hR.exclusively (hR.bind (hR.ask _) fun found => ?_)
  split
  · exact hR.bind (.change fun c => hR.touch c _) fun _ => hR.bind (hR.count _) fun _ => hR.pure _
  · exact hR.bind (hR.call _) fun value => hR.bind (hR.count _) fun _ =>
      hR.bind (hR.insertNew hlink k value) fun _ => hR.pure _

private theorem lookup (k : κ) (update : Update ν ω ε) (evictIf : ν → Callback ω ε Bool) :
    Within R (lookup k update evictIf) := by
  unfold Cache.lookup
  refine hR.bind (hR.ask _) fun found => ?_
  split
  · exact hR.bind (hR.count _) fun _ => hR.pure _
  refine hR.bind (hR.call _) fun matched => ?_
  split
  · exact hR.bind (.changeGet fun c => hR.unlink c _) fun _ => hR.bind (hR.count _) fun _ =>
      hR.bind (hR.count _) fun _ => hR.bind (hR.say _) fun _ => hR.pure _
  · exact hR.bind (hR.edit ..) fun _ => hR.bind (.change fun c => hR.touch c _) fun _ =>
      hR.bind (hR.count _) fun _ => hR.pure _

private theorem tryGetOrEvict (k : κ) (update : Update ν ω ε) (evictIf : ν → Callback ω ε Bool) :
    Within R (tryGetOrEvict k update evictIf) := by
  refine hR.exclusively (hR.bind (hR.lookup ..) fun s? => ?_)
  split
  · exact hR.pure _
  · exact hR.ask _

private theorem getWith (k : κ) (view : ν → Callback ω Empty α) : Within R (getWith k view : Effect κ ν ω ε _) := by
  refine .widen (hR.exclusively (hR.bind (hR.lookup ..) fun s? => ?_))
  split
  · exact hR.pure _
  refine hR.bind (hR.ask _) fun entry? => ?_
  split
  · exact hR.pure _
  · exact hR.bind (hR.call _) fun _ => hR.pure _

private theorem tryExistsOrEvict (k : κ) (update : Update ν ω ε) (evictIf : ν → Callback ω ε Bool) :
    Within R (tryExistsOrEvict k update evictIf) :=
  hR.exclusively (hR.bind (hR.lookup ..) fun _ => hR.pure _)

private theorem remove (k : κ) : Within R (remove k : Effect κ ν ω ε _) := by
  refine hR.exclusively (hR.bind (.changeGet fun c => hR.takeOut c k) fun entry? => ?_)
  split
  · exact hR.pure _
  · exact hR.bind (hR.count _) fun _ => hR.pure _

private theorem sweepFrom (matches? : ν → Callback ω ε Bool) (fuel : Nat) (s? : Option Nat) (removed : Nat) :
    Within R (sweepFrom matches? fuel s? removed : Effect κ ν ω ε Nat) := by
  induction fuel generalizing s? removed with
  | zero =>
    cases s? with
    | none => exact hR.pure _
    | some s => exact hR.throw _
  | succ fuel ih =>
    cases s? with
    | none => exact hR.pure _
    | some s =>
      unfold Cache.sweepFrom
      refine hR.bind (hR.ask _) fun next => hR.bind (hR.ask _) fun entry? => ?_
      dsimp only
      split
      · refine hR.bind (hR.call _) fun matched => ?_
        split
        · refine hR.bind (.changeGet fun c => hR.unlink c s) fun dropped => ?_
          split
          · exact hR.bind (hR.count _) fun _ => ih next (removed + 1)
          · exact ih next removed
        · exact ih next removed
      · exact ih next removed

private theorem tryRemoveIf (matches? : ν → Callback ω ε Bool) : Within R (tryRemoveIf matches?) := by
  refine hR.exclusively (hR.bind (hR.ask _) fun front => hR.bind (hR.ask _) fun fuel => ?_)
  refine hR.bind (hR.sweepFrom ..) fun removed => ?_
  dsimp only
  split
  · exact hR.bind (hR.say _) fun _ => hR.pure _
  · exact hR.pure _

end Admits

/-! ### All operations -/

variable {R : Cache κ ν → Cache κ ν → Prop}

/-- A call keeps to a relation that admits every single change; entries are linked in only by calls that may store one,
and all of them dropped only by clearing the cache. -/
theorem Op.perform_within (hR : Admits R) {op : Op κ ν ρ ω ε}
    (hlink : op.stores ≠ none → ∀ c key value, R c (c.link key value)) (hdrop : op = .clear → ∀ c, R c c.drop) :
    op.perform.Within R := by
  cases op with
  | put k value => exact (hR.put (hlink nofun) k value).map _
  | get k => exact (hR.tryGetOrEvict ..).widen.map _
  | getWith k view => exact (hR.getWith k view).map _
  | getAndUpdate k update => exact (hR.tryGetOrEvict ..).widen.map _
  | getOrEvict k update evictIf => exact (hR.tryGetOrEvict ..).widen.map _
  | tryGetOrEvict k update evictIf => exact (hR.tryGetOrEvict ..).map _
  | containsKey k => exact (hR.exclusively (hR.ask _)).map _
  | existsOrEvict k update evictIf => exact (hR.tryExistsOrEvict ..).widen.map _
  | tryExistsOrEvict k update evictIf => exact (hR.tryExistsOrEvict ..).map _
  | remove k => exact (hR.remove k).map _
  | removeIf matches? => exact (hR.tryRemoveIf matches?).widen.map _
  | tryRemoveIf matches? => exact (hR.tryRemoveIf matches?).map _
  | getOrInsertWith k make => exact (hR.tryGetOrInsertWith (hlink nofun) k make).widen.map _
  | tryGetOrInsertWith k make => exact (hR.tryGetOrInsertWith (hlink nofun) k make).map _
  | clear => exact (hR.exclusively (hR.bind (hR.say _) fun _ => .change (hdrop rfl))).map _

theorem Op.apply_snd (op : Op κ ν ρ ω ε) (w : World κ ν ω) : (op.apply w).2 = op.perform.leaves w := by
  unfold apply Effect.leaves
  cases op.perform w <;> rfl

/-- So does a run of calls, if it admits these two changes as well. -/
theorem Op.run_leads (hR : Admits R) (hlink : ∀ c key value, R c (c.link key value)) (hdrop : ∀ c, R c c.drop)
    (w : World κ ν ω) (ops : List (Op κ ν ρ ω ε)) : R w.cache (Op.run w ops).2.cache := by
  induction ops generalizing w with
  | nil => exact hR.refl w.cache
  | cons op ops ih =>
    have hop : op.perform.Within R := Op.perform_within hR (fun _ => hlink) fun _ => hdrop
    have hfirst := hop.leads w
    rw [← Op.apply_snd] at hfirst
    exact hR.trans hfirst (ih (op.apply w).2)

end Cache

end RecencyCache
