import RecencyCache.Proofs.Cache.Strict

/-!
# Every slot that is gone by has its node

A strict effect follows an effect in a world when it refuses nothing there and ends as the effect does, in the same
world (`Follows`).  Every strict operation on a ready cache follows the ordinary one (`Op.perform_follows`),
whatever its callbacks do and whichever counter overflows, since the cache holds its entries at every moment at which it
goes by a slot.  So what the ordinary operations put up with never happens (`Op.run_resolves`).
-/

namespace RecencyCache

open SlotList (firstSlot firstSlot_cons)

variable {κ ν ρ ω ε α β γ : Type} [BEq κ] [Hashable κ]

namespace StrictEffect

/-! ### Going on -/

section

variable {w w' : World κ ν ω} {a : α}

private theorem bind_apply (y : StrictEffect κ ν ω ε α) (g : α → StrictEffect κ ν ω ε β) (w : World κ ν ω) :
    (y >>= g) w = (y w).bind fun r =>
      match r.1 with
      | .ok a => g a r.2
      | .error e => some (.error e, r.2) := by
  show (y w).bind _ = _
  congr 1
  funext r
  rcases r with ⟨e | a, w'⟩ <;> rfl

private theorem plain_bind_of_ok {x : Effect κ ν ω ε α} (h : x w = .ok a w') (g : α → StrictEffect κ ν ω ε β) :
    (plain x >>= g) w = g a w' := by
  rw [bind_apply, plain, Effect.ends, h]
  rfl

private theorem plain_bind_of_error {x : Effect κ ν ω ε α} {e : Abort ε} (h : x w = .error e w')
    (g : α → StrictEffect κ ν ω ε β) : (plain x >>= g) w = some (.error e, w') := by
  rw [bind_apply, plain, Effect.ends, h]
  rfl

private theorem demand_bind {f : Cache κ ν → Option α} (h : f w.cache = some a) (g : α → StrictEffect κ ν ω ε β) :
    (demand f >>= g) w = g a w := by
  rw [bind_apply, demand, h]
  rfl

private theorem alter_bind {f : Cache κ ν → Option (Cache κ ν)} {cache : Cache κ ν} (h : f w.cache = some cache)
    (g : Unit → StrictEffect κ ν ω ε β) : (alter f >>= g) w = g () { w with cache } := by
  rw [bind_apply, alter, h]
  rfl

private theorem alterGet_bind {f : Cache κ ν → Option (α × Cache κ ν)} {cache : Cache κ ν}
    (h : f w.cache = some (a, cache))
    (g : α → StrictEffect κ ν ω ε β) : (alterGet f >>= g) w = g a { w with cache } := by
  rw [bind_apply, alterGet, h]
  rfl

end

end StrictEffect

/-! ### Following an effect -/

/-- A strict effect refuses nothing in `w` and comes to what the effect comes to. -/
def Follows (y : StrictEffect κ ν ω ε α) (x : Effect κ ν ω ε α) (w : World κ ν ω) : Prop :=
  y w = some (x.ends w)

namespace Follows

variable {w : World κ ν ω} {es : List (Nat × κ × ν)} {a : α} {x : Effect κ ν ω ε α} {y : StrictEffect κ ν ω ε α}

private theorem pure (a : α) : Follows (Pure.pure a : StrictEffect κ ν ω ε α) (Pure.pure a) w := rfl

private theorem plain (x : Effect κ ν ω ε α) : Follows (StrictEffect.plain x) x w := rfl

private theorem bind {g : α → StrictEffect κ ν ω ε β} {f : α → Effect κ ν ω ε β} (h : Follows y x w)
    (hg : ∀ a w', x w = .ok a w' → Follows (g a) (f a) w') : Follows (y >>= g) (x >>= f) w := by
  unfold Follows at h ⊢
  rw [StrictEffect.bind_apply, h]
  unfold Effect.ends
  cases hx : x w with
  | ok a w' =>
    rw [Effect.bind_of_ok hx]
    exact hg a w' hx
  | error e w' =>
    rw [Effect.bind_of_error hx]
    rfl

private theorem map (h : Follows y x w) (f : α → β) : Follows (f <$> y) (f <$> x) w := by
  rw [map_eq_pure_bind, map_eq_pure_bind]
  exact h.bind fun a _ _ => pure (f a)

private theorem demand {f : Cache κ ν → Option β} {b : β} {g : β → StrictEffect κ ν ω ε α} (hf : f w.cache = some b)
    (hg : Follows (g b) x w) : Follows (StrictEffect.demand f >>= g) x w :=
  (StrictEffect.demand_bind hf g).trans hg

private theorem look {f : Cache κ ν → β} {g : β → Effect κ ν ω ε α} (h : Follows y (g (f w.cache)) w) :
    Follows y (Effect.ask f >>= g) w :=
  h

private theorem ask {f : Cache κ ν → β} {g : β → StrictEffect κ ν ω ε α} (h : Follows (g (f w.cache)) x w) :
    Follows (StrictEffect.plain (Effect.ask f) >>= g) x w :=
  h

private theorem alter {f : Cache κ ν → Option (Cache κ ν)} {f' : Cache κ ν → Cache κ ν}
    {g : Unit → StrictEffect κ ν ω ε α} {g' : Unit → Effect κ ν ω ε α} (hf : f w.cache = some (f' w.cache))
    (hg : Follows (g ()) (g' ()) { w with cache := f' w.cache }) :
    Follows (StrictEffect.alter f >>= g) (Effect.change f' >>= g') w :=
  (StrictEffect.alter_bind hf g).trans hg

private theorem alterGet {f : Cache κ ν → Option (β × Cache κ ν)} {f' : Cache κ ν → γ × Cache κ ν} {b : β} {c : γ}
    {g : β → StrictEffect κ ν ω ε α} {g' : γ → Effect κ ν ω ε α} (hc : (f' w.cache).1 = c)
    (hf : f w.cache = some (b, (f' w.cache).2))
    (hg : Follows (g b) (g' c) { w with cache := (f' w.cache).2 }) :
    Follows (StrictEffect.alterGet f >>= g) (Effect.changeGet f' >>= g') w := by
  subst hc
  exact (StrictEffect.alterGet_bind hf g).trans hg

private theorem say {event : Cache κ ν → Event} {g : Unit → StrictEffect κ ν ω ε α} {g' : Unit → Effect κ ν ω ε α}
    (hg : Follows (g ()) (g' ()) { w with log := w.log.push (event w.cache) }) :
    Follows (StrictEffect.plain (Effect.say event) >>= g) (Effect.say event >>= g') w :=
  hg

private theorem exclusively (h : Follows y x w.hold) :
    Follows (StrictEffect.exclusively y) (Effect.exclusively x) w := by
  unfold Follows at h ⊢
  unfold StrictEffect.exclusively
  rw [h]
  unfold Effect.ends Effect.exclusively World.hold
  cases x { w with cache := { w.cache with held := true } } <;> rfl

private theorem widen {x : Effect κ ν ω Empty α} {y : StrictEffect κ ν ω Empty α} (h : Follows y x w) :
    Follows (StrictEffect.widen y : StrictEffect κ ν ω ε α) (Effect.widen x) w := by
  unfold Follows at h ⊢
  unfold StrictEffect.widen
  rw [h]
  unfold Effect.ends Effect.widen
  cases x w <;> rfl

variable [EquivBEq κ] [LawfulHashable κ]

/-- Counting leaves the entries where they are. -/
private theorem count {what : Metrics.Happening} {g : Unit → StrictEffect κ ν ω ε α} {g' : Unit → Effect κ ν ω ε α}
    (h : w.cache.Holds es) (hg : ∀ m, { w.cache with metrics := m }.Holds es →
      Follows (g ()) (g' ()) { w with cache := { w.cache with metrics := m } }) :
    Follows (StrictEffect.plain (Effect.count what) >>= g) (Effect.count what >>= g') w := by
  refine bind (plain _) fun _ w' hw' => ?_
  rcases count_cases (ε := ε) what w with ⟨m, hm, -⟩ | ⟨m, hm, -⟩
  · rw [hm] at hw'
    cases hw'
    exact hg m (h.congr rfl rfl rfl)
  · rw [hm] at hw'
    cases hw'

/-- A callback leaves the cache as it is. -/
private theorem call {run : Callback ω ε β} {g : β → StrictEffect κ ν ω ε α} {g' : β → Effect κ ν ω ε α}
    (hg : ∀ b caller, Follows (g b) (g' b) { w with caller }) :
    Follows (StrictEffect.plain (Effect.call run) >>= g) (Effect.call run >>= g') w := by
  refine bind (plain _) fun b w' hw' => ?_
  rcases Effect.call_cases run w with ⟨b', caller, hcall⟩ | ⟨e, caller, hcall⟩
  · rw [hcall] at hw'
    cases hw'
    exact hg b caller
  · rw [hcall] at hw'
    cases hw'

end Follows

namespace Cache

variable [EquivBEq κ] [LawfulHashable κ]

variable {w : World κ ν ω} {c : Cache κ ν} {es L R : List (Nat × κ × ν)} {s : Nat} {k key : κ} {value : ν}

/-! ### Single parts -/

namespace Holds

private theorem strict_find? (h : c.Holds es) (k : κ) : Strict.find? c k = some (es.find? (·.2.1 == k)) := by
  unfold Strict.find?
  rw [h.index]
  cases hf : es.find? (·.2.1 == k) with
  | none => rfl
  | some e =>
    obtain ⟨s, key, value⟩ := e
    obtain ⟨-, L, R, rfl⟩ := exists_split_of_find? hf
    dsimp only [Option.map_some]
    rw [h.get?_eq]
    rfl

private theorem strict_setValue (h : c.Holds (L ++ (s, key, value) :: R)) (value' : ν) :
    Strict.setValue c s value' = some (c.setValue s value') := by
  unfold Strict.setValue Cache.setValue
  rw [h.get?_eq]
  rfl

private theorem strict_touch (h : c.Holds (L ++ (s, key, value) :: R)) : Strict.touch c s = some (c.touch s) := by
  unfold Strict.touch
  rw [h.layout.strict_moveToFront, ← Prod.eta (c.order.moveToFront s), h.layout.moveToFront.1]
  rfl

private theorem strict_link (h : c.Holds es) (hk : es.find? (·.2.1 == k) = none) (hlt : es.length < c.capacity)
    (value : ν) :
    Strict.link c k value = some (c.link k value) := by
  have hnew : ¬ (c.index.contains k ∨ c.capacity ≤ c.length) := by
    rw [h.contains_eq, ← List.isSome_find?, hk, h.length_eq]
    simpa using hlt
  unfold Strict.link
  rw [if_neg hnew, h.layout.strict_pushFront]
  rfl

private theorem strict_unlink (h : c.Holds (L ++ (s, key, value) :: R)) :
    Strict.unlink c s = some ((key, value), (c.unlink s).2) := by
  have hindex : c.index[key]? = some s := by
    rw [h.index, h.distinct.find?_of_beq BEq.rfl]
    rfl
  have hremove := h.layout.remove.1
  unfold Strict.unlink Cache.unlink
  rw [h.layout.strict_remove]
  rcases hr : c.order.remove s with ⟨found, order⟩
  rw [hr] at hremove
  cases hremove
  exact if_pos hindex

private theorem strict_takeOut (h : c.Holds es) (k : κ) : Strict.takeOut c k = some (c.takeOut k) := by
  unfold Strict.takeOut Cache.takeOut
  rw [h.index]
  cases hf : es.find? (·.2.1 == k) with
  | none => rfl
  | some e =>
    obtain ⟨s, key, value⟩ := e
    obtain ⟨-, L, R, rfl⟩ := exists_split_of_find? hf
    have hremove := h.layout.remove.1
    dsimp only [Option.map_some]
    rw [h.layout.strict_remove]
    rcases hr : c.order.remove s with ⟨found, order⟩
    rw [hr] at hremove
    cases hremove
    rfl

end Holds

/-- An update of the value of an entry finds it, and leaves it where it is. -/
private theorem Holds.follows_edit (h : w.cache.Holds (L ++ (s, key, value) :: R)) {update : Update ν ω ε}
    {g : Unit → StrictEffect κ ν ω ε α} {g' : Unit → Effect κ ν ω ε α}
    (hg : ∀ value' caller, (w.cache.setValue s value').Holds (L ++ (s, key, value') :: R) →
      Follows (g ()) (g' ()) { w with cache := w.cache.setValue s value', caller }) :
    Follows (Strict.edit s update >>= g) (Effect.edit s update >>= g') w := by
  refine Follows.bind (Follows.demand h.get?_eq (Follows.plain _)) fun _ w' hw' => ?_
  unfold Effect.edit at hw'
  rw [h.get?_eq] at hw'
  dsimp only at hw'
  cases hrun : update w.cache.outline (value, w.caller) with
  | ok _ world =>
    rw [hrun] at hw'
    cases hw'
    exact hg _ _ (h.setValue _)
  | error e world =>
    rw [hrun] at hw'
    cases hw'

/-! ### Storing -/

private theorem evictOldest_follows (h : w.cache.Holds (es ++ [(s, key, value)])) :
    Follows Strict.evictOldest (evictOldest : Effect κ ν ω ε _) w := by
  have hback : w.cache.order.back = some s := by
    rw [h.layout.back]
    simp
  obtain ⟨hfound, hrest⟩ := h.unlink
  unfold Strict.evictOldest evictOldest
  refine Follows.demand hback (Follows.look ?_)
  rw [hback]
  refine Follows.alterGet hfound h.strict_unlink ?_
  exact Follows.count hrest fun m hm => Follows.say (Follows.pure _)

/-- Where room has been made, an entry can be linked in. -/
private theorem insertNew_follows (h : w.cache.Holds es) (hk : es.find? (·.2.1 == k) = none) (value : ν) :
    Follows (Strict.insertNew k value) (insertNew k value : Effect κ ν ω ε _) w := by
  have hlink {w' : World κ ν ω} {es' : List (Nat × κ × ν)} (h' : w'.cache.Holds es')
      (hk' : es'.find? (·.2.1 == k) = none) (hlt : es'.length < w'.cache.capacity) (evicted : Option (κ × ν)) :
      Follows
        (do StrictEffect.alter (Strict.link · k value); StrictEffect.plain (Effect.count .insertion); return evicted)
        (do Effect.change (·.link k value); Effect.count .insertion; return evicted : Effect κ ν ω ε _) w' :=
    Follows.alter (h'.strict_link hk' hlt value) (Follows.count (h'.link hk' hlt value) fun m hm => Follows.pure _)
  unfold Strict.insertNew insertNew
  refine Follows.ask (Follows.look ?_)
  rw [h.isFull_eq]
  by_cases hfull : w.cache.capacity ≤ es.length
  · rw [decide_eq_true hfull, if_pos rfl, if_pos rfl]
    rcases List.eq_nil_or_concat es with rfl | ⟨es, ⟨s, key, old⟩, rfl⟩
    · exact absurd hfull (Nat.not_le_of_lt w.cache.config.limit_pos)
    rw [List.concat_eq_append] at h hk
    rw [List.find?_append, Option.or_eq_none_iff] at hk
    have hle := h.le
    rw [List.length_append] at hle
    refine Follows.bind (evictOldest_follows h) fun evicted w' hw' => ?_
    have hmeets := evictOldest_meets (ε := ε) h
    rw [hw'] at hmeets
    cases hmeets with
    | @ok _ _ _ es' hh he _ hadvances _ _ =>
      -- one entry less than before, none of them with the new key
      have hlength : es'.length = es.length := by simpa using congrArg List.length he
      have hk' : es'.find? (·.2.1 == k) = none := by
        rw [← Option.map_eq_none_iff, ← find?_map, he, find?_map, hk.1]
        rfl
      have hlt : es'.length < w'.cache.capacity := by
        rw [hlength, capacity, hadvances.config]
        exact hle
      exact hlink hh hk' hlt evicted
  · rw [decide_eq_false hfull, if_neg Bool.false_ne_true, if_neg Bool.false_ne_true, pure_bind, pure_bind]
    exact hlink h hk (Nat.lt_of_not_le hfull) none

private theorem put_follows (h : w.cache.Holds es) (k : κ) (value : ν) :
    Follows (Strict.put k value) (put k value : Effect κ ν ω ε _) w := by
  have hv : w.hold.cache.Holds es := h.congr rfl rfl rfl
  refine Follows.exclusively (Follows.demand (hv.strict_find? k) (Follows.look ?_))
  rw [hv.find?_eq]
  cases hf : es.find? (·.2.1 == k) with
  | none => exact insertNew_follows hv hf value
  | some e =>
    obtain ⟨s, key, old⟩ := e
    obtain ⟨-, L, R, rfl⟩ := exists_split_of_find? hf
    have hset := hv.setValue value
    refine Follows.alter (hv.strict_setValue value) (Follows.alter hset.strict_touch ?_)
    exact Follows.count hset.touch fun m _ => Follows.pure _

private theorem tryGetOrInsertWith_follows (h : w.cache.Holds es) (k : κ) (make : Callback ω ε ν) :
    Follows (Strict.tryGetOrInsertWith k make) (tryGetOrInsertWith k make) w := by
  have hv : w.hold.cache.Holds es := h.congr rfl rfl rfl
  refine Follows.exclusively (Follows.demand (hv.strict_find? k) (Follows.look ?_))
  rw [hv.find?_eq]
  cases hf : es.find? (·.2.1 == k) with
  | none =>
    refine Follows.call fun value caller => ?_
    have hmade : { w.hold with caller }.cache.Holds es := hv
    refine Follows.count hmade fun m hm => ?_
    exact Follows.bind (insertNew_follows hm hf value) fun _ _ _ => Follows.pure _
  | some e =>
    obtain ⟨s, key, value⟩ := e
    obtain ⟨-, L, R, rfl⟩ := exists_split_of_find? hf
    refine Follows.alter hv.strict_touch ?_
    exact Follows.count hv.touch fun m _ => Follows.pure _

/-! ### Looking up -/

private theorem lookup_follows (h : w.cache.Holds es) (k : κ) (update : Update ν ω ε)
    (evictIf : ν → Callback ω ε Bool) :
    Follows (Strict.lookup k update evictIf) (lookup k update evictIf) w := by
  unfold Strict.lookup lookup
  refine Follows.demand (h.strict_find? k) (Follows.look ?_)
  rw [h.find?_eq]
  cases hf : es.find? (·.2.1 == k) with
  | none => exact Follows.count h fun m _ => Follows.pure _
  | some e =>
    obtain ⟨s, key, value⟩ := e
    obtain ⟨-, L, R, rfl⟩ := exists_split_of_find? hf
    refine Follows.call fun matched caller => ?_
    have hv : { w with caller }.cache.Holds (L ++ (s, key, value) :: R) := h
    cases matched with
    | true =>
      obtain ⟨hfound, hrest⟩ := hv.unlink
      refine Follows.alterGet hfound hv.strict_unlink ?_
      refine Follows.count hrest fun m hm => Follows.count hm fun m _ => ?_
      exact Follows.say (Follows.pure _)
    | false =>
      refine hv.follows_edit fun value' caller' hset => ?_
      refine Follows.alter hset.strict_touch ?_
      exact Follows.count hset.touch fun m _ => Follows.pure _

/-- The slot that a lookup answers with has an entry. -/
private theorem lookup_finds (h : w.cache.Holds es) (hd : w.cache.held = true) {update : Update ν ω ε}
    {evictIf : ν → Callback ω ε Bool} {w' : World κ ν ω} (hw : lookup k update evictIf w = .ok (some s) w') :
    ∃ key value, w'.cache.order.get? s = some (key, value) := by
  have hmeets := lookup_meets h hd k update evictIf
  rw [hw] at hmeets
  cases hmeets with
  | ok _ _ _ _ _ hkept =>
    cases hkept with
    | some hs => exact ⟨_, _, hs⟩

private theorem tryGetOrEvict_follows (h : w.cache.Holds es) (k : κ) (update : Update ν ω ε)
    (evictIf : ν → Callback ω ε Bool) :
    Follows (Strict.tryGetOrEvict k update evictIf) (tryGetOrEvict k update evictIf) w := by
  have hv : w.hold.cache.Holds es := h.congr rfl rfl rfl
  refine Follows.exclusively (Follows.bind (lookup_follows hv k update evictIf) fun s? w' hw => ?_)
  cases s? with
  | none => exact Follows.pure _
  | some s =>
    obtain ⟨key, value, hs⟩ := lookup_finds hv rfl hw
    refine Follows.demand hs ?_
    show some _ = some (Except.ok ((w'.cache.order.get? s).map (·.2)), w')
    rw [hs]
    rfl

private theorem getWith_follows (h : w.cache.Holds es) (k : κ) (view : ν → Callback ω Empty α) :
    Follows (Strict.getWith k view) (getWith k view : Effect κ ν ω ε _) w := by
  have hv : w.hold.cache.Holds es := h.congr rfl rfl rfl
  refine Follows.widen (Follows.exclusively (Follows.bind (lookup_follows hv k .keep _) fun s? w' hw => ?_))
  cases s? with
  | none => exact Follows.pure _
  | some s =>
    obtain ⟨key, value, hs⟩ := lookup_finds hv rfl hw
    refine Follows.demand hs (Follows.look ?_)
    rw [hs]
    exact Follows.bind (Follows.plain _) fun _ _ _ => Follows.pure _

private theorem tryExistsOrEvict_follows (h : w.cache.Holds es) (k : κ) (update : Update ν ω ε)
    (evictIf : ν → Callback ω ε Bool) :
    Follows (Strict.tryExistsOrEvict k update evictIf) (tryExistsOrEvict k update evictIf) w := by
  have hv : w.hold.cache.Holds es := h.congr rfl rfl rfl
  exact Follows.exclusively (Follows.bind (lookup_follows hv k update evictIf) fun _ _ _ => Follows.pure _)

/-! ### Removing -/

private theorem remove_follows (h : w.cache.Holds es) (k : κ) :
    Follows (Strict.remove k) (remove k : Effect κ ν ω ε _) w := by
  have hv : w.hold.cache.Holds es := h.congr rfl rfl rfl
  refine Follows.exclusively ?_
  rcases htaken : (w.hold.cache.takeOut k).1 with _ | ⟨key, value⟩
  · refine Follows.alterGet htaken (b := none) ?_ (Follows.pure _)
    rw [hv.strict_takeOut, ← htaken]
  · refine Follows.alterGet htaken (b := some (key, value)) ?_ ?_
    · rw [hv.strict_takeOut, ← htaken]
    · exact Follows.bind (Follows.plain _) fun _ _ _ => Follows.pure _

/-- Visiting an entry, a sweep finds it there and either stops early, or goes on from the slot that came next. -/
private theorem sweepFrom_visit (matches? : ν → Callback ω ε Bool) (h : w.cache.Holds (L ++ (s, key, value) :: R))
    (removed : Nat) :
    (∃ e w', ∀ steps fuel, Strict.sweepFrom matches? (steps + 1) (some s) removed w = some (.error e, w') ∧
        sweepFrom matches? (fuel + 1) (some s) removed w = .error e w') ∨
      ∃ L' removed' w', w'.cache.Holds (L' ++ R) ∧ ∀ steps fuel,
        Strict.sweepFrom matches? (steps + 1) (some s) removed w =
            Strict.sweepFrom matches? steps (firstSlot R) removed' w' ∧
          sweepFrom matches? (fuel + 1) (some s) removed w = sweepFrom matches? fuel (firstSlot R) removed' w' := by
  rw [← h.layout.next?_eq]
  have hentry := h.get?_eq
  -- it ends with the predicate, or with what is counted, or goes on without the entry or with it
  rcases Effect.call_cases (matches? value) w with ⟨matched, caller, hcall⟩ | ⟨e, caller, hcall⟩
  · have hv : { w with caller }.cache.Holds (L ++ (s, key, value) :: R) := h
    cases matched with
    | true =>
      obtain ⟨hfound, hrest⟩ := hv.unlink
      have hunlink : (Effect.changeGet (·.unlink s) : Effect κ ν ω ε _) { w with caller } =
          .ok (some (key, value)) { w with cache := (w.cache.unlink s).2, caller } := by
        rw [← hfound]
        rfl
      rcases count_cases (ε := ε) .predicateEviction { w with cache := (w.cache.unlink s).2, caller } with
        ⟨m, hm, -⟩ | ⟨m, hm, -⟩
      · refine .inr ⟨L, removed + 1, { w with cache := { (w.cache.unlink s).2 with metrics := m }, caller },
          hrest.congr rfl rfl rfl, fun steps fuel => ⟨?_, ?_⟩⟩
        · refine (StrictEffect.demand_bind hentry _).trans ((StrictEffect.plain_bind_of_ok hcall _).trans ?_)
          exact (StrictEffect.alterGet_bind hv.strict_unlink _).trans (StrictEffect.plain_bind_of_ok hm _)
        · rw [sweepFrom, Effect.bind_ask, Effect.bind_ask, hentry]
          refine (Effect.bind_of_ok hcall _).trans ((Effect.bind_of_ok hunlink _).trans ?_)
          exact Effect.bind_of_ok hm _
      · refine .inl ⟨.faulted .addOverflow, { w with cache := { (w.cache.unlink s).2 with metrics := m }, caller },
          fun steps fuel => ⟨?_, ?_⟩⟩
        · refine (StrictEffect.demand_bind hentry _).trans ((StrictEffect.plain_bind_of_ok hcall _).trans ?_)
          exact (StrictEffect.alterGet_bind hv.strict_unlink _).trans (StrictEffect.plain_bind_of_error hm _)
        · rw [sweepFrom, Effect.bind_ask, Effect.bind_ask, hentry]
          refine (Effect.bind_of_ok hcall _).trans ((Effect.bind_of_ok hunlink _).trans ?_)
          exact Effect.bind_of_error hm _
    | false =>
      -- the entry goes over to those that have been kept
      rw [← List.singleton_append, ← List.append_assoc] at hv
      refine .inr ⟨_, removed, { w with caller }, hv, fun steps fuel => ⟨?_, ?_⟩⟩
      · exact (StrictEffect.demand_bind hentry _).trans (StrictEffect.plain_bind_of_ok hcall _)
      · rw [sweepFrom, Effect.bind_ask, Effect.bind_ask, hentry]
        exact Effect.bind_of_ok hcall _
  · refine .inl ⟨e, { w with caller }, fun steps fuel => ⟨?_, ?_⟩⟩
    · exact (StrictEffect.demand_bind hentry _).trans (StrictEffect.plain_bind_of_error hcall _)
    · rw [sweepFrom, Effect.bind_ask, Effect.bind_ask, hentry]
      exact Effect.bind_of_error hcall _

/-- A sweep meets every slot with its entry, and comes to the end of them in as many steps as there are. -/
theorem sweepFrom_follows (matches? : ν → Callback ω ε Bool) (h : w.cache.Holds (L ++ R)) {steps fuel : Nat}
    (hsteps : R.length ≤ steps) (hfuel : R.length ≤ fuel) (removed : Nat) :
    Follows (Strict.sweepFrom matches? steps (firstSlot R) removed) (sweepFrom matches? fuel (firstSlot R) removed)
      w := by
  induction R generalizing w L steps fuel removed with
  | nil => cases steps <;> cases fuel <;> exact Follows.pure _
  | cons e R ih =>
    obtain ⟨s, key, value⟩ := e
    obtain ⟨steps, rfl⟩ : ∃ n, steps = n + 1 := ⟨steps - 1, by simp at hsteps; omega⟩
    obtain ⟨fuel, rfl⟩ : ∃ n, fuel = n + 1 := ⟨fuel - 1, by simp at hfuel; omega⟩
    unfold Follows Effect.ends
    rw [firstSlot_cons]
    rcases sweepFrom_visit matches? h removed with ⟨e, w', hstop⟩ | ⟨L', removed', w', hh, hgo⟩
    · obtain ⟨hstrict, hvisit⟩ := hstop steps fuel
      rw [hstrict, hvisit]
    · obtain ⟨hstrict, hvisit⟩ := hgo steps fuel
      rw [hstrict, hvisit]
      exact ih hh (Nat.le_of_succ_le_succ hsteps) (Nat.le_of_succ_le_succ hfuel) removed'

/-- A sweep that comes to the end of the entries does not do so in fewer steps. -/
theorem sweepFrom_refuses (matches? : ν → Callback ω ε Bool) (h : w.cache.Holds (L ++ R)) {steps fuel : Nat}
    (hsteps : steps < R.length) (hfuel : R.length ≤ fuel) {removed n : Nat} {w' : World κ ν ω}
    (hok : sweepFrom matches? fuel (firstSlot R) removed w = .ok n w') :
    Strict.sweepFrom matches? steps (firstSlot R) removed w = none := by
  induction R generalizing w L steps fuel removed with
  | nil => exact absurd hsteps (Nat.not_lt_zero _)
  | cons e R ih =>
    obtain ⟨s, key, value⟩ := e
    obtain ⟨fuel, rfl⟩ : ∃ n, fuel = n + 1 := ⟨fuel - 1, by simp at hfuel; omega⟩
    rw [firstSlot_cons] at hok ⊢
    cases steps with
    | zero => rfl
    | succ steps =>
      rcases sweepFrom_visit matches? h removed with ⟨e, w'', hstop⟩ | ⟨L', removed', w'', hh, hgo⟩
      · rw [(hstop steps fuel).2] at hok
        cases hok
      · obtain ⟨hstrict, hvisit⟩ := hgo steps fuel
        rw [hvisit] at hok
        rw [hstrict]
        exact ih hh (Nat.lt_of_succ_lt_succ hsteps) (Nat.le_of_succ_le_succ hfuel) hok

private theorem tryRemoveIf_follows (h : w.cache.Holds es) (matches? : ν → Callback ω ε Bool) :
    Follows (Strict.tryRemoveIf matches?) (tryRemoveIf matches?) w := by
  have hv : w.hold.cache.Holds ([] ++ es) := h.congr rfl rfl rfl
  have hsteps : es.length ≤ w.hold.cache.length := hv.length_eq.ge
  have hfuel : es.length ≤ w.hold.cache.order.slots.size := hv.layout.length_le_size
  refine Follows.exclusively (Follows.ask (Follows.look (Follows.ask (Follows.look ?_))))
  rw [hv.layout.front]
  refine Follows.bind (sweepFrom_follows matches? hv hsteps hfuel 0) fun removed w' _ => ?_
  by_cases hpos : 0 < removed
  · rw [if_pos hpos, if_pos hpos]
    exact Follows.say (Follows.pure _)
  · rw [if_neg hpos, if_neg hpos]
    exact Follows.pure _

/-! ### All operations -/

theorem Op.perform_follows (h : w.cache.Holds es) (op : Op κ ν ρ ω ε) : Follows op.performStrict op.perform w := by
  cases op with
  | put k value => exact (put_follows h k value).map _
  | get k => exact (tryGetOrEvict_follows h k _ _).widen.map _
  | getWith k view => exact (getWith_follows h k view).map _
  | getAndUpdate k update => exact (tryGetOrEvict_follows h k update _).widen.map _
  | getOrEvict k update evictIf => exact (tryGetOrEvict_follows h k update evictIf).widen.map _
  | tryGetOrEvict k update evictIf => exact (tryGetOrEvict_follows h k update evictIf).map _
  | containsKey k => exact Follows.plain _
  | existsOrEvict k update evictIf => exact (tryExistsOrEvict_follows h k update evictIf).widen.map _
  | tryExistsOrEvict k update evictIf => exact (tryExistsOrEvict_follows h k update evictIf).map _
  | remove k => exact (remove_follows h k).map _
  | removeIf matches? => exact (tryRemoveIf_follows h matches?).widen.map _
  | tryRemoveIf matches? => exact (tryRemoveIf_follows h matches?).map _
  | getOrInsertWith k make => exact (tryGetOrInsertWith_follows h k make).widen.map _
  | tryGetOrInsertWith k make => exact (tryGetOrInsertWith_follows h k make).map _
  | clear => exact Follows.plain _

/-- On a ready cache a strict call comes to what the call comes to. -/
theorem Op.performStrict_eq (h : w.cache.Ready) (op : Op κ ν ρ ω ε) : op.performStrict w = some (op.apply w) := by
  obtain ⟨es, hes⟩ := h.coherent.exists_holds
  rw [Op.perform_follows hes op]
  unfold Effect.ends Op.apply
  cases op.perform w <;> rfl

private theorem Op.runStrict_eq (h : w.cache.Ready) (ops : List (Op κ ν ρ ω ε)) :
    Op.runStrict w ops = some (Op.run w ops) := by
  induction ops generalizing w with
  | nil => rfl
  | cons op ops ih =>
    unfold Op.runStrict
    rw [Op.performStrict_eq h]
    show (Op.runStrict (op.apply w).2 ops).bind _ = _
    rw [ih (Op.apply_ready h op)]
    rfl

/-! ### After a run -/

/-- Nothing that an operation puts up with ever happens.  In a session of a slot list, whatever slots it names, the
strict operations have the results of the ordinary ones: every neighbour to be linked has a node, a slot that is given
out again is there and is vacant, one that is given back has a node, and the length stays above zero.  In a run from a
new cache, whatever its counters stand at, whatever its callbacks do and however its calls end, the strict operations
come to what the ordinary ones come to: every slot that the index or the order names has its entry, a full cache has a
last entry, a key that is linked in is not indexed, there is room for it, and a sweep takes as many steps as there are
entries.  After each call of the run there are no more entries than the capacity allows, which a word can count. -/
theorem Op.run_resolves {α : Type} (session : List (SlotList.Op α)) (config : Config) (metrics : Metrics) (caller : ω)
    (ops : List (Op κ ν ρ ω ε)) :
    let empty : Cache κ ν := { Cache.empty config with metrics }
    let start : World κ ν ω := { cache := empty, log := #[.created config], caller }
    SlotList.Op.performAllStrict SlotList.empty session = some (SlotList.Op.performAll SlotList.empty session) ∧
      Op.runStrict start ops = some (Op.run start ops) ∧
      ∀ n, (Op.run start (ops.take n)).2.cache.length ≤ config.limit ∧ config.limit < UInt64.size := by
  intro empty start
  have hstart : start.cache.Ready := ready_counting config metrics
  refine ⟨SlotList.Op.performAllStrict_eq SlotList.Layout.empty session, Op.runStrict_eq hstart ops, fun n => ?_⟩
  obtain ⟨hready, hconfig⟩ := Op.run_ready hstart (ops.take n)
  obtain ⟨es, hes⟩ := hready.coherent.exists_holds
  have hle : es.length ≤ config.limit := hes.le.trans_eq (congrArg (·.limit) hconfig)
  exact ⟨hes.length_eq.trans_le hle, config.limit_lt⟩

/-- Stale slots and slots out of range; a sweep that fails at its second value, in a cache whose counter of insertions
overflows at the third. -/
theorem Op.run_resolves_instance :
    let session : List (SlotList.Op Nat) :=
      [.pushFront 10, .pushFront 20, .remove 0, .moveToFront 0, .remove 7, .pushFront 30, .remove 1, .values]
    let ops : List (Op Key Nat Unit Nat String) :=
      [.put (.int 1) 10, .put (.int 2) 20,
        .tryRemoveIf fun _ _ calls => if calls = 0 then .ok true 1 else .error (.failed "no") 2,
        .put (.int 3) 30, .get (.int 1)]
    let config : Config := ⟨2, by decide⟩
    let metrics : Metrics := { Metrics.zero with insertions := 18446744073709551613 }
    let empty : Cache Key Nat := { Cache.empty config with metrics }
    let start : World Key Nat Nat := { cache := empty, log := #[.created config], caller := 0 }
    SlotList.Op.performAllStrict SlotList.empty session =
        some ([.slot 0, .slot 1, .value? (some 10), .moved false, .value? none, .slot 0, .value? (some 20),
          .values [30]], (SlotList.Op.performAll SlotList.empty session).2) ∧
      Op.runStrict start ops = some (Op.run start ops) ∧ (Op.run start ops).2.cache.length ≤ 2 := by
  intro session ops config metrics empty start
  obtain ⟨hsession, hrun, hlength⟩ := Op.run_resolves session config metrics 0 ops
  refine ⟨hsession.trans ?_, hrun, (hlength 5).1⟩
  have hreplies : (SlotList.Op.performAll SlotList.empty session).1 = [.slot 0, .slot 1, .value? (some 10),
      .moved false, .value? none, .slot 0, .value? (some 20), .values [30]] := by decide
  rw [← hreplies]

end Cache

end RecencyCache
