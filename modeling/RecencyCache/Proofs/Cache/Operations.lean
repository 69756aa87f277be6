import RecencyCache.Proofs.Cache.Meets

/-!
# Operations meet their turns

Every operation, carried out on a cache that holds some entries, meets the turn of the plain sequence with those
entries: `put_meets`, `lookup_meets`, `sweepFrom_meets` and so on, and together `Op.perform_meets`.  The callbacks of
an operation run while the cache is held, so they see what the callbacks of the turn see.
-/

namespace RecencyCache

open Sequence (Turn)
open SlotList (firstSlot firstSlot_nil)

variable {κ ν ρ ω ε α β : Type} [BEq κ] [Hashable κ]

variable [EquivBEq κ] [LawfulHashable κ]

namespace Cache

open Effect

variable {w : World κ ν ω} {c : Cache κ ν} {es L R : List (Nat × κ × ν)} {s : Nat} {key k : κ} {value : ν}

omit [Hashable κ] [EquivBEq κ] [LawfulHashable κ] in
theorem find?_map (es : List (Nat × κ × ν)) (k : κ) :
    (es.map (·.2)).find? (·.1 == k) = (es.find? (·.2.1 == k)).map (·.2) := by
  rw [List.find?_map]
  rfl

private theorem Holds.eraseP_eq (h : c.Holds (L ++ (s, key, value) :: R)) (hk : (key == k) = true) :
    ((L ++ (s, key, value) :: R).map (·.2)).eraseP (·.1 == k) = (L ++ R).map (·.2) := by
  have hd : Distinct ((L.map (·.2) ++ (key, value) :: R.map (·.2)).map (·.1)) := by
    simpa [Function.comp_def] using h.distinct
  rw [List.map_append, List.map_cons, List.map_append]
  exact hd.eraseP_eq hk

private theorem Holds.setValue_eq (h : c.Holds (L ++ (s, key, value) :: R)) (hk : (key == k) = true) (value' : ν) :
    Sequence.setValue k value' ((L ++ (s, key, value) :: R).map (·.2)) =
      (L ++ (s, key, value') :: R).map (·.2) := by
  have hL : ∀ e ∈ L, (e.2.1 == k) = false := by
    intro e he
    have := h.distinct.not_beq_of_mem (List.mem_append_left R he)
    rwa [BEq.congr_right hk] at this
  clear h
  induction L with
  | nil => simp [Sequence.setValue, hk]
  | cons e L ih =>
    have he := hL e (List.mem_cons_self ..)
    have := ih fun e' he' => hL e' (List.mem_cons_of_mem _ he')
    simp [Sequence.setValue, he] at this ⊢
    exact this

/-! ### Storing -/

theorem evictOldest_meets (h : w.cache.Holds (es ++ [(s, key, value)])) :
    Meets Same w { outcome := .ok (some (key, value)), entries := es.map (·.2), caller := w.caller
                   counted := [.eviction], logged := [.evictedOldest es.length] }
      ((evictOldest : Effect κ ν ω ε _) w) := by
  have hback : w.cache.order.back = some s := by
    rw [h.layout.back]
    simp
  obtain ⟨hfound, hrest⟩ := h.unlink
  rw [List.append_nil] at hrest
  refine Meets.ask ?_
  rw [hback]
  refine Meets.changeGet hfound (rearranged_unlink ..) ?_
  refine Meets.count hrest fun m hm => ?_
  exact Meets.say (congrArg _ hm.size) (Meets.done hm rfl rfl rfl)

private theorem link_meets (h : w.cache.Holds es) (hk : (es.map (·.2)).find? (·.1 == k) = none)
    (hlt : es.length < w.cache.capacity) (value : ν) (a : α) :
    Meets Same w { outcome := .ok a, entries := (k, value) :: es.map (·.2), caller := w.caller
                   counted := [.insertion] }
      ((do change (·.link k value); count .insertion; return a : Effect κ ν ω ε α) w) := by
  rw [find?_map, Option.map_eq_none_iff] at hk
  refine Meets.change (w.cache.rearranged_link k value) ?_
  exact Meets.count (h.link hk hlt value) fun m hm => Meets.done hm rfl rfl rfl

private theorem insertNew_meets (h : w.cache.Holds es) (hk : (es.map (·.2)).find? (·.1 == k) = none) (value : ν) :
    Meets Same w (Sequence.insert w.cache.capacity k value (es.map (·.2)) w.caller)
      ((insertNew k value : Effect κ ν ω ε _) w) := by
  unfold insertNew Sequence.insert
  refine Meets.ask ?_
  rw [h.isFull_eq, List.length_map]
  by_cases hfull : w.cache.capacity ≤ es.length
  · rw [if_pos hfull, decide_eq_true hfull, if_pos rfl]
    rcases List.eq_nil_or_concat es with rfl | ⟨es, ⟨s, key, old⟩, rfl⟩
    · exact absurd hfull (Nat.not_le_of_lt w.cache.config.limit_pos)
    rw [List.concat_eq_append] at h hk ⊢
    rw [List.map_append, List.find?_append, Option.or_eq_none_iff] at hk
    have hle := h.le
    rw [List.length_append, List.length_singleton] at hle
    have hbind : Meets Same w _ _ := Meets.bind (evictOldest_meets (ε := ε) h)
      (f := fun evicted => do change (·.link k value); count .insertion; return evicted)
      (g := fun evicted es caller => ⟨.ok evicted, (k, value) :: es, caller, [.insertion], []⟩) ?_
    · simpa [Turn.andThen] using hbind
    · intro a b w' es' hb hab hh he hw
      cases hb
      subst hab
      -- one entry less than before, none of them new
      have hlen : es'.length = es.length := by simpa using congrArg List.length he
      have hlt : es'.length < w'.cache.capacity := by
        rw [hlen, capacity, hw.config]
        exact hle
      exact link_meets hh (by rw [he]; exact hk.1) hlt value _
  · rw [if_neg hfull, decide_eq_false hfull, if_neg Bool.false_ne_true, pure_bind]
    exact link_meets h hk (by omega) value none

theorem put_meets (h : w.cache.Holds es) (hd : w.cache.held = false) (k : κ) (value : ν) :
    Meets Same w (Sequence.put w.cache.capacity k value (es.map (·.2)) w.caller)
      ((put k value : Effect κ ν ω ε _) w) := by
  have hv : w.hold.cache.Holds es := h.congr rfl rfl rfl
  refine Meets.exclusively hd (Meets.ask ?_)
  rw [hv.find?_eq]
  unfold Sequence.put
  cases hf : es.find? (·.2.1 == k) with
  | none =>
    have hf' : (es.map (·.2)).find? (·.1 == k) = none := by rw [find?_map, hf]; rfl
    rw [hf']
    exact insertNew_meets hv hf' value
  | some e =>
    obtain ⟨s, key, old⟩ := e
    obtain ⟨hk, L, R, rfl⟩ := exists_split_of_find? hf
    have hset := hv.setValue value
    rw [find?_map, hf]
    dsimp only [Option.map_some]
    rw [h.eraseP_eq hk]
    -- the value goes in before the entry moves to the front
    refine Meets.change (rearranged_setValue ..) (Meets.change (rearranged_touch ..) ?_)
    exact Meets.count hset.touch fun m hm => Meets.done hm rfl rfl rfl

private theorem tryGetOrInsertWith_meets (h : w.cache.Holds es) (hd : w.cache.held = false) (k : κ)
    (make : Callback ω ε ν) :
    Meets Same w (Sequence.getOrInsertWith w.cache.capacity k make (es.map (·.2)) w.caller)
      (tryGetOrInsertWith k make w) := by
  have hv : w.hold.cache.Holds es := h.congr rfl rfl rfl
  refine Meets.exclusively hd (Meets.ask ?_)
  rw [hv.find?_eq]
  unfold Sequence.getOrInsertWith
  cases hf : es.find? (·.2.1 == k) with
  | none =>
    have hf' : (es.map (·.2)).find? (·.1 == k) = none := by rw [find?_map, hf]; rfl
    rw [hf']
    dsimp only
    refine Meets.call rfl ?_ ?_
    · intro value caller (hrun : make Sequence.locked w.caller = .ok value caller)
      rw [hrun]
      refine Meets.count (hv.congr rfl rfl rfl) fun m hm => ?_
      exact Meets.map (insertNew_meets hm hf' value) fun _ => ⟨value, rfl, rfl⟩
    · intro e caller (hrun : make Sequence.locked w.caller = .error e caller)
      rw [hrun]
      exact Meets.stop (hv.congr rfl rfl rfl) rfl rfl
  | some e =>
    obtain ⟨s, key, value⟩ := e
    obtain ⟨hk, L, R, rfl⟩ := exists_split_of_find? hf
    rw [find?_map, hf]
    dsimp only [Option.map_some]
    rw [h.eraseP_eq hk]
    refine Meets.change (rearranged_touch ..) ?_
    exact Meets.count hv.touch fun m hm => Meets.done hm rfl rfl rfl

/-! ### Looking up -/

/-- The slot that a lookup answers with has the value that the turn answers with. -/
inductive Kept (w : World κ ν ω) : Option Nat → Option ν → Prop where
  | none : Kept w .none .none
  | some {s : Nat} {key : κ} {value : ν} : w.cache.order.get? s = .some (key, value) → Kept w (.some s) (.some value)

theorem lookup_meets (h : w.cache.Holds es) (hd : w.cache.held = true) (k : κ) (update : Update ν ω ε)
    (evictIf : ν → Callback ω ε Bool) :
    Meets Kept w (Sequence.lookup k update evictIf (es.map (·.2)) w.caller) (lookup k update evictIf w) := by
  unfold Sequence.lookup
  refine Meets.ask ?_
  rw [h.find?_eq, find?_map]
  cases hf : es.find? (·.2.1 == k) with
  | none => exact Meets.count h fun m hm => Meets.done hm rfl rfl Kept.none
  | some e =>
    obtain ⟨s, key, value⟩ := e
    obtain ⟨hk, L, R, rfl⟩ := exists_split_of_find? hf
    dsimp only [Option.map_some]
    refine Meets.call hd ?_ ?_
    · intro matched caller hrun
      have hv : { w with caller }.cache.Holds (L ++ (s, key, value) :: R) := h
      rw [hrun, h.eraseP_eq hk]
      cases matched with
      | true =>
        obtain ⟨hfound, hrest⟩ := h.unlink
        refine Meets.changeGet hfound (rearranged_unlink ..) ?_
        refine Meets.count hrest fun m hm => Meets.count hm fun m hm => ?_
        refine Meets.say (congrArg _ ?_) (Meets.done hm rfl rfl Kept.none)
        rw [List.length_map]
        exact hm.size
      | false =>
        refine Meets.edit hd h.get?_eq ?_ ?_
        · intro value' caller' hrun
          dsimp only at hrun ⊢
          rw [hrun]
          have hset := hv.setValue value'
          refine Meets.change (rearranged_touch ..) (Meets.count hset.touch fun m hm => ?_)
          exact Meets.done hm rfl rfl (Kept.some (Holds.get?_eq (L := []) hm))
        · intro e value' caller' hrun
          dsimp only at hrun ⊢
          rw [hrun]
          exact Meets.stop (hv.setValue value') (h.setValue_eq hk value').symm rfl
    · intro e caller hrun
      rw [hrun]
      exact Meets.stop h rfl rfl

private theorem tryGetOrEvict_meets (h : w.cache.Holds es) (hd : w.cache.held = false) (k : κ) (update : Update ν ω ε)
    (evictIf : ν → Callback ω ε Bool) :
    Meets Same w (Sequence.lookup k update evictIf (es.map (·.2)) w.caller) (tryGetOrEvict k update evictIf w) := by
  have hlookup := lookup_meets (w := w.hold) (h.congr rfl rfl rfl) rfl k update evictIf
  rw [← Turn.map_id (Sequence.lookup ..)]
  refine Meets.exclusively hd (Meets.map hlookup fun hr => ?_)
  cases hr with
  | none => exact ⟨none, rfl, rfl⟩
  | some hs => exact ⟨_, rfl, congrArg (Option.map (·.2)) hs⟩

private theorem tryExistsOrEvict_meets (h : w.cache.Holds es) (hd : w.cache.held = false) (k : κ)
    (update : Update ν ω ε) (evictIf : ν → Callback ω ε Bool) :
    Meets Same w ((Sequence.lookup k update evictIf (es.map (·.2)) w.caller).map (·.isSome))
      (tryExistsOrEvict k update evictIf w) := by
  have hlookup := lookup_meets (w := w.hold) (h.congr rfl rfl rfl) rfl k update evictIf
  refine Meets.exclusively hd (Meets.map hlookup fun hr => ?_)
  cases hr <;> exact ⟨_, rfl, rfl⟩

private theorem getWith_meets (h : w.cache.Holds es) (hd : w.cache.held = false) (k : κ)
    (view : ν → Callback ω Empty α) :
    Meets Same w (Sequence.getWith k view (es.map (·.2)) w.caller).widen
      (getWith k view w : EStateM.Result (Abort ε) _ _) := by
  have hlookup := lookup_meets (w := w.hold) (h.congr rfl rfl rfl) rfl k .keep
    fun _ => (pure false : Callback ω Empty Bool)
  refine Meets.widen (Meets.exclusively hd (Meets.bind hlookup ?_))
  intro slot? value? w' es' _ hr hh _ hw
  cases hr with
  | none => exact Meets.done hh rfl rfl rfl
  | @some s key value hs =>
    dsimp only
    refine Meets.ask ?_
    rw [hs]
    refine Meets.call hw.held ?_ ?_
    · intro answer caller hrun
      rw [hrun]
      exact Meets.done hh rfl rfl rfl
    · intro e caller hrun
      rw [hrun]
      exact Meets.stop hh rfl rfl

private theorem containsKey_meets (h : w.cache.Holds es) (hd : w.cache.held = false) (k : κ) :
    Meets Same w { outcome := .ok ((es.map (·.2)).any (·.1 == k)), entries := es.map (·.2), caller := w.caller }
      (containsKey k w : EStateM.Result (Abort ε) _ _) := by
  have hv : w.hold.cache.Holds es := h.congr rfl rfl rfl
  refine Meets.exclusively hd (Meets.done hv rfl rfl ?_)
  rw [List.any_map]
  exact hv.contains_eq k

/-! ### Removing -/

private theorem remove_meets (h : w.cache.Holds es) (hd : w.cache.held = false) (k : κ) :
    Meets Same w (Sequence.remove k (es.map (·.2)) w.caller) (remove k w : EStateM.Result (Abort ε) _ _) := by
  have hv : w.hold.cache.Holds es := h.congr rfl rfl rfl
  refine Meets.exclusively hd ?_
  unfold Sequence.remove
  rw [find?_map]
  cases hf : es.find? (·.2.1 == k) with
  | none =>
    have htake := hv.takeOut_of_none hf
    refine Meets.changeGet (congrArg (·.1) htake) (rearranged_takeOut ..) (Meets.done ?_ rfl rfl rfl)
    rw [htake]
    exact hv
  | some e =>
    obtain ⟨s, key, value⟩ := e
    obtain ⟨hk, L, R, rfl⟩ := exists_split_of_find? hf
    obtain ⟨hfound, hrest⟩ := hv.takeOut hk
    dsimp only [Option.map_some]
    rw [h.eraseP_eq hk]
    refine Meets.changeGet hfound (rearranged_takeOut ..) ?_
    exact Meets.count hrest fun m hm => Meets.done hm rfl rfl rfl

/-- A sweep that has kept `L` and dropped `removed` entries goes on with those from the next slot on. -/
theorem sweepFrom_meets (matches? : ν → Callback ω ε Bool) (h : w.cache.Holds (L ++ R)) (hd : w.cache.held = true)
    {fuel : Nat} (hf : R.length ≤ fuel) (removed : Nat) :
    Meets Same w (((Sequence.sweep matches? (R.map (·.2)) w.caller).keeping (L.map (·.2))).map (removed + ·))
      (sweepFrom matches? fuel (firstSlot R) removed w) := by
  induction R generalizing w L fuel removed with
  | nil =>
    have hdone : sweepFrom matches? fuel none removed = (pure removed : Effect κ ν ω ε Nat) := by
      cases fuel <;> rfl
    rw [firstSlot_nil, hdone]
    exact Meets.done h (by simp [Turn.keeping, Sequence.sweep]) rfl rfl
  | cons e R ih =>
    obtain ⟨s, key, value⟩ := e
    obtain ⟨fuel, rfl⟩ : ∃ n, fuel = n + 1 := ⟨fuel - 1, by simp at hf; omega⟩
    have hf' : R.length ≤ fuel := Nat.le_of_succ_le_succ hf
    refine Meets.ask (Meets.ask ?_)
    rw [h.layout.next?_eq, h.get?_eq]
    refine Meets.call hd ?_ ?_
    · intro matched caller hrun
      unfold Sequence.sweep
      rw [List.map_cons]
      dsimp only
      rw [hrun]
      cases matched with
      | true =>
        obtain ⟨hfound, hrest⟩ := h.unlink
        refine Meets.changeGet hfound (rearranged_unlink ..) ?_
        refine Meets.count hrest fun m hm => ?_
        -- the next slot was read before the entry was dropped, and is the first of the rest
        have hd' : (w.cache.unlink s).2.held = true := (rearranged_unlink w.cache s).held.trans hd
        have hnext := ih (w := { cache := { (w.cache.unlink s).2 with metrics := m }, log := w.log, caller })
          hm hd' hf' (removed + 1)
        have hadd : (removed + 1 + ·) = fun n => removed + (n + 1) := by
          funext n
          omega
        rw [hadd, ← Turn.map_map _ (· + 1) (removed + ·)] at hnext
        exact hnext
      | false =>
        -- the entry goes over to those that have been kept
        rw [← List.singleton_append, ← List.append_assoc] at h
        have hnext := ih (w := { w with caller }) h hd hf' removed
        rw [List.map_append, ← Turn.keeping_keeping] at hnext
        exact hnext
    · intro e caller hrun
      unfold Sequence.sweep
      rw [List.map_cons]
      dsimp only
      rw [hrun]
      exact Meets.stop h (by simp [Turn.keeping]) rfl

private theorem tryRemoveIf_meets (h : w.cache.Holds es) (hd : w.cache.held = false)
    (matches? : ν → Callback ω ε Bool) :
    Meets Same w (Sequence.removeIf matches? (es.map (·.2)) w.caller) (tryRemoveIf matches? w) := by
  have hv : w.hold.cache.Holds ([] ++ es) := h.congr rfl rfl rfl
  have hfuel : es.length ≤ w.hold.cache.order.slots.size := hv.layout.length_le_size
  have hsweep := sweepFrom_meets matches? hv rfl hfuel 0
  have hzero : (0 + ·) = @id Nat := by
    funext n
    exact Nat.zero_add n
  rw [hzero, Turn.map_id] at hsweep
  refine Meets.exclusively hd (Meets.ask (Meets.ask ?_))
  rw [hv.layout.front]
  refine Meets.bind hsweep ?_
  intro removed removed' w' es' _ hr hh _ _
  subst hr
  by_cases hpos : 0 < removed
  · rw [if_pos hpos, if_pos hpos, List.length_map]
    exact Meets.say (congrArg _ hh.size) (Meets.done hh rfl rfl rfl)
  · rw [if_neg hpos, if_neg hpos]
    exact Meets.done hh rfl rfl rfl

private theorem clear_meets (h : w.cache.Holds es) (hd : w.cache.held = false) :
    Meets Same w { outcome := .ok (), entries := [], caller := w.caller, logged := [.clearing (es.map (·.2)).length] }
      (clear w : EStateM.Result (Abort ε) _ _) := by
  have hv : w.hold.cache.Holds es := h.congr rfl rfl rfl
  have hlen : w.hold.cache.length = (es.map (·.2)).length := by rw [hv.length_eq, List.length_map]
  refine Meets.exclusively hd (Meets.say (congrArg _ hlen) ?_)
  exact Meets.change (rearranged_drop _) (Meets.done (Holds.drop _) rfl rfl rfl)

/-! ### All operations -/

theorem Op.perform_meets (h : w.cache.Holds es) (hd : w.cache.held = false) (op : Op κ ν ρ ω ε) :
    Meets Same w (Sequence.step w.cache.capacity op (es.map (·.2)) w.caller) (op.perform w) := by
  cases op with
  | put k value => exact (put_meets h hd k value).fmap
  | get k => exact (tryGetOrEvict_meets h hd k _ _).widen.fmap
  | getWith k view => exact (getWith_meets h hd k view).fmap
  | getAndUpdate k update => exact (tryGetOrEvict_meets h hd k update _).widen.fmap
  | getOrEvict k update evictIf => exact (tryGetOrEvict_meets h hd k update evictIf).widen.fmap
  | tryGetOrEvict k update evictIf => exact (tryGetOrEvict_meets h hd k update evictIf).fmap
  | containsKey k => exact (containsKey_meets h hd k).fmap
  | existsOrEvict k update evictIf =>
    have hexists := (tryExistsOrEvict_meets h hd k update evictIf).widen (ε := ε)
    rw [Turn.widen_map] at hexists
    have hpresent := hexists.fmap (f := @Reply.present κ ν ρ)
    rw [Turn.map_map] at hpresent
    exact hpresent
  | tryExistsOrEvict k update evictIf =>
    have hpresent := (tryExistsOrEvict_meets h hd k update evictIf).fmap (f := @Reply.present κ ν ρ)
    rw [Turn.map_map] at hpresent
    exact hpresent
  | remove k => exact (remove_meets h hd k).fmap
  | removeIf matches? => exact (tryRemoveIf_meets h hd matches?).widen.fmap
  | tryRemoveIf matches? => exact (tryRemoveIf_meets h hd matches?).fmap
  | getOrInsertWith k make => exact (tryGetOrInsertWith_meets h hd k make).widen.fmap
  | tryGetOrInsertWith k make => exact (tryGetOrInsertWith_meets h hd k make).fmap
  | clear => exact (clear_meets h hd).fmap (f := fun _ => Reply.done)

end Cache

end RecencyCache
