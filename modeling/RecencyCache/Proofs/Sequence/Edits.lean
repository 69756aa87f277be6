import RecencyCache.Proofs.Sequence.Turns

/-!
# Calls as edits

A callback goes by the value when all that it makes of a value hangs on the value alone, whatever it does to the
caller's state.  A call whose callbacks go by the value does one of a few edits to the list (`step_edit`), the same
whatever the list and its room are.
-/

namespace RecencyCache

/-- An update that goes by the value, as `f` says. -/
def Update.GoesBy {ν ω ε : Type} (f : ν → ν) (update : Update ν ω ε) : Prop :=
  ∀ seen value caller, ∃ caller', update seen (value, caller) = .ok () (f value, caller')

/-- A predicate that goes by the value, as `f` says. -/
def Callback.GoesBy {ν ω ε : Type} (f : ν → Bool) (matches? : ν → Callback ω ε Bool) : Prop :=
  ∀ value seen caller, ∃ caller', matches? value seen caller = .ok (f value) caller'

/-- The predicates and updates of a call go by the value; a view may do anything, for it comes too late to matter. -/
def Cache.Op.ByValue {κ ν ρ ω ε : Type} : Cache.Op κ ν ρ ω ε → Prop
  | .put _ _ | .get _ | .getWith _ _ | .containsKey _ | .remove _ | .clear => True
  | .getAndUpdate _ update => ∃ f, update.GoesBy f
  | .getOrEvict _ update evictIf | .existsOrEvict _ update evictIf =>
    (∃ f, update.GoesBy f) ∧ ∃ f, Callback.GoesBy f evictIf
  | .tryGetOrEvict _ update evictIf | .tryExistsOrEvict _ update evictIf =>
    (∃ f, update.GoesBy f) ∧ ∃ f, Callback.GoesBy f evictIf
  | .removeIf matches? => ∃ f, Callback.GoesBy f matches?
  | .tryRemoveIf matches? => ∃ f, Callback.GoesBy f matches?
  | .getOrInsertWith _ _ | .tryGetOrInsertWith _ _ => False

namespace Sequence

open Metrics (Happening)
open Cache (Op)

variable {κ ν ρ ω ε α : Type} [BEq κ]

/-! ### Edits -/

/-- What a call whose callbacks go by the value alone does to a list. -/
inductive Edit (κ ν : Type) where
  | put (k : κ) (value : ν)
  | lookup (k : κ) (update : ν → ν) (drops : ν → Bool)
  | remove (k : κ)
  | sweep (drops : ν → Bool)
  | clear
  | nothing

/-- The list after an edit, and what happened that is worth counting. -/
def Edit.apply (limit : Nat) (es : List (κ × ν)) : Edit κ ν → List (κ × ν) × List Happening
  | put k value =>
    match es.find? (·.1 == k) with
    | some (key, _) => ((key, value) :: es.eraseP (·.1 == k), [.update])
    | none =>
      if limit ≤ es.length then ((k, value) :: es.dropLast, [.eviction, .insertion])
      else ((k, value) :: es, [.insertion])
  | lookup k update drops =>
    match es.find? (·.1 == k) with
    | none => (es, [.miss])
    | some (key, value) =>
      if drops value then (es.eraseP (·.1 == k), [.predicateEviction, .miss])
      else ((key, update value) :: es.eraseP (·.1 == k), [.hit])
  | remove k =>
    match es.find? (·.1 == k) with
    | none => (es, [])
    | some _ => (es.eraseP (·.1 == k), [.removal])
  | sweep drops =>
    (es.filter fun e => !drops e.2, List.replicate (es.countP fun e => drops e.2) .predicateEviction)
  | clear => ([], [])
  | nothing => (es, [])

namespace Edit

variable {limit limit' : Nat} {es es' : List (κ × ν)} {k key : κ} {value old : ν}

theorem apply_put_of_some (hf : es.find? (·.1 == k) = some (key, old)) :
    (put k value).apply limit es = ((key, value) :: es.eraseP (·.1 == k), [.update]) := by
  simp only [apply, hf]

theorem apply_put_of_full (hf : es.find? (·.1 == k) = none) (hfull : limit ≤ es.length) :
    (put k value).apply limit es = ((k, value) :: es.dropLast, [.eviction, .insertion]) := by
  simp only [apply, hf, if_pos hfull]

theorem apply_put_of_room (hf : es.find? (·.1 == k) = none) (hroom : ¬ limit ≤ es.length) :
    (put k value).apply limit es = ((k, value) :: es, [.insertion]) := by
  simp only [apply, hf, if_neg hroom]

variable {update : ν → ν} {drops : ν → Bool}

theorem apply_lookup_of_none (hf : es.find? (·.1 == k) = none) :
    (lookup k update drops).apply limit es = (es, [.miss]) := by
  simp only [apply, hf]

theorem apply_lookup_of_drops (hf : es.find? (·.1 == k) = some (key, value)) (hdrops : drops value = true) :
    (lookup k update drops).apply limit es = (es.eraseP (·.1 == k), [.predicateEviction, .miss]) := by
  simp only [apply, hf, if_pos hdrops]

theorem apply_lookup_of_keeps (hf : es.find? (·.1 == k) = some (key, value)) (hkeeps : ¬ drops value = true) :
    (lookup k update drops).apply limit es = ((key, update value) :: es.eraseP (·.1 == k), [.hit]) := by
  simp only [apply, hf, if_neg hkeeps]

theorem apply_remove_of_none (hf : es.find? (·.1 == k) = none) : (remove k).apply limit es = (es, []) := by
  simp only [apply, hf]

theorem apply_remove_of_some (hf : es.find? (·.1 == k) = some (key, old)) :
    (remove k).apply limit es = (es.eraseP (·.1 == k), [.removal]) := by
  simp only [apply, hf]

end Edit

/-! ### Turns as edits -/

/-- What a turn makes of the list, and what it counts. -/
def Turn.effect (t : Turn κ ν ω ε α) : List (κ × ν) × List Happening :=
  (t.entries, t.counted)

variable (limit : Nat) (k : κ) (es : List (κ × ν)) (caller : ω)

theorem put_edit (value : ν) :
    (put limit k value es caller : Turn κ ν ω ε _).effect = (Edit.put k value).apply limit es := by
  unfold put insert Turn.effect
  cases hf : es.find? (·.1 == k) with
  | some e => exact (Edit.apply_put_of_some hf).symm
  | none =>
    dsimp only
    split
    · rename_i hfull
      exact (Edit.apply_put_of_full hf hfull).symm
    · rename_i hroom
      exact (Edit.apply_put_of_room hf hroom).symm

theorem lookup_edit {update : Update ν ω ε} {evictIf : ν → Callback ω ε Bool} {f : ν → ν} {drops : ν → Bool}
    (hu : update.GoesBy f) (hm : Callback.GoesBy drops evictIf) :
    (lookup k update evictIf es caller).effect = (Edit.lookup k f drops).apply limit es := by
  unfold lookup Turn.effect
  cases hf : es.find? (·.1 == k) with
  | none => exact (Edit.apply_lookup_of_none hf).symm
  | some e =>
    obtain ⟨key, value⟩ := e
    obtain ⟨caller₁, hrun⟩ := hm value locked caller
    dsimp only
    rw [hrun]
    by_cases hdrops : drops value = true
    · rw [hdrops, Edit.apply_lookup_of_drops hf hdrops]
    · obtain ⟨caller₂, hrun'⟩ := hu locked value caller₁
      rw [Bool.eq_false_iff.2 hdrops, Edit.apply_lookup_of_keeps hf hdrops]
      dsimp only
      rw [hrun']

private theorem remove_edit : (remove k es caller : Turn κ ν ω ε _).effect = (Edit.remove k).apply limit es := by
  unfold remove Turn.effect
  cases hf : es.find? (·.1 == k) with
  | none => exact (Edit.apply_remove_of_none hf).symm
  | some e => exact (Edit.apply_remove_of_some hf).symm

omit [BEq κ] in
private theorem sweep_effect {matches? : ν → Callback ω ε Bool} {drops : ν → Bool}
    (hm : Callback.GoesBy drops matches?) :
    (sweep matches? es caller).effect =
      (es.filter fun e => !drops e.2, List.replicate (es.countP fun e => drops e.2) .predicateEviction) := by
  induction es generalizing caller with
  | nil => rfl
  | cons e es ih =>
    obtain ⟨caller', hrun⟩ := hm e.2 locked caller
    obtain ⟨hentries, hcounted⟩ := Prod.mk.inj (ih caller')
    unfold sweep
    rw [hrun]
    by_cases hdrops : drops e.2 = true
    · rw [hdrops, List.filter_cons_of_neg (by simp [hdrops]),
        List.countP_cons_of_pos (p := fun e : κ × ν => drops e.2) hdrops, List.replicate_succ, ← hentries, ← hcounted]
      rfl
    · rw [Bool.eq_false_iff.2 hdrops, List.filter_cons_of_pos (by simp [hdrops]),
        List.countP_cons_of_neg (p := fun e : κ × ν => drops e.2) hdrops, ← hentries, ← hcounted]
      rfl

private theorem removeIf_edit {matches? : ν → Callback ω ε Bool} {drops : ν → Bool}
    (hm : Callback.GoesBy drops matches?) :
    (removeIf matches? es caller).effect = (Edit.sweep drops).apply limit es := by
  obtain ⟨hentries, hcounted⟩ := removeIf_eq es caller matches?
  unfold Turn.effect
  rw [hentries, hcounted]
  exact sweep_effect es caller hm

private theorem keep_goesBy : (Update.keep : Update ν ω ε).GoesBy id :=
  fun _ _ caller => ⟨caller, rfl⟩

theorem keepAll_goesBy : Callback.GoesBy (fun _ => false) (keepAll : ν → Callback ω ε Bool) :=
  fun _ _ caller => ⟨caller, rfl⟩

private theorem getWith_edit (view : ν → Callback ω ε ρ) :
    (getWith k view es caller).effect = (Edit.lookup k id fun _ => false).apply limit es := by
  obtain ⟨hentries, hcounted, -⟩ := getWith_eq k es caller view
  unfold Turn.effect
  rw [hentries, hcounted]
  exact lookup_edit limit k es caller keep_goesBy keepAll_goesBy

/-- A call whose callbacks go by the value does the same edit to every list. -/
theorem step_edit {op : Op κ ν ρ ω ε} (h : op.ByValue) :
    ∃ edit : Edit κ ν, ∀ limit es caller, (step limit op es caller).effect = edit.apply limit es := by
  cases op with
  | put k value => exact ⟨.put k value, fun limit es caller => put_edit limit k es caller value⟩
  | get k =>
    exact ⟨.lookup k id fun _ => false, fun limit es caller =>
      lookup_edit (ε := Empty) limit k es caller keep_goesBy keepAll_goesBy⟩
  | getWith k view => exact ⟨.lookup k id fun _ => false, fun limit es caller => getWith_edit limit k es caller view⟩
  | getAndUpdate k update =>
    obtain ⟨f, hf⟩ := h
    exact ⟨.lookup k f fun _ => false, fun limit es caller => lookup_edit limit k es caller hf keepAll_goesBy⟩
  | getOrEvict k update evictIf | existsOrEvict k update evictIf | tryGetOrEvict k update evictIf
  | tryExistsOrEvict k update evictIf =>
    obtain ⟨⟨f, hf⟩, drops, hdrops⟩ := h
    exact ⟨.lookup k f drops, fun limit es caller => lookup_edit limit k es caller hf hdrops⟩
  | containsKey k => exact ⟨.nothing, fun limit es caller => rfl⟩
  | remove k => exact ⟨.remove k, fun limit es caller => remove_edit limit k es caller⟩
  | removeIf matches? | tryRemoveIf matches? =>
    obtain ⟨drops, hdrops⟩ := h
    exact ⟨.sweep drops, fun limit es caller => removeIf_edit limit es caller hdrops⟩
  | getOrInsertWith | tryGetOrInsertWith => exact h.elim
  | clear => exact ⟨.clear, fun limit es caller => rfl⟩

end Sequence

end RecencyCache
