import RecencyCache.Proofs.Sequence

/-!
# How turns end

A turn stops early only where a callback of its operation does (`step_stopsIn`), never by a counter or a loop
(`step_ne_faulted`), and what it logs tells of the list with which it started (`step_tells`).
-/

namespace RecencyCache

/-! ### How a turn stops early -/

/-- A callback stops early for reasons in `P` only. -/
def Callback.StopsIn {ω ε α : Type} (P : Abort ε → Prop) (f : Callback ω ε α) : Prop :=
  ∀ seen caller e caller', f seen caller = .error e caller' → P e.toAbort

/-- The callbacks of a call stop early for reasons in `P` only. -/
def Cache.Op.StopsIn {κ ν ρ ω ε : Type} (P : Abort ε → Prop) : Cache.Op κ ν ρ ω ε → Prop
  | .put _ _ | .get _ | .containsKey _ | .remove _ | .clear => True
  | .getWith _ view => ∀ value, (view value).StopsIn fun e => P e.widen
  | .getAndUpdate _ update => update.StopsIn fun e => P e.widen
  | .getOrEvict _ update evictIf | .existsOrEvict _ update evictIf =>
    (update.StopsIn fun e => P e.widen) ∧ ∀ value, (evictIf value).StopsIn fun e => P e.widen
  | .tryGetOrEvict _ update evictIf | .tryExistsOrEvict _ update evictIf =>
    update.StopsIn P ∧ ∀ value, (evictIf value).StopsIn P
  | .removeIf matches? => ∀ value, (matches? value).StopsIn fun e => P e.widen
  | .tryRemoveIf matches? => ∀ value, (matches? value).StopsIn P
  | .getOrInsertWith _ make => make.StopsIn fun e => P e.widen
  | .tryGetOrInsertWith _ make => make.StopsIn P

/-- The callbacks of a call always return. -/
def Cache.Op.Returns {κ ν ρ ω ε : Type} (op : Cache.Op κ ν ρ ω ε) : Prop :=
  op.StopsIn fun _ => False

/-- The numbers in an event are right for an operation that started with `before` entries. -/
def Event.Tells (before : Nat) : Event → Prop
  | .created _ => False
  | .clearing entries => entries = before
  | .evictedOldest left => left + 1 = before
  | .evictedOnLookup left => left + 1 = before
  | .swept removed left => removed + left = before

namespace Sequence

open Cache (Op)

variable {κ ν ρ ω ε α β : Type} {P : Abort ε → Prop} (limit : Nat) (k : κ) (es : List (κ × ν)) (caller : ω)

/-! ### Parts of turns -/

theorem insert_ok (value : ν) :
    ∃ evicted, (insert limit k value es caller : Turn κ ν ω ε _).outcome = .ok evicted := by
  unfold insert
  split <;> exact ⟨_, rfl⟩

theorem sweep_sublist (matches? : ν → Callback ω ε Bool) : (sweep matches? es caller).entries.Sublist es := by
  induction es generalizing caller with
  | nil => exact List.Sublist.refl _
  | cons e es ih =>
    unfold sweep
    split
    · exact List.Sublist.refl _
    · exact (ih _).cons _
    · exact (ih _).cons_cons _

theorem sweep_counted (matches? : ν → Callback ω ε Bool) :
    ∃ n, (sweep matches? es caller).counted = List.replicate n .predicateEviction := by
  induction es generalizing caller with
  | nil => exact ⟨0, rfl⟩
  | cons e es ih =>
    unfold sweep
    split
    · exact ⟨0, rfl⟩
    · rename_i caller' _
      obtain ⟨n, hn⟩ := ih caller'
      refine ⟨n + 1, ?_⟩
      rw [List.replicate_succ, ← hn]
      rfl
    · exact ih _

theorem removeIf_eq (matches? : ν → Callback ω ε Bool) :
    (removeIf matches? es caller).entries = (sweep matches? es caller).entries ∧
      (removeIf matches? es caller).counted = (sweep matches? es caller).counted := by
  unfold removeIf Turn.andThen
  split
  · exact ⟨rfl, rfl⟩
  · simp

section

variable [BEq κ]

theorem setValue_keys (value : ν) : (setValue k value es).map (·.1) = es.map (·.1) := by
  induction es with
  | nil => rfl
  | cons e es ih =>
    unfold setValue
    split
    · rfl
    · rw [List.map_cons, List.map_cons, ih]

/-- A lookup that neither drops nor edits. -/
theorem lookup_keep : (lookup k .keep keepAll es caller : Turn κ ν ω ε _) =
    match es.find? (·.1 == k) with
    | none => { outcome := .ok none, entries := es, caller, counted := [.miss] }
    | some (key, value) =>
      { outcome := .ok (some value), entries := (key, value) :: es.eraseP (·.1 == k), caller
        counted := [.hit] } := by
  unfold lookup
  cases es.find? (·.1 == k) <;> rfl

/-- A view changes nothing but the answer and the caller's state. -/
theorem getWith_eq (view : ν → Callback ω ε ρ) :
    (getWith k view es caller).entries = (lookup k .keep keepAll es caller : Turn κ ν ω ε _).entries ∧
      (getWith k view es caller).counted = (lookup k .keep keepAll es caller : Turn κ ν ω ε _).counted ∧
      (getWith k view es caller).logged = (lookup k .keep keepAll es caller : Turn κ ν ω ε _).logged := by
  unfold getWith Turn.andThen
  split
  · exact ⟨rfl, rfl, rfl⟩
  · dsimp only
    split
    · simp
    · split <;> simp

/-- Without the pair of a key that is there, the list is shorter by one. -/
theorem length_eraseP_add_one {es : List (κ × ν)} {k : κ} {e : κ × ν} (h : es.find? (·.1 == k) = some e) :
    (es.eraseP (·.1 == k)).length + 1 = es.length := by
  have hm := List.mem_of_find?_eq_some h
  have hlen := List.length_eraseP_of_mem hm (List.find?_some h)
  have hpos := List.length_pos_of_mem hm
  omega

end

/-! ### Stopping early -/

theorem Turn.outcome_of_map {t : Turn κ ν ω ε α} {f : α → β} {e : Abort ε} (h : (t.map f).outcome = .error e) :
    t.outcome = .error e := by
  obtain ⟨outcome, _⟩ := t
  cases outcome with
  | ok a => cases h
  | error e' =>
    cases h
    rfl

/-- A turn stops early for reasons in `P` only. -/
def Turn.StopsIn (P : Abort ε → Prop) (t : Turn κ ν ω ε α) : Prop :=
  ∀ e, t.outcome = .error e → P e

private theorem Turn.StopsIn.map {t : Turn κ ν ω ε α} (h : t.StopsIn P) (f : α → β) : (t.map f).StopsIn P :=
  fun e he => h e (Turn.outcome_of_map he)

private theorem Turn.StopsIn.widen {t : Turn κ ν ω Empty α} (h : t.StopsIn fun e => P e.widen) :
    (t.widen : Turn κ ν ω ε α).StopsIn P := by
  obtain ⟨outcome, _⟩ := t
  intro e he
  cases outcome with
  | ok a => cases he
  | error e' =>
    cases he
    exact h _ rfl

private theorem keepAll_stopsIn (value : ν) : (keepAll value : Callback ω ε Bool).StopsIn P := by
  intro _ _ _ _ h
  cases h

private theorem keep_stopsIn : (Update.keep : Update ν ω ε).StopsIn P := by
  intro _ _ _ _ h
  cases h

private theorem insert_stopsIn (value : ν) : (insert limit k value es caller : Turn κ ν ω ε _).StopsIn P := by
  intro e he
  unfold insert at he
  split at he <;> cases he

private theorem sweep_stopsIn {matches? : ν → Callback ω ε Bool} (h : ∀ value, (matches? value).StopsIn P) :
    (sweep matches? es caller).StopsIn P := by
  induction es generalizing caller with
  | nil =>
    intro e he
    cases he
  | cons e es ih =>
    unfold sweep
    split
    · rename_i hrun
      intro e he
      cases he
      exact h _ _ _ _ _ hrun
    · exact (ih _).map _
    · exact ih _

private theorem removeIf_stopsIn {matches? : ν → Callback ω ε Bool} (h : ∀ value, (matches? value).StopsIn P) :
    (removeIf matches? es caller).StopsIn P := by
  intro e he
  unfold removeIf Turn.andThen at he
  split at he
  · rename_i hrun
    cases he
    exact sweep_stopsIn es caller h _ hrun
  · cases he

section

variable [BEq κ]

private theorem put_stopsIn (value : ν) : (put limit k value es caller : Turn κ ν ω ε _).StopsIn P := by
  unfold put
  split
  · intro e he
    cases he
  · exact insert_stopsIn limit k es caller value

/-- Making a value on demand stops early where there is none and its factory stops. -/
theorem getOrInsertWith_error {make : Callback ω ε ν} {e : Abort ε}
    (h : (getOrInsertWith limit k make es caller).outcome = .error e) :
    es.find? (·.1 == k) = none ∧ ∃ stop caller', make locked caller = .error stop caller' ∧ e = stop.toAbort := by
  unfold getOrInsertWith at h
  split at h
  · cases h
  · rename_i hf
    refine ⟨hf, ?_⟩
    split at h
    · rename_i stop caller' hrun
      cases h
      exact ⟨stop, caller', hrun, rfl⟩
    · exact (((insert_stopsIn (P := fun _ => False) limit k es _ _).map _) e h).elim

private theorem getOrInsertWith_stopsIn {make : Callback ω ε ν} (h : make.StopsIn P) :
    (getOrInsertWith limit k make es caller).StopsIn P := by
  intro e he
  obtain ⟨-, stop, caller', hstop, rfl⟩ := getOrInsertWith_error limit k es caller he
  exact h _ _ _ _ hstop

/-- A lookup stops early where its predicate stops on the value found, or its update on a value kept. -/
theorem lookup_error {update : Update ν ω ε} {evictIf : ν → Callback ω ε Bool} {e : Abort ε}
    (h : (lookup k update evictIf es caller).outcome = .error e) :
    ∃ key value, es.find? (·.1 == k) = some (key, value) ∧
      ((∃ stop caller', evictIf value locked caller = .error stop caller' ∧ e = stop.toAbort) ∨
        ∃ caller' stop value' caller'', evictIf value locked caller = .ok false caller' ∧
          update locked (value, caller') = .error stop (value', caller'') ∧ e = stop.toAbort) := by
  unfold lookup at h
  split at h
  · cases h
  · rename_i key value hf
    refine ⟨key, value, hf, ?_⟩
    split at h
    · rename_i stop caller' hrun
      cases h
      exact .inl ⟨stop, caller', hrun, rfl⟩
    · cases h
    · rename_i caller' hkeep
      split at h
      · rename_i stop value' caller'' hrun
        cases h
        exact .inr ⟨caller', stop, value', caller'', hkeep, hrun, rfl⟩
      · cases h

private theorem lookup_stopsIn {update : Update ν ω ε} {evictIf : ν → Callback ω ε Bool} (hu : update.StopsIn P)
    (hm : ∀ value, (evictIf value).StopsIn P) : (lookup k update evictIf es caller).StopsIn P := by
  intro e he
  obtain ⟨key, value, -, hstops⟩ := lookup_error k es caller he
  rcases hstops with ⟨stop, caller', hstop, rfl⟩ | ⟨caller', stop, value', caller'', -, hstop, rfl⟩
  · exact hm _ _ _ _ _ hstop
  · exact hu _ _ _ _ hstop

private theorem remove_stopsIn : (remove k es caller : Turn κ ν ω ε _).StopsIn P := by
  intro e he
  unfold remove at he
  split at he <;> cases he

private theorem getWith_stopsIn {view : ν → Callback ω ε ρ} (h : ∀ value, (view value).StopsIn P) :
    (getWith k view es caller).StopsIn P := by
  intro e he
  unfold getWith Turn.andThen at he
  split at he
  · -- a lookup whose predicate and update are built in does not stop
    rename_i hrun
    cases he
    exact lookup_stopsIn k es caller keep_stopsIn keepAll_stopsIn _ hrun
  · dsimp only at he
    split at he
    · cases he
    · split at he
      · rename_i hrun
        cases he
        exact h _ _ _ _ _ hrun
      · cases he

/-- A turn stops early only where a callback does. -/
theorem step_stopsIn {op : Op κ ν ρ ω ε} (h : op.StopsIn P) : (step limit op es caller).StopsIn P := by
  cases op with
  | put k value => exact (put_stopsIn limit k es caller value).map _
  | get k => exact (lookup_stopsIn k es caller keep_stopsIn keepAll_stopsIn).widen.map _
  | getWith k view => exact (getWith_stopsIn k es caller h).widen.map _
  | getAndUpdate k update =>
    have hu : update.StopsIn fun e => P e.widen := h
    exact (lookup_stopsIn k es caller hu keepAll_stopsIn).widen.map _
  | getOrEvict k update evictIf => exact (lookup_stopsIn k es caller h.1 h.2).widen.map _
  | tryGetOrEvict k update evictIf => exact (lookup_stopsIn k es caller h.1 h.2).map _
  | existsOrEvict k update evictIf => exact (lookup_stopsIn k es caller h.1 h.2).widen.map _
  | tryExistsOrEvict k update evictIf => exact (lookup_stopsIn k es caller h.1 h.2).map _
  | removeIf matches? => exact (removeIf_stopsIn es caller h).widen.map _
  | tryRemoveIf matches? => exact (removeIf_stopsIn es caller h).map _
  | getOrInsertWith k make =>
    have hm : make.StopsIn fun e => P e.widen := h
    exact (getOrInsertWith_stopsIn limit k es caller hm).widen.map _
  | tryGetOrInsertWith k make =>
    have hm : make.StopsIn P := h
    exact (getOrInsertWith_stopsIn limit k es caller hm).map _
  | remove k => exact (remove_stopsIn k es caller).map _
  | containsKey k | clear =>
    intro e he
    cases he

/-- No turn stops by a fault that is not one raised by a callback. -/
theorem step_ne_faulted (op : Op κ ν ρ ω ε) {fault : Fault} (h : ∀ message, fault ≠ .raised message) :
    (step limit op es caller).outcome ≠ .error (.faulted fault) := by
  have hstop : ∀ e : Stop ε, e.toAbort ≠ .faulted fault := fun e => by
    cases e with
    | failed e => simp [Stop.toAbort]
    | raised message => simpa [Stop.toAbort] using (h message).symm
  have hwide : ∀ e : Stop Empty, (e.toAbort.widen : Abort ε) ≠ .faulted fault := fun e => by
    cases e with
    | failed e => exact e.elim
    | raised message => simpa [Stop.toAbort, Abort.widen] using (h message).symm
  -- a callback fails or raises, but it has no way to say that a counter overflows or a loop does not end
  have hop : op.StopsIn (· ≠ .faulted fault) := by
    cases op <;> simp [Op.StopsIn, Callback.StopsIn, hstop, hwide]
  exact fun he => step_stopsIn limit es caller hop _ he rfl

private theorem run_stopsIn {ops : List (Op κ ν ρ ω ε)} (h : ∀ op ∈ ops, op.StopsIn P) :
    ∀ t ∈ run limit es caller ops, t.StopsIn P := by
  induction ops generalizing es caller with
  | nil =>
    intro t ht
    cases ht
  | cons op ops ih =>
    intro t ht
    rcases List.mem_cons.1 ht with rfl | ht
    · exact step_stopsIn limit es caller (h op (List.mem_cons_self ..))
    · exact ih _ _ (fun op' hop => h op' (List.mem_cons_of_mem _ hop)) t ht

/-- Where all callbacks return, every turn comes to an answer. -/
theorem run_ok {ops : List (Op κ ν ρ ω ε)} (h : ∀ op ∈ ops, op.Returns) :
    ∀ t ∈ run limit es caller ops, ∃ reply, t.outcome = .ok reply := by
  intro t ht
  cases ho : t.outcome with
  | ok reply => exact ⟨reply, rfl⟩
  | error e => exact (run_stopsIn limit es caller h t ht e ho).elim

end

/-! ### What a turn logs -/

/-- All that a turn logs tells of a list of `before` entries. -/
def Turn.Tells (before : Nat) (t : Turn κ ν ω ε α) : Prop :=
  ∀ event ∈ t.logged, event.Tells before

private theorem Turn.Tells.map {before : Nat} {t : Turn κ ν ω ε α} (h : t.Tells before) (f : α → β) :
    (t.map f).Tells before :=
  h

private theorem Turn.Tells.widen {before : Nat} {t : Turn κ ν ω Empty α} (h : t.Tells before) :
    (t.widen : Turn κ ν ω ε α).Tells before :=
  h

private theorem insert_tells (hl : 0 < limit) (value : ν) :
    (insert limit k value es caller : Turn κ ν ω ε _).Tells es.length := by
  intro event he
  unfold insert at he
  split at he
  · rw [List.mem_singleton] at he
    subst he
    show es.length - 1 + 1 = es.length
    omega
  · cases he

/-- A sweep that comes to its end has either dropped or kept every pair. -/
private theorem sweep_length {matches? : ν → Callback ω ε Bool} {n : Nat}
    (h : (sweep matches? es caller).outcome = .ok n) :
    n + (sweep matches? es caller).entries.length = es.length := by
  induction es generalizing caller n with
  | nil =>
    cases h
    rfl
  | cons e es ih =>
    unfold sweep at h ⊢
    split
    · rename_i hrun
      rw [hrun] at h
      cases h
    · rename_i caller' hrun
      rw [hrun] at h
      cases ho : (sweep matches? es caller').outcome with
      | error e => simp [Turn.counting, Turn.map, ho, Except.map] at h
      | ok m =>
        have hlen := ih caller' ho
        simp [Turn.counting, Turn.map, ho, Except.map] at h
        show n + (sweep matches? es caller').entries.length = _
        rw [List.length_cons]
        omega
    · rename_i caller' hrun
      rw [hrun] at h
      have hlen := ih caller' h
      show n + ((sweep matches? es caller').entries.length + 1) = _
      rw [List.length_cons]
      omega

private theorem sweep_logged (matches? : ν → Callback ω ε Bool) : (sweep matches? es caller).logged = [] := by
  induction es generalizing caller with
  | nil => rfl
  | cons e es ih =>
    unfold sweep
    split
    · rfl
    · exact ih _
    · exact ih _

private theorem removeIf_tells (matches? : ν → Callback ω ε Bool) : (removeIf matches? es caller).Tells es.length := by
  intro event he
  unfold removeIf Turn.andThen at he
  split at he
  · rw [sweep_logged] at he
    cases he
  · rename_i n hn
    dsimp only at he
    rw [sweep_logged, List.nil_append] at he
    split at he
    · rw [List.mem_singleton] at he
      subst he
      exact sweep_length es caller hn
    · cases he

variable [BEq κ]

private theorem put_tells (hl : 0 < limit) (value : ν) :
    (put limit k value es caller : Turn κ ν ω ε _).Tells es.length := by
  unfold put
  split
  · intro event he
    cases he
  · exact insert_tells limit k es caller hl value

private theorem getOrInsertWith_tells (hl : 0 < limit) (make : Callback ω ε ν) :
    (getOrInsertWith limit k make es caller).Tells es.length := by
  unfold getOrInsertWith
  split
  · intro event he
    cases he
  · split
    · intro event he
      cases he
    · exact insert_tells limit k es _ hl _

private theorem lookup_tells (update : Update ν ω ε) (evictIf : ν → Callback ω ε Bool) :
    (lookup k update evictIf es caller).Tells es.length := by
  intro event he
  unfold lookup at he
  split at he
  · cases he
  · rename_i hf
    split at he
    · cases he
    · rw [List.mem_singleton] at he
      subst he
      exact length_eraseP_add_one hf
    · -- nothing is logged of an entry that stays
      split at he <;> cases he

private theorem getWith_tells (view : ν → Callback ω ε ρ) : (getWith k view es caller).Tells es.length := by
  intro event he
  rw [(getWith_eq k es caller view).2.2] at he
  exact lookup_tells k es caller _ _ event he

private theorem remove_tells : (remove k es caller : Turn κ ν ω ε _).Tells es.length := by
  intro event he
  unfold remove at he
  split at he <;> cases he

/-- The numbers that an operation logs are right for the list with which it started. -/
theorem step_tells (hl : 0 < limit) (op : Op κ ν ρ ω ε) : (step limit op es caller).Tells es.length := by
  cases op with
  | put k value => exact (put_tells limit k es caller hl value).map _
  | get k => exact (lookup_tells k es caller _ _).widen.map _
  | getWith k view => exact (getWith_tells k es caller view).widen.map _
  | getAndUpdate k update => exact (lookup_tells k es caller update _).widen.map _
  | getOrEvict k update evictIf => exact (lookup_tells k es caller update evictIf).widen.map _
  | tryGetOrEvict k update evictIf => exact (lookup_tells k es caller update evictIf).map _
  | existsOrEvict k update evictIf => exact (lookup_tells k es caller update evictIf).widen.map _
  | tryExistsOrEvict k update evictIf => exact (lookup_tells k es caller update evictIf).map _
  | remove k => exact (remove_tells k es caller).map _
  | removeIf matches? => exact (removeIf_tells es caller matches?).widen.map _
  | tryRemoveIf matches? => exact (removeIf_tells es caller matches?).map _
  | getOrInsertWith k make => exact (getOrInsertWith_tells limit k es caller hl make).widen.map _
  | tryGetOrInsertWith k make => exact (getOrInsertWith_tells limit k es caller hl make).map _
  | containsKey k => exact fun _ he => nomatch he
  | clear =>
    intro event he
    cases List.mem_singleton.1 he
    rfl

end Sequence

end RecencyCache
