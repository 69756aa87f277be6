import RecencyCache.Proofs.Keyed
import RecencyCache.Proofs.Sequence.Turns

/-!
# Recency

A call touches a key when it creates its entry, puts to it or hits it; how the call ended tells (`Op.touched`).  All
that a turn does to the keys of a list is told by `Moves`, and `step_moves` says that every turn is one of its cases.
So a turn that has lost an entry for lack of room has lost the last one of a full list (`Moves.of_gone`), and while the
keys are few enough none is lost (`Moves.among`).
-/

namespace RecencyCache

/-! ### Touching -/

namespace Cache

variable {κ ν ρ ω ε : Type}

/-- The key for which a call creates an entry where there is none. -/
def Op.stores : Op κ ν ρ ω ε → Option κ
  | .put k _ | .getOrInsertWith k _ | .tryGetOrInsertWith k _ => some k
  | _ => none

/-- The key whose entry a call has created, put to or hit, as its end tells.  A view that stops early stops after the
hit; every other callback stops before it. -/
def Op.touched : Op κ ν ρ ω ε → Outcome κ ν ρ ε → Option κ
  | .put k _, _ => some k
  | .getWith _ _, .ok (.viewed none) => none
  | .getWith k _, _ => some k
  | .get k, .ok (.found (some _)) | .getAndUpdate k _, .ok (.found (some _)) => some k
  | .getOrEvict k _ _, .ok (.found (some _)) | .tryGetOrEvict k _ _, .ok (.found (some _)) => some k
  | .existsOrEvict k _ _, .ok (.present true) | .tryExistsOrEvict k _ _, .ok (.present true) => some k
  | .getOrInsertWith k _, .ok _ | .tryGetOrInsertWith k _, .ok _ => some k
  | _, _ => none

end Cache

namespace Sequence

open Cache (Op Reply)

variable {κ ν ρ ω ε α β : Type} [BEq κ]

/-- What a turn that is to create an entry for `stores`, and has touched `touched`, can have made of `es`, having
evicted so many. -/
inductive Moves (limit : Nat) (stores touched : Option κ) (es : List (κ × ν)) : List (κ × ν) → Nat → Prop
  | keeps {es'} : touched = none → (es'.map (·.1)).Sublist (es.map (·.1)) → (stores.isSome → es' = es) →
    Moves limit stores touched es es' 0
  | hits {k key value old L R} : touched = some k → (key == k) = true → es = L ++ (key, old) :: R →
    Moves limit stores touched es ((key, value) :: (L ++ R)) 0
  | inserts {k value} : touched = some k → stores = some k → es.find? (·.1 == k) = none → es.length < limit →
    Moves limit stores touched es ((k, value) :: es) 0
  | displaces {k value rest last} : touched = some k → stores = some k → es.find? (·.1 == k) = none →
    limit ≤ es.length → es = rest ++ [last] → Moves limit stores touched es ((k, value) :: rest) 1

namespace Moves

variable {limit n : Nat} {stores touched : Option κ} {es es' : List (κ × ν)} [EquivBEq κ]

/-- Where a turn that is to create an entry has lost one, that was the last one of a full list. -/
theorem of_gone (h : Moves limit stores touched es es' n) {k : κ} {e : κ × ν} (hs : stores = some k) (he : e ∈ es)
    (hgone : ∀ x ∈ es', (x.1 == e.1) = false) :
    n = 1 ∧ touched = some k ∧ es.find? (·.1 == k) = none ∧ limit ≤ es.length ∧ ∃ rest, es = rest ++ [e] := by
  have hne : ∀ x ∈ es', x.1 ≠ e.1 := fun x hx hkey => by simpa [hkey] using hgone x hx
  cases h with
  | keeps _ _ hkeep =>
    -- a call that is to create an entry and does not loses none
    rw [hkeep (by simp [hs])] at hne
    exact absurd rfl (hne e he)
  | @hits k' key value old L R _ _ hes =>
    subst hes
    have he' : e = (key, old) ∨ e ∈ L ++ R := by simpa [or_left_comm] using he
    rcases he' with rfl | he'
    · exact absurd rfl (hne (key, value) (List.mem_cons_self ..))
    · exact absurd rfl (hne e (List.mem_cons_of_mem _ he'))
  | inserts => exact absurd rfl (hne e (List.mem_cons_of_mem _ he))
  | @displaces k' value rest last ht hs' hf hlimit hes =>
    cases hs.symm.trans hs'
    rw [hes, List.mem_append, List.mem_singleton] at he
    rcases he with he | rfl
    · exact absurd rfl (hne e (List.mem_cons_of_mem _ he))
    · exact ⟨rfl, ht, hf, hlimit, rest, hes⟩

/-- A turn keeps keys distinct. -/
theorem distinct (h : Moves limit stores touched es es' n) (hd : Distinct (es.map (·.1))) :
    Distinct (es'.map (·.1)) := by
  cases h with
  | keeps _ hs => exact hd.sublist hs
  | hits _ _ hes =>
    subst hes
    have hmove := hd.move
    exact hmove
  | inserts _ _ hf => exact Distinct.cons_iff.2 ⟨fun k' hk' => beq_eq_false_of_find? hf hk', hd⟩
  | displaces _ _ hf _ hes =>
    subst hes
    rw [List.map_append] at hd
    refine Distinct.cons_iff.2 ⟨fun k' hk' => beq_eq_false_of_find? hf ?_, hd.sublist (List.sublist_append_left ..)⟩
    rw [List.map_append]
    exact List.mem_append_left _ hk'

/-- A turn that has evicted is to create an entry and has lost one. -/
theorem exists_gone (h : Moves limit stores touched es es' n) (hd : Distinct (es.map (·.1))) (hn : n ≠ 0) :
    ∃ k e, stores = some k ∧ e ∈ es ∧ ∀ x ∈ es', (x.1 == e.1) = false := by
  cases h with
  | keeps | hits | inserts => exact absurd rfl hn
  | @displaces k value rest last _ hs hf _ hes =>
    subst hes
    refine ⟨k, last, hs, by simp, fun x hx => ?_⟩
    rcases List.mem_cons.1 hx with rfl | hx
    · exact beq_eq_false_of_find? hf (by simp)
    · exact hd.not_beq_of_mem (by simpa using hx)

/-- Keys come in only with new pairs, and while they are no more than the list has room for, none is evicted. -/
theorem among (h : Moves limit stores touched es es' n) (hd : Distinct (es.map (·.1))) {keys : List κ}
    (hlimit : keys.length ≤ limit) (hes : ∀ k ∈ es.map (·.1), ∃ k' ∈ keys, (k == k') = true)
    (hnew : ∀ k, stores = some k → touched = some k → es.find? (·.1 == k) = none → ∃ k' ∈ keys, (k == k') = true) :
    n = 0 ∧ ∀ k ∈ es'.map (·.1), ∃ k' ∈ keys, (k == k') = true := by
  cases h with
  | keeps _ hs => exact ⟨rfl, fun k hk => hes k (hs.subset hk)⟩
  | @hits k key value old L R _ _ heq =>
    subst heq
    refine ⟨rfl, fun k' hk' => hes k' ?_⟩
    simpa [or_left_comm] using hk'
  | @inserts k value ht hs hf =>
    refine ⟨rfl, fun k' hk' => ?_⟩
    rcases List.mem_cons.1 hk' with rfl | hk'
    · exact hnew _ hs ht hf
    · exact hes k' hk'
  | @displaces k value rest last ht hs hf hfull =>
    -- the new key and those of a full list are too many
    have hall : ∀ k' ∈ k :: es.map (·.1), ∃ k'' ∈ keys, (k' == k'') = true := by
      intro k' hk'
      rcases List.mem_cons.1 hk' with rfl | hk'
      · exact hnew _ hs ht hf
      · exact hes k' hk'
    have hdistinct : Distinct (k :: es.map (·.1)) :=
      Distinct.cons_iff.2 ⟨fun k' hk' => beq_eq_false_of_find? hf hk', hd⟩
    have hlen := hdistinct.length_le hall
    rw [List.length_cons, List.length_map] at hlen
    omega

end Moves

/-- What a turn that is to create an entry for `stores` does to `es`, where its end tells what it has touched. -/
def Turn.Moves (limit : Nat) (stores : Option κ) (touched : Except (Abort ε) α → Option κ) (es : List (κ × ν))
    (t : Turn κ ν ω ε α) : Prop :=
  Sequence.Moves limit stores (touched t.outcome) es t.entries (tally t.counted .evictions)

namespace Turn.Moves

variable {limit : Nat} {stores : Option κ} {es : List (κ × ν)}

private theorem map {t : Turn κ ν ω ε α} {touched : Except (Abort ε) α → Option κ} (h : t.Moves limit stores touched es)
    {touched' : Except (Abort ε) β → Option κ} {f : α → β} (hok : ∀ a, touched' (.ok (f a)) = touched (.ok a))
    (herror : ∀ e, touched' (.error e) = touched (.error e)) : (t.map f).Moves limit stores touched' es := by
  have ht : touched' (t.map f).outcome = touched t.outcome := by
    unfold Turn.map
    cases t.outcome with
    | ok a => exact hok a
    | error e => exact herror e
  unfold Turn.Moves
  rw [ht]
  exact h

private theorem widen {t : Turn κ ν ω Empty α} {touched : Except (Abort Empty) α → Option κ}
    (h : t.Moves limit stores touched es) (touched' : Except (Abort ε) α → Option κ)
    (hok : ∀ a, touched' (.ok a) = touched (.ok a)) (herror : ∀ e, touched' (.error e.widen) = touched (.error e)) :
    t.widen.Moves limit stores touched' es := by
  have ht : touched' t.widen.outcome = touched t.outcome := by
    unfold Turn.widen
    cases t.outcome with
    | ok a => exact hok a
    | error e => exact herror e
  unfold Turn.Moves
  rw [ht]
  exact h

end Turn.Moves

/-- A lookup has touched its key when it has found a value and kept it. -/
private def lookedUp {ε' : Type} (k : κ) : Except ε' (Option ν) → Option κ
  | .ok (some _) => some k
  | _ => none

/-- A view has touched its key unless there was nothing to view. -/
private def viewed {ε' : Type} (k : κ) : Except ε' (Option ρ) → Option κ
  | .ok none => none
  | _ => some k

/-- A value made on demand has touched its key unless it could not be made. -/
private def made {ε' : Type} (k : κ) : Except ε' ν → Option κ
  | .ok _ => some k
  | .error _ => none

variable (limit : Nat) (k : κ) {es : List (κ × ν)} (caller : ω)

private theorem insert_moves (hl : 0 < limit) (hf : es.find? (·.1 == k) = none) (value : ν) :
    (insert limit k value es caller : Turn κ ν ω ε _).Moves limit (some k) (fun _ => some k) es := by
  unfold insert Turn.Moves
  split
  · rename_i hfull
    rcases List.eq_nil_or_concat es with rfl | ⟨rest, last, rfl⟩
    · exact absurd hfull (Nat.not_le_of_lt hl)
    · rw [List.concat_eq_append] at *
      rw [List.dropLast_concat]
      exact .displaces rfl rfl hf hfull rfl
  · exact .inserts rfl rfl hf (by omega)

private theorem remove_moves : (remove k es caller : Turn κ ν ω ε _).Moves limit none (fun _ => none) es := by
  unfold remove Turn.Moves
  split
  · exact .keeps rfl (List.Sublist.refl _) nofun
  · exact .keeps rfl (List.eraseP_sublist.map _) nofun

private theorem removeIf_moves (matches? : ν → Callback ω ε Bool) :
    (removeIf matches? es caller).Moves limit none (fun _ => none) es := by
  obtain ⟨hentries, hcounted⟩ := removeIf_eq es caller matches?
  obtain ⟨n, hn⟩ := sweep_counted es caller matches?
  unfold Turn.Moves
  rw [hentries, hcounted, hn, tally_replicate]
  exact .keeps rfl ((sweep_sublist es caller matches?).map _) nofun

variable [EquivBEq κ]

/-- The list of a key that is found, with the pair put in front. -/
private theorem hits_of_find? (hd : Distinct (es.map (·.1))) {stores : Option κ} {key : κ} {old : ν}
    (hf : es.find? (·.1 == k) = some (key, old)) (value : ν) :
    Moves limit stores (some k) es ((key, value) :: es.eraseP (·.1 == k)) 0 := by
  obtain ⟨hk, L, R, rfl⟩ := exists_split_of_find? hf
  rw [hd.eraseP_eq hk]
  exact .hits rfl hk rfl

private theorem put_moves (hl : 0 < limit) (hd : Distinct (es.map (·.1))) (value : ν) :
    (put limit k value es caller : Turn κ ν ω ε _).Moves limit (some k) (fun _ => some k) es := by
  unfold put
  split
  · rename_i hf
    exact hits_of_find? limit k hd hf value
  · rename_i hf
    exact insert_moves limit k caller hl hf value

private theorem getOrInsertWith_moves (hl : 0 < limit) (hd : Distinct (es.map (·.1))) (make : Callback ω ε ν) :
    (getOrInsertWith limit k make es caller).Moves limit (some k) (made k) es := by
  unfold getOrInsertWith
  split
  · rename_i hf
    exact hits_of_find? limit k hd hf _
  · rename_i hf
    split
    · exact .keeps rfl (List.Sublist.refl _) fun _ => rfl
    · rename_i value caller' hrun
      obtain ⟨evicted, ho⟩ := insert_ok (ε := ε) limit k es caller' value
      have hmade : made k ((insert limit k value es caller' : Turn κ ν ω ε _).map fun _ => value).outcome =
          some k := by
        unfold Turn.map
        rw [ho]
        rfl
      have hinsert := insert_moves (ε := ε) limit k caller' hl hf value
      show Moves limit (some k) (made k ((insert limit k value es caller').map fun _ => value).outcome) es _ _
      rw [hmade]
      exact hinsert

private theorem lookup_moves (hd : Distinct (es.map (·.1))) (update : Update ν ω ε) (evictIf : ν → Callback ω ε Bool) :
    (lookup k update evictIf es caller).Moves limit none (lookedUp k) es := by
  unfold lookup
  split
  · exact .keeps rfl (List.Sublist.refl _) nofun
  · rename_i hf
    split
    · exact .keeps rfl (List.Sublist.refl _) nofun
    · exact .keeps rfl (List.eraseP_sublist.map _) nofun
    · split
      · refine .keeps rfl ?_ nofun
        rw [setValue_keys]
      · exact hits_of_find? limit k hd hf _

private theorem getWith_moves (hd : Distinct (es.map (·.1))) (view : ν → Callback ω ε ρ) :
    (getWith k view es caller).Moves limit none (viewed k) es := by
  unfold getWith
  rw [lookup_keep]
  split
  · exact .keeps rfl (List.Sublist.refl _) nofun
  · rename_i key value hf
    have hits : Moves limit none (some k) es ((key, value) :: es.eraseP (·.1 == k)) 0 :=
      hits_of_find? limit k hd hf value
    dsimp only [Turn.andThen]
    cases view value locked caller <;> exact hits

/-- All that a turn does to the keys of the list. -/
theorem step_moves (hl : 0 < limit) (hd : Distinct (es.map (·.1))) (op : Op κ ν ρ ω ε) :
    (step limit op es caller).Moves limit op.stores op.touched es := by
  have hwide : ∀ (k : κ) {t : Turn κ ν ω Empty (Option ν)}, t.Moves limit none (lookedUp k) es →
      (t.widen : Turn κ ν ω ε _).Moves limit none (lookedUp k) es := by
    intro k t ht
    refine ht.widen _ (fun value? => ?_) fun _ => rfl
    cases value? <;> rfl
  cases op with
  | put k value => exact (put_moves limit k caller hl hd value).map (fun _ => rfl) fun _ => rfl
  | get k =>
    refine (hwide k (lookup_moves limit k caller hd _ _)).map (fun value? => ?_) fun _ => rfl
    cases value? <;> rfl
  | getWith k view =>
    refine ((getWith_moves limit k caller hd view).widen (viewed k) (fun answer? => ?_) fun _ => rfl).map
      (fun answer? => ?_) fun _ => rfl
    · cases answer? <;> rfl
    · cases answer? <;> rfl
  | getAndUpdate k update =>
    refine (hwide k (lookup_moves limit k caller hd update _)).map (fun value? => ?_) fun _ => rfl
    cases value? <;> rfl
  | getOrEvict k update evictIf | existsOrEvict k update evictIf =>
    refine (hwide k (lookup_moves limit k caller hd update evictIf)).map (fun value? => ?_) fun _ => rfl
    cases value? <;> rfl
  | tryGetOrEvict k update evictIf | tryExistsOrEvict k update evictIf =>
    refine (lookup_moves limit k caller hd update evictIf).map (fun value? => ?_) fun _ => rfl
    cases value? <;> rfl
  | containsKey k => exact .keeps rfl (List.Sublist.refl _) nofun
  | remove k => exact (remove_moves limit k caller).map (fun _ => rfl) fun _ => rfl
  | removeIf matches? =>
    exact ((removeIf_moves limit caller matches?).widen (fun _ => none) (fun _ => rfl) fun _ => rfl).map
      (fun _ => rfl) fun _ => rfl
  | tryRemoveIf matches? => exact (removeIf_moves limit caller matches?).map (fun _ => rfl) fun _ => rfl
  | getOrInsertWith k make =>
    have hwiden := (getOrInsertWith_moves limit k caller hl hd make).widen (made k : Except (Abort ε) ν → Option κ)
      (fun _ => rfl) fun _ => rfl
    exact hwiden.map (fun _ => rfl) fun _ => rfl
  | tryGetOrInsertWith k make =>
    exact (getOrInsertWith_moves limit k caller hl hd make).map (fun _ => rfl) fun _ => rfl
  | clear => exact .keeps rfl (List.nil_sublist _) nofun

end Sequence

end RecencyCache
