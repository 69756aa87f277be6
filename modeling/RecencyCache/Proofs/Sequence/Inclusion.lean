import Mathlib.Data.List.Forall2
import RecencyCache.Proofs.Keyed
import RecencyCache.Proofs.Sequence.Edits

/-!
# More room keeps more

Two lists of different room go through the same edits.  Every edit keeps the smaller list within the larger one, with
no more free places than that has, and the smaller list hits less and evicts more (`Edit.keeps`): what the smaller one
finds the larger one finds too, with the same value.
-/

namespace RecencyCache

namespace Sequence

open Metrics (Happening)

variable {κ ν : Type} [BEq κ]

/-! ### Lists within lists -/

/-- Two pairs with equal keys and the same value. -/
def Alike (e e' : κ × ν) : Prop :=
  (e.1 == e'.1) = true ∧ e.2 = e'.2

/-- The pairs of a list stand in another, in the same order. -/
abbrev Covered (es es' : List (κ × ν)) : Prop :=
  List.SublistForall₂ Alike es es'

namespace Covered

variable {es es' : List (κ × ν)}

private theorem length_le (h : Covered es es') : es.length ≤ es'.length := by
  obtain ⟨l, hl, hs⟩ := List.sublistForall₂_iff.1 h
  rw [hl.length_eq]
  exact hs.length_le

private theorem of_sublist {l : List (κ × ν)} (h : Covered es es') (hs : l.Sublist es) : Covered l es' := by
  induction h generalizing l with
  | nil =>
    rw [List.sublist_nil.1 hs]
    exact .nil
  | cons hr _ ih =>
    cases hs with
    | cons _ hs => exact .cons_right (ih hs)
    | cons_cons _ hs => exact .cons hr (ih hs)
  | cons_right _ ih => exact .cons_right (ih hs)

private theorem exists_alike (h : Covered es es') {e : κ × ν} (he : e ∈ es) : ∃ e' ∈ es', Alike e e' := by
  induction h with
  | nil => cases he
  | cons hr _ ih =>
    rcases List.mem_cons.1 he with rfl | he
    · exact ⟨_, List.mem_cons_self .., hr⟩
    · obtain ⟨e', he', hr'⟩ := ih he
      exact ⟨e', List.mem_cons_of_mem _ he', hr'⟩
  | cons_right _ ih =>
    obtain ⟨e', he', hr'⟩ := ih he
    exact ⟨e', List.mem_cons_of_mem _ he', hr'⟩

private theorem dropLast (h : Covered es es') : Covered es.dropLast es'.dropLast := by
  induction h with
  | nil => exact .nil
  | @cons a b l l' hr hl ih =>
    cases hl with
    | nil => exact .nil
    | cons hr' hl' => exact .cons hr ih
    | cons_right hl' =>
      -- the last of the larger list may be one that the smaller one does not have
      cases l with
      | nil => exact .nil
      | cons a' l => exact .cons hr ih
  | @cons_right b l l' hl ih =>
    cases l' with
    | nil =>
      cases hl
      exact .nil
    | cons b' l' => exact .cons_right ih

variable {p : κ × ν → Bool}

private theorem filter (h : Covered es es') (hp : ∀ {e e'}, Alike e e' → p e = p e') :
    Covered (es.filter p) (es'.filter p) := by
  induction h with
  | nil => exact .nil
  | @cons a b l l' hr _ ih =>
    rw [List.filter_cons, List.filter_cons, ← hp hr]
    split
    · exact .cons hr ih
    · exact ih
  | @cons_right b l l' _ ih =>
    rw [List.filter_cons]
    split
    · exact .cons_right ih
    · exact ih

private theorem eraseP (h : Covered es es') (hp : ∀ {e e'}, Alike e e' → p e = p e') :
    Covered (es.eraseP p) (es'.eraseP p) := by
  induction h with
  | nil => exact .nil
  | @cons a b l l' hr hl ih =>
    rw [List.eraseP_cons, List.eraseP_cons, ← hp hr]
    cases p a with
    | true => exact hl
    | false => exact .cons hr ih
  | @cons_right b l l' hl ih =>
    rw [List.eraseP_cons]
    cases p b with
    | true => exact of_sublist hl List.eraseP_sublist
    | false => exact .cons_right ih

variable [EquivBEq κ] {k : κ}

private theorem beq_congr {e e' : κ × ν} (h : Alike e e') : (e.1 == k) = (e'.1 == k) :=
  BEq.congr_left h.1

/-- What is found in a list is found in one that covers it. -/
private theorem find?_some (h : Covered es es') (hd : Distinct (es'.map (·.1))) {key : κ} {value : ν}
    (hf : es.find? (·.1 == k) = some (key, value)) :
    ∃ key', es'.find? (·.1 == k) = some (key', value) ∧ (key == key') = true := by
  obtain ⟨⟨key', value'⟩, he', hr⟩ := h.exists_alike (List.mem_of_find?_eq_some hf)
  cases hr.2
  obtain ⟨L, R, rfl⟩ := List.append_of_mem he'
  have hkey : (key == k) = true := by simpa using List.find?_some hf
  have hk : (key' == k) = true := (beq_congr hr).symm.trans hkey
  exact ⟨key', hd.find?_of_beq hk, hr.1⟩

/-- Dropping what the smaller list does not have. -/
private theorem eraseP_right (h : Covered es es') (hf : es.find? (·.1 == k) = none) :
    Covered es (es'.eraseP (·.1 == k)) := by
  have herase := h.eraseP (p := (·.1 == k)) beq_congr
  rwa [List.eraseP_of_forall_not (List.find?_eq_none.1 hf)] at herase

end Covered

/-! ### Fewer and more -/

/-- What two runs have counted is ordered as it should be for a smaller and a larger list. -/
structure Fewer (m m' : Counter → Nat) : Prop where
  requests : m .requests = m' .requests
  hits : m .hits ≤ m' .hits
  updates : m .updates ≤ m' .updates
  predicateEvictions : m .predicateEvictions ≤ m' .predicateEvictions
  removals : m .removals ≤ m' .removals
  insertions : m' .insertions ≤ m .insertions
  evictions : m' .evictions ≤ m .evictions

private theorem fewer_iff {m m' : Counter → Nat} : Fewer m m' ↔
    m .requests = m' .requests ∧ m .hits ≤ m' .hits ∧ m .updates ≤ m' .updates ∧
      m .predicateEvictions ≤ m' .predicateEvictions ∧ m .removals ≤ m' .removals ∧
      m' .insertions ≤ m .insertions ∧ m' .evictions ≤ m .evictions :=
  ⟨fun ⟨h1, h2, h3, h4, h5, h6, h7⟩ => ⟨h1, h2, h3, h4, h5, h6, h7⟩,
    fun ⟨h1, h2, h3, h4, h5, h6, h7⟩ => ⟨h1, h2, h3, h4, h5, h6, h7⟩⟩

instance (m m' : Counter → Nat) : Decidable (Fewer m m') :=
  decidable_of_iff _ fewer_iff.symm

theorem Fewer.add {m m' n n' : Counter → Nat} (h : Fewer m m') (h' : Fewer n n') :
    Fewer (fun c => m c + n c) fun c => m' c + n' c :=
  ⟨congrArg₂ (· + ·) h.requests h'.requests, Nat.add_le_add h.hits h'.hits, Nat.add_le_add h.updates h'.updates,
    Nat.add_le_add h.predicateEvictions h'.predicateEvictions, Nat.add_le_add h.removals h'.removals,
    Nat.add_le_add h.insertions h'.insertions, Nat.add_le_add h.evictions h'.evictions⟩

/-- The smaller list stands in the larger one, which has at least as many free places. -/
structure Within (limit limit' : Nat) (es es' : List (κ × ν)) : Prop where
  covered : Covered es es'
  room : limit - es.length ≤ limit' - es'.length

/-! ### Edits of a smaller and a larger list -/

namespace Edit

variable {limit limit' : Nat} {es es' : List (κ × ν)} {k : κ}

/-- What has become of the smaller list stands in what has become of the larger one. -/
structure Keeps (limit limit' : Nat) (x x' : List (κ × ν) × List Happening) : Prop where
  within : Within limit limit' x.1 x'.1
  fewer : Fewer (tally x.2) (tally x'.2)

private theorem Keeps.of {counted counted' : List Happening} (hw : Within limit limit' es es')
    (hc : Fewer (tally counted) (tally counted')) : Keeps limit limit' (es, counted) (es', counted') :=
  ⟨hw, hc⟩

variable [EquivBEq κ]

private theorem put_keeps (h : Within limit limit' es es') (hd' : Distinct (es'.map (·.1))) (hle : es.length ≤ limit)
    (hle' : es'.length ≤ limit') (hl : 0 < limit) :
    Keeps limit limit' ((put k value).apply limit es) ((put k value).apply limit' es') := by
  have hroom := h.room
  cases hf : es.find? (·.1 == k) with
  | some e =>
    obtain ⟨key, old⟩ := e
    obtain ⟨key', hf', hkey⟩ := h.covered.find?_some hd' hf
    have hlen := length_eraseP_add_one hf
    have hlen' := length_eraseP_add_one hf'
    rw [apply_put_of_some hf, apply_put_of_some hf']
    refine .of ⟨.cons ⟨hkey, rfl⟩ (h.covered.eraseP Covered.beq_congr), ?_⟩ (by decide)
    rw [List.length_cons, List.length_cons, hlen, hlen']
    exact hroom
  | none =>
    cases hf' : es'.find? (·.1 == k) with
    | some e' =>
      -- an update in the larger list only
      obtain ⟨key', old'⟩ := e'
      have hkey : (k == key') = true := BEq.symm (by simpa using List.find?_some hf')
      have hlen' := length_eraseP_add_one hf'
      have hrest := h.covered.eraseP_right hf
      rw [apply_put_of_some hf']
      by_cases hfull : limit ≤ es.length
      · rw [apply_put_of_full hf hfull]
        refine .of ⟨.cons ⟨hkey, rfl⟩ (hrest.of_sublist (List.dropLast_sublist es)), ?_⟩ (by decide)
        simp only [List.length_cons, List.length_dropLast]
        omega
      · rw [apply_put_of_room hf hfull]
        refine .of ⟨.cons ⟨hkey, rfl⟩ hrest, ?_⟩ (by decide)
        simp only [List.length_cons]
        omega
    | none =>
      by_cases hfull : limit ≤ es.length
      · -- the smaller list drops its last pair, the larger one perhaps its own
        rw [apply_put_of_full hf hfull]
        by_cases hfull' : limit' ≤ es'.length
        · rw [apply_put_of_full hf' hfull']
          refine .of ⟨.cons ⟨BEq.rfl, rfl⟩ h.covered.dropLast, ?_⟩ (by decide)
          simp only [List.length_cons, List.length_dropLast]
          omega
        · rw [apply_put_of_room hf' hfull']
          refine .of ⟨.cons ⟨BEq.rfl, rfl⟩ (h.covered.of_sublist (List.dropLast_sublist es)), ?_⟩
            (by decide)
          simp only [List.length_cons, List.length_dropLast]
          omega
      · -- where the smaller list has room, the larger one has, too
        have hfull' : ¬ limit' ≤ es'.length := by omega
        rw [apply_put_of_room hf hfull, apply_put_of_room hf' hfull']
        refine .of ⟨.cons ⟨BEq.rfl, rfl⟩ h.covered, ?_⟩ (by decide)
        simp only [List.length_cons]
        omega

private theorem lookup_keeps (h : Within limit limit' es es') (hd' : Distinct (es'.map (·.1)))
    (hle' : es'.length ≤ limit') (update : ν → ν) (drops : ν → Bool) :
    Keeps limit limit' ((lookup k update drops).apply limit es) ((lookup k update drops).apply limit' es') := by
  have hroom := h.room
  have hlength := h.covered.length_le
  cases hf : es.find? (·.1 == k) with
  | some e =>
    obtain ⟨key, value⟩ := e
    obtain ⟨key', hf', hkey⟩ := h.covered.find?_some hd' hf
    have hlen := length_eraseP_add_one hf
    have hlen' := length_eraseP_add_one hf'
    have hrest := h.covered.eraseP (p := (·.1 == k)) Covered.beq_congr
    by_cases hdrops : drops value = true
    · rw [apply_lookup_of_drops hf hdrops, apply_lookup_of_drops hf' hdrops]
      refine .of ⟨hrest, ?_⟩ (by decide)
      omega
    · rw [apply_lookup_of_keeps hf hdrops, apply_lookup_of_keeps hf' hdrops]
      refine .of ⟨.cons ⟨hkey, rfl⟩ hrest, ?_⟩ (by decide)
      rw [List.length_cons, List.length_cons, hlen, hlen']
      exact hroom
  | none =>
    rw [apply_lookup_of_none hf]
    cases hf' : es'.find? (·.1 == k) with
    | some e' =>
      -- found in the larger list only
      obtain ⟨key', value'⟩ := e'
      have hlen' := length_eraseP_add_one hf'
      have hrest := h.covered.eraseP_right hf
      by_cases hdrops : drops value' = true
      · rw [apply_lookup_of_drops hf' hdrops]
        refine .of ⟨hrest, ?_⟩ (by decide)
        omega
      · rw [apply_lookup_of_keeps hf' hdrops]
        refine .of ⟨.cons_right hrest, ?_⟩ (by decide)
        rw [List.length_cons, hlen']
        exact hroom
    | none =>
      rw [apply_lookup_of_none hf']
      exact .of h (by decide)

private theorem remove_keeps (h : Within limit limit' es es') (hd' : Distinct (es'.map (·.1)))
    (hle' : es'.length ≤ limit') :
    Keeps limit limit' ((remove k).apply limit es) ((remove k).apply limit' es') := by
  have hroom := h.room
  cases hf : es.find? (·.1 == k) with
  | some e =>
    obtain ⟨key, value⟩ := e
    obtain ⟨key', hf', -⟩ := h.covered.find?_some hd' hf
    have hlen := length_eraseP_add_one hf
    have hlen' := length_eraseP_add_one hf'
    rw [apply_remove_of_some hf, apply_remove_of_some hf']
    refine .of ⟨h.covered.eraseP Covered.beq_congr, ?_⟩ (by decide)
    omega
  | none =>
    rw [apply_remove_of_none hf]
    cases hf' : es'.find? (·.1 == k) with
    | some e' =>
      have hlen' := length_eraseP_add_one hf'
      rw [apply_remove_of_some hf']
      refine .of ⟨h.covered.eraseP_right hf, ?_⟩ (by decide)
      omega
    | none =>
      rw [apply_remove_of_none hf']
      exact .of h (by decide)

omit [EquivBEq κ] in
private theorem sweep_keeps (h : Within limit limit' es es') (hle' : es'.length ≤ limit') (drops : ν → Bool) :
    Keeps limit limit' ((sweep drops).apply limit es) ((sweep drops).apply limit' es') := by
  have hroom := h.room
  have halike : ∀ (p : ν → Bool) {e e' : κ × ν}, Alike e e' → p e.2 = p e'.2 := fun p _ _ hr => congrArg p hr.2
  have hdropped : es.countP (drops ·.2) ≤ es'.countP (drops ·.2) := by
    rw [List.countP_eq_length_filter, List.countP_eq_length_filter]
    exact (h.covered.filter (halike drops)).length_le
  have hlen := List.length_eq_countP_add_countP (drops ·.2) (l := es)
  have hlen' := List.length_eq_countP_add_countP (drops ·.2) (l := es')
  refine .of ⟨h.covered.filter (halike (!drops ·)), ?_⟩ ?_
  · rw [← List.countP_eq_length_filter, ← List.countP_eq_length_filter]
    simp only [Bool.not_eq_true, Bool.decide_eq_false] at hlen hlen'
    omega
  · rw [fewer_iff]
    simp [tally_replicate, Happening.counters, hdropped]

/-- Every edit keeps the smaller list within the larger one. -/
theorem keeps (h : Within limit limit' es es') (hd' : Distinct (es'.map (·.1))) (hle : es.length ≤ limit)
    (hle' : es'.length ≤ limit') (hl : 0 < limit) (hlimit : limit ≤ limit') (edit : Edit κ ν) :
    Keeps limit limit' (edit.apply limit es) (edit.apply limit' es') := by
  cases edit with
  | put k value => exact put_keeps h hd' hle hle' hl
  | lookup k update drops => exact lookup_keeps h hd' hle' update drops
  | remove k => exact remove_keeps h hd' hle'
  | sweep drops => exact sweep_keeps h hle' drops
  | clear => exact .of ⟨.nil, hlimit⟩ (by decide)
  | nothing => exact .of h (by decide)

end Edit

end Sequence

end RecencyCache
