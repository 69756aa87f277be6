import Mathlib.Data.List.Basic

/-!
# Lists with distinct keys

Keys count as equal when `==` says so.  In a list whose members have pairwise unequal keys a search by key finds the
one member of that key wherever it stands (`find?_append_cons`), so moving a member does not change what is found.
-/

namespace RecencyCache

variable {κ β : Type} [BEq κ]

/-- No two keys of a list are equal. -/
def Distinct (ks : List κ) : Prop :=
  ks.Pairwise fun a b => (a == b) = false

namespace Distinct

theorem nil : Distinct ([] : List κ) :=
  List.Pairwise.nil

theorem cons_iff {k : κ} {ks : List κ} : Distinct (k :: ks) ↔ (∀ k' ∈ ks, (k == k') = false) ∧ Distinct ks :=
  List.pairwise_cons

theorem sublist {ks ks' : List κ} (h : Distinct ks') (hs : ks.Sublist ks') : Distinct ks :=
  List.Pairwise.sublist hs h

variable {key : β → κ} {L R : List β} {e : β} {k : κ}

theorem remove (h : Distinct ((L ++ e :: R).map key)) : Distinct ((L ++ R).map key) :=
  h.sublist (((List.sublist_cons_self _ R).append_left L).map _)

variable [EquivBEq κ]

/-- The keys on both sides of a place are not the key at that place. -/
theorem not_beq_of_mem (h : Distinct ((L ++ e :: R).map key)) {e' : β} (he : e' ∈ L ++ R) :
    (key e' == key e) = false := by
  rw [List.map_append, List.map_cons, Distinct, List.pairwise_append, List.pairwise_cons] at h
  obtain ⟨-, ⟨hR, -⟩, hL⟩ := h
  rcases List.mem_append.1 he with he | he
  · exact hL _ (List.mem_map_of_mem he) _ (List.mem_cons_self ..)
  · rw [BEq.comm]
    exact hR _ (List.mem_map_of_mem he)

/-- A member stands for its key: it is found by an equal key, and by another the others are searched without it. -/
theorem find?_append_cons (h : Distinct ((L ++ e :: R).map key)) (k : κ) :
    (L ++ e :: R).find? (key · == k) = if key e == k then some e else (L ++ R).find? (key · == k) := by
  have hL : (key e == k) = true → L.find? (key · == k) = none := by
    intro hk
    rw [List.find?_eq_none]
    intro e' he
    have := h.not_beq_of_mem (List.mem_append_left R he)
    rw [BEq.congr_right hk] at this
    simp [this]
  rw [List.find?_append, List.find?_append, List.find?_cons]
  cases hk : key e == k with
  | true => simp [hL hk]
  | false => simp

theorem find?_of_beq (h : Distinct ((L ++ e :: R).map key)) (hk : (key e == k) = true) :
    (L ++ e :: R).find? (key · == k) = some e := by
  rw [h.find?_append_cons, if_pos hk]

/-- Without the member of a key, nothing of that key is found. -/
theorem find?_eq_none (h : Distinct ((L ++ e :: R).map key)) (hk : (key e == k) = true) :
    (L ++ R).find? (key · == k) = none := by
  rw [List.find?_eq_none]
  intro e' he
  have := h.not_beq_of_mem he
  rw [BEq.congr_right hk] at this
  simp [this]

/-- The member of a key is in one place only. -/
theorem getElem?_beq_iff (h : Distinct ((L ++ e :: R).map key)) (hk : (key e == k) = true) (i : Nat) :
    (∃ e', (L ++ e :: R)[i]? = some e' ∧ (key e' == k) = true) ↔ i = L.length := by
  constructor
  · rintro ⟨e', he', hk'⟩
    by_contra hi
    have hmem : e' ∈ L ++ R := by
      rw [List.mem_append]
      by_cases hlt : i < L.length
      · rw [List.getElem?_append_left hlt] at he'
        exact .inl (List.mem_of_getElem? he')
      · obtain ⟨j, rfl⟩ : ∃ j, i = L.length + (j + 1) := ⟨i - L.length - 1, by omega⟩
        rw [List.getElem?_append_right (Nat.le_add_right ..), Nat.add_sub_cancel_left, List.getElem?_cons_succ] at he'
        exact .inr (List.mem_of_getElem? he')
    have hne := h.not_beq_of_mem hmem
    rw [BEq.congr_right hk, hk'] at hne
    cases hne
  · rintro rfl
    exact ⟨e, by simp, hk⟩

/-- Dropping the member of a key drops it only. -/
theorem eraseP_eq (h : Distinct ((L ++ e :: R).map key)) (hk : (key e == k) = true) :
    (L ++ e :: R).eraseP (key · == k) = L ++ R := by
  rw [List.eraseP_append_right, List.eraseP_cons, hk]
  · rfl
  intro e' he
  have := h.not_beq_of_mem (List.mem_append_left R he)
  rw [BEq.congr_right hk] at this
  simp [this]

theorem move (h : Distinct ((L ++ e :: R).map key)) : Distinct ((e :: (L ++ R)).map key) := by
  rw [List.map_cons, cons_iff]
  refine ⟨?_, h.remove⟩
  intro k' hk'
  obtain ⟨e', he', rfl⟩ := List.mem_map.1 hk'
  rw [BEq.comm]
  exact h.not_beq_of_mem he'

/-- The other keys are not the key that moves in front. -/
theorem beq_eq_false (h : Distinct ((L ++ e :: R).map key)) (hk : (key e == k) = true) {k' : κ}
    (hk' : k' ∈ (L ++ R).map key) : (k == k') = false := by
  obtain ⟨e', he', rfl⟩ := List.mem_map.1 hk'
  rw [← BEq.congr_left hk, BEq.comm]
  exact h.not_beq_of_mem he'

/-- Taking a key out leaves the keys that are not equal to it. -/
theorem eraseP_eq_filter {ks : List κ} (h : Distinct ks) (k : κ) :
    ks.eraseP (· == k) = ks.filter fun b => !b == k := by
  induction ks with
  | nil => rfl
  | cons a ks ih =>
    rw [cons_iff] at h
    rw [List.eraseP_cons, List.filter_cons, ih h.2]
    cases ha : a == k with
    | false => rfl
    | true =>
      refine (List.filter_eq_self.2 fun b hb => ?_).symm
      have hne := h.1 b hb
      rw [BEq.congr_left ha, BEq.comm] at hne
      simp [hne]

/-- Keys that are no two equal and all among `keys` are not more than those. -/
theorem length_le {ks keys : List κ} (h : Distinct ks) (hks : ∀ k ∈ ks, ∃ k' ∈ keys, (k == k') = true) :
    ks.length ≤ keys.length := by
  induction ks generalizing keys with
  | nil => exact Nat.zero_le _
  | cons k ks ih =>
    rw [cons_iff] at h
    obtain ⟨k', hk', hkk'⟩ := hks k (List.mem_cons_self ..)
    obtain ⟨A, B, rfl⟩ := List.append_of_mem hk'
    have hrest : ∀ x ∈ ks, ∃ y ∈ A ++ B, (x == y) = true := by
      intro x hx
      obtain ⟨y, hy, hxy⟩ := hks x (List.mem_cons_of_mem _ hx)
      refine ⟨y, ?_, hxy⟩
      have hkx := h.1 x hx
      -- no two of the keys are equal to one of `keys`
      have hne : y ≠ k' := by
        rintro rfl
        rw [BEq.congr_left hkk', BEq.comm, hxy] at hkx
        cases hkx
      simpa [hne] using hy
    have hlen := ih h.2 hrest
    simp at hlen ⊢
    omega

end Distinct

/-- A key that is not found is none of the keys. -/
theorem beq_eq_false_of_find? [EquivBEq κ] {key : β → κ} {es : List β} {k k' : κ} (h : es.find? (key · == k) = none)
    (hk' : k' ∈ es.map key) : (k == k') = false := by
  obtain ⟨e, he, rfl⟩ := List.mem_map.1 hk'
  rw [BEq.comm]
  simpa using List.find?_eq_none.1 h e he

/-- A search by key that finds a member splits the list at it. -/
theorem exists_split_of_find? {p : β → Bool} {es : List β} {e : β} (h : es.find? p = some e) :
    p e = true ∧ ∃ L R, es = L ++ e :: R := by
  obtain ⟨hp, L, R, hes, -⟩ := List.find?_eq_some_iff_append.1 h
  exact ⟨hp, L, R, hes⟩

end RecencyCache
