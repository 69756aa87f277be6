import RecencyCache.Proofs.Sequence.Recency

/-!
# The history of touches

A history lists what the calls have touched, one after the other.  In a list that is ordered by recency the last
touches of the keys, from the front on, go strictly back in the history; every turn leaves such a list
(`ByRecency.moves`).  When a turn evicts, the pair dropped is the one of the earliest last touch, and all the others
and the new key have been touched since (`ByRecency.displaced`).
-/

namespace RecencyCache

namespace Sequence

variable {κ ν : Type} [BEq κ]

/-! ### Last touches -/

/-- The last moment at which a history touched a key. -/
def lastTouch (touches : List (Option κ)) (k : κ) : Option Nat :=
  (touches.zipIdx.reverse.find? fun p => p.1.any (· == k)).map (·.2)

private theorem lastTouch_append (touches : List (Option κ)) (touched : Option κ) (k : κ) :
    lastTouch (touches ++ [touched]) k =
      if touched.any (· == k) then some touches.length else lastTouch touches k := by
  rw [lastTouch, List.zipIdx_append, List.reverse_append]
  simp only [List.zipIdx_singleton, List.reverse_singleton, List.singleton_append, List.find?_cons]
  cases touched.any (· == k) with
  | true => simp
  | false => rfl

private theorem lastTouch_lt {touches : List (Option κ)} {k : κ} {i : Nat} (h : lastTouch touches k = some i) :
    i < touches.length := by
  obtain ⟨⟨touched, j⟩, hp, rfl⟩ := Option.map_eq_some_iff.1 h
  have hm := List.mem_reverse.1 (List.mem_of_find?_eq_some hp)
  have hlt := (List.mem_zipIdx hm).2.1
  rwa [Nat.zero_add] at hlt

/-- The keys go back in the history: the last touches, from the front on, are strictly decreasing. -/
def ByRecency (touches : List (Option κ)) (ks : List κ) : Prop :=
  ∃ moments : List Nat, ks.map (lastTouch touches) = moments.map some ∧ moments.Pairwise (· > ·)

namespace ByRecency

variable {touches : List (Option κ)} {ks ks' : List κ} {k : κ}

theorem nil : ByRecency touches [] :=
  ⟨[], rfl, List.Pairwise.nil⟩

private theorem sublist (h : ByRecency touches ks) (hs : ks'.Sublist ks) : ByRecency touches ks' := by
  obtain ⟨moments, hm, hp⟩ := h
  have hsub := hs.map (lastTouch touches)
  rw [hm] at hsub
  obtain ⟨moments', hs', hm'⟩ := List.sublist_map_iff.1 hsub
  exact ⟨moments', hm', hp.sublist hs'⟩

/-- A moment at which nothing was touched does not matter. -/
private theorem untouched (h : ByRecency touches ks) : ByRecency (touches ++ [none]) ks := by
  obtain ⟨moments, hm, hp⟩ := h
  refine ⟨moments, ?_, hp⟩
  rw [← hm]
  exact List.map_congr_left fun k _ => by rw [lastTouch_append]; rfl

/-- A key touched goes in front of the others. -/
private theorem cons (h : ByRecency touches ks) {key : κ} (hk : (k == key) = true)
    (hks : ∀ k' ∈ ks, (k == k') = false) :
    ByRecency (touches ++ [some k]) (key :: ks) := by
  obtain ⟨moments, hm, hp⟩ := h
  refine ⟨touches.length :: moments, ?_, ?_⟩
  · -- only the key in front has a new last touch
    have hself : lastTouch (touches ++ [some k]) key = some touches.length := by
      rw [lastTouch_append]
      exact if_pos hk
    rw [List.map_cons, List.map_cons, ← hm, hself]
    congr 1
    refine List.map_congr_left fun k' hk' => ?_
    rw [lastTouch_append, if_neg]
    simpa using hks k' hk'
  · -- and that is later than all there were
    refine List.pairwise_cons.2 ⟨fun i hi => ?_, hp⟩
    have : some i ∈ ks.map (lastTouch touches) := by
      rw [hm]
      exact List.mem_map_of_mem hi
    obtain ⟨k', -, hk'⟩ := List.mem_map.1 this
    exact lastTouch_lt hk'

/-- In front of a key stand keys touched later. -/
private theorem later {last : κ} (h : ByRecency touches (ks ++ [last])) :
    ∃ i, lastTouch touches last = some i ∧ ∀ k ∈ ks, ∃ j, lastTouch touches k = some j ∧ i < j := by
  obtain ⟨moments, hm, hp⟩ := h
  rw [List.map_append] at hm
  obtain ⟨before, after, rfl, hbefore, hafter⟩ := List.append_eq_map_iff.1 hm
  obtain ⟨i, rfl, hi⟩ : ∃ i, after = [i] ∧ lastTouch touches last = some i := by
    cases after with
    | nil => cases hafter
    | cons i after =>
      rw [List.map_cons, List.map_singleton, List.cons.injEq] at hafter
      exact ⟨i, by rw [List.map_eq_nil_iff.1 hafter.2], hafter.1.symm⟩
  refine ⟨i, hi, fun k hk => ?_⟩
  have : lastTouch touches k ∈ before.map some := by
    rw [hbefore]
    exact List.mem_map_of_mem hk
  obtain ⟨j, hj, hjk⟩ := List.mem_map.1 this
  exact ⟨j, hjk.symm, (List.pairwise_append.1 hp).2.2 j hj i (List.mem_singleton_self i)⟩

variable [EquivBEq κ] {limit n : Nat} {stores touched : Option κ} {es es' : List (κ × ν)}

/-- A turn keeps a list in the order of recency. -/
theorem moves (h : ByRecency touches (es.map (·.1))) (hd : Distinct (es.map (·.1)))
    (hm : Moves limit stores touched es es' n) : ByRecency (touches ++ [touched]) (es'.map (·.1)) := by
  cases hm with
  | keeps ht hs =>
    rw [ht]
    exact (h.sublist hs).untouched
  | @hits k key value old L R ht hk hes =>
    subst hes
    rw [ht, List.map_cons]
    refine (h.sublist (((List.sublist_cons_self _ R).append_left L).map _)).cons (BEq.symm hk) fun k' hk' => ?_
    exact hd.beq_eq_false hk hk'
  | @inserts k value ht _ hf =>
    rw [ht, List.map_cons]
    refine h.cons BEq.rfl fun k' hk' => ?_
    exact beq_eq_false_of_find? hf hk'
  | @displaces k value rest last ht _ hf _ hes =>
    subst hes
    rw [ht, List.map_cons]
    refine (h.sublist ((List.sublist_append_left rest [last]).map _)).cons BEq.rfl fun k' hk' => ?_
    rw [List.find?_append, Option.or_eq_none_iff] at hf
    exact beq_eq_false_of_find? hf.1 hk'

/-- A pair that makes room for a new key has waited longest: all the others were touched after it, and they and the
new key are at least as many keys as the list has room for. -/
theorem displaced {rest : List (κ × ν)} {last : κ × ν} (h : ByRecency touches ((rest ++ [last]).map (·.1)))
    (hd : Distinct ((rest ++ [last]).map (·.1))) (hf : (rest ++ [last]).find? (·.1 == k) = none) :
    ∃ i, lastTouch touches last.1 = some i ∧ (∀ e ∈ rest, ∃ j, lastTouch touches e.1 = some j ∧ i < j) ∧
      Distinct (k :: rest.map (·.1)) ∧ ∀ k' ∈ k :: rest.map (·.1), (k' == last.1) = false ∧
        ∃ j, lastTouch (touches ++ [some k]) k' = some j ∧ i < j := by
  rw [List.map_append, List.map_singleton] at h hd
  obtain ⟨i, hi, hlater⟩ := h.later
  obtain ⟨hrest, -, hlast⟩ := List.pairwise_append.1 hd
  have hnew : ∀ k' ∈ (rest ++ [last]).map (·.1), (k == k') = false := fun k' hk' => beq_eq_false_of_find? hf hk'
  refine ⟨i, hi, fun e he => hlater e.1 (List.mem_map_of_mem he), Distinct.cons_iff.2 ⟨?_, hrest⟩, ?_⟩
  · exact fun k' hk' => hnew k' (by rw [List.map_append]; exact List.mem_append_left _ hk')
  intro k' hk'
  rw [lastTouch_append]
  rcases List.mem_cons.1 hk' with rfl | hk'
  · refine ⟨hnew last.1 (by simp), touches.length, if_pos ?_, lastTouch_lt hi⟩
    exact BEq.rfl
  · obtain ⟨j, hj, hij⟩ := hlater k' hk'
    refine ⟨hlast k' hk' last.1 (List.mem_singleton_self _), j, ?_, hij⟩
    have hne : (k == k') = false := hnew k' (by rw [List.map_append]; exact List.mem_append_left _ hk')
    rw [if_neg, hj]
    simpa using hne

end ByRecency

end Sequence

end RecencyCache
