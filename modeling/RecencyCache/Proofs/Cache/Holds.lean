import RecencyCache.Cache.Basic
import RecencyCache.Proofs.Keyed
import RecencyCache.Proofs.SlotList.Layout

/-!
# Coherent caches

A cache holds a list of entries, each under a slot, when its order lays them out, no two of their keys are equal, the
index leads from each key to the slot of its entry, and there are no more of them than the capacity.  `Cache.Coherent`
says the same of the cache alone.  Every change of a single part of a cache is one of the list that it holds:
`Holds.setValue`, `Holds.touch`, `Holds.unlink`, `Holds.takeOut`, `Holds.link` and `Holds.drop`.
-/

namespace RecencyCache

namespace Cache

open SlotList (firstSlot lastSlot Layout)

variable {κ ν : Type} [BEq κ] [Hashable κ] [EquivBEq κ] [LawfulHashable κ]

/-- The cache holds the entries `es`, each of them a slot, a key and a value, most recently touched first. -/
structure Holds (c : Cache κ ν) (es : List (Nat × κ × ν)) : Prop where
  layout : c.order.Layout es
  distinct : Distinct (es.map (·.2.1))
  index : ∀ k, c.index[k]? = (es.find? (·.2.1 == k)).map (·.1)
  key : ∀ k, c.index.getKey? k = (es.find? (·.2.1 == k)).map (·.2.1)
  size : c.index.size = es.length
  le : es.length ≤ c.capacity

namespace Holds

variable {c : Cache κ ν} {es L R : List (Nat × κ × ν)} {s : Nat} {key : κ} {value : ν}

theorem empty (config : Config) : (Cache.empty config : Cache κ ν).Holds [] := by
  refine ⟨Layout.empty, Distinct.nil, ?_, ?_, ?_, Nat.zero_le _⟩ <;> simp [Cache.empty]

/-- What a cache holds hangs on its order, its index and its capacity only. -/
theorem congr {c' : Cache κ ν} (h : c.Holds es) (ho : c'.order = c.order) (hi : c'.index = c.index)
    (hc : c'.config = c.config) : c'.Holds es := by
  refine ⟨?_, h.distinct, ?_, ?_, ?_, ?_⟩
  · rw [ho]
    exact h.layout
  · rw [hi]
    exact h.index
  · rw [hi]
    exact h.key
  · rw [hi, h.size]
  · rw [capacity, hc]
    exact h.le

/-! ### Reading -/

theorem toList_eq (h : c.Holds es) : c.toList = es.map (·.2) :=
  h.layout.toList_eq

theorem length_eq (h : c.Holds es) : c.length = es.length :=
  h.layout.length_eq

theorem get?_eq (h : c.Holds (L ++ (s, key, value) :: R)) : c.order.get? s = some (key, value) :=
  h.layout.get?_eq

theorem find?_eq (h : c.Holds es) (k : κ) : c.find? k = es.find? (·.2.1 == k) := by
  rw [find?, h.index]
  cases hf : es.find? (·.2.1 == k) with
  | none => rfl
  | some e =>
    obtain ⟨-, L, R, rfl⟩ := exists_split_of_find? hf
    simp [h.get?_eq]

theorem isFull_eq (h : c.Holds es) : c.isFull = decide (c.capacity ≤ es.length) := by
  rw [isFull, h.size]

theorem contains_eq (h : c.Holds es) (k : κ) : c.index.contains k = es.any (·.2.1 == k) := by
  rw [Std.ExtHashMap.contains_eq_isSome_getElem?, h.index, Option.isSome_map, List.isSome_find?]

/-! ### Changing -/

theorem setValue (h : c.Holds (L ++ (s, key, value) :: R)) (value' : ν) :
    (c.setValue s value').Holds (L ++ (s, key, value') :: R) := by
  have heq : c.setValue s value' = { c with order := c.order.set s (key, value') } := by
    rw [Cache.setValue, h.get?_eq]
  have hd : Distinct ((L ++ (s, key, value') :: R).map (·.2.1)) := by simpa using h.distinct
  rw [heq]
  refine ⟨h.layout.set _, hd, fun k => ?_, fun k => ?_, ?_, ?_⟩
  · show c.index[k]? = _
    rw [h.index, h.distinct.find?_append_cons, hd.find?_append_cons]
    split <;> rfl
  · show c.index.getKey? k = _
    rw [h.key, h.distinct.find?_append_cons, hd.find?_append_cons]
    split <;> rfl
  · show c.index.size = _
    simp [h.size]
  · show _ ≤ c.capacity
    simpa using h.le

theorem touch (h : c.Holds (L ++ (s, key, value) :: R)) : (c.touch s).Holds ((s, key, value) :: (L ++ R)) := by
  have hd : Distinct ((((s, key, value) :: (L ++ R))).map (·.2.1)) := h.distinct.move
  -- a search by key does not see where the entry stands
  have hfind : ∀ k, ((s, key, value) :: (L ++ R)).find? (·.2.1 == k) =
      (L ++ (s, key, value) :: R).find? (·.2.1 == k) := by
    intro k
    rw [h.distinct.find?_append_cons, ← List.nil_append (_ :: (L ++ R)),
      Distinct.find?_append_cons (L := []) (by simpa using hd), List.nil_append]
  refine ⟨h.layout.moveToFront.2, hd, fun k => ?_, fun k => ?_, ?_, ?_⟩
  · show c.index[k]? = _
    rw [h.index, hfind]
  · show c.index.getKey? k = _
    rw [h.key, hfind]
  · show c.index.size = _
    simp [h.size]
    omega
  · show _ ≤ c.capacity
    have := h.le
    simp at this ⊢
    omega

/-- Without the key of an entry the index leads to the others. -/
private theorem erase (h : c.Holds (L ++ (s, key, value) :: R)) {k : κ} (hk : (key == k) = true) :
    { c with order := (c.order.remove s).2, index := c.index.erase k }.Holds (L ++ R) := by
  have hm : k ∈ c.index := by
    rw [Std.ExtHashMap.mem_iff_contains, h.contains_eq]
    simp [hk]
  -- the entry was the only one of its key, so the others are found as before
  have hfind : ∀ k', (L ++ R).find? (·.2.1 == k') =
      if k == k' then none else (L ++ (s, key, value) :: R).find? (·.2.1 == k') := by
    intro k'
    rw [h.distinct.find?_append_cons]
    show _ = if k == k' then none else if key == k' then _ else _
    rw [BEq.congr_left hk]
    split
    · rename_i hk'
      exact h.distinct.find?_eq_none (BEq.trans hk hk')
    · rfl
  refine ⟨h.layout.remove.2, h.distinct.remove, fun k' => ?_, fun k' => ?_, ?_, ?_⟩
  · show (c.index.erase k)[k']? = _
    rw [Std.ExtHashMap.getElem?_erase, h.index, hfind]
    split <;> rfl
  · show (c.index.erase k).getKey? k' = _
    rw [Std.ExtHashMap.getKey?_erase, h.key, hfind]
    split <;> rfl
  · show (c.index.erase k).size = _
    rw [Std.ExtHashMap.size_erase, if_pos hm, h.size]
    simp
  · show _ ≤ c.capacity
    have := h.le
    simp at this ⊢
    omega

theorem unlink (h : c.Holds (L ++ (s, key, value) :: R)) :
    (c.unlink s).1 = some (key, value) ∧ (c.unlink s).2.Holds (L ++ R) := by
  have heq : c.unlink s =
      (some (key, value), { c with order := (c.order.remove s).2, index := c.index.erase key }) := by
    have h1 := h.layout.remove.1
    unfold Cache.unlink
    rcases hr : c.order.remove s with ⟨found, order⟩
    rw [hr] at h1
    cases h1
    rfl
  rw [heq]
  exact ⟨rfl, h.erase BEq.rfl⟩

theorem takeOut (h : c.Holds (L ++ (s, key, value) :: R)) {k : κ} (hk : (key == k) = true) :
    (c.takeOut k).1 = some (key, value) ∧ (c.takeOut k).2.Holds (L ++ R) := by
  have hi : c.index[k]? = some s := by rw [h.index, h.distinct.find?_of_beq hk]; rfl
  have heq : c.takeOut k =
      (some (key, value), { c with order := (c.order.remove s).2, index := c.index.erase k }) := by
    unfold Cache.takeOut
    rw [hi]
    simp [h.layout.remove.1]
  rw [heq]
  exact ⟨rfl, h.erase hk⟩

theorem takeOut_of_none (h : c.Holds es) {k : κ} (hk : es.find? (·.2.1 == k) = none) : c.takeOut k = (none, c) := by
  unfold Cache.takeOut
  rw [h.index, hk]
  rfl

theorem link (h : c.Holds es) {k : κ} (hk : es.find? (·.2.1 == k) = none) (hlt : es.length < c.capacity) (value : ν) :
    (c.link k value).Holds (((c.order.pushFront (k, value)).1, k, value) :: es) := by
  have hm : k ∉ c.index := by
    rw [Std.ExtHashMap.mem_iff_contains, h.contains_eq, ← List.isSome_find?, hk]
    simp
  refine ⟨h.layout.pushFront _, ?_, fun k' => ?_, fun k' => ?_, ?_, hlt⟩
  · rw [List.map_cons, Distinct.cons_iff]
    refine ⟨?_, h.distinct⟩
    intro k' hk'
    obtain ⟨e, he, rfl⟩ := List.mem_map.1 hk'
    have := List.find?_eq_none.1 hk e he
    rw [BEq.comm]
    simpa using this
  · show (c.index.insert k (c.order.pushFront (k, value)).1)[k']? = _
    rw [Std.ExtHashMap.getElem?_insert, h.index, List.find?_cons]
    cases k == k' <;> rfl
  · show (c.index.insert k _).getKey? k' = _
    rw [Std.ExtHashMap.getKey?_insert, h.key, List.find?_cons]
    cases k == k' <;> rfl
  · show (c.index.insert k _).size = _
    rw [Std.ExtHashMap.size_insert, if_neg hm, h.size]
    rfl

theorem drop (c : Cache κ ν) : c.drop.Holds [] := by
  refine ⟨Layout.empty, Distinct.nil, ?_, ?_, ?_, Nat.zero_le _⟩ <;> simp [Cache.drop]

end Holds

/-! ### The invariant of a cache -/

/-- The index and the order describe the same entries, no two of them with equal keys, in a well-formed list, and
there are no more of them than the capacity. -/
structure Coherent (c : Cache κ ν) : Prop where
  wellFormed : c.order.WellFormed
  live : ∀ {k s}, c.index[k]? = some s →
    ∃ key value, c.order.get? s = some (key, value) ∧ c.index.getKey? k = some key
  indexed : ∀ {s key value}, c.order.get? s = some (key, value) → c.index[key]? = some s
  apart : ∀ {s s' e e'}, c.order.get? s = some e → c.order.get? s' = some e' → (e.1 == e'.1) = true → s = s'
  size : c.index.size = c.length
  le : c.length ≤ c.capacity

theorem Holds.coherent {c : Cache κ ν} {es : List (Nat × κ × ν)} (h : c.Holds es) : c.Coherent := by
  have hindexed : ∀ {s key value}, c.order.get? s = some (key, value) → c.index[key]? = some s := by
    intro s key value hs
    obtain ⟨L, R, rfl⟩ := List.append_of_mem (h.layout.get?_eq_some_iff.1 hs)
    rw [h.index, h.distinct.find?_of_beq BEq.rfl]
    rfl
  refine ⟨⟨es, h.layout⟩, ?_, hindexed, ?_, h.size.trans h.length_eq.symm, h.length_eq ▸ h.le⟩
  · intro k s hs
    rw [h.index] at hs
    obtain ⟨⟨s, key, value⟩, he, rfl⟩ := Option.map_eq_some_iff.1 hs
    obtain ⟨-, L, R, rfl⟩ := exists_split_of_find? he
    exact ⟨key, value, h.get?_eq, by rw [h.key, he]; rfl⟩
  · intro s s' e e' hs hs' hk
    have h1 : c.index[e.1]? = some s := hindexed hs
    rw [Std.ExtHashMap.getElem?_congr hk, hindexed hs'] at h1
    exact (Option.some.inj h1).symm

/-- The entries of a coherent cache are those that its order lays out. -/
theorem Coherent.exists_holds {c : Cache κ ν} (h : c.Coherent) : ∃ es, c.Holds es := by
  obtain ⟨es, hlayout⟩ := h.wellFormed
  have hget : ∀ {e}, e ∈ es → c.order.get? e.1 = some e.2 := fun he => hlayout.get?_eq_some_iff.2 he
  have hdistinct : Distinct (es.map (·.2.1)) := by
    rw [Distinct, List.pairwise_map]
    refine (List.pairwise_map.1 hlayout.nodup).imp_of_mem fun he he' hne => ?_
    exact Bool.eq_false_iff.2 fun hk => hne (h.apart (hget he) (hget he') hk)
  -- what the index leads to is live, so the list has it; what the list has is indexed
  have hfind : ∀ {k s}, c.index[k]? = some s → ∃ key value, es.find? (·.2.1 == k) = some (s, key, value) ∧
      c.index.getKey? k = some key := by
    intro k s hs
    obtain ⟨key, value, hg, hkey⟩ := h.live hs
    obtain ⟨L, R, rfl⟩ := List.append_of_mem (hlayout.get?_eq_some_iff.1 hg)
    have hk : (key == k) = true := by
      have := c.index.getKey?_beq (k := k)
      rwa [hkey] at this
    exact ⟨key, value, hdistinct.find?_of_beq hk, hkey⟩
  have hnone : ∀ {k}, c.index[k]? = none → es.find? (·.2.1 == k) = none := by
    intro k hk
    rw [List.find?_eq_none]
    intro e he hek
    have := h.indexed (hget he)
    rw [Std.ExtHashMap.getElem?_congr hek, hk] at this
    cases this
  refine ⟨es, hlayout, hdistinct, fun k => ?_, fun k => ?_, h.size.trans hlayout.length_eq, hlayout.length_eq ▸ h.le⟩
  · cases hk : c.index[k]? with
    | none => rw [hnone hk]; rfl
    | some s =>
      obtain ⟨key, value, hf, -⟩ := hfind hk
      rw [hf]
      rfl
  · cases hk : c.index[k]? with
    | none =>
      have hm : k ∉ c.index := by rw [Std.ExtHashMap.mem_iff_isSome_getElem?, hk]; simp
      rw [hnone hk, Option.map_none, Std.ExtHashMap.getKey?_eq_none hm]
    | some s =>
      obtain ⟨key, value, hf, hkey⟩ := hfind hk
      rw [hf, hkey]
      rfl

theorem Coherent.beq_of_find? {c : Cache κ ν} (h : c.Coherent) {s : Nat} {k key : κ} {value : ν}
    (hf : c.find? k = some (s, key, value)) : (key == k) = true := by
  obtain ⟨es, hes⟩ := h.exists_holds
  rw [hes.find?_eq] at hf
  exact (exists_split_of_find? hf).1

/-- What a coherent cache has in a slot is found by every key that is equal to the stored one. -/
theorem Coherent.find?_of_get? {c : Cache κ ν} (h : c.Coherent) {s : Nat} {k key : κ} {value : ν}
    (hs : c.order.get? s = some (key, value)) (hk : (key == k) = true) : c.find? k = some (s, key, value) := by
  have hindex : c.index[k]? = some s := by
    rw [← Std.ExtHashMap.getElem?_congr hk]
    exact h.indexed hs
  rw [find?, hindex, Option.bind_some, hs]
  rfl

theorem Coherent.distinct {c : Cache κ ν} (h : c.Coherent) : Distinct (c.toList.map (·.1)) := by
  obtain ⟨es, hes⟩ := h.exists_holds
  rw [hes.toList_eq, List.map_map]
  exact hes.distinct

theorem Coherent.length_toList_le {c : Cache κ ν} (h : c.Coherent) : c.toList.length ≤ c.capacity := by
  obtain ⟨es, hes⟩ := h.exists_holds
  rw [hes.toList_eq, List.length_map]
  exact hes.le

/-- What the readers of the index tell agrees with what the readers of the order tell. -/
structure Agrees (c : Cache κ ν) : Prop where
  length : c.length = c.toList.length
  isEmpty : c.isEmpty = decide (c.length = 0)
  contains : ∀ k, c.index.contains k = c.toList.any (·.1 == k)
  find : ∀ k, (c.find? k).map (·.2) = c.toList.find? (·.1 == k)
  outline : c.held = false → c.outline = .record "BoundedLruCache"
    [("segment", .record "LruSegment" [("capacity", .number c.capacity), ("len", .number c.length)])]

theorem Coherent.agrees {c : Cache κ ν} (h : c.Coherent) : c.Agrees := by
  obtain ⟨es, hes⟩ := h.exists_holds
  have hsize : c.index.size = c.length := h.size
  refine ⟨?_, ?_, fun k => ?_, fun k => ?_, fun hd => ?_⟩
  · rw [hes.length_eq, hes.toList_eq, List.length_map]
  · rw [← hsize]
    rw [Bool.eq_iff_iff, decide_eq_true_iff]
    exact Std.ExtHashMap.isEmpty_iff.trans Std.ExtHashMap.eq_empty_iff_size_eq_zero
  · rw [hes.contains_eq, hes.toList_eq, List.any_map]
    rfl
  · rw [hes.find?_eq, hes.toList_eq, List.find?_map]
    rfl
  · simp [Cache.outline, hd, hsize]

end Cache

end RecencyCache
