import RecencyCache.Proofs.SlotList.Chain

/-!
# Layouts

A slot list lays out a list of pairs of slots and values when they are chained in it and no other slot is in use; the
slots without a node are those on the list of vacant slots, each once.  Every operation on the slot list is one on
the list of pairs: `Layout.pushFront` adds a pair under a slot of its own, `Layout.moveToFront` and `Layout.remove`
act on the pair of a slot, and `Layout.toList_eq` reads the values off.  Walks through the slots come to an end
(`WellFormed.slotsFrom_eq`).
-/

namespace RecencyCache

namespace SlotList

variable {α : Type}

/-- The pairs `es` are chained in `l`, and the slots that `l` does not use for them are vacant. -/
structure Layout (l : SlotList α) (es : List (Nat × α)) : Prop extends l.Chain es where
  length_eq : l.length = es.length
  unused : ∀ {s}, s ∉ es.map (·.1) → l.node? s = none
  vacant_nodup : l.vacant.Nodup
  mem_vacant : ∀ {s}, s ∈ l.vacant ↔ s < l.slots.size ∧ l.node? s = none

namespace Layout

variable {l : SlotList α} {es L R : List (Nat × α)} {s : Nat} {v : α}

theorem empty : (empty : SlotList α).Layout [] := by
  refine ⟨⟨rfl, rfl, List.nodup_nil, ?_⟩, rfl, fun _ => node?_empty _, List.nodup_nil, ?_⟩
  · intro A t w B h
    simp at h
  · simp [SlotList.empty]

/-! ### Reading -/

theorem node?_eq_none_iff (h : l.Layout es) : l.node? s = none ↔ s ∉ es.map (·.1) := by
  constructor
  · intro hn hs
    obtain ⟨⟨t, w⟩, ht, rfl⟩ := List.mem_map.1 hs
    obtain ⟨A, B, hAB⟩ := List.append_of_mem ht
    rw [h.node hAB] at hn
    cases hn
  · exact h.unused

theorem get?_eq (h : l.Layout (L ++ (s, v) :: R)) : l.get? s = some v := by
  rw [get?, h.node rfl]
  rfl

theorem get?_eq_some_iff (h : l.Layout es) : l.get? s = some v ↔ (s, v) ∈ es := by
  constructor
  · intro hg
    have hs : s ∈ es.map (·.1) := by
      by_cases hs : s ∈ es.map (·.1)
      · exact hs
      · rw [get?, h.unused hs] at hg
        cases hg
    obtain ⟨⟨t, w⟩, ht, rfl⟩ := List.mem_map.1 hs
    obtain ⟨A, B, rfl⟩ := List.append_of_mem ht
    rw [h.get?_eq] at hg
    cases hg
    exact ht
  · intro hm
    obtain ⟨A, B, rfl⟩ := List.append_of_mem hm
    exact h.get?_eq

theorem next?_eq (h : l.Layout (L ++ (s, v) :: R)) : l.next? s = firstSlot R := by
  rw [next?, h.node rfl]
  rfl

private theorem lt_size (h : l.Layout es) (hs : s ∈ es.map (·.1)) : s < l.slots.size := by
  obtain ⟨⟨t, w⟩, ht, rfl⟩ := List.mem_map.1 hs
  obtain ⟨A, B, hAB⟩ := List.append_of_mem ht
  exact lt_size_of_node? (h.node hAB)

/-- The slots in use and the vacant ones are all slots, each once. -/
theorem perm_range (h : l.Layout es) : (es.map (·.1) ++ l.vacant).Perm (List.range l.slots.size) := by
  rw [List.perm_ext_iff_of_nodup _ List.nodup_range]
  · intro t
    rw [List.mem_append, h.mem_vacant, List.mem_range, h.node?_eq_none_iff]
    constructor
    · rintro (ht | ht)
      · exact h.lt_size ht
      · exact ht.1
    · intro ht
      by_cases hm : t ∈ es.map (·.1)
      · exact Or.inl hm
      · exact Or.inr ⟨ht, hm⟩
  · rw [List.nodup_append]
    refine ⟨h.nodup, h.vacant_nodup, ?_⟩
    rintro t ht _ hv rfl
    exact h.node?_eq_none_iff.1 (h.mem_vacant.1 hv).2 ht

theorem size_eq (h : l.Layout es) : l.slots.size = es.length + l.vacant.length := by
  have := h.perm_range.length_eq
  simpa using this.symm

/-- No list is longer than its array, which is why the size of the array is fuel enough for every walk. -/
theorem length_le_size (h : l.Layout es) : es.length ≤ l.slots.size := by
  rw [h.size_eq]
  exact Nat.le_add_right ..

/-- A walk comes to the back if it has fuel for as many slots as there are left, and runs out of fuel if it has not. -/
private theorem slotsFrom_eq (h : l.Layout (L ++ R)) (fuel : Nat) :
    l.slotsFrom fuel (firstSlot R) = if R.length ≤ fuel then some (R.map (·.1)) else none := by
  induction R generalizing L fuel with
  | nil => cases fuel <;> rfl
  | cons e R ih =>
    obtain ⟨t, w⟩ := e
    have h' : l.Layout ((L ++ [(t, w)]) ++ R) := by simpa using h
    cases fuel with
    | zero => rfl
    | succ fuel =>
      rw [firstSlot_cons, slotsFrom, h.next?_eq, ih h' fuel]
      by_cases hle : R.length ≤ fuel
      · rw [if_pos hle, if_pos (by simpa using hle)]
        rfl
      · rw [if_neg hle, if_neg (by simpa using hle)]
        rfl

theorem order_eq (h : l.Layout es) : l.order = es.map (·.1) := by
  rw [order, h.front, slotsFrom_eq (L := []) h, if_pos h.length_le_size]
  rfl

theorem toList_eq (h : l.Layout es) : l.toList = es.map (·.2) := by
  have hget : ∀ e ∈ es, (l.get? ∘ (·.1)) e = some e.2 := fun e he => h.get?_eq_some_iff.2 he
  rw [toList, h.order_eq, List.filterMap_map]
  clear h
  induction es with
  | nil => rfl
  | cons e es ih =>
    rw [List.filterMap_cons_some (hget e (List.mem_cons_self ..)), ih fun e he => hget e (List.mem_cons_of_mem _ he)]
    rfl

/-! ### Operations -/

/-- A new value of a node goes where the old one was. -/
theorem set (h : l.Layout (L ++ (s, v) :: R)) (v' : α) : (l.set s v').Layout (L ++ (s, v') :: R) := by
  have hslots : (L ++ (s, v') :: R).map (·.1) = (L ++ (s, v) :: R).map (·.1) := by simp
  have hnode : ∀ t, (l.set s v').node? t = if s = t then some ⟨v', lastSlot L, firstSlot R⟩ else l.node? t := by
    intro t
    rw [SlotList.set, node?_modifyNode]
    split
    · rename_i e
      rw [← e, h.node rfl]
      rfl
    · rfl
  refine ⟨⟨?_, ?_, ?_, ?_⟩, ?_, ?_, h.vacant_nodup, ?_⟩
  · show l.front = _
    rw [h.front]
    cases L <;> simp
  · show l.back = _
    rw [h.back]
    cases R <;> simp
  · rw [hslots]
    exact h.nodup
  · intro A t w B hAB
    have hn := h.nodup
    rw [List.map_append, List.map_cons, List.nodup_append, List.nodup_cons] at hn
    obtain ⟨-, ⟨hsR, -⟩, hsL⟩ := hn
    rw [hnode]
    rcases append_eq_append_cons hAB with ⟨M, rfl, rfl⟩ | ⟨M, rfl, hM⟩
    · -- a place before the node
      have hst : s ≠ t := fun e => hsL t (by simp) s (by simp) e.symm
      rw [if_neg hst, h.node (L := A) (s := t) (v := w) (R := M ++ (s, v) :: R) (by simp)]
      cases M <;> simp
    · cases M with
      | nil =>
        rw [List.nil_append, List.cons.injEq, Prod.mk.injEq] at hM
        obtain ⟨⟨rfl, rfl⟩, rfl⟩ := hM
        simp
      | cons m M =>
        -- a place after the node
        rw [List.cons_append, List.cons.injEq] at hM
        obtain ⟨rfl, rfl⟩ := hM
        have hst : s ≠ t := fun e => hsR (by simp [e])
        have hM : lastSlot (L ++ (s, v) :: M) = lastSlot (L ++ (s, v') :: M) := lastSlot_congr (by simp)
        rw [if_neg hst, h.node (L := L ++ (s, v) :: M) (s := t) (v := w) (R := B) (by simp), hM]
  · show l.length = _
    simp [h.length_eq]
  · intro t ht
    rw [hslots] at ht
    have hst : s ≠ t := fun e => ht (by simp [e])
    rw [hnode, if_neg hst, h.unused ht]
  · intro t
    rw [hnode]
    show t ∈ l.vacant ↔ t < (l.modifyNode s _).slots.size ∧ _
    rw [size_modifyNode, h.mem_vacant]
    split
    · rename_i e
      rw [← e, h.node rfl]
      simp
    · rfl

/-- A slot without a node has no value to replace. -/
theorem set_of_not_mem (h : l.Layout es) (hs : s ∉ es.map (·.1)) (v : α) : l.set s v = l :=
  modifyNode_of_none (h.unused hs) _

theorem get?_of_not_mem (h : l.Layout es) (hs : s ∉ es.map (·.1)) : l.get? s = none := by
  rw [get?, h.unused hs]
  rfl

theorem next?_of_not_mem (h : l.Layout es) (hs : s ∉ es.map (·.1)) : l.next? s = none := by
  rw [next?, h.unused hs]
  rfl

/-- The slot vacated last, or else the first slot beyond the array, is not in use. -/
theorem nextSlot_not_mem (h : l.Layout es) : l.vacant.head?.getD l.slots.size ∉ es.map (·.1) := by
  cases hv : l.vacant with
  | nil => exact fun hm => Nat.lt_irrefl _ (h.lt_size hm)
  | cons s vs =>
    have hs : s ∈ l.vacant := by simp [hv]
    exact h.node?_eq_none_iff.1 (h.mem_vacant.1 hs).2

/-- The slot for a node that is stored next is not in use. -/
private theorem store_fst_not_mem (h : l.Layout es) (node : Node α) : (l.store node).1 ∉ es.map (·.1) := by
  rw [store_fst]
  exact h.nextSlot_not_mem

theorem node?_store (h : l.Layout es) (node : Node α) (t : Nat) :
    (l.store node).2.node? t = if (l.store node).1 = t then some node else l.node? t :=
  SlotList.node?_store (fun _ hs => (h.mem_vacant.1 hs).1) node t

private theorem back_store (l : SlotList α) (node : Node α) : (l.store node).2.back = l.back := by
  unfold store
  split <;> rfl

/-- Storing takes one slot off the vacant ones, or adds a slot. -/
private theorem mem_vacant_store (h : l.Layout es) (node : Node α) :
    (l.store node).2.vacant.Nodup ∧
      ∀ t, t ∈ (l.store node).2.vacant ↔ t < (l.store node).2.slots.size ∧ (l.store node).2.node? t = none := by
  have hnode := h.node?_store node
  cases hv : l.vacant with
  | nil =>
    have h1 : (l.store node).1 = l.slots.size := by simp [store_fst, hv]
    have h2 : (l.store node).2.vacant = [] := by simp [store, hv]
    have h3 : (l.store node).2.slots.size = l.slots.size + 1 := by simp [store, hv]
    rw [h2, h3]
    refine ⟨List.nodup_nil, fun t => ?_⟩
    rw [hnode, h1]
    split
    · simp
    · have ht : ¬ (t < l.slots.size ∧ l.node? t = none) := by simp [← h.mem_vacant, hv]
      simp only [List.not_mem_nil, false_iff]
      exact fun hc => ht ⟨by omega, hc.2⟩
  | cons s vs =>
    have h1 : (l.store node).1 = s := by simp [store_fst, hv]
    have h2 : (l.store node).2.vacant = vs := by simp [store, hv]
    have h3 : (l.store node).2.slots.size = l.slots.size := by simp [store, hv]
    have hn := h.vacant_nodup
    rw [hv, List.nodup_cons] at hn
    rw [h2, h3]
    refine ⟨hn.2, fun t => ?_⟩
    rw [hnode, h1]
    split
    · rename_i e
      subst e
      simp [hn.1]
    · rename_i hst
      rw [← h.mem_vacant, hv]
      simp [Ne.symm hst]

theorem pushFront_fst (l : SlotList α) (v : α) : (l.pushFront v).1 = (l.store ⟨v, none, l.front⟩).1 := rfl

/-- A value pushed comes first, under a slot that was not in use. -/
theorem pushFront (h : l.Layout es) (v : α) : (l.pushFront v).2.Layout (((l.pushFront v).1, v) :: es) := by
  have hs := h.store_fst_not_mem ⟨v, none, none⟩
  have hnode := h.node?_store ⟨v, none, none⟩
  have hvacant := h.mem_vacant_store ⟨v, none, none⟩
  have hfront := front_store l ⟨v, none, none⟩
  have hback := back_store l ⟨v, none, none⟩
  rw [pushFront_eq]
  generalize l.store ⟨v, none, none⟩ = stored at *
  have hc : stored.2.Chain es := by
    refine h.toChain.congr hfront hback fun t ht => ?_
    have hst : stored.1 ≠ t := fun e => hs (e ▸ ht)
    rw [hnode, if_neg hst]
  have hself : stored.2.node? stored.1 = some ⟨v, none, none⟩ := by rw [hnode, if_pos rfl]
  have ha := hc.attachFront hs hself
  refine ⟨⟨ha.front, ha.back, ha.nodup, fun {_ _ _ _} => ha.node⟩, ?_, ?_, ?_, ?_⟩
  · show l.length + 1 = _
    rw [h.length_eq]
    rfl
  · intro t ht
    have hst : stored.1 ≠ t := fun e => ht (by simp [e])
    have ht' : t ∉ es.map (·.1) := fun e => ht (List.mem_cons_of_mem _ e)
    show (stored.2.attachFront stored.1).node? t = none
    rw [node?_attachFront, hnode, if_neg hst, h.unused ht']
    rfl
  · show (stored.2.attachFront stored.1).vacant.Nodup
    rw [vacant_attachFront]
    exact hvacant.1
  · intro t
    show t ∈ (stored.2.attachFront stored.1).vacant ↔
      t < (stored.2.attachFront stored.1).slots.size ∧ (stored.2.attachFront stored.1).node? t = none
    rw [vacant_attachFront, size_attachFront, node?_attachFront, Option.map_eq_none_iff]
    exact hvacant.2 t

/-- Taking a node out of the chain leaves it in its slot. -/
private theorem node?_detach_eq_none_iff (h : l.Layout (L ++ (s, v) :: R)) (t : Nat) :
    (l.detach s).node? t = none ↔ l.node? t = none := by
  rw [node?_detach (h.node rfl)]
  split
  · rename_i e
    rw [← e, h.node rfl]
    simp
  · rw [Option.map_eq_none_iff]

/-- A node taken out and linked in before the front comes first, the others keep their order. -/
theorem attachFront_detach (h : l.Layout (L ++ (s, v) :: R)) :
    ((l.detach s).attachFront s).Layout ((s, v) :: (L ++ R)) := by
  have hs := h.node rfl
  have hd := h.toChain.detach
  have hself : (l.detach s).node? s = some ⟨v, none, none⟩ := by rw [node?_detach hs, if_pos rfl]
  have hsLR : s ∉ (L ++ R).map (·.1) := by
    have := h.toChain.not_mem_sides
    simpa using this
  have ha := hd.attachFront hsLR hself
  have hnone : ∀ t, ((l.detach s).attachFront s).node? t = none ↔ l.node? t = none := by
    intro t
    rw [node?_attachFront, Option.map_eq_none_iff, h.node?_detach_eq_none_iff]
  refine ⟨ha, ?_, ?_, ?_, ?_⟩
  · rw [length_attachFront, length_detach, h.length_eq]
    simp
    omega
  · intro t ht
    exact (hnone t).2 (h.unused fun hm => ht (List.mem_cons.2 (mem_slots_iff.1 hm)))
  · rw [vacant_attachFront, vacant_detach]
    exact h.vacant_nodup
  · intro t
    rw [vacant_attachFront, vacant_detach, size_attachFront, size_detach, hnone, h.mem_vacant]

/-- A node moved comes first, the others keep their order. -/
theorem moveToFront (h : l.Layout (L ++ (s, v) :: R)) :
    (l.moveToFront s).1 = true ∧ (l.moveToFront s).2.Layout ((s, v) :: (L ++ R)) := by
  have hs := h.node rfl
  unfold SlotList.moveToFront
  rw [if_neg (by simp [hs])]
  split
  · rename_i hf
    refine ⟨rfl, ?_⟩
    rw [h.front] at hf
    cases L with
    | nil => exact h
    | cons e L =>
      -- a front before the slot would be the slot itself
      have := h.nodup
      simp at hf this
      exact absurd hf this.1.2.1
  · exact ⟨rfl, h.attachFront_detach⟩

/-- A slot without a node cannot be moved. -/
theorem moveToFront_of_not_mem (h : l.Layout es) (hs : s ∉ es.map (·.1)) : l.moveToFront s = (false, l) := by
  unfold SlotList.moveToFront
  rw [if_pos (by simp [h.unused hs])]

/-- A node removed leaves its slot to the vacant ones, the others keep their order. -/
theorem remove (h : l.Layout (L ++ (s, v) :: R)) : (l.remove s).1 = some v ∧ (l.remove s).2.Layout (L ++ R) := by
  have hs := h.node rfl
  have hd := h.toChain.detach
  have hsLR : s ∉ (L ++ R).map (·.1) := by
    have := h.toChain.not_mem_sides
    simpa using this
  have hnode : ∀ t, ((l.detach s).vacate s).node? t = if s = t then none else (l.detach s).node? t :=
    node?_vacate _ s
  have hc : ((l.detach s).vacate s).Chain (L ++ R) := by
    refine hd.congr rfl rfl fun t ht => ?_
    have hst : s ≠ t := fun e => hsLR (e ▸ ht)
    rw [hnode, if_neg hst]
  unfold SlotList.remove
  rw [hs]
  refine ⟨rfl, ⟨⟨hc.front, hc.back, hc.nodup, fun {_ _ _ _} => hc.node⟩, ?_, ?_, ?_, ?_⟩⟩
  · show (l.detach s).length - 1 = _
    rw [length_detach, h.length_eq]
    simp
  · intro t ht
    show ((l.detach s).vacate s).node? t = none
    rw [hnode]
    split
    · rfl
    · rename_i hst
      refine (h.node?_detach_eq_none_iff t).2 (h.unused fun hm => ?_)
      exact (mem_slots_iff.1 hm).elim (fun e => hst e.symm) ht
  · show (s :: (l.detach s).vacant).Nodup
    rw [vacant_detach, List.nodup_cons]
    refine ⟨fun hm => ?_, h.vacant_nodup⟩
    rw [h.mem_vacant, hs] at hm
    cases hm.2
  · intro t
    show t ∈ s :: (l.detach s).vacant ↔ t < ((l.detach s).slots.setIfInBounds s none).size ∧ _
    rw [vacant_detach, Array.size_setIfInBounds, size_detach, List.mem_cons, h.mem_vacant]
    show _ ↔ t < l.slots.size ∧ ((l.detach s).vacate s).node? t = none
    rw [hnode]
    split
    · rename_i e
      subst e
      simp [lt_size_of_node? hs]
    · rename_i hst
      simp [Ne.symm hst, h.node?_detach_eq_none_iff]

/-- A slot without a node has nothing to remove. -/
theorem remove_of_not_mem (h : l.Layout es) (hs : s ∉ es.map (·.1)) : l.remove s = (none, l) := by
  unfold SlotList.remove
  rw [h.unused hs]

end Layout

/-- A slot list is well formed when it lays out some list of pairs. -/
def WellFormed (l : SlotList α) : Prop :=
  ∃ es, l.Layout es

namespace WellFormed

variable {l : SlotList α}

theorem length_le_size (h : l.WellFormed) : l.length ≤ l.slots.size := by
  obtain ⟨es, hes⟩ := h
  rw [hes.length_eq]
  exact hes.length_le_size

/-- A walk through the slots comes to the back if it has fuel for as many as the list is long, and so does the one that
makes out the order. -/
theorem slotsFrom_eq (h : l.WellFormed) (fuel : Nat) :
    l.slotsFrom fuel l.front = if l.length ≤ fuel then some l.order else none := by
  obtain ⟨es, hes⟩ := h
  rw [hes.front, hes.slotsFrom_eq (L := []), hes.order_eq, hes.length_eq]

end WellFormed

end SlotList

end RecencyCache
