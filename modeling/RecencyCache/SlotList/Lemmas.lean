import RecencyCache.SlotList.Basic

/-!
# What single steps do to the nodes

Every step on a slot list is described by the nodes it leaves: `node?_modifyNode` for changing one, `node?_store` and
`node?_vacate` for taking and leaving a slot, `node?_linkNext` and `node?_linkPrev` for the links.  A push sets its
links by itself, but comes to the same as attaching a node that has been stored before (`pushFront_eq`).
-/

namespace RecencyCache

namespace SlotList

variable {α : Type}

/-! ### Slots -/

private theorem node?_eq_none_of_size_le {l : SlotList α} {s : Nat} (h : l.slots.size ≤ s) : l.node? s = none := by
  simp [node?, h]

theorem lt_size_of_node? {l : SlotList α} {s : Nat} {node : Node α} (h : l.node? s = some node) :
    s < l.slots.size := by
  by_cases hs : s < l.slots.size
  · exact hs
  · rw [node?_eq_none_of_size_le (by omega)] at h
    cases h

@[simp] theorem node?_empty (s : Nat) : (empty : SlotList α).node? s = none := by
  simp [node?, empty]

/-! ### Changing a node -/

@[simp] theorem size_modifyNode (l : SlotList α) (s : Nat) (f : Node α → Node α) :
    (l.modifyNode s f).slots.size = l.slots.size := by
  simp [modifyNode]

theorem node?_modifyNode (l : SlotList α) (s t : Nat) (f : Node α → Node α) :
    (l.modifyNode s f).node? t = if s = t then (l.node? t).map f else l.node? t := by
  unfold node? modifyNode
  rw [Array.getElem?_modify]
  split
  · cases h : l.slots[t]? with
    | none => rfl
    | some node? => cases node? <;> rfl
  · rfl

theorem modifyNode_of_none {l : SlotList α} {s : Nat} (h : l.node? s = none) (f : Node α → Node α) :
    l.modifyNode s f = l := by
  have hslots : l.slots.modify s (Option.map f) = l.slots := by
    apply Array.ext_getElem?
    intro t
    rw [Array.getElem?_modify]
    split
    · rename_i e
      subst e
      -- a slot without a node is out of range or empty
      unfold node? at h
      cases hs : l.slots[s]? with
      | none => rfl
      | some node? =>
        rw [hs] at h
        cases h
        rfl
    · rfl
  rw [modifyNode, hslots]

theorem get?_set (l : SlotList α) (s t : Nat) (value : α) :
    (l.set s value).get? t = if s = t then (l.get? t).map fun _ => value else l.get? t := by
  unfold get? set
  rw [node?_modifyNode]
  split <;> simp [Function.comp_def]

@[simp] theorem next?_set (l : SlotList α) (s t : Nat) (value : α) : (l.set s value).next? t = l.next? t := by
  unfold next? set
  rw [node?_modifyNode]
  split
  · cases l.node? t <;> rfl
  · rfl

/-! ### Taking and leaving a slot -/

theorem node?_vacate (l : SlotList α) (s t : Nat) :
    (l.vacate s).node? t = if s = t then none else l.node? t := by
  simp only [node?, vacate, Array.getElem?_setIfInBounds]
  split
  · split <;> rfl
  · rfl

/-- Where a value goes that is stored next: the slot vacated last, or a new one. -/
theorem store_fst (l : SlotList α) (node : Node α) : (l.store node).1 = l.vacant.head?.getD l.slots.size := by
  unfold store
  split <;> simp [*]

theorem front_store (l : SlotList α) (node : Node α) : (l.store node).2.front = l.front := by
  unfold store
  split <;> rfl

theorem node?_store {l : SlotList α} (h : ∀ s ∈ l.vacant, s < l.slots.size) (node : Node α) (t : Nat) :
    (l.store node).2.node? t = if (l.store node).1 = t then some node else l.node? t := by
  unfold store node?
  split
  · rename_i s vacant hv
    have hs : s < l.slots.size := h s (by simp [hv])
    simp only [Array.getElem?_setIfInBounds]
    split <;> simp_all
  · simp only [Array.getElem?_push]
    by_cases ht : t = l.slots.size
    · simp [ht]
    · simp [ht, Ne.symm ht]

/-! ### Links -/

theorem node?_linkNext (l : SlotList α) (at? next : Option Nat) (t : Nat) :
    (l.linkNext at? next).node? t = if at? = some t then (l.node? t).map ({ · with next }) else l.node? t := by
  unfold linkNext
  split
  · simp [node?_modifyNode]
  · simp [node?]

theorem node?_linkPrev (l : SlotList α) (at? prev : Option Nat) (t : Nat) :
    (l.linkPrev at? prev).node? t = if at? = some t then (l.node? t).map ({ · with prev }) else l.node? t := by
  unfold linkPrev
  split
  · simp [node?_modifyNode]
  · simp [node?]

/-- A node may be changed before it is stored or after. -/
private theorem modifyNode_store (l : SlotList α) (node : Node α) (f : Node α → Node α) :
    (l.store node).2.modifyNode (l.store node).1 f = (l.store (f node)).2 := by
  unfold store modifyNode
  split
  · rename_i s vacant _
    have hslots : (l.slots.setIfInBounds s (some node)).modify s (Option.map f) =
        l.slots.setIfInBounds s (some (f node)) := by
      refine Array.ext_getElem? fun t => ?_
      rw [Array.getElem?_modify, Array.getElem?_setIfInBounds, Array.getElem?_setIfInBounds]
      split
      · split <;> rfl
      · rfl
    dsimp only
    rw [hslots]
  · have hslots : (l.slots.push (some node)).modify l.slots.size (Option.map f) =
        l.slots.push (some (f node)) := by
      refine Array.ext_getElem? fun t => ?_
      rw [Array.getElem?_modify, Array.getElem?_push, Array.getElem?_push]
      by_cases ht : t = l.slots.size
      · simp [ht]
      · simp [ht, Ne.symm ht]
    dsimp only
    rw [hslots]

/-- A value pushed is linked in as a node that is there already and is attached before the front. -/
theorem pushFront_eq (l : SlotList α) (value : α) :
    l.pushFront value = ((l.store ⟨value, none, none⟩).1,
      { (l.store ⟨value, none, none⟩).2.attachFront (l.store ⟨value, none, none⟩).1 with length := l.length + 1 }) := by
  have hslot : (l.store ⟨value, none, l.front⟩).1 = (l.store ⟨value, none, none⟩).1 := by rw [store_fst, store_fst]
  unfold pushFront attachFront
  rw [front_store, modifyNode_store, ← hslot]

end SlotList

end RecencyCache
