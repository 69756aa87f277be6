import RecencyCache.Proofs.SlotList.Arena

/-!
# Moving a node is removing it and pushing its value

The pairs that are laid out, the number of slots and the vacant slots are all that there is to a slot list
(`Layout.unique`).  So there is one way only to bring a node to the front: taking it out of the chain and linking it in
before the front, removing it and pushing its value, and moving it all leave the same list, slot by slot.
-/

namespace RecencyCache

namespace SlotList

variable {α : Type} {l l' : SlotList α} {es L R : List (Nat × α)} {s : Nat} {v : α}

/-! ### What makes a slot list -/

private theorem slots_eq_of_node? (hsize : l.slots.size = l'.slots.size) (hnode : ∀ t, l.node? t = l'.node? t) :
    l.slots = l'.slots := by
  refine Array.ext hsize fun t ht ht' => ?_
  have := hnode t
  unfold node? at this
  rw [Array.getElem?_eq_getElem ht, Array.getElem?_eq_getElem ht'] at this
  exact this

namespace Layout

private theorem node?_congr (h : l.Layout es) (h' : l'.Layout es) (t : Nat) : l.node? t = l'.node? t := by
  rcases Pairs.exists_split_or_not_mem es t with ⟨A, w, B, hAB⟩ | ht
  · rw [h.node hAB, h'.node hAB]
  · rw [h.unused ht, h'.unused ht]

/-- Lists that lay out the same pairs in as many slots, with the same slots vacant, are the same. -/
theorem unique (h : l.Layout es) (h' : l'.Layout es) (hsize : l.slots.size = l'.slots.size)
    (hvacant : l.vacant = l'.vacant) : l = l' := by
  have hslots := slots_eq_of_node? hsize (h.node?_congr h')
  have hfront : l.front = l'.front := h.front.trans h'.front.symm
  have hback : l.back = l'.back := h.back.trans h'.back.symm
  have hlength : l.length = l'.length := h.length_eq.trans h'.length_eq.symm
  cases l
  cases l'
  simp_all

/-! ### Ways to the front -/

private theorem vacant_remove (h : l.Layout (L ++ (s, v) :: R)) : (l.remove s).2.vacant = s :: l.vacant := by
  unfold SlotList.remove
  rw [h.node rfl]
  show s :: (l.detach s).vacant = _
  rw [vacant_detach]

/-- The shortcut for a node that is at the front already agrees with taking it out and linking it in. -/
private theorem moveToFront_eq (h : l.Layout (L ++ (s, v) :: R)) :
    l.moveToFront s = (true, (l.detach s).attachFront s) := by
  obtain ⟨hmoved, hfront⟩ := h.moveToFront
  have hlist : (l.moveToFront s).2 = (l.detach s).attachFront s := by
    refine hfront.unique h.attachFront_detach ?_ ?_
    · rw [size_moveToFront, size_attachFront, size_detach]
    · rw [vacant_moveToFront, vacant_attachFront, vacant_detach]
  exact Prod.ext hmoved hlist

private theorem moveToFront_of_front (h : l.Layout (L ++ (s, v) :: R)) (hfront : l.front = some s) :
    l.moveToFront s = (true, l) := by
  unfold SlotList.moveToFront
  rw [h.node rfl, if_neg (by simp), if_pos hfront]

/-- A value pushed goes to the slot that the node removed last has left. -/
private theorem pushFront_remove (h : l.Layout (L ++ (s, v) :: R)) :
    (l.remove s).2.pushFront v = (s, (l.moveToFront s).2) := by
  have hvacant := h.vacant_remove
  have hrest := h.remove.2
  have hslot : ((l.remove s).2.pushFront v).1 = s := by
    rw [pushFront_fst, store_fst, hvacant]
    rfl
  have hpushed := hrest.pushFront v
  rw [hslot] at hpushed
  have hlist : ((l.remove s).2.pushFront v).2 = (l.moveToFront s).2 := by
    refine hpushed.unique h.moveToFront.2 ?_ ?_
    · -- the slot of the node is there for its value, so no other is made
      have hsize := WellFormed.size_pushFront ⟨_, hrest⟩ v
      have hlength := hrest.length_eq
      have hslots := h.size_eq
      rw [size_remove] at hsize
      rw [size_moveToFront, hsize, hlength, hslots]
      simp
      omega
    · rw [vacant_pushFront, hvacant, vacant_moveToFront]
      rfl
  exact Prod.ext hslot hlist

end Layout

/-! ### In a session -/

/-- Moving a node to the front is removing it and pushing its value.  Whatever a session on an empty list has made of
it and whichever slot has a node, removing the node gives its value, and pushing that leaves the list that moving the
node leaves, all of its slots, links and vacant slots, with the value under the same slot again.  Moving a node is
always taking it out of the chain and linking it in before the front, which restores the list where the node is there
already. -/
theorem Op.performAll_relocates (ops : List (Op α)) {s : Nat} {v : α} (hs : (performAll empty ops).2.get? s = some v) :
    let l := (performAll empty ops).2
    (l.remove s).1 = some v ∧ (l.remove s).2.pushFront v = (s, (l.moveToFront s).2) ∧
      l.moveToFront s = (true, (l.detach s).attachFront s) ∧
      (l.front = some s → (l.detach s).attachFront s = l) := by
  intro l
  obtain ⟨es, hes⟩ := performAll_wellFormed ops
  obtain ⟨L, R, rfl⟩ := List.append_of_mem (hes.get?_eq_some_iff.1 hs)
  have hmove := hes.moveToFront_eq
  refine ⟨hes.remove.1, hes.pushFront_remove, hmove, fun hfront => ?_⟩
  rw [hes.moveToFront_of_front hfront] at hmove
  exact (congrArg (·.2) hmove).symm

/-- The last node of three is moved while two slots are vacant. -/
theorem Op.performAll_relocates_instance :
    let ops : List (Op Nat) :=
      [.pushFront 10, .pushFront 20, .pushFront 30, .pushFront 40, .pushFront 50, .remove 3, .moveToFront 1, .remove 2]
    let l := (performAll empty ops).2
    l.order = [1, 4, 0] ∧ l.vacant = [2, 3] ∧ l.get? 0 = some 10 ∧ (l.remove 0).1 = some 10 ∧
      (l.remove 0).2.pushFront 10 = (0, (l.moveToFront 0).2) ∧ l.moveToFront 0 = (true, (l.detach 0).attachFront 0) := by
  intro ops l
  have hs : l.get? 0 = some 10 := by decide
  obtain ⟨hremoved, hpushed, hmoved, -⟩ := performAll_relocates ops hs
  exact ⟨by decide, by decide, hs, hremoved, hpushed, hmoved⟩

end SlotList

end RecencyCache
