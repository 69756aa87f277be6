import Mathlib.Data.List.Induction
import Mathlib.Order.Bounds.Basic
import RecencyCache.Proofs.SlotList.Pairs

/-!
# The slots of a list

A list has no more slots than it needs.  The slots in use and the vacant ones are all that there are, each once; the
vacant ones are those given back and not given out again, in the order in which they are given out next; and there
are as many slots as the list had nodes at some moment since it was cleared last (`Op.Thrifty`).  All this hangs on
what single operations do to the array: only a value pushed can make it grow, and only to the length of the list
(`WellFormed.size_pushFront`).
-/

namespace RecencyCache

namespace SlotList

variable {α : Type} {l : SlotList α}

/-! ### Single operations -/

@[simp] theorem size_set (l : SlotList α) (s : Nat) (value : α) : (l.set s value).slots.size = l.slots.size :=
  size_modifyNode ..

@[simp] theorem size_moveToFront (l : SlotList α) (s : Nat) : (l.moveToFront s).2.slots.size = l.slots.size := by
  unfold moveToFront
  split
  · rfl
  split
  · rfl
  · rw [size_attachFront, size_detach]

@[simp] theorem length_moveToFront (l : SlotList α) (s : Nat) : (l.moveToFront s).2.length = l.length := by
  unfold moveToFront
  split
  · rfl
  split
  · rfl
  · rw [length_attachFront, length_detach]

@[simp] theorem vacant_moveToFront (l : SlotList α) (s : Nat) : (l.moveToFront s).2.vacant = l.vacant := by
  unfold moveToFront
  split
  · rfl
  split
  · rfl
  · rw [vacant_attachFront, vacant_detach]

@[simp] theorem size_remove (l : SlotList α) (s : Nat) : (l.remove s).2.slots.size = l.slots.size := by
  unfold remove
  split
  · rfl
  · show ((l.detach s).slots.setIfInBounds s none).size = _
    rw [Array.size_setIfInBounds, size_detach]

private theorem length_remove_le (l : SlotList α) (s : Nat) : (l.remove s).2.length ≤ l.length := by
  unfold remove
  split
  · exact Nat.le_refl _
  · show (l.detach s).length - 1 ≤ _
    rw [length_detach]
    exact Nat.sub_le ..

theorem vacant_pushFront (l : SlotList α) (value : α) : (l.pushFront value).2.vacant = l.vacant.tail := by
  show ((l.store ⟨value, none, l.front⟩).2.linkPrev l.front _).vacant = _
  rw [vacant_linkPrev]
  unfold store
  split <;> simp [*]

namespace WellFormed

private theorem length_pushFront (h : l.WellFormed) (value : α) : (l.pushFront value).2.length = l.length + 1 := by
  obtain ⟨es, hes⟩ := h
  rw [(hes.pushFront value).length_eq, hes.length_eq, List.length_cons]

/-- A value pushed makes the array grow only if all slots are in use, and then to the length of the list. -/
theorem size_pushFront (h : l.WellFormed) (value : α) :
    (l.pushFront value).2.slots.size = max (l.length + 1) l.slots.size := by
  obtain ⟨es, hes⟩ := h
  have hsize := hes.size_eq
  have hlength := hes.length_eq
  show ((l.store ⟨value, none, l.front⟩).2.linkPrev l.front _).slots.size = _
  rw [size_linkPrev]
  unfold store
  split
  · rename_i hvacant
    rw [hvacant, List.length_cons] at hsize
    show (l.slots.setIfInBounds _ _).size = _
    rw [Array.size_setIfInBounds]
    omega
  · rename_i hvacant
    rw [hvacant, List.length_nil] at hsize
    show (l.slots.push _).size = _
    rw [Array.size_push]
    omega

end WellFormed

namespace Op

/-! ### Sessions in turn -/

private theorem performAll_cons (l : SlotList α) (op : Op α) (ops : List (Op α)) :
    performAll l (op :: ops) =
      ((op.perform l).1 :: (performAll (op.perform l).2 ops).1, (performAll (op.perform l).2 ops).2) := rfl

private theorem performAll_append (l : SlotList α) (ops ops' : List (Op α)) :
    performAll l (ops ++ ops') =
      ((performAll l ops).1 ++ (performAll (performAll l ops).2 ops').1, (performAll (performAll l ops).2 ops').2) := by
  induction ops generalizing l with
  | nil => rfl
  | cons op ops ih =>
    rw [List.cons_append, performAll_cons, ih, performAll_cons, List.cons_append]

/-! ### Slots given back -/

/-- The slots given back and not given out again, the one given back last first, after one more operation that is
answered so. -/
def recycle (free : List Nat) : Op α → Reply α → List Nat
  | .pushFront _, .slot s => free.erase s
  | .remove s, .value? (some _) => s :: free
  | .clear, _ => []
  | _, _ => free

/-- The slots given back and not given out again after a session with its answers, where `free` were before. -/
def recycled (free : List Nat) : List (Op α) → List (Reply α) → List Nat
  | op :: ops, reply :: replies => recycled (op.recycle free reply) ops replies
  | _, _ => free

/-- The vacant slots are those given back, the next one to be given out first. -/
private theorem vacant_perform (l : SlotList α) (op : Op α) :
    (op.perform l).2.vacant = op.recycle l.vacant (op.perform l).1 := by
  cases op with
  | pushFront value =>
    show (l.pushFront value).2.vacant = l.vacant.erase (l.pushFront value).1
    rw [vacant_pushFront, Layout.pushFront_fst, store_fst]
    cases l.vacant with
    | nil => rfl
    | cons s vacant => simp
  | moveToFront s => exact vacant_moveToFront l s
  | remove s =>
    show (l.remove s).2.vacant = (Op.remove s).recycle l.vacant (.value? (l.remove s).1)
    unfold SlotList.remove
    split
    · rfl
    · show s :: (l.detach s).vacant = _
      rw [vacant_detach]
      rfl
  | get | set | next | front | back | values | length | clear => rfl

private theorem vacant_performAll (l : SlotList α) (ops : List (Op α)) :
    (performAll l ops).2.vacant = recycled l.vacant ops (performAll l ops).1 := by
  induction ops generalizing l with
  | nil => rfl
  | cons op ops ih =>
    rw [performAll_cons, ih, vacant_perform]
    rfl

/-! ### The number of slots -/

theorem performAll_wellFormed (ops : List (Op α)) : (performAll empty ops).2.WellFormed := by
  obtain ⟨es, -, hlayout⟩ := performAll_runs Layout.empty ops
  exact ⟨es, hlayout⟩

/-- An operation that does not clear the list leaves as many slots as before, or as there are nodes now. -/
private theorem size_perform (h : l.WellFormed) {op : Op α} (hop : op ≠ .clear) :
    (op.perform l).2.slots.size = max (op.perform l).2.length l.slots.size := by
  have hle := h.length_le_size
  cases op with
  | pushFront value =>
    show (l.pushFront value).2.slots.size = max (l.pushFront value).2.length _
    rw [h.size_pushFront, h.length_pushFront]
  | moveToFront s =>
    show (l.moveToFront s).2.slots.size = max (l.moveToFront s).2.length _
    rw [size_moveToFront, length_moveToFront, Nat.max_eq_right hle]
  | remove s =>
    show (l.remove s).2.slots.size = max (l.remove s).2.length _
    rw [size_remove, Nat.max_eq_right ((length_remove_le l s).trans hle)]
  | set s value =>
    show (l.set s value).slots.size = max l.length _
    rw [size_set, Nat.max_eq_right hle]
  | get | next | front | back | values | length => exact (Nat.max_eq_right hle).symm
  | clear => exact absurd rfl hop

/-- The lengths that a session on an empty list has gone through since it cleared the list last. -/
def lengths (ops : List (Op α)) : Set Nat :=
  {n | ∃ before after, ops = before ++ after ∧ Op.clear ∉ after ∧ (performAll empty before).2.length = n}

private theorem lengths_nil : lengths ([] : List (Op α)) = {0} := by
  ext n
  constructor
  · rintro ⟨before, after, hops, -, rfl⟩
    obtain ⟨rfl, -⟩ := List.append_eq_nil_iff.1 hops.symm
    rfl
  · rintro rfl
    exact ⟨[], [], rfl, List.not_mem_nil, rfl⟩

private theorem lengths_clear (ops : List (Op α)) : lengths (ops ++ [.clear]) = {0} := by
  ext n
  constructor
  · rintro ⟨before, after, hops, hclear, rfl⟩
    rcases List.eq_nil_or_concat after with rfl | ⟨after, op, rfl⟩
    · rw [List.append_nil] at hops
      rw [← hops, performAll_append]
      rfl
    · -- the last operation clears the list
      rw [List.concat_eq_append, ← List.append_assoc] at hops
      obtain ⟨-, hop⟩ := List.append_inj' hops rfl
      obtain rfl := List.singleton_inj.1 hop
      exact absurd (by simp) hclear
  · rintro rfl
    refine ⟨ops ++ [.clear], [], (List.append_nil _).symm, List.not_mem_nil, ?_⟩
    rw [performAll_append]
    rfl

private theorem lengths_append (ops : List (Op α)) {op : Op α} (hop : op ≠ .clear) :
    lengths (ops ++ [op]) = insert (performAll empty (ops ++ [op])).2.length (lengths ops) := by
  ext n
  rw [Set.mem_insert_iff]
  constructor
  · rintro ⟨before, after, hops, hclear, rfl⟩
    rcases List.eq_nil_or_concat after with rfl | ⟨after, op', rfl⟩
    · rw [List.append_nil] at hops
      exact .inl (by rw [hops])
    · rw [List.concat_eq_append] at hops hclear
      rw [← List.append_assoc] at hops
      obtain ⟨hbefore, -⟩ := List.append_inj' hops rfl
      exact .inr ⟨before, after, hbefore, fun hc => hclear (List.mem_append_left _ hc), rfl⟩
  · rintro (rfl | ⟨before, after, rfl, hclear, rfl⟩)
    · exact ⟨ops ++ [op], [], (List.append_nil _).symm, List.not_mem_nil, rfl⟩
    · refine ⟨before, after ++ [op], List.append_assoc .., fun hc => ?_, rfl⟩
      rcases List.mem_append.1 hc with hc | hc
      · exact hclear hc
      · exact hop (List.mem_singleton.1 hc).symm

/-- There are as many slots as the list had nodes at most since it was cleared last. -/
private theorem isGreatest_size (ops : List (Op α)) : IsGreatest (lengths ops) (performAll empty ops).2.slots.size := by
  induction ops using List.reverseRecOn with
  | nil =>
    rw [lengths_nil]
    exact isGreatest_singleton
  | append_singleton ops op ih =>
    by_cases hop : op = .clear
    · subst hop
      rw [lengths_clear, performAll_append]
      exact isGreatest_singleton
    · have hsize := size_perform (performAll_wellFormed ops) hop
      have hlast : (performAll empty (ops ++ [op])).2 = (op.perform (performAll empty ops).2).2 := by
        rw [performAll_append]
        rfl
      rw [lengths_append ops hop, hlast, hsize]
      exact ih.insert _

/-! ### All of a session -/

/-- What a session on an empty list has made of the slots, with the answers `replies` and the list `l` left behind. -/
structure Thrifty (ops : List (Op α)) (replies : List (Reply α)) (l : SlotList α) : Prop where
  inUse : ∀ s, (l.get? s).isSome ↔ s ∈ l.order
  slots : (l.order ++ l.vacant).Perm (List.range l.slots.size)
  vacant : l.vacant = recycled [] ops replies
  next : ∀ value, (l.pushFront value).1 = (recycled [] ops replies).head?.getD l.slots.size
  size : IsGreatest (lengths ops) l.slots.size
  restart : ∀ ops', performAll empty (ops ++ .clear :: ops') =
    (replies ++ .done :: (performAll empty ops').1, (performAll empty ops').2)

/-- Every session is thrifty with slots. -/
theorem performAll_thrifty (ops : List (Op α)) : Thrifty ops (performAll empty ops).1 (performAll empty ops).2 := by
  obtain ⟨es, -, hlayout⟩ := performAll_runs Layout.empty ops
  have hvacant : (performAll empty ops).2.vacant = recycled [] ops (performAll empty ops).1 :=
    vacant_performAll empty ops
  refine ⟨fun s => ?_, ?_, hvacant, fun value => ?_, isGreatest_size ops, fun ops' => ?_⟩
  · rw [hlayout.order_eq, get?, Option.isSome_map, ← not_iff_not, ← hlayout.node?_eq_none_iff]
    simp
  · rw [hlayout.order_eq]
    exact hlayout.perm_range
  · rw [Layout.pushFront_fst, store_fst, hvacant]
  · rw [performAll_append]
    rfl

/-- Slots given back are given out again, the last one first, and only then new ones. -/
example : (performAll (empty : SlotList Nat) [.pushFront 1, .pushFront 2, .pushFront 3, .remove 1, .remove 2,
    .remove 1, .pushFront 4, .pushFront 5, .pushFront 6]).1.filterMap
      (fun reply => if let .slot s := reply then some s else none) = [0, 1, 2, 2, 1, 3] := by decide

end Op

end SlotList

end RecencyCache
