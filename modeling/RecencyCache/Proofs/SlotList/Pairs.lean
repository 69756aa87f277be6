import RecencyCache.SlotList.Op
import RecencyCache.Proofs.SlotList.Layout

/-!
# Slot lists as lists of pairs

The machine that a slot list is compared with: its whole state is a list of pairs of slots and values, front first, no
two of them with the same slot.  Every operation is written down on that list alone, for any slot that it may name: a
slot in use names the pair that has it now, and every other slot, whatever it once named, names nothing.  Only the slot
for a value pushed is left open, as long as it is not in use.  One operation on a slot list is one turn of the machine
(`Op.perform_turn`), and so a session is a run of it (`Op.performAll_refines`).
-/

namespace RecencyCache

namespace SlotList

variable {α : Type}

namespace Pairs

/-! ### The machine -/

/-- The value under a slot. -/
def value? (es : List (Nat × α)) (s : Nat) : Option α :=
  (es.find? (·.1 == s)).map (·.2)

/-- What an operation on the pairs `es` answers, and the pairs that it leaves; a value pushed goes to the slot
`fresh`. -/
def turn (fresh : Nat) (es : List (Nat × α)) : Op α → Reply α × List (Nat × α)
  | .pushFront value => (.slot fresh, (fresh, value) :: es)
  | .moveToFront s =>
    match es.find? (·.1 == s) with
    | some e => (.moved true, e :: es.eraseP (·.1 == s))
    | none => (.moved false, es)
  | .remove s => (.value? (value? es s), es.eraseP (·.1 == s))
  | .get s => (.value? (value? es s), es)
  | .set s value => (.value? (value? es s), es.map fun e => if e.1 = s then (s, value) else e)
  | .next s => (.slot? (firstSlot (es.dropWhile (·.1 != s)).tail), es)
  | .front => (.slot? (firstSlot es), es)
  | .back => (.slot? (lastSlot es), es)
  | .values => (.values (es.map (·.2)), es)
  | .length => (.length es.length, es)
  | .clear => (.done, [])

/-- Operations in turn on the pairs `es`: what they may answer, and the pairs that they leave. -/
inductive Runs : List (Nat × α) → List (Op α) → List (Reply α) → List (Nat × α) → Prop
  | nil {es} : Runs es [] [] es
  | cons {es es' fresh op ops replies} : fresh ∉ es.map (·.1) → Runs (turn fresh es op).2 ops replies es' →
    Runs es (op :: ops) ((turn fresh es op).1 :: replies) es'

/-! ### Slots in use and slots not in use -/

variable {es L R : List (Nat × α)} {s fresh : Nat} {value : α}

/-- A slot is that of a pair or not in use. -/
theorem exists_split_or_not_mem (es : List (Nat × α)) (s : Nat) :
    (∃ L value R, es = L ++ (s, value) :: R) ∨ s ∉ es.map (·.1) := by
  by_cases hs : s ∈ es.map (·.1)
  · obtain ⟨⟨s, value⟩, he, rfl⟩ := List.mem_map.1 hs
    obtain ⟨L, R, hes⟩ := List.append_of_mem he
    exact Or.inl ⟨L, value, R, hes⟩
  · exact Or.inr hs

section

variable (hs : s ∉ es.map (·.1))

include hs

private theorem ne_of_not_mem {e : Nat × α} (he : e ∈ es) : e.1 ≠ s :=
  fun h => hs (h ▸ List.mem_map_of_mem he)

private theorem find?_of_not_mem : es.find? (·.1 == s) = none := by
  rw [List.find?_eq_none]
  intro e he
  simpa using ne_of_not_mem hs he

private theorem eraseP_of_not_mem : es.eraseP (·.1 == s) = es :=
  List.eraseP_of_forall_not fun e he => by simpa using ne_of_not_mem hs he

private theorem replace_of_not_mem (value : α) : es.map (fun e => if e.1 = s then (s, value) else e) = es := by
  conv => rhs; rw [← List.map_id es]
  exact List.map_congr_left fun e he => if_neg (ne_of_not_mem hs he)

private theorem dropWhile_of_not_mem : es.dropWhile (·.1 != s) = [] := by
  have hes : ∀ e ∈ es, (e.1 != s) = true := fun e he => by simpa using ne_of_not_mem hs he
  rw [← List.append_nil es, List.dropWhile_append_of_pos hes, List.dropWhile_nil]

end

section

variable (hn : ((L ++ (s, value) :: R).map (·.1)).Nodup)

include hn

private theorem not_mem_of_nodup : s ∉ L.map (·.1) ∧ s ∉ R.map (·.1) := by
  rw [List.map_append, List.map_cons, List.nodup_append, List.nodup_cons] at hn
  exact ⟨fun hs => hn.2.2 s hs s (List.mem_cons_self ..) rfl, hn.2.1.1⟩

private theorem find?_split : (L ++ (s, value) :: R).find? (·.1 == s) = some (s, value) := by
  rw [List.find?_append, find?_of_not_mem (not_mem_of_nodup hn).1]
  simp

private theorem eraseP_split : (L ++ (s, value) :: R).eraseP (·.1 == s) = L ++ R := by
  have hL : ∀ e ∈ L, ¬ (e.1 == s) = true := fun e he => by simpa using ne_of_not_mem (not_mem_of_nodup hn).1 he
  rw [List.eraseP_append_right _ hL]
  simp

private theorem replace_split (value' : α) :
    (L ++ (s, value) :: R).map (fun e => if e.1 = s then (s, value') else e) = L ++ (s, value') :: R := by
  obtain ⟨hL, hR⟩ := not_mem_of_nodup hn
  rw [List.map_append, List.map_cons, replace_of_not_mem hL, replace_of_not_mem hR]
  simp

private theorem dropWhile_split : (L ++ (s, value) :: R).dropWhile (·.1 != s) = (s, value) :: R := by
  have hL : ∀ e ∈ L, (e.1 != s) = true := fun e he => by simpa using ne_of_not_mem (not_mem_of_nodup hn).1 he
  rw [List.dropWhile_append_of_pos hL]
  simp

end

/-! ### Distinct slots -/

/-- A turn leaves distinct slots distinct. -/
private theorem turn_nodup (hn : (es.map (·.1)).Nodup) (hfresh : fresh ∉ es.map (·.1)) (op : Op α) :
    ((turn fresh es op).2.map (·.1)).Nodup := by
  cases op with
  | pushFront value => exact List.nodup_cons.2 ⟨hfresh, hn⟩
  | moveToFront s =>
    dsimp only [turn]
    rcases exists_split_or_not_mem es s with ⟨L, value, R, rfl⟩ | hs
    · rw [find?_split hn, eraseP_split hn]
      have hp : ((L ++ (s, value) :: R).map (·.1)).Perm (((s, value) :: (L ++ R)).map (·.1)) :=
        List.Perm.map _ List.perm_middle
      exact hp.nodup_iff.1 hn
    · rw [find?_of_not_mem hs]
      exact hn
  | remove s => exact hn.sublist (List.eraseP_sublist.map _)
  | set s value =>
    have hslots : (es.map fun e => if e.1 = s then (s, value) else e).map (·.1) = es.map (·.1) := by
      rw [List.map_map]
      refine List.map_congr_left fun e _ => ?_
      dsimp only [Function.comp_apply]
      split
      · rename_i he
        exact he.symm
      · rfl
    show ((es.map fun e => if e.1 = s then (s, value) else e).map (·.1)).Nodup
    rw [hslots]
    exact hn
  | clear => exact List.nodup_nil
  | get | next | front | back | values | length => exact hn

/-- A run leaves distinct slots distinct. -/
private theorem Runs.nodup {es' : List (Nat × α)} {ops : List (Op α)} {replies : List (Reply α)}
    (h : Runs es ops replies es') (hn : (es.map (·.1)).Nodup) : (es'.map (·.1)).Nodup := by
  induction h with
  | nil => exact hn
  | cons hfresh _ ih => exact ih (turn_nodup hn hfresh _)

end Pairs

/-! ### Slot lists go as the machine -/

open Pairs

variable {l : SlotList α} {es : List (Nat × α)}

/-- One operation on a slot list is one turn of the machine, which takes a slot that is not in use. -/
theorem Op.perform_turn (h : l.Layout es) (op : Op α) :
    ∃ fresh, fresh ∉ es.map (·.1) ∧ (op.perform l).1 = (turn fresh es op).1 ∧
      (op.perform l).2.Layout (turn fresh es op).2 := by
  refine ⟨_, h.nextSlot_not_mem, ?_⟩
  cases op with
  | pushFront value =>
    rw [← store_fst l ⟨value, none, l.front⟩]
    exact ⟨rfl, h.pushFront value⟩
  | moveToFront s =>
    dsimp only [perform, turn]
    rcases exists_split_or_not_mem es s with ⟨L, value, R, rfl⟩ | hs
    · rw [find?_split h.nodup, eraseP_split h.nodup]
      exact ⟨congrArg _ h.moveToFront.1, h.moveToFront.2⟩
    · rw [find?_of_not_mem hs, h.moveToFront_of_not_mem hs]
      exact ⟨rfl, h⟩
  | remove s =>
    dsimp only [perform, turn, value?]
    rcases exists_split_or_not_mem es s with ⟨L, value, R, rfl⟩ | hs
    · rw [find?_split h.nodup, eraseP_split h.nodup]
      exact ⟨congrArg _ h.remove.1, h.remove.2⟩
    · rw [find?_of_not_mem hs, eraseP_of_not_mem hs, h.remove_of_not_mem hs]
      exact ⟨rfl, h⟩
  | get s =>
    dsimp only [perform, turn, value?]
    rcases exists_split_or_not_mem es s with ⟨L, value, R, rfl⟩ | hs
    · rw [find?_split h.nodup, h.get?_eq]
      exact ⟨rfl, h⟩
    · rw [find?_of_not_mem hs, h.get?_of_not_mem hs]
      exact ⟨rfl, h⟩
  | set s value' =>
    dsimp only [perform, turn, value?]
    rcases exists_split_or_not_mem es s with ⟨L, value, R, rfl⟩ | hs
    · rw [find?_split h.nodup, replace_split h.nodup, h.get?_eq]
      exact ⟨rfl, h.set value'⟩
    · rw [find?_of_not_mem hs, replace_of_not_mem hs, h.get?_of_not_mem hs, h.set_of_not_mem hs]
      exact ⟨rfl, h⟩
  | next s =>
    dsimp only [perform, turn]
    rcases exists_split_or_not_mem es s with ⟨L, value, R, rfl⟩ | hs
    · rw [dropWhile_split h.nodup, h.next?_eq]
      exact ⟨rfl, h⟩
    · rw [dropWhile_of_not_mem hs, h.next?_of_not_mem hs]
      exact ⟨rfl, h⟩
  | front => exact ⟨congrArg _ h.front, h⟩
  | back => exact ⟨congrArg _ h.back, h⟩
  | values => exact ⟨congrArg _ h.toList_eq, h⟩
  | length => exact ⟨congrArg _ h.length_eq, h⟩
  | clear => exact ⟨rfl, Layout.empty⟩

/-- Operations in turn on a slot list are a run of the machine. -/
theorem Op.performAll_runs (h : l.Layout es) (ops : List (Op α)) :
    ∃ es', Runs es ops (performAll l ops).1 es' ∧ (performAll l ops).2.Layout es' := by
  induction ops generalizing l es with
  | nil => exact ⟨es, .nil, h⟩
  | cons op ops ih =>
    obtain ⟨fresh, hfresh, hreply, hlayout⟩ := Op.perform_turn h op
    obtain ⟨es', hruns, hend⟩ := ih hlayout
    refine ⟨es', ?_, hend⟩
    have hcons := Runs.cons hfresh hruns
    rw [← hreply] at hcons
    exact hcons

/-- A slot list refines a list of pairs with distinct slots.  Whatever slots the operations of a session on an empty
list name, their answers are those of a run of the machine, and the list left behind is made of the pairs left behind:
they are chained from front to back in it, and exactly their slots are in use. -/
theorem Op.performAll_refines (ops : List (Op α)) :
    ∃ es, Runs [] ops (performAll empty ops).1 es ∧ (es.map (·.1)).Nodup ∧
      (performAll empty ops).2.order = es.map (·.1) ∧ (performAll empty ops).2.toList = es.map (·.2) ∧
      ∀ s, (performAll empty ops).2.get? s = value? es s := by
  obtain ⟨es, hruns, hlayout⟩ := Op.performAll_runs Layout.empty ops
  refine ⟨es, hruns, hruns.nodup List.nodup_nil, hlayout.order_eq, hlayout.toList_eq, fun s => ?_⟩
  obtain ⟨fresh, -, hreply, -⟩ := Op.perform_turn hlayout (.get s)
  exact Reply.value?.inj hreply

/-- A slot given out again names the new value. -/
example : (Op.performAll (empty : SlotList Nat) [.pushFront 1, .remove 0, .pushFront 2, .get 0, .next 0]).1 =
    [.slot 0, .value? (some 1), .slot 0, .value? (some 2), .slot? none] := by decide

end SlotList

end RecencyCache
