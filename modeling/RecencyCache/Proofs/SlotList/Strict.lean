import RecencyCache.Proofs.SlotList.Arena

/-!
# Strict slot lists

The operations on a slot list take what they find: a link to be set in a slot without a node is not set, a value goes
nowhere if its slot is not there, a number that cannot get less stays.  The strict ones have no result then.  They
refuse a neighbour that has no node, a recycled slot that does not exist or is in use, a node to be emptied that is not
there, and a length that would fall below zero; a walk through the values refuses a slot without a node, and to go on
when its steps are used up.  Whatever slots a session names, its strict operations have the results of the ordinary
ones (`Op.performAllStrict_eq`), so none of this ever happens.
-/

namespace RecencyCache

namespace SlotList

variable {α : Type}

/-! ### Operations that refuse -/

namespace Strict

def modifyNode (l : SlotList α) (s : Nat) (f : Node α → Node α) : Option (SlotList α) :=
  (l.node? s).map fun _ => l.modifyNode s f

def linkNext (l : SlotList α) (at? next : Option Nat) : Option (SlotList α) :=
  match at? with
  | some s => modifyNode l s fun node => { node with next }
  | none => some { l with front := next }

def linkPrev (l : SlotList α) (at? prev : Option Nat) : Option (SlotList α) :=
  match at? with
  | some s => modifyNode l s fun node => { node with prev }
  | none => some { l with back := prev }

def detach (l : SlotList α) (s : Nat) : Option (SlotList α) := do
  let node ← l.node? s
  let l ← linkNext l node.prev node.next
  let l ← linkPrev l node.next node.prev
  modifyNode l s fun node => { node with prev := none, next := none }

def attachFront (l : SlotList α) (s : Nat) : Option (SlotList α) := do
  let l' ← modifyNode l s fun node => { node with prev := none, next := l.front }
  let l' ← linkPrev l' l.front (some s)
  return { l' with front := some s }

/-- A recycled slot must exist and be empty. -/
def store (l : SlotList α) (node : Node α) : Option (Nat × SlotList α) :=
  match l.vacant with
  | s :: _ => if (l.slots[s]?.map (·.isNone)) = some true then some (l.store node) else none
  | [] => some (l.store node)

/-- A slot to be emptied must exist and have a node. -/
def vacate (l : SlotList α) (s : Nat) : Option (SlotList α) :=
  if (l.slots[s]?.map (·.isSome)) = some true then some (l.vacate s) else none

def pushFront (l : SlotList α) (value : α) : Option (Nat × SlotList α) := do
  let (s, l') ← store l ⟨value, none, l.front⟩
  let l' ← linkPrev l' l.front (some s)
  return (s, { l' with front := some s, length := l.length + 1 })

def moveToFront (l : SlotList α) (s : Nat) : Option (Bool × SlotList α) :=
  if (l.node? s).isNone then some (false, l)
  else if l.front = some s then some (true, l)
  else do
    let l ← detach l s
    let l ← attachFront l s
    return (true, l)

def remove (l : SlotList α) (s : Nat) : Option (Option α × SlotList α) :=
  match l.node? s with
  | none => some (none, l)
  | some node => do
    let l ← detach l s
    let l ← vacate l s
    if l.length = 0 then none else some (some node.value, { l with length := l.length - 1 })

/-- The values from a slot on towards the back, for as many steps. -/
def valuesFrom (l : SlotList α) : Nat → Option Nat → Option (List α)
  | _, none => some []
  | 0, some _ => none
  | steps + 1, some s => do
    let node ← l.node? s
    let values ← valuesFrom l steps node.next
    return node.value :: values

end Strict

namespace Op

/-- Carries out an operation strictly; reading the values takes as many steps as the list is long. -/
def performStrict (l : SlotList α) : Op α → Option (Reply α × SlotList α)
  | pushFront value => (Strict.pushFront l value).map fun pushed => (.slot pushed.1, pushed.2)
  | moveToFront s => (Strict.moveToFront l s).map fun moved => (.moved moved.1, moved.2)
  | remove s => (Strict.remove l s).map fun removed => (.value? removed.1, removed.2)
  | values => (Strict.valuesFrom l l.length l.front).map fun values => (.values values, l)
  | op => some (op.perform l)

/-- Carries out operations strictly in turn. -/
def performAllStrict (l : SlotList α) : List (Op α) → Option (List (Reply α) × SlotList α)
  | [] => some ([], l)
  | op :: ops => do
    let (reply, l) ← op.performStrict l
    let (replies, l) ← performAllStrict l ops
    return (reply :: replies, l)

end Op

/-! ### Nodes that are there -/

variable {l : SlotList α} {es L R : List (Nat × α)} {s : Nat} {v : α}

private theorem getElem?_of_node? {node : Node α} (h : l.node? s = some node) : l.slots[s]? = some (some node) :=
  Option.join_eq_some_iff.1 h

private theorem isSome_node?_modifyNode (l : SlotList α) (s t : Nat) (f : Node α → Node α) :
    ((l.modifyNode s f).node? t).isSome = (l.node? t).isSome := by
  rw [node?_modifyNode]
  split
  · exact Option.isSome_map
  · rfl

private theorem isSome_node?_linkNext (l : SlotList α) (at? next : Option Nat) (t : Nat) :
    ((l.linkNext at? next).node? t).isSome = (l.node? t).isSome := by
  rw [node?_linkNext]
  split
  · exact Option.isSome_map
  · rfl

private theorem isSome_node?_linkPrev (l : SlotList α) (at? prev : Option Nat) (t : Nat) :
    ((l.linkPrev at? prev).node? t).isSome = (l.node? t).isSome := by
  rw [node?_linkPrev]
  split
  · exact Option.isSome_map
  · rfl

theorem Layout.isSome_node?_iff (h : l.Layout es) : (l.node? s).isSome ↔ s ∈ es.map (·.1) := by
  rw [← not_iff_not, Bool.not_eq_true, Option.isSome_eq_false_iff, Option.isNone_iff_eq_none, h.node?_eq_none_iff]

namespace Strict

private theorem modifyNode_eq (h : (l.node? s).isSome) (f : Node α → Node α) :
    modifyNode l s f = some (l.modifyNode s f) := by
  obtain ⟨node, hnode⟩ := Option.isSome_iff_exists.1 h
  rw [modifyNode, hnode]
  rfl

private theorem linkNext_eq {at? : Option Nat} (h : ∀ s, at? = some s → (l.node? s).isSome) (next : Option Nat) :
    linkNext l at? next = some (l.linkNext at? next) := by
  cases at? with
  | none => rfl
  | some s => exact modifyNode_eq (h s rfl) _

private theorem linkPrev_eq {at? : Option Nat} (h : ∀ s, at? = some s → (l.node? s).isSome) (prev : Option Nat) :
    linkPrev l at? prev = some (l.linkPrev at? prev) := by
  cases at? with
  | none => rfl
  | some s => exact modifyNode_eq (h s rfl) _

/-- A node whose neighbours are there can be taken out. -/
private theorem detach_eq {node : Node α} (hs : l.node? s = some node)
    (hprev : ∀ t, node.prev = some t → (l.node? t).isSome)
    (hnext : ∀ t, node.next = some t → (l.node? t).isSome) : detach l s = some (l.detach s) := by
  have h1 := linkNext_eq hprev node.next
  have h2 : linkPrev (l.linkNext node.prev node.next) node.next node.prev =
      some ((l.linkNext node.prev node.next).linkPrev node.next node.prev) := by
    refine linkPrev_eq (fun t ht => ?_) _
    rw [isSome_node?_linkNext]
    exact hnext t ht
  have h3 : (((l.linkNext node.prev node.next).linkPrev node.next node.prev).node? s).isSome := by
    rw [isSome_node?_linkPrev, isSome_node?_linkNext, hs]
    rfl
  simp only [detach, SlotList.detach, hs, Option.bind_eq_bind, Option.bind_some, h1, h2, modifyNode_eq h3]

/-- A node can be linked in before a front that is there. -/
private theorem attachFront_eq (hs : (l.node? s).isSome) (hfront : ∀ t, l.front = some t → (l.node? t).isSome) :
    attachFront l s = some (l.attachFront s) := by
  have h1 := modifyNode_eq hs fun node => { node with prev := none, next := l.front }
  have h2 : linkPrev (l.modifyNode s fun node => { node with prev := none, next := l.front }) l.front (some s) =
      some ((l.modifyNode s fun node => { node with prev := none, next := l.front }).linkPrev l.front (some s)) := by
    refine linkPrev_eq (fun t ht => ?_) _
    rw [isSome_node?_modifyNode]
    exact hfront t ht
  simp only [attachFront, h1, h2, Option.bind_eq_bind, Option.bind_some]
  rfl

end Strict

namespace Layout

/-! ### Every operation has a result -/

theorem isSome_front (h : l.Layout es) {t : Nat} (ht : l.front = some t) : (l.node? t).isSome := by
  rw [h.isSome_node?_iff]
  rw [h.front] at ht
  exact mem_of_firstSlot ht

private theorem strict_detach (h : l.Layout (L ++ (s, v) :: R)) : Strict.detach l s = some (l.detach s) := by
  refine Strict.detach_eq (h.node rfl) (fun t ht => ?_) fun t ht => ?_
  · rw [h.isSome_node?_iff, List.map_append]
    exact List.mem_append_left _ (mem_of_lastSlot ht)
  · rw [h.isSome_node?_iff, List.map_append]
    exact List.mem_append_right _ (List.mem_cons_of_mem _ (mem_of_firstSlot ht))

private theorem strict_store (h : l.Layout es) (node : Node α) : Strict.store l node = some (l.store node) := by
  unfold Strict.store
  split
  · rename_i s _ hvacant
    have hs : s ∈ l.vacant := by simp [hvacant]
    obtain ⟨hlt, hnode⟩ := h.mem_vacant.1 hs
    -- a vacant slot exists and is empty
    have hslot : l.slots[s]? = some none := by
      unfold node? at hnode
      rw [Array.getElem?_eq_getElem hlt] at hnode ⊢
      exact congrArg some hnode
    rw [hslot]
    rfl
  · rfl

theorem strict_pushFront (h : l.Layout es) (v : α) : Strict.pushFront l v = some (l.pushFront v) := by
  have hfront : ∀ t, l.front = some t → ((l.store ⟨v, none, l.front⟩).2.node? t).isSome := by
    intro t ht
    rw [h.node?_store]
    split
    · rfl
    · exact h.isSome_front ht
  unfold Strict.pushFront
  rw [h.strict_store]
  show (Strict.linkPrev (l.store ⟨v, none, l.front⟩).2 l.front (some (l.store ⟨v, none, l.front⟩).1)).bind _ = _
  rw [Strict.linkPrev_eq hfront]
  rfl

theorem strict_moveToFront (h : l.Layout es) (s : Nat) : Strict.moveToFront l s = some (l.moveToFront s) := by
  unfold Strict.moveToFront SlotList.moveToFront
  rcases Pairs.exists_split_or_not_mem es s with ⟨L, v, R, rfl⟩ | hs
  · have hattach : Strict.attachFront (l.detach s) s = some ((l.detach s).attachFront s) := by
      refine Strict.attachFront_eq ?_ fun t ht => ?_
      · rw [node?_detach (h.node rfl), if_pos rfl]
        rfl
      · have hd := h.toChain.detach
        rw [hd.front] at ht
        obtain ⟨e, he, rfl⟩ := List.mem_map.1 (mem_of_firstSlot ht)
        obtain ⟨A, B, hAB⟩ := List.append_of_mem he
        rw [hd.node hAB]
        rfl
    split
    · rfl
    split
    · rfl
    · rw [h.strict_detach]
      show (Strict.attachFront (l.detach s) s).bind _ = _
      rw [hattach]
      rfl
  · rw [h.unused hs]
    rfl

theorem strict_remove (h : l.Layout es) (s : Nat) : Strict.remove l s = some (l.remove s) := by
  unfold Strict.remove SlotList.remove
  rcases Pairs.exists_split_or_not_mem es s with ⟨L, v, R, rfl⟩ | hs
  · have hself : (l.detach s).node? s = some ⟨v, none, none⟩ := by rw [node?_detach (h.node rfl), if_pos rfl]
    have hvacate : Strict.vacate (l.detach s) s = some ((l.detach s).vacate s) := by
      unfold Strict.vacate
      rw [getElem?_of_node? hself]
      rfl
    have hlength : ((l.detach s).vacate s).length ≠ 0 := by
      show (l.detach s).length ≠ 0
      rw [length_detach, h.length_eq]
      simp
    rw [h.node rfl, h.strict_detach]
    show (Strict.vacate (l.detach s) s).bind _ = _
    rw [hvacate]
    exact if_neg hlength
  · rw [h.unused hs]

/-- A walk through the values comes to its end in as many steps as there are, and not in less. -/
theorem strict_valuesFrom (h : l.Layout (L ++ R)) (steps : Nat) :
    Strict.valuesFrom l steps (firstSlot R) = if R.length ≤ steps then some (R.map (·.2)) else none := by
  induction R generalizing L steps with
  | nil => cases steps <;> rfl
  | cons e R ih =>
    obtain ⟨t, w⟩ := e
    have h' : l.Layout ((L ++ [(t, w)]) ++ R) := by simpa using h
    cases steps with
    | zero => rfl
    | succ steps =>
      rw [firstSlot_cons, Strict.valuesFrom, h.node rfl]
      show (Strict.valuesFrom l steps (firstSlot R)).bind _ = _
      rw [ih h']
      by_cases hle : R.length ≤ steps
      · rw [if_pos hle, if_pos (by simpa using hle)]
        rfl
      · rw [if_neg hle, if_neg (by simpa using hle)]
        rfl

end Layout

/-! ### In a session -/

private theorem Op.performStrict_eq (h : l.Layout es) (op : Op α) : op.performStrict l = some (op.perform l) := by
  cases op with
  | pushFront value =>
    show (Strict.pushFront l value).map _ = _
    rw [h.strict_pushFront]
    rfl
  | moveToFront s =>
    show (Strict.moveToFront l s).map _ = _
    rw [h.strict_moveToFront]
    rfl
  | remove s =>
    show (Strict.remove l s).map _ = _
    rw [h.strict_remove]
    rfl
  | values =>
    have hvalues := Layout.strict_valuesFrom (L := []) h l.length
    rw [if_pos h.length_eq.ge] at hvalues
    show (Strict.valuesFrom l l.length l.front).map _ = _
    rw [h.front, hvalues, ← h.toList_eq]
    rfl
  | get | set | next | front | back | length | clear => rfl

/-- Strict operations in turn have the results of the ordinary ones. -/
theorem Op.performAllStrict_eq (h : l.Layout es) (ops : List (Op α)) :
    performAllStrict l ops = some (performAll l ops) := by
  induction ops generalizing l es with
  | nil => rfl
  | cons op ops ih =>
    obtain ⟨fresh, -, -, hnext⟩ := Op.perform_turn h op
    unfold performAllStrict
    rw [Op.performStrict_eq h]
    show (performAllStrict (op.perform l).2 ops).bind _ = _
    rw [ih hnext]
    rfl

/-- Strict operations do refuse: here a slot that is not there is taken for vacant, and a front has no node. -/
example : Op.performStrict ({ vacant := [0] } : SlotList Nat) (.pushFront 10) = none ∧
    Op.performStrict ({ front := some 7 } : SlotList Nat) (.pushFront 10) = none := by decide

end SlotList

end RecencyCache
