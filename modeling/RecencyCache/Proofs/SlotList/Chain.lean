import RecencyCache.SlotList.Lemmas

/-!
# Chains

A list of pairs of slots and values is chained in a slot list when the links run through its slots in its order, in
both directions, from the front to the back.  Taking a node out of a chain (`Chain.detach`) leaves the chain of the
others, and linking one in before the front (`Chain.attachFront`) gives the chain that starts with it; between the two
the node is loose, but stays in its slot.
-/

namespace RecencyCache

namespace SlotList

variable {α : Type}

/-! ### The nodes after a step on the links -/

theorem node?_detach {l : SlotList α} {s : Nat} {node : Node α} (h : l.node? s = some node) (t : Nat) :
    (l.detach s).node? t =
      if s = t then some ⟨node.value, none, none⟩
      else (l.node? t).map fun n =>
        ⟨n.value, if node.next = some t then node.prev else n.prev,
          if node.prev = some t then node.next else n.next⟩ := by
  simp only [detach, h, node?_modifyNode, node?_linkPrev, node?_linkNext]
  by_cases hst : s = t
  · subst hst
    simp only [if_true, h]
    split <;> split <;> rfl
  · simp only [if_neg hst]
    cases l.node? t with
    | none => split <;> split <;> rfl
    | some n => split <;> split <;> rfl

theorem node?_attachFront (l : SlotList α) (s t : Nat) :
    (l.attachFront s).node? t = (l.node? t).map fun n =>
      ⟨n.value, if l.front = some t then some s else if s = t then none else n.prev,
        if s = t then l.front else n.next⟩ := by
  have h : (l.attachFront s).node? t =
      ((l.modifyNode s fun node => { node with prev := none, next := l.front }).linkPrev l.front (some s)).node? t :=
    rfl
  rw [h, node?_linkPrev, node?_modifyNode]
  cases l.node? t with
  | none => split <;> split <;> rfl
  | some n => split <;> split <;> rfl

private theorem front_linkNext (l : SlotList α) (at? next : Option Nat) :
    (l.linkNext at? next).front = if at? = none then next else l.front := by
  cases at? <;> rfl

private theorem back_linkPrev (l : SlotList α) (at? prev : Option Nat) :
    (l.linkPrev at? prev).back = if at? = none then prev else l.back := by
  cases at? <;> rfl

@[simp] theorem back_linkNext (l : SlotList α) (at? next : Option Nat) : (l.linkNext at? next).back = l.back := by
  cases at? <;> rfl

@[simp] theorem front_linkPrev (l : SlotList α) (at? prev : Option Nat) : (l.linkPrev at? prev).front = l.front := by
  cases at? <;> rfl

private theorem front_detach {l : SlotList α} {s : Nat} {node : Node α} (h : l.node? s = some node) :
    (l.detach s).front = if node.prev = none then node.next else l.front := by
  simp [detach, h, modifyNode, front_linkNext]

private theorem back_detach {l : SlotList α} {s : Nat} {node : Node α} (h : l.node? s = some node) :
    (l.detach s).back = if node.next = none then node.prev else l.back := by
  simp [detach, h, modifyNode, back_linkPrev]

@[simp] theorem front_attachFront (l : SlotList α) (s : Nat) : (l.attachFront s).front = some s := rfl

private theorem back_attachFront (l : SlotList α) (s : Nat) :
    (l.attachFront s).back = if l.front = none then some s else l.back := by
  unfold attachFront linkPrev
  cases l.front <;> rfl

/-! ### What the links leave alone -/

@[simp] theorem vacant_linkNext (l : SlotList α) (at? next : Option Nat) : (l.linkNext at? next).vacant = l.vacant := by
  cases at? <;> rfl

@[simp] theorem vacant_linkPrev (l : SlotList α) (at? prev : Option Nat) : (l.linkPrev at? prev).vacant = l.vacant := by
  cases at? <;> rfl

@[simp] theorem length_linkNext (l : SlotList α) (at? next : Option Nat) : (l.linkNext at? next).length = l.length := by
  cases at? <;> rfl

@[simp] theorem length_linkPrev (l : SlotList α) (at? prev : Option Nat) : (l.linkPrev at? prev).length = l.length := by
  cases at? <;> rfl

@[simp] theorem size_linkNext (l : SlotList α) (at? next : Option Nat) :
    (l.linkNext at? next).slots.size = l.slots.size := by
  cases at? <;> simp [linkNext]

@[simp] theorem size_linkPrev (l : SlotList α) (at? prev : Option Nat) :
    (l.linkPrev at? prev).slots.size = l.slots.size := by
  cases at? <;> simp [linkPrev]

@[simp] theorem vacant_detach (l : SlotList α) (s : Nat) : (l.detach s).vacant = l.vacant := by
  unfold detach
  split <;> simp [modifyNode]

@[simp] theorem length_detach (l : SlotList α) (s : Nat) : (l.detach s).length = l.length := by
  unfold detach
  split <;> simp [modifyNode]

@[simp] theorem size_detach (l : SlotList α) (s : Nat) : (l.detach s).slots.size = l.slots.size := by
  unfold detach
  split <;> simp

@[simp] theorem vacant_attachFront (l : SlotList α) (s : Nat) : (l.attachFront s).vacant = l.vacant := by
  simp [attachFront, modifyNode]

@[simp] theorem length_attachFront (l : SlotList α) (s : Nat) : (l.attachFront s).length = l.length := by
  simp [attachFront, modifyNode]

@[simp] theorem size_attachFront (l : SlotList α) (s : Nat) : (l.attachFront s).slots.size = l.slots.size := by
  simp [attachFront]

/-! ### Ends of a list of pairs -/

/-- The slot of the first pair. -/
def firstSlot (es : List (Nat × α)) : Option Nat :=
  es.head?.map (·.1)

/-- The slot of the last pair. -/
def lastSlot (es : List (Nat × α)) : Option Nat :=
  es.getLast?.map (·.1)

@[simp] theorem firstSlot_nil : firstSlot ([] : List (Nat × α)) = none := rfl

@[simp] theorem firstSlot_cons (e : Nat × α) (es : List (Nat × α)) : firstSlot (e :: es) = some e.1 := rfl

@[simp] theorem lastSlot_nil : lastSlot ([] : List (Nat × α)) = none := rfl

@[simp] theorem lastSlot_singleton (e : Nat × α) : lastSlot [e] = some e.1 := rfl

@[simp] theorem lastSlot_append_cons (es : List (Nat × α)) (e : Nat × α) (es' : List (Nat × α)) :
    lastSlot (es ++ e :: es') = lastSlot (e :: es') := by
  simp [lastSlot, List.getLast?_cons]

@[simp] theorem lastSlot_cons_cons (e e' : Nat × α) (es : List (Nat × α)) :
    lastSlot (e :: e' :: es) = lastSlot (e' :: es) :=
  lastSlot_append_cons [e] e' es

theorem lastSlot_congr {es es' : List (Nat × α)} (h : es.map (·.1) = es'.map (·.1)) : lastSlot es = lastSlot es' := by
  rw [lastSlot, lastSlot, ← List.getLast?_map, h, List.getLast?_map]

theorem mem_of_firstSlot {es : List (Nat × α)} {s : Nat} (h : firstSlot es = some s) : s ∈ es.map (·.1) := by
  obtain ⟨e, he, rfl⟩ := Option.map_eq_some_iff.1 h
  exact List.mem_map_of_mem (List.mem_of_head? he)

theorem mem_of_lastSlot {es : List (Nat × α)} {s : Nat} (h : lastSlot es = some s) : s ∈ es.map (·.1) := by
  obtain ⟨e, he, rfl⟩ := Option.map_eq_some_iff.1 h
  exact List.mem_map_of_mem (List.mem_of_getLast? he)

@[simp] theorem firstSlot_eq_none_iff {es : List (Nat × α)} : firstSlot es = none ↔ es = [] := by
  simp [firstSlot]

@[simp] theorem lastSlot_eq_none_iff {es : List (Nat × α)} : lastSlot es = none ↔ es = [] := by
  simp [lastSlot]

theorem mem_slots_iff {L R : List (Nat × α)} {e : Nat × α} {s : Nat} :
    s ∈ (L ++ e :: R).map (·.1) ↔ s = e.1 ∨ s ∈ (L ++ R).map (·.1) := by
  rw [List.map_append, List.map_cons, List.map_append, List.mem_append, List.mem_cons, List.mem_append]
  exact or_left_comm

/-- A place in `L ++ R` is a place in `L` or one in `R`. -/
theorem append_eq_append_cons {β : Type} {L R A B : List β} {e : β} (h : L ++ R = A ++ e :: B) :
    (∃ M, L = A ++ e :: M ∧ B = M ++ R) ∨ (∃ M, A = L ++ M ∧ R = M ++ e :: B) := by
  rcases List.append_eq_append_iff.1 h with ⟨M, hA, hR⟩ | ⟨M, hL, hB⟩
  · exact Or.inr ⟨M, hA, hR⟩
  · cases M with
    | nil => exact Or.inr ⟨[], by simp [hL], by simpa using hB.symm⟩
    | cons m M =>
      obtain ⟨rfl, hB'⟩ := List.cons_eq_cons.1 hB
      exact Or.inl ⟨M, hL, hB'⟩

/-! ### Chains -/

/-- The links of `l` run through the slots of the pairs `es` in their order, and the values are those in the slots. -/
structure Chain (l : SlotList α) (es : List (Nat × α)) : Prop where
  front : l.front = firstSlot es
  back : l.back = lastSlot es
  nodup : (es.map (·.1)).Nodup
  node : ∀ {L s v R}, es = L ++ (s, v) :: R → l.node? s = some ⟨v, lastSlot L, firstSlot R⟩

namespace Chain

variable {l : SlotList α} {es L R : List (Nat × α)} {s : Nat} {v : α}

/-- The slots before and after a place in a chain are other slots. -/
theorem not_mem_sides (h : l.Chain (L ++ (s, v) :: R)) : s ∉ L.map (·.1) ∧ s ∉ R.map (·.1) := by
  have hn := h.nodup
  rw [List.map_append, List.map_cons, List.nodup_append, List.nodup_cons] at hn
  exact ⟨fun hs => hn.2.2 s hs s (List.mem_cons_self ..) rfl, hn.2.1.1⟩

/-- A chain hangs on its own nodes only. -/
theorem congr {l' : SlotList α} (h : l.Chain es) (hf : l'.front = l.front) (hb : l'.back = l.back)
    (hn : ∀ t ∈ es.map (·.1), l'.node? t = l.node? t) : l'.Chain es := by
  refine ⟨hf.trans h.front, hb.trans h.back, h.nodup, ?_⟩
  intro A t w B hAB
  rw [hn t (by simp [hAB]), h.node hAB]

/-- The neighbours of a node taken out are linked to each other. -/
theorem detach (h : l.Chain (L ++ (s, v) :: R)) : (l.detach s).Chain (L ++ R) := by
  have hs := h.node rfl
  obtain ⟨hsL, hsR⟩ := h.not_mem_sides
  have hn : ((L ++ R).map (·.1)).Nodup :=
    h.nodup.sublist (((List.sublist_cons_self _ R).append_left L).map _)
  refine ⟨?_, ?_, hn, ?_⟩
  · rw [front_detach hs, h.front]
    cases L <;> simp
  · rw [back_detach hs, h.back]
    cases R <;> simp
  · intro A t w B hAB
    have hst : s ≠ t := by
      rintro rfl
      have : s ∈ (L ++ R).map (·.1) := by simp [hAB]
      rw [List.map_append, List.mem_append] at this
      exact this.elim hsL hsR
    rw [node?_detach hs, if_neg hst]
    rw [hAB, List.map_append, List.map_cons, List.nodup_append, List.nodup_cons] at hn
    obtain ⟨-, ⟨htB, -⟩, htA⟩ := hn
    rcases append_eq_append_cons hAB with ⟨M, rfl, rfl⟩ | ⟨M, rfl, rfl⟩
    · -- a place before the node: it is followed by what followed the node, if it came right before it
      have ht := h.node (L := A) (s := t) (v := w) (R := M ++ (s, v) :: R) (by simp)
      have hR : firstSlot R ≠ some t := fun e => htB (by simp [mem_of_firstSlot e])
      rw [ht]
      cases M with
      | nil => simp [hR]
      | cons m M =>
        have hM : lastSlot (m :: M) ≠ some t := by
          intro e
          rw [List.map_append] at htB
          exact htB (List.mem_append_left _ (mem_of_lastSlot e))
        simp [hR, hM]
    · -- a place after the node: it is preceded by what preceded the node, if it came right after it
      have ht := h.node (L := L ++ (s, v) :: M) (s := t) (v := w) (R := B) (by simp)
      have hL : lastSlot L ≠ some t := fun e => htA t (by simp [mem_of_lastSlot e]) t (by simp) rfl
      rw [ht]
      cases M with
      | nil => simp [hL]
      | cons m M =>
        have hm : m.1 ≠ t := fun e => htA t (by simp [e]) t (by simp) rfl
        simp [hL, hm]

/-- A node linked in before the front comes first. -/
theorem attachFront {node : Node α} (h : l.Chain es) (hs : s ∉ es.map (·.1)) (hn : l.node? s = some node) :
    (l.attachFront s).Chain ((s, node.value) :: es) := by
  have hf : firstSlot es ≠ some s := fun e => hs (mem_of_firstSlot e)
  refine ⟨rfl, ?_, ?_, ?_⟩
  · rw [back_attachFront, h.front, h.back]
    cases es <;> simp
  · exact List.nodup_cons.2 ⟨hs, h.nodup⟩
  · intro A t w B hAB
    rw [node?_attachFront]
    cases A with
    | nil =>
      obtain ⟨he, rfl⟩ := List.cons_eq_cons.1 hAB
      obtain ⟨rfl, rfl⟩ := Prod.mk.inj he
      simp [hn, hf, h.front]
    | cons a A =>
      rw [List.cons_append, List.cons.injEq] at hAB
      obtain ⟨rfl, rfl⟩ := hAB
      have hst : s ≠ t := fun e => hs (by simp [e])
      rw [h.node rfl, h.front]
      -- only the old front learns of a new neighbour
      cases A with
      | nil => simp [hst]
      | cons a A =>
        have hat : a.1 ≠ t := by
          have := h.nodup
          rw [List.cons_append, List.map_cons, List.nodup_cons] at this
          exact fun e => this.1 (by simp [e])
        simp [hst, hat]

end Chain

end SlotList

end RecencyCache
