import RecencyCache.Proofs.SlotList.Strict

/-!
# The links of a list

The links of a well-formed list lead through its slots both ways: following what comes next from the front meets every
slot in use once and ends at the back, following what comes before from the back meets the same slots in the opposite
order (`WellFormed.linked`).  Nothing that reads a list asks for what comes before a slot, only the removal of a
node does, so it is `prev?` here that tells whether a later removal will go right.
-/

namespace RecencyCache

namespace SlotList

variable {α : Type}

/-- The slot before a slot, towards the front. -/
def prev? (l : SlotList α) (s : Nat) : Option Nat :=
  (l.node? s).bind (·.prev)

/-- From a slot on, or from none, steps lead through the slots of the list in turn and then no further. -/
inductive Walk (step : Nat → Option Nat) : Option Nat → List Nat → Prop
  | stop : Walk step none []
  | go {s ss} : Walk step (step s) ss → Walk step (some s) (s :: ss)

/-- The links of a list run through `ss`, from the front to the back and from the back to the front. -/
structure Linked (l : SlotList α) (ss : List Nat) : Prop where
  forth : Walk l.next? l.front ss
  back : Walk l.prev? l.back ss.reverse
  last : ss.getLast? = l.back
  first : ss.head? = l.front
  nodup : ss.Nodup
  length : ss.length = l.length
  inUse : ∀ s, s ∈ ss ↔ (l.node? s).isSome
  opposite : ∀ s t, l.next? s = some t ↔ l.prev? t = some s
  live : ∀ t, (l.front = some t ∨ l.back = some t ∨ ∃ s, l.next? s = some t ∨ l.prev? s = some t) →
    (l.node? t).isSome
  noFront : l.front = none ↔ l.length = 0
  noBack : l.back = none ↔ l.length = 0

variable {l : SlotList α} {es L R : List (Nat × α)} {s t : Nat} {v : α}

/-- A slot from which a link leads on has a node. -/
private theorem isSome_of_link {link : Node α → Option Nat} (h : (l.node? s).bind link = some t) :
    (l.node? s).isSome := by
  obtain ⟨node, hnode, -⟩ := Option.bind_eq_some_iff.1 h
  rw [hnode]
  rfl

/-! ### Ends of a list of pairs -/

private theorem exists_of_firstSlot (h : firstSlot es = some s) : ∃ v R, es = (s, v) :: R := by
  cases es with
  | nil => cases h
  | cons e R =>
    cases h
    exact ⟨e.2, R, rfl⟩

private theorem exists_of_lastSlot (h : lastSlot es = some s) : ∃ L v, es = L ++ [(s, v)] := by
  rcases List.eq_nil_or_concat es with rfl | ⟨L, e, rfl⟩
  · cases h
  · rw [List.concat_eq_append, lastSlot_append_cons, lastSlot_singleton] at h
    cases h
    exact ⟨L, e.2, List.concat_eq_append ..⟩

private theorem getLast?_slots (es : List (Nat × α)) : (es.map (·.1)).getLast? = lastSlot es := by
  rw [List.getLast?_map, lastSlot]

private theorem head?_slots (es : List (Nat × α)) : (es.map (·.1)).head? = firstSlot es := by
  rw [List.head?_map, firstSlot]

/-! ### The links of a layout -/

namespace Layout

private theorem prev?_eq (h : l.Layout (L ++ (s, v) :: R)) : l.prev? s = lastSlot L := by
  rw [prev?, h.node rfl]
  rfl

private theorem prev?_of_not_mem (h : l.Layout es) (hs : s ∉ es.map (·.1)) : l.prev? s = none := by
  rw [prev?, h.unused hs]
  rfl

private theorem walk_next? (h : l.Layout (L ++ R)) : Walk l.next? (firstSlot R) (R.map (·.1)) := by
  induction R generalizing L with
  | nil => exact .stop
  | cons e R ih =>
    obtain ⟨s, v⟩ := e
    have hnext := h.next?_eq
    have hrest : Walk l.next? (firstSlot R) (R.map (·.1)) := ih (L := L ++ [(s, v)]) (by simpa using h)
    rw [← hnext] at hrest
    exact .go hrest

private theorem walk_prev? (h : l.Layout (L ++ R)) : Walk l.prev? (lastSlot L) (L.map (·.1)).reverse := by
  induction L using List.reverseRecOn generalizing R with
  | nil => exact .stop
  | append_singleton L e ih =>
    obtain ⟨s, v⟩ := e
    have h' : l.Layout (L ++ (s, v) :: R) := by simpa using h
    have hprev := h'.prev?_eq
    have hrest := ih h'
    rw [← hprev] at hrest
    rw [lastSlot_append_cons, lastSlot_singleton, List.map_append, List.reverse_append]
    exact .go hrest

/-- What comes next and what comes before are opposite. -/
private theorem next?_eq_some_iff (h : l.Layout es) : l.next? s = some t ↔ l.prev? t = some s := by
  constructor
  · intro hnext
    rcases Pairs.exists_split_or_not_mem es s with ⟨L, v, R, rfl⟩ | hs
    · rw [h.next?_eq] at hnext
      obtain ⟨w, R, rfl⟩ := exists_of_firstSlot hnext
      have h' : l.Layout ((L ++ [(s, v)]) ++ (t, w) :: R) := by simpa using h
      rw [h'.prev?_eq, lastSlot_append_cons, lastSlot_singleton]
    · rw [h.next?_of_not_mem hs] at hnext
      cases hnext
  · intro hprev
    rcases Pairs.exists_split_or_not_mem es t with ⟨L, w, R, rfl⟩ | ht
    · rw [h.prev?_eq] at hprev
      obtain ⟨L, v, rfl⟩ := exists_of_lastSlot hprev
      have h' : l.Layout (L ++ (s, v) :: (t, w) :: R) := by simpa using h
      rw [h'.next?_eq, firstSlot_cons]
    · rw [h.prev?_of_not_mem ht] at hprev
      cases hprev

private theorem linked (h : l.Layout es) : l.Linked (es.map (·.1)) := by
  have hforth : Walk l.next? l.front (es.map (·.1)) := by
    rw [h.front]
    exact walk_next? (L := []) h
  have hback : Walk l.prev? l.back (es.map (·.1)).reverse := by
    rw [h.back]
    exact walk_prev? (R := []) (by simpa using h)
  refine ⟨hforth, hback, ?_, ?_, h.nodup, ?_, fun s => h.isSome_node?_iff.symm, fun s t => h.next?_eq_some_iff,
    ?_, ?_, ?_⟩
  · rw [getLast?_slots, h.back]
  · rw [head?_slots, h.front]
  · rw [List.length_map, h.length_eq]
  · rintro t (hfront | hback | ⟨s, hnext | hprev⟩)
    · exact h.isSome_front hfront
    · rw [h.isSome_node?_iff]
      rw [h.back] at hback
      exact mem_of_lastSlot hback
    · exact isSome_of_link (h.next?_eq_some_iff.1 hnext)
    · exact isSome_of_link (h.next?_eq_some_iff.2 hprev)
  · rw [h.front, firstSlot_eq_none_iff, h.length_eq, List.length_eq_zero_iff]
  · rw [h.back, lastSlot_eq_none_iff, h.length_eq, List.length_eq_zero_iff]

end Layout

theorem WellFormed.linked (h : l.WellFormed) : l.Linked l.order := by
  obtain ⟨es, hes⟩ := h
  rw [hes.order_eq]
  exact hes.linked

end SlotList

end RecencyCache
