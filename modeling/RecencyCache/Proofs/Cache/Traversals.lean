import RecencyCache.Proofs.Cache.Sweeps
import RecencyCache.Proofs.SlotList.Links

/-!
# Traversals

The links of a list lead through its slots, of which there are as many as it is long.  So a walk through the values
comes to its end in that many steps and in no fewer, and so does a sweep of a cache, though it drops entries on its
way, as long as nothing stops it (`Op.run_linked`).
-/

namespace RecencyCache

variable {κ ν ρ ω ε α β : Type} [BEq κ] [Hashable κ]

/-! ### Effects that come to an answer -/

namespace Effect

variable {w w' : World κ ν ω} {x : Effect κ ν ω ε α} {a : α} {b : β}

private theorem exists_of_bind_ok {f : α → Effect κ ν ω ε β} (h : (x >>= f) w = .ok b w') :
    ∃ a w'', x w = .ok a w'' ∧ f a w'' = .ok b w' := by
  cases hx : x w with
  | ok a w'' => exact ⟨a, w'', rfl, (bind_of_ok hx f).symm.trans h⟩
  | error e w'' =>
    rw [bind_of_error hx] at h
    cases h

private theorem exists_of_exclusively_ok (h : exclusively x w = .ok a w') : ∃ w'', x w.hold = .ok a w'' := by
  unfold exclusively at h
  unfold World.hold
  cases hx : x { w with cache := { w.cache with held := true } } with
  | ok a' w'' =>
    rw [hx] at h
    cases h
    exact ⟨w'', rfl⟩
  | error e w'' =>
    rw [hx] at h
    cases h

end Effect

namespace Cache

variable [EquivBEq κ] [LawfulHashable κ] {w : World κ ν ω} {matches? : ν → Callback ω ε Bool} {entries : Nat}

private theorem Op.exists_of_apply_ok {op : Op κ ν ρ ω ε} {reply : Reply κ ν ρ} (h : (op.apply w).1 = .ok reply) :
    ∃ w', op.perform w = .ok reply w' := by
  unfold Op.apply at h
  cases hop : op.perform w with
  | ok reply' w' =>
    rw [hop] at h
    cases h
    exact ⟨w', rfl⟩
  | error e w' =>
    rw [hop] at h
    cases h

/-! ### Sweeps -/

/-- Behind the answer of a call that offers all values to a predicate there is a sweep from the front to the end. -/
private theorem Op.exists_sweep (h : ((Op.tryRemoveIf matches? : Op κ ν ρ ω ε).apply w).1 = .ok (.removed entries)) :
    ∃ w', sweepFrom matches? w.cache.order.slots.size w.cache.order.front 0 w.hold = .ok entries w' := by
  obtain ⟨w₁, hperform⟩ := Op.exists_of_apply_ok h
  unfold Op.perform at hperform
  rw [map_eq_pure_bind] at hperform
  obtain ⟨removed, w₂, hremove, hreply⟩ := Effect.exists_of_bind_ok hperform
  cases hreply
  obtain ⟨w₃, hheld⟩ := Effect.exists_of_exclusively_ok hremove
  rw [Effect.bind_ask, Effect.bind_ask] at hheld
  obtain ⟨removed, w₄, hsweep, hrest⟩ := Effect.exists_of_bind_ok hheld
  -- what is said at the end does not change the answer
  split at hrest <;> cases hrest <;> exact ⟨_, hsweep⟩

/-- A sweep that nothing stops takes as many steps as there are entries, and refuses to go on after fewer. -/
private theorem Op.sweep_steps (h : w.cache.Ready)
    (hok : ((Op.tryRemoveIf matches? : Op κ ν ρ ω ε).apply w).1 = .ok (.removed entries)) (steps : Nat) :
    (Strict.sweepFrom matches? steps w.cache.order.front 0 w.hold).map (·.1) =
      if w.cache.length ≤ steps then some (.ok entries) else none := by
  obtain ⟨es, hes⟩ := h.coherent.exists_holds
  have hv : w.hold.cache.Holds ([] ++ es) := hes.congr rfl rfl rfl
  have hfuel : es.length ≤ w.cache.order.slots.size := hes.layout.length_le_size
  obtain ⟨w', hsweep⟩ := Op.exists_sweep hok
  rw [hes.layout.front] at hsweep ⊢
  rw [hes.length_eq]
  by_cases hle : es.length ≤ steps
  · rw [sweepFrom_follows matches? hv hle hfuel 0, if_pos hle, Effect.ends, hsweep]
    rfl
  · rw [sweepFrom_refuses matches? hv (Nat.lt_of_not_le hle) hfuel hsweep, if_neg hle]
    rfl

/-! ### After a run -/

/-- The links of a list run through all of its slots, both ways.  In the list that a session leaves behind, whatever
slots it has named, and in that of the entries of a cache after every run from a new one, the order of the slots is what
following the links from the front leads through, from the front to the back, and following them from the back leads
through it in the opposite direction; it has every slot in use, once, and as many as the list is long; a slot comes next
after another just where that comes before it; no link, nor the front nor the back, names a vacant slot; and there is no
front, and no back, if the list has no values and only then.  So a walk through the values comes to an end in as many
steps as the list is long and not in fewer, and so does a sweep that ends with an answer. -/
theorem Op.run_linked {α : Type} (session : List (SlotList.Op α)) (config : Config) (metrics : Metrics) (caller : ω)
    (ops : List (Op κ ν ρ ω ε)) :
    let l := (SlotList.Op.performAll SlotList.empty session).2
    let empty : Cache κ ν := { Cache.empty config with metrics }
    let start : World κ ν ω := { cache := empty, log := #[.created config], caller }
    let w := (Op.run start ops).2
    l.Linked l.order ∧
      (∀ steps, SlotList.Strict.valuesFrom l steps l.front = if l.length ≤ steps then some l.toList else none) ∧
      w.cache.order.Linked w.cache.order.order ∧
      ∀ (matches? : ν → Callback ω ε Bool) (entries : Nat),
        ((Op.tryRemoveIf matches? : Op κ ν ρ ω ε).apply w).1 = .ok (.removed entries) →
        ∀ steps, (Strict.sweepFrom matches? steps w.cache.order.front 0 w.hold).map (·.1) =
          if w.cache.length ≤ steps then some (.ok entries) else none := by
  intro l empty start w
  obtain ⟨es, hes⟩ := SlotList.Op.performAll_wellFormed session
  have hready : w.cache.Ready := (Op.run_ready (ready_counting config metrics) ops).1
  obtain ⟨fs, hfs⟩ := hready.coherent.exists_holds
  refine ⟨SlotList.WellFormed.linked ⟨es, hes⟩, fun steps => ?_, SlotList.WellFormed.linked ⟨fs, hfs.layout⟩,
    fun matches? entries hok => Op.sweep_steps hready hok⟩
  have hvalues := SlotList.Layout.strict_valuesFrom (L := []) hes steps
  rw [hes.front, hes.toList_eq, hes.length_eq]
  exact hvalues

/-- A slot that has been given back and given out again; a sweep of three entries that drops the one in the middle. -/
theorem Op.run_linked_instance :
    let session : List (SlotList.Op Nat) :=
      [.pushFront 10, .pushFront 20, .pushFront 30, .remove 1, .moveToFront 0, .moveToFront 1, .pushFront 40]
    let ops : List (Op Key Nat Unit Unit Empty) := [.put (.int 1) 10, .put (.int 2) 20, .put (.int 3) 30]
    let matches? : Nat → Callback Unit Empty Bool := fun value => pure (value = 20)
    let l := (SlotList.Op.performAll SlotList.empty session).2
    let start : World Key Nat Unit := World.new ⟨3, by decide⟩ ()
    let w := (Op.run start ops).2
    l.Linked [1, 0, 2] ∧ SlotList.Strict.valuesFrom l 2 l.front = none ∧
      SlotList.Strict.valuesFrom l 3 l.front = some [40, 10, 30] ∧
      w.cache.order.Linked w.cache.order.order ∧
      (Strict.sweepFrom matches? 2 w.cache.order.front 0 w.hold).map (·.1) = none ∧
      (Strict.sweepFrom matches? 3 w.cache.order.front 0 w.hold).map (·.1) = some (.ok 1) := by
  intro session ops matches? l start w
  obtain ⟨hlinked, hvalues, horder, hsweep⟩ := Op.run_linked (ρ := Unit) session ⟨3, by decide⟩ Metrics.zero () ops
  have hnew := ready_new (κ := Key) (ν := Nat) ⟨3, by decide⟩ ()
  have hover : Op.NoOverflow start ops := (Op.noOverflow_iff hnew _).2 fun c => by cases c <;> decide
  have hready : w.cache.Ready := (Op.run_ready hnew ops).1
  obtain ⟨-, hmoments⟩ := Op.run_eq hnew hover
  have hlist : w.cache.toList = [(.int 3, 30), (.int 2, 20), (.int 1, 10)] := (hmoments 2 _ rfl).1
  have hlength : w.cache.length = 3 := by rw [hready.coherent.agrees.length, hlist]; rfl
  have hok : ((Op.tryRemoveIf matches? : Op Key Nat Unit Unit Empty).apply w).1 = .ok (.removed 1) := by
    have hs : Sequence.survey matches? (w.cache.toList.map (·.2)) w.caller = ⟨[false, true, false], none, ()⟩ := by
      rw [hlist]
      rfl
    have hbalanced : w.Balanced 0 := Op.run_balanced hnew hover rfl
    have hroom : w.cache.Room 1 := room_of_balanced hbalanced (by omega)
    exact (Op.apply_sweep hready matches? hs hroom).outcome
  have hsteps := hsweep matches? 1 hok
  have htwo : ¬ w.cache.length ≤ 2 := by omega
  have hthree : w.cache.length ≤ 3 := by omega
  exact ⟨hlinked, hvalues 2, hvalues 3, horder, (hsteps 2).trans (if_neg htwo),
    (hsteps 3).trans (if_pos hthree)⟩

end Cache

end RecencyCache
