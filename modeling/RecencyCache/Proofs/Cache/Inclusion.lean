import RecencyCache.Proofs.Cache.Runs
import RecencyCache.Proofs.Sequence.Inclusion

/-!
# A larger cache keeps what a smaller one keeps

The same calls are made on two new caches of different capacities.  As long as predicates and updates go by the value,
after every call the entries of the smaller cache stand in the larger one (`Op.run_within`), so more capacity never
loses a hit.
-/

namespace RecencyCache

open Sequence (Covered Within Fewer)

variable {κ ν ρ ω ε : Type} [BEq κ] [Hashable κ]

/-- How often a world has counted. -/
def World.counts (w : World κ ν ω) (c : Counter) : Nat :=
  (w.cache.metrics.get c).toNat

variable [EquivBEq κ] [LawfulHashable κ]

/-- The cache of one world is within that of another: its entries stand there with equal keys and the same values, it
has no more free places, and it has hit, updated and removed no more, and inserted and evicted no less. -/
structure World.Within (w w' : World κ ν ω) : Prop where
  covered : List.SublistForall₂ (fun e e' => (e.1 == e'.1) = true ∧ e.2 = e'.2) w.cache.toList w'.cache.toList
  room : w.cache.capacity - w.cache.length ≤ w'.cache.capacity - w'.cache.length
  requests : w.cache.metrics.requests = w'.cache.metrics.requests
  hits : w.cache.metrics.hits ≤ w'.cache.metrics.hits
  updates : w.cache.metrics.updates ≤ w'.cache.metrics.updates
  predicateEvictions : w.cache.metrics.predicateEvictions ≤ w'.cache.metrics.predicateEvictions
  removals : w.cache.metrics.removals ≤ w'.cache.metrics.removals
  insertions : w'.cache.metrics.insertions ≤ w.cache.metrics.insertions
  evictions : w'.cache.metrics.evictions ≤ w.cache.metrics.evictions

namespace Cache

variable {w w' : World κ ν ω}

/-- A call that goes by the value keeps a cache within a larger one. -/
private theorem Op.apply_within (h : w.cache.Ready) (h' : w'.cache.Ready)
    (hcapacity : w.cache.capacity ≤ w'.cache.capacity)
    {op : Op κ ν ρ ω ε} (hvalue : op.ByValue) (hover : (op.apply w).1 ≠ .error (.faulted .addOverflow))
    (hover' : (op.apply w').1 ≠ .error (.faulted .addOverflow))
    (hwithin : Within w.cache.capacity w'.cache.capacity w.cache.toList w'.cache.toList)
    (hfewer : Fewer w.counts w'.counts) :
    Within w.cache.capacity w'.cache.capacity (op.apply w).2.cache.toList (op.apply w').2.cache.toList ∧
      Fewer (op.apply w).2.counts (op.apply w').2.counts := by
  obtain ⟨edit, hedit⟩ := Sequence.step_edit hvalue
  have hc := Op.apply_carries h hover
  have hc' := Op.apply_carries h' hover'
  have hkeeps := edit.keeps hwithin h'.coherent.distinct h.coherent.length_toList_le h'.coherent.length_toList_le
    w.cache.config.limit_pos hcapacity
  rw [← hedit w.cache.capacity w.cache.toList w.caller, ← hedit w'.cache.capacity w'.cache.toList w'.caller] at hkeeps
  constructor
  · rw [hc.entries, hc'.entries]
    exact hkeeps.within
  · have hcounts : (op.apply w).2.counts = fun c => w.counts c + Sequence.tally (op.turn w).counted c :=
      funext hc.advances.counts
    have hcounts' : (op.apply w').2.counts = fun c => w'.counts c + Sequence.tally (op.turn w').counted c :=
      funext hc'.advances.counts
    rw [hcounts, hcounts']
    exact hfewer.add hkeeps.fewer

/-- Calls that go by the value keep a cache within a larger one. -/
theorem Op.run_within (h : w.cache.Ready) (h' : w'.cache.Ready) (hcapacity : w.cache.capacity ≤ w'.cache.capacity)
    {ops : List (Op κ ν ρ ω ε)} (hvalue : ∀ op ∈ ops, op.ByValue) (hover : Op.NoOverflow w ops)
    (hover' : Op.NoOverflow w' ops)
    (hwithin : Within w.cache.capacity w'.cache.capacity w.cache.toList w'.cache.toList)
    (hfewer : Fewer w.counts w'.counts) :
    Within w.cache.capacity w'.cache.capacity (Op.run w ops).2.cache.toList (Op.run w' ops).2.cache.toList ∧
      Fewer (Op.run w ops).2.counts (Op.run w' ops).2.counts := by
  induction ops generalizing w w' with
  | nil => exact ⟨hwithin, hfewer⟩
  | cons op ops ih =>
    rw [Op.noOverflow_cons] at hover hover'
    obtain ⟨hwithin₁, hfewer₁⟩ := Op.apply_within h h' hcapacity (hvalue op (List.mem_cons_self ..)) hover.1 hover'.1
      hwithin hfewer
    have hlimit : (op.apply w).2.cache.capacity = w.cache.capacity := congrArg Config.limit (Op.apply_config h op)
    have hlimit' : (op.apply w').2.cache.capacity = w'.cache.capacity := congrArg Config.limit (Op.apply_config h' op)
    have hrest := ih (Op.apply_ready h op) (Op.apply_ready h' op) (by rwa [hlimit, hlimit'])
      (fun op' hop => hvalue op' (List.mem_cons_of_mem _ hop)) hover.2 hover'.2 (by rwa [hlimit, hlimit']) hfewer₁
    rwa [hlimit, hlimit'] at hrest

/-- A larger cache keeps what a smaller one keeps.  Where predicates and updates go by the value and no counter
overflows, two new caches on which the same calls are made are, after each of them, one within the other. -/
theorem Op.run_inclusion {config config' : Config} (hcapacity : config.capacity ≤ config'.capacity) (caller caller' : ω)
    {ops : List (Op κ ν ρ ω ε)} (hvalue : ∀ op ∈ ops, op.ByValue)
    (hover : Op.NoOverflow (World.new config caller) ops) (hover' : Op.NoOverflow (World.new config' caller') ops)
    (n : Nat) :
    (Op.run (World.new config caller) (ops.take n)).2.Within (Op.run (World.new config' caller') (ops.take n)).2 := by
  have hlimit : config.limit ≤ config'.limit := UInt64.le_iff_toNat_le.1 hcapacity
  have hready := ready_new (κ := κ) (ν := ν) config caller
  have hready' := ready_new (κ := κ) (ν := ν) config' caller'
  obtain ⟨hcovered, hfewer⟩ := Op.run_within hready hready' hlimit
    (fun op hop => hvalue op (List.mem_of_mem_take hop)) (hover.take n) (hover'.take n)
    ⟨.nil, Nat.sub_le_sub_right hlimit 0⟩ ⟨rfl, Nat.le_refl _, Nat.le_refl _, Nat.le_refl _, Nat.le_refl _,
      Nat.le_refl _, Nat.le_refl _⟩
  obtain ⟨hready₁, hconfig₁⟩ := Op.run_ready hready (ops.take n)
  obtain ⟨hready₁', hconfig₁'⟩ := Op.run_ready hready' (ops.take n)
  refine ⟨hcovered.covered, ?_, UInt64.toNat_inj.1 hfewer.requests, UInt64.le_iff_toNat_le.2 hfewer.hits,
    UInt64.le_iff_toNat_le.2 hfewer.updates, UInt64.le_iff_toNat_le.2 hfewer.predicateEvictions,
    UInt64.le_iff_toNat_le.2 hfewer.removals, UInt64.le_iff_toNat_le.2 hfewer.insertions,
    UInt64.le_iff_toNat_le.2 hfewer.evictions⟩
  rw [hready₁.coherent.agrees.length, hready₁'.coherent.agrees.length, capacity, capacity, hconfig₁, hconfig₁']
  exact hcovered.room

theorem Op.run_inclusion_instance :
    let ops : List (Op Key Nat Unit Unit Empty) :=
      [.put (.int 1) 10, .put (.int 2) 20, .put (.int 3) 30, .get (.int 1), .put (.int 2) 25,
        .removeIf fun value _ _ => .ok (value == 25) ()]
    let small : Config := ⟨2, by decide⟩
    let large : Config := ⟨3, by decide⟩
    let w : World Key Nat Unit := World.new small ()
    let w' : World Key Nat Unit := World.new large ()
    small.capacity ≤ large.capacity ∧ (∀ op ∈ ops, op.ByValue) ∧ Op.NoOverflow w ops ∧ Op.NoOverflow w' ops ∧
      (Op.run w ops).2.Within (Op.run w' ops).2 := by
  intro ops small large w w'
  have hcapacity : small.capacity ≤ large.capacity := by decide
  have hsweep : ∃ f, Callback.GoesBy f fun value _ _ =>
      (.ok (value == 25) () : EStateM.Result (Stop Empty) Unit Bool) :=
    ⟨(· == 25), fun _ _ caller => ⟨caller, rfl⟩⟩
  have hvalue : ∀ op ∈ ops, op.ByValue := by simpa [ops, Op.ByValue] using hsweep
  have hover : Op.NoOverflow w ops := (Op.noOverflow_iff (ready_new _ _) _).2 fun c => by cases c <;> decide
  have hover' : Op.NoOverflow w' ops := (Op.noOverflow_iff (ready_new _ _) _).2 fun c => by cases c <;> decide
  exact ⟨hcapacity, hvalue, hover, hover', Op.run_inclusion hcapacity () () hvalue hover hover' 6⟩

end Cache

end RecencyCache
