import RecencyCache.Proofs.Cache.Runs
import RecencyCache.Proofs.Sequence.Balance

/-!
# Entries and counters balance

Every entry that was ever inserted is still there or is counted once: as evicted, as dropped by a predicate, as removed
by its key, or as cleared away.  A call counts what leaves in it (`Op.apply_departures`), however it ends, and so the
counters balance after every run (`Op.run_balanced`).
-/

namespace RecencyCache

open Sequence (Departure gone booked)

variable {κ ν ρ ω ε : Type} [BEq κ] [Hashable κ]

/-- How many entries have left in each way, where so many were cleared away. -/
def World.departures (w : World κ ν ω) (cleared : Nat) : Departure → Nat
  | .evicted => w.cache.metrics.evictions.toNat
  | .matched => w.cache.metrics.predicateEvictions.toNat
  | .removed => w.cache.metrics.removals.toNat
  | .cleared => cleared

/-- All entries that were ever inserted are there or have left, where so many were cleared away. -/
def World.Balanced (w : World κ ν ω) (cleared : Nat) : Prop :=
  w.cache.metrics.insertions.toNat = w.cache.length + w.cache.metrics.evictions.toNat +
    w.cache.metrics.predicateEvictions.toNat + w.cache.metrics.removals.toNat + cleared

variable [EquivBEq κ] [LawfulHashable κ]

/-- How many entries from `w` are not in `w'` any more. -/
def World.gone (w w' : World κ ν ω) : Nat :=
  Sequence.gone (w.cache.toList.map (·.1)) (w'.cache.toList.map (·.1))

namespace Cache

variable {w : World κ ν ω}

/-- How many entries calls clear away. -/
def Op.cleared (w : World κ ν ω) : List (Op κ ν ρ ω ε) → Nat
  | [] => 0
  | op :: ops => op.clears w.cache.length + Op.cleared (op.apply w).2 ops

private theorem Op.cleared_append (w : World κ ν ω) (ops ops' : List (Op κ ν ρ ω ε)) :
    Op.cleared w (ops ++ ops') = Op.cleared w ops + Op.cleared (Op.run w ops).2 ops' := by
  induction ops generalizing w with
  | nil => exact (Nat.zero_add _).symm
  | cons op ops ih =>
    rw [List.cons_append, Op.cleared, Op.cleared, run_cons, ih, Nat.add_assoc]

/-! ### One call -/

/-- What a call makes of the entries: those that were there and those inserted are those left and those gone. -/
private theorem Op.apply_length (h : w.cache.Ready) {op : Op κ ν ρ ω ε}
    (hover : (op.apply w).1 ≠ .error (.faulted .addOverflow)) :
    w.cache.length + (op.apply w).2.cache.metrics.insertions.toNat =
      (op.apply w).2.cache.length + w.gone (op.apply w).2 + w.cache.metrics.insertions.toNat := by
  have hc := Op.apply_carries h hover
  have hsettles := Sequence.step_settles w.cache.capacity w.caller w.cache.config.limit_pos h.coherent.distinct op
  have hbalance := hsettles.balance
  have hcount : (op.apply w).2.cache.metrics.insertions.toNat =
      w.cache.metrics.insertions.toNat + Sequence.tally (op.turn w).counted .insertions :=
    hc.advances.counts .insertions
  have hgone : w.gone (op.apply w).2 =
      Sequence.gone (w.cache.toList.map (·.1)) ((op.turn w).entries.map (·.1)) := by
    rw [World.gone, hc.entries]
  have hlen := h.coherent.agrees.length
  have hlen' := (Op.apply_ready h op).coherent.agrees.length
  rw [hc.entries] at hlen'
  have hturn : Sequence.step w.cache.capacity op w.cache.toList w.caller = op.turn w := rfl
  rw [hturn] at hbalance
  omega

/-- Every entry that leaves in a call is counted, once, in the way of the call, and nothing else is counted so. -/
theorem Op.apply_departures (h : w.cache.Ready) {op : Op κ ν ρ ω ε}
    (hover : (op.apply w).1 ≠ .error (.faulted .addOverflow)) (cleared : Nat) (d : Departure) :
    (op.apply w).2.departures (cleared + op.clears w.cache.length) d =
      w.departures cleared d + if d = op.departure then w.gone (op.apply w).2 else 0 := by
  have hc := Op.apply_carries h hover
  have hsettles := Sequence.step_settles w.cache.capacity w.caller w.cache.config.limit_pos h.coherent.distinct op
  have hbooked : booked (op.turn w).counted (op.clears w.cache.length) d =
      if d = op.departure then w.gone (op.apply w).2 else 0 := by
    rw [World.gone, hc.entries, h.coherent.agrees.length]
    exact hsettles.booked d
  rw [← hbooked]
  cases d with
  | evicted => exact hc.advances.counts .evictions
  | matched => exact hc.advances.counts .predicateEvictions
  | removed => exact hc.advances.counts .removals
  | cleared => rfl

theorem Op.apply_balanced (h : w.cache.Ready) {op : Op κ ν ρ ω ε}
    (hover : (op.apply w).1 ≠ .error (.faulted .addOverflow)) {cleared : Nat} (hbalanced : w.Balanced cleared) :
    (op.apply w).2.Balanced (cleared + op.clears w.cache.length) := by
  have hlen := Op.apply_length h hover
  have hevicted := Op.apply_departures h hover cleared .evicted
  have hmatched := Op.apply_departures h hover cleared .matched
  have hremoved := Op.apply_departures h hover cleared .removed
  have hcleared := Op.apply_departures h hover cleared .cleared
  unfold World.departures at hevicted hmatched hremoved hcleared
  unfold World.Balanced at hbalanced ⊢
  -- what has gone is added to one of the four
  generalize op.departure = d at *
  cases d <;> simp at hevicted hmatched hremoved hcleared <;> omega

/-! ### A run -/

theorem Op.run_balanced (h : w.cache.Ready) {ops : List (Op κ ν ρ ω ε)} (hover : Op.NoOverflow w ops) {cleared : Nat}
    (hbalanced : w.Balanced cleared) : (Op.run w ops).2.Balanced (cleared + Op.cleared w ops) := by
  induction ops generalizing w cleared with
  | nil => exact hbalanced
  | cons op ops ih =>
    rw [Op.noOverflow_cons] at hover
    have hrest := ih (Op.apply_ready h op) hover.2 (Op.apply_balanced h hover.1 hbalanced)
    rw [run_cons, Op.cleared, ← Nat.add_assoc]
    exact hrest

/-- Entries are conserved in the counters.  After every run from a new cache in which no counter overflows, however its
calls ended, the insertions are the entries that are there, those evicted, those dropped by a predicate, those removed
by key and those cleared away; and of the entries that leave in the next call each is counted in one of the four ways,
that of the call, and the others stay as they are. -/
theorem Op.run_conserves (config : Config) (caller : ω) (ops : List (Op κ ν ρ ω ε))
    (hover : Op.NoOverflow (World.new config caller) ops) :
    let w := (Op.run (World.new config caller) ops).2
    let cleared := Op.cleared (World.new config caller) ops
    w.cache.metrics.insertions.toNat = w.cache.length + w.cache.metrics.evictions.toNat +
        w.cache.metrics.predicateEvictions.toNat + w.cache.metrics.removals.toNat + cleared ∧
      ∀ op : Op κ ν ρ ω ε, (op.apply w).1 ≠ .error (.faulted .addOverflow) → ∀ d,
        (op.apply w).2.departures (Op.cleared (World.new config caller) (ops ++ [op])) d =
          w.departures cleared d + if d = op.departure then w.gone (op.apply w).2 else 0 := by
  intro w cleared
  have hnew := ready_new (κ := κ) (ν := ν) config caller
  have hready : w.cache.Ready := (Op.run_ready hnew ops).1
  have hstart : (World.new config caller : World κ ν ω).Balanced 0 := rfl
  have hbalanced := Op.run_balanced hnew hover hstart
  rw [Nat.zero_add] at hbalanced
  refine ⟨hbalanced, fun op hlast d => ?_⟩
  rw [Op.cleared_append]
  exact Op.apply_departures hready hlast cleared d

/-- One entry is evicted, one dropped on lookup, one by a sweep that stops early, and then one is cleared away. -/
theorem Op.run_conserves_instance :
    let ops : List (Op Key Nat Unit Unit Empty) :=
      [.put (.int 1) 10, .put (.int 2) 20, .put (.int 3) 30, .existsOrEvict (.int 2) .keep fun _ _ _ => .ok true (),
        .put (.int 4) 40, .removeIf fun value _ _ => if value = 30 then .error (.raised "no") () else .ok true ()]
    let start : World Key Nat Unit := World.new ⟨2, by decide⟩ ()
    let w := (Op.run start ops).2
    let op : Op Key Nat Unit Unit Empty := .clear
    Op.NoOverflow start ops ∧ (op.apply w).1 ≠ .error (.faulted .addOverflow) ∧
      w.cache.metrics.insertions.toNat = w.cache.length + w.cache.metrics.evictions.toNat +
        w.cache.metrics.predicateEvictions.toNat + w.cache.metrics.removals.toNat + Op.cleared start ops ∧
      w.cache.toList = [(.int 3, 30)] ∧
      (op.apply w).2.departures (Op.cleared start (ops ++ [op])) .cleared =
        w.departures (Op.cleared start ops) .cleared + w.gone (op.apply w).2 := by
  intro ops start w op
  have hover' : Op.NoOverflow start (ops ++ [op]) :=
    (Op.noOverflow_iff (ready_new _ _) _).2 fun c => by cases c <;> decide
  obtain ⟨hover, hlast⟩ := (Op.noOverflow_append ..).1 hover'
  have hop : (op.apply w).1 ≠ .error (.faulted .addOverflow) := hlast _ (List.mem_singleton_self _)
  obtain ⟨hbalance, hdepartures⟩ := Op.run_conserves ⟨2, by decide⟩ () ops hover
  obtain ⟨-, hmoments⟩ := Op.run_eq (ready_new _ _) hover
  have hcleared := hdepartures op hop .cleared
  have hway : Departure.cleared = op.departure := rfl
  rw [if_pos hway] at hcleared
  exact ⟨hover, hop, hbalance, (hmoments 5 _ rfl).1, hcleared⟩

end Cache

end RecencyCache
