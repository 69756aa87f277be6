import Mathlib.Data.List.Induction
import RecencyCache.Proofs.Cache.Runs
import RecencyCache.Proofs.Sequence.History

/-!
# The least recently touched entry goes first

The order of a cache follows the history of its calls: front to back, the last touches of the entries go strictly back
in it (`Op.run_byRecency`).  So an entry dropped for lack of room is the one whose last touch is earliest
(`Op.Displaces.earliest`), and as long as no more keys than there is room for are ever inserted, none is dropped for
lack of room (`Op.run_among`).  `Op.run_recency` puts the three together.
-/

namespace RecencyCache

open Sequence (Moves ByRecency lastTouch)

namespace Cache

variable {κ ν ρ ω ε : Type} [BEq κ] [Hashable κ] [EquivBEq κ] [LawfulHashable κ]

/-! ### One call -/

/-- What a call that no counter stops does to the entries, and to the counter of evictions. -/
theorem Op.apply_moves {w : World κ ν ω} (h : w.cache.Ready) {op : Op κ ν ρ ω ε}
    (hover : (op.apply w).1 ≠ .error (.faulted .addOverflow)) :
    ∃ n, Moves w.cache.capacity op.stores (op.touched (op.apply w).1) w.cache.toList (op.apply w).2.cache.toList n ∧
      (op.apply w).2.cache.metrics.evictions.toNat = w.cache.metrics.evictions.toNat + n := by
  have hc := Op.apply_carries h hover
  refine ⟨_, ?_, hc.advances.counts .evictions⟩
  rw [hc.outcome, hc.entries]
  exact Sequence.step_moves _ _ w.cache.config.limit_pos h.coherent.distinct op

/-- A call that creates an entry for `k` drops the entry `e`, which then has made room for it. -/
structure Op.Displaces (op : Op κ ν ρ ω ε) (w : World κ ν ω) (k : κ) (e : κ × ν) : Prop where
  stores : op.stores = some k
  before : e ∈ w.cache.toList
  gone : ∀ x ∈ (op.apply w).2.cache.toList, (x.1 == e.1) = false

/-- The entry that makes room is the last one of a full cache, and every other one was touched after it. -/
theorem Op.Displaces.earliest {w : World κ ν ω} (h : w.cache.Ready) {touches : List (Option κ)}
    (hr : ByRecency touches (w.cache.toList.map (·.1))) {op : Op κ ν ρ ω ε}
    (hover : (op.apply w).1 ≠ .error (.faulted .addOverflow)) {k : κ} {e : κ × ν} (hdisplaces : op.Displaces w k e) :
    ∃ i, lastTouch touches e.1 = some i ∧
      (∀ x ∈ w.cache.toList, x ≠ e → ∃ j, lastTouch touches x.1 = some j ∧ i < j) ∧ (k == e.1) = false ∧
      ∃ ks, w.cache.capacity ≤ ks.length ∧ Distinct ks ∧ k ∈ ks ∧ ∀ k' ∈ ks, (k' == e.1) = false ∧
        ∃ j, lastTouch (touches ++ [op.touched (op.apply w).1]) k' = some j ∧ i < j := by
  obtain ⟨n, hmoves, -⟩ := Op.apply_moves h hover
  obtain ⟨-, ht, hf, hlimit, rest, hes⟩ := hmoves.of_gone hdisplaces.stores hdisplaces.before hdisplaces.gone
  have hd := h.coherent.distinct
  rw [hes] at hr hd hf
  obtain ⟨i, hi, hlater, hdistinct, hks⟩ := hr.displaced hd hf
  refine ⟨i, hi, fun x hx hne => ?_, (hks k (List.mem_cons_self ..)).1, k :: rest.map (·.1), ?_, hdistinct,
    List.mem_cons_self .., ht ▸ hks⟩
  · -- the others are the rest of the list, and stand in front of the last one
    rw [hes] at hx
    rcases List.mem_append.1 hx with hx | hx
    · exact hlater x hx
    · exact absurd (List.mem_singleton.1 hx) hne
  · rw [hes] at hlimit
    simpa using hlimit

/-- The counter of evictions goes up when an entry makes room, and only then. -/
private theorem Op.evictions_ne_iff {w : World κ ν ω} (h : w.cache.Ready) {op : Op κ ν ρ ω ε}
    (hover : (op.apply w).1 ≠ .error (.faulted .addOverflow)) :
    (op.apply w).2.cache.metrics.evictions ≠ w.cache.metrics.evictions ↔ ∃ k e, op.Displaces w k e := by
  obtain ⟨n, hmoves, hcount⟩ := Op.apply_moves h hover
  rw [Ne, ← UInt64.toNat_inj, hcount]
  constructor
  · intro hne
    obtain ⟨k, e, hs, he, hgone⟩ := hmoves.exists_gone h.coherent.distinct (by omega)
    exact ⟨k, e, hs, he, hgone⟩
  · rintro ⟨k, e, hs, he, hgone⟩
    have := (hmoves.of_gone hs he hgone).1
    omega

/-! ### A run -/

/-- What calls have touched, by the way they ended. -/
def Op.touches (ops : List (Op κ ν ρ ω ε)) (outcomes : List (Outcome κ ν ρ ε)) : List (Option κ) :=
  List.zipWith Op.touched ops outcomes

private theorem Op.length_run (w : World κ ν ω) (ops : List (Op κ ν ρ ω ε)) : (Op.run w ops).1.length = ops.length := by
  induction ops generalizing w with
  | nil => rfl
  | cons op ops ih => rw [run_cons, List.length_cons, List.length_cons, ih]

private theorem Op.touches_concat (w : World κ ν ω) (ops : List (Op κ ν ρ ω ε)) (op : Op κ ν ρ ω ε) :
    Op.touches (ops ++ [op]) (Op.run w (ops ++ [op])).1 =
      Op.touches ops (Op.run w ops).1 ++ [op.touched (op.apply (Op.run w ops).2).1] := by
  rw [Op.touches, run_append, List.zipWith_append (Op.length_run w ops).symm]
  rfl

theorem Op.run_byRecency (config : Config) (caller : ω) (ops : List (Op κ ν ρ ω ε))
    (hover : Op.NoOverflow (World.new config caller) ops) :
    ByRecency (Op.touches ops (Op.run (World.new config caller) ops).1)
      ((Op.run (World.new config caller) ops).2.cache.toList.map (·.1)) := by
  induction ops using List.reverseRecOn with
  | nil => exact ByRecency.nil
  | append_singleton ops op ih =>
    rw [Op.noOverflow_append] at hover
    have hready := (Op.run_ready (ready_new config caller) ops).1
    have hlast : (op.apply (Op.run (World.new config caller) ops).2).1 ≠ .error (.faulted .addOverflow) :=
      hover.2 _ (List.mem_singleton_self _)
    obtain ⟨n, hmoves, -⟩ := Op.apply_moves hready hlast
    rw [Op.touches_concat, run_append]
    exact (ih hover.1).moves hready.coherent.distinct hmoves

/-- The keys for which calls made one after the other create entries are all among `keys`. -/
def Op.InsertedAmong (keys : List κ) (w : World κ ν ω) (ops : List (Op κ ν ρ ω ε)) : Prop :=
  ∀ before op after, ops = before ++ op :: after → ∀ k, op.stores = some k →
    op.touched (op.apply (Op.run w before).2).1 = some k →
    (Op.run w before).2.cache.toList.find? (·.1 == k) = none → ∃ k' ∈ keys, (k == k') = true

theorem Op.run_among (config : Config) (caller : ω) (ops : List (Op κ ν ρ ω ε))
    (hover : Op.NoOverflow (World.new config caller) ops) {keys : List κ} (hlimit : keys.length ≤ config.limit)
    (hkeys : Op.InsertedAmong keys (World.new config caller) ops) :
    let w := (Op.run (World.new config caller) ops).2
    w.cache.metrics.evictions.toNat = 0 ∧ ∀ k ∈ w.cache.toList.map (·.1), ∃ k' ∈ keys, (k == k') = true := by
  induction ops using List.reverseRecOn with
  | nil => exact ⟨rfl, nofun⟩
  | append_singleton ops op ih =>
    rw [Op.noOverflow_append] at hover
    obtain ⟨hready, hconfig⟩ := Op.run_ready (ready_new config caller) ops
    have hlast : (op.apply (Op.run (World.new config caller) ops).2).1 ≠ .error (.faulted .addOverflow) :=
      hover.2 _ (List.mem_singleton_self _)
    obtain ⟨hzero, hamong⟩ := ih hover.1 fun before op' after hops =>
      hkeys before op' (after ++ [op]) (by rw [hops, List.append_assoc, List.cons_append])
    obtain ⟨n, hmoves, hcount⟩ := Op.apply_moves hready hlast
    have hcapacity : keys.length ≤ (Op.run (World.new config caller) ops).2.cache.capacity := by
      rw [capacity, hconfig]
      exact hlimit
    obtain ⟨hn, hamong'⟩ := hmoves.among hready.coherent.distinct hcapacity hamong (hkeys ops op [] rfl)
    rw [run_append]
    refine ⟨?_, hamong'⟩
    show (op.apply (Op.run (World.new config caller) ops).2).2.cache.metrics.evictions.toNat = 0
    rw [hcount, hzero, hn]

/-- A cache drops the least recently touched entry for lack of room.  In every run from a new cache where no counter
overflows, the last touches of the entries, front to back, are strictly decreasing; the counter of evictions goes up
when a call drops an entry to make room for its key, and then that entry's last touch was the earliest, its key is not
the new one, and at least as many other keys as the capacity, the new one among them, were touched since; and if the
keys ever inserted are no more than the capacity, nothing was dropped for lack of room. -/
theorem Op.run_recency (config : Config) (caller : ω) (ops : List (Op κ ν ρ ω ε))
    (hover : Op.NoOverflow (World.new config caller) ops) :
    let outcomes := (Op.run (World.new config caller) ops).1
    let w := (Op.run (World.new config caller) ops).2
    let touches := Op.touches ops outcomes
    ByRecency touches (w.cache.toList.map (·.1)) ∧
      (∀ op : Op κ ν ρ ω ε, (op.apply w).1 ≠ .error (.faulted .addOverflow) →
        ((op.apply w).2.cache.metrics.evictions ≠ w.cache.metrics.evictions ↔ ∃ k e, op.Displaces w k e) ∧
        ∀ k e, op.Displaces w k e → ∃ i, lastTouch touches e.1 = some i ∧
          (∀ x ∈ w.cache.toList, x ≠ e → ∃ j, lastTouch touches x.1 = some j ∧ i < j) ∧ (k == e.1) = false ∧
          ∃ ks, config.limit ≤ ks.length ∧ Distinct ks ∧ k ∈ ks ∧ ∀ k' ∈ ks, (k' == e.1) = false ∧
            ∃ j, lastTouch (touches ++ [op.touched (op.apply w).1]) k' = some j ∧ i < j) ∧
      ∀ keys, keys.length ≤ config.limit → Op.InsertedAmong keys (World.new config caller) ops →
        w.cache.metrics.evictions = 0 := by
  intro outcomes w touches
  obtain ⟨hready, hconfig⟩ := Op.run_ready (ready_new config caller) ops
  have hr : ByRecency touches (w.cache.toList.map (·.1)) := Op.run_byRecency config caller ops hover
  refine ⟨hr, fun op hlast => ⟨Op.evictions_ne_iff hready hlast, fun k e hdisplaces => ?_⟩,
    fun keys hlimit hkeys => ?_⟩
  · have hearliest := hdisplaces.earliest hready hr hlast
    rw [capacity, hconfig] at hearliest
    exact hearliest
  · rw [← UInt64.toNat_inj]
    exact (Op.run_among config caller ops hover hlimit hkeys).1

theorem Op.run_recency_instance :
    let ops : List (Op Key Nat Unit Unit Empty) := [.put (.int 1) 10, .put (.int 2) 20, .get (.int 1)]
    let start : World Key Nat Unit := World.new ⟨2, by decide⟩ ()
    let w := (Op.run start ops).2
    let op : Op Key Nat Unit Unit Empty := .put (.int 3) 30
    Op.NoOverflow start ops ∧ op.Displaces w (.int 3) (.int 2, 20) ∧
      ∃ i, lastTouch (Op.touches ops (Op.run start ops).1) (.int 2) = some i := by
  intro ops start w op
  have hover' : Op.NoOverflow start (ops ++ [op]) :=
    (Op.noOverflow_iff (ready_new _ _) _).2 fun c => by cases c <;> decide
  obtain ⟨hover, hlast⟩ := (Op.noOverflow_append ..).1 hover'
  obtain ⟨-, hmoments⟩ := Op.run_eq (ready_new _ _) hover'
  have hbefore : w.cache.toList = [(.int 1, 10), (.int 2, 20)] := (hmoments 2 _ rfl).1
  have hafter : (op.apply w).2.cache.toList = [(.int 3, 30), (.int 1, 10)] := (hmoments 3 _ rfl).1
  have hdisplaces : op.Displaces w (.int 3) (.int 2, 20) := by
    refine ⟨rfl, ?_, ?_⟩
    · rw [hbefore]
      decide
    · rw [hafter]
      decide
  obtain ⟨-, hcalls, -⟩ := Op.run_recency ⟨2, by decide⟩ () ops hover
  obtain ⟨i, hi, -⟩ := (hcalls op (hlast _ (List.mem_singleton_self _))).2 (.int 3) (.int 2, 20) hdisplaces
  exact ⟨hover, hdisplaces, i, hi⟩

end Cache

end RecencyCache
