import RecencyCache.Proofs.Cache.Lookups

/-!
# The counters have room

No counter of a new cache gets further than there have been calls: a call bumps the counters of lookups and stores once
at most, and what leaves was inserted before (`Op.turn_counts_le`).  So no counter overflows in fewer calls than a
counter can count (`Op.noOverflow_of_few`), and after fewer still all that can happen can be counted once more
(`Op.run_fits`).
-/

namespace RecencyCache

open Sequence (Departure booked tally)

namespace Cache

variable {κ ν ρ ω ε : Type} [BEq κ] [Hashable κ] [EquivBEq κ] [LawfulHashable κ] {w : World κ ν ω} {cleared n : Nat}

/-- A call asks no counter to go further than one more than any of them has got before. -/
theorem Op.turn_counts_le (h : w.cache.Ready) (hbalanced : w.Balanced cleared)
    (hle : ∀ c, (w.cache.metrics.get c).toNat ≤ n) (op : Op κ ν ρ ω ε) (c : Counter) :
    (w.cache.metrics.get c).toNat + tally (op.turn w).counted c ≤ n + 1 := by
  have hbooks := Sequence.step_books w.cache.capacity op w.cache.toList w.caller
  have hsettles := Sequence.step_settles w.cache.capacity w.caller w.cache.config.limit_pos h.coherent.distinct op
  have hturn : Sequence.step w.cache.capacity op w.cache.toList w.caller = op.turn w := rfl
  rw [hturn] at hbooks
  have hinsertions : w.cache.metrics.insertions.toNat ≤ n := hle .insertions
  have hinserted : tally (op.turn w).counted .insertions ≤ 1 := hbooks.tally_le (by simp)
  have hbalance := hsettles.balance
  rw [hturn, ← h.coherent.agrees.length] at hbalance
  -- what leaves in the call has been there before or is new
  have hbooked (d : Departure) : booked (op.turn w).counted (op.clears w.cache.toList.length) d ≤
      w.cache.length + tally (op.turn w).counted .insertions := by
    have hleft := hsettles.booked d
    rw [hturn] at hleft
    rw [hleft]
    split <;> omega
  unfold World.Balanced at hbalanced
  cases c with
  | requests => exact Nat.add_le_add (hle .requests) (hbooks.tally_le (by simp))
  | hits => exact Nat.add_le_add (hle .hits) (hbooks.tally_le (by simp))
  | updates => exact Nat.add_le_add (hle .updates) (hbooks.tally_le (by simp))
  | insertions => exact Nat.add_le_add (hle .insertions) hinserted
  | evictions =>
    have hevicted : tally (op.turn w).counted .evictions ≤ _ := hbooked .evicted
    show w.cache.metrics.evictions.toNat + _ ≤ _
    omega
  | predicateEvictions =>
    have hmatched : tally (op.turn w).counted .predicateEvictions ≤ _ := hbooked .matched
    show w.cache.metrics.predicateEvictions.toNat + _ ≤ _
    omega
  | removals =>
    have hremoved : tally (op.turn w).counted .removals ≤ _ := hbooked .removed
    show w.cache.metrics.removals.toNat + _ ≤ _
    omega

/-- Calls of which there are few enough do not make a counter overflow, and take it no further than their number. -/
private theorem Op.run_counts_le (h : w.cache.Ready) (hbalanced : w.Balanced cleared)
    (hle : ∀ c, (w.cache.metrics.get c).toNat ≤ n) {ops : List (Op κ ν ρ ω ε)} (hfew : n + ops.length < UInt64.size) :
    Op.NoOverflow w ops ∧ ∀ c, ((Op.run w ops).2.cache.metrics.get c).toNat ≤ n + ops.length := by
  induction ops generalizing w cleared n with
  | nil => exact ⟨fun o ho => (nomatch ho), hle⟩
  | cons op ops ih =>
    rw [List.length_cons] at hfew ⊢
    have hcounts := Op.turn_counts_le h hbalanced hle op
    have hfirst : (op.apply w).1 ≠ .error (.faulted .addOverflow) := by
      refine (Op.apply_ne_overflow_iff h op).2 fun c => ?_
      have := hcounts c
      omega
    have hnext (c : Counter) : ((op.apply w).2.cache.metrics.get c).toNat ≤ n + 1 := by
      rw [(Op.apply_carries h hfirst).advances.counts c]
      exact hcounts c
    obtain ⟨hover, hlast⟩ := ih (Op.apply_ready h op) (Op.apply_balanced h hfirst hbalanced) hnext (by omega)
    refine ⟨(Op.noOverflow_cons ..).2 ⟨hfirst, hover⟩, fun c => ?_⟩
    have := hlast c
    rw [run_cons]
    dsimp only
    omega

/-- From a new cache on, a counter gets no further than the number of calls, as long as it can count them. -/
private theorem Op.run_new_counts_le (config : Config) (caller : ω) {ops : List (Op κ ν ρ ω ε)}
    (hfew : ops.length < UInt64.size) : Op.NoOverflow (World.new config caller) ops ∧
      ∀ c, ((Op.run (World.new config caller) ops).2.cache.metrics.get c).toNat ≤ ops.length := by
  have hstart : (World.new config caller : World κ ν ω).Balanced 0 := rfl
  have hzero (c : Counter) : ((World.new config caller : World κ ν ω).cache.metrics.get c).toNat ≤ 0 := by
    cases c <;> exact Nat.le_refl 0
  have hfew' : 0 + ops.length < UInt64.size := by rwa [Nat.zero_add]
  have hcounts := Op.run_counts_le (ready_new config caller) hstart hzero hfew'
  rw [Nat.zero_add] at hcounts
  exact hcounts

/-- No counter overflows in fewer calls than it can count. -/
theorem Op.noOverflow_of_few (config : Config) (caller : ω) {ops : List (Op κ ν ρ ω ε)}
    (hfew : ops.length < UInt64.size) : Op.NoOverflow (World.new config caller) ops :=
  (Op.run_new_counts_le config caller hfew).1

/-- A call after fewer calls still is not stopped by a counter. -/
theorem Op.apply_ne_overflow_of_few (config : Config) (caller : ω) {ops : List (Op κ ν ρ ω ε)}
    (hfew : ops.length + 1 < UInt64.size) (op : Op κ ν ρ ω ε) :
    (op.apply (Op.run (World.new config caller) ops).2).1 ≠ .error (.faulted .addOverflow) := by
  have hlen : (ops ++ [op]).length < UInt64.size := by
    rw [List.length_append, List.length_singleton]
    exact hfew
  obtain ⟨-, hlast⟩ := (Op.noOverflow_append ..).1 (Op.noOverflow_of_few config caller hlen)
  exact hlast _ (List.mem_singleton_self _)

/-- After fewer calls still, whatever happens next can be counted. -/
theorem Op.run_fits (config : Config) (caller : ω) {ops : List (Op κ ν ρ ω ε)} (hfew : ops.length + 1 < UInt64.size)
    (what : Metrics.Happening) : (Op.run (World.new config caller) ops).2.cache.metrics.Fits what := by
  intro c _
  have hcount := (Op.run_new_counts_le config caller (Nat.lt_of_succ_lt hfew)).2 c
  omega

end Cache

end RecencyCache
