import RecencyCache.Key
import RecencyCache.Proofs.Cache.Operations
import RecencyCache.Proofs.Sequence.Turns

/-!
# Runs

A ready cache is coherent and not held.  A call on a ready cache leaves a ready cache, however it ends, and unless a
counter overflows it ends as its turn of the plain sequence does (`Op.apply_cases`); so do calls made one after the
other (`Op.run_ready`, `Op.run_eq`).  No counter overflows as long as what the turns count fits into the counters
(`Op.noOverflow_iff`), and no loop ever runs out of fuel (`Op.run_ne_outOfFuel`).
-/

namespace RecencyCache

open Sequence (Turn tally tally_append)

namespace Cache

variable {κ ν ρ ω ε : Type} [BEq κ] [Hashable κ] [EquivBEq κ] [LawfulHashable κ]

/-! ### One call -/

/-- Between two calls the cache is coherent and nobody holds it. -/
structure Ready (c : Cache κ ν) : Prop where
  coherent : c.Coherent
  free : c.held = false

/-- A cache without entries is ready, whatever its counters stand at. -/
theorem ready_counting (config : Config) (metrics : Metrics) :
    ({ Cache.empty config with metrics } : Cache κ ν).Ready := by
  have hempty : ({ Cache.empty config with metrics } : Cache κ ν).Holds [] := (Holds.empty config).congr rfl rfl rfl
  exact ⟨hempty.coherent, rfl⟩

private theorem ready_empty (config : Config) : (Cache.empty config : Cache κ ν).Ready :=
  ready_counting config .zero

/-- A call has gone from `w` to its end `x` as the turn `t` goes. -/
structure Op.Carries (w : World κ ν ω) (t : Turn κ ν ω ε (Reply κ ν ρ)) (x : Outcome κ ν ρ ε × World κ ν ω) :
    Prop where
  outcome : x.1 = t.outcome
  entries : x.2.cache.toList = t.entries
  caller : x.2.caller = t.caller
  advances : w.Advances x.2 t.counted t.logged

/-- The turn of a call in a world. -/
def Op.turn (op : Op κ ν ρ ω ε) (w : World κ ν ω) : Turn κ ν ω ε (Reply κ ν ρ) :=
  Sequence.step w.cache.capacity op w.cache.toList w.caller

/-- A call on a ready cache leaves a ready cache.  It goes as its turn goes, unless it is cut short by a counter. -/
theorem Op.apply_cases {w : World κ ν ω} (h : w.cache.Ready) (op : Op κ ν ρ ω ε) :
    (op.apply w).2.cache.Ready ∧ (Op.Carries w (op.turn w) (op.apply w) ∨
      (op.apply w).1 = .error (.faulted .addOverflow) ∧
        w.CutShort (op.apply w).2 (op.turn w).counted (op.turn w).logged) := by
  obtain ⟨es, hes⟩ := h.coherent.exists_holds
  have hmeets := Op.perform_meets hes h.free op
  have hturn : op.turn w = Sequence.step w.cache.capacity op (es.map (·.2)) w.caller := by
    rw [Op.turn, hes.toList_eq]
  rw [← hturn] at hmeets
  unfold Op.apply
  generalize op.perform w = y at hmeets
  cases hmeets with
  | ok hh he hc hw ho hr =>
    subst hr
    exact ⟨⟨hh.coherent, hw.held.trans h.free⟩, .inl ⟨ho.symm, hh.toList_eq.trans he, hc, hw⟩⟩
  | error hh he hc hw ho =>
    exact ⟨⟨hh.coherent, hw.held.trans h.free⟩, .inl ⟨ho.symm, hh.toList_eq.trans he, hc, hw⟩⟩
  | overflow hh hw => exact ⟨⟨hh.coherent, hw.held.trans h.free⟩, .inr ⟨rfl, hw⟩⟩

variable {w : World κ ν ω}

theorem Op.apply_ready (h : w.cache.Ready) (op : Op κ ν ρ ω ε) : (op.apply w).2.cache.Ready :=
  (Op.apply_cases h op).1

theorem Op.apply_config (h : w.cache.Ready) (op : Op κ ν ρ ω ε) : (op.apply w).2.cache.config = w.cache.config := by
  rcases (Op.apply_cases h op).2 with hc | ⟨-, hc⟩
  · exact hc.advances.config
  · exact hc.config

theorem Op.apply_carries (h : w.cache.Ready) {op : Op κ ν ρ ω ε}
    (hover : (op.apply w).1 ≠ .error (.faulted .addOverflow)) : Op.Carries w (op.turn w) (op.apply w) := by
  rcases (Op.apply_cases h op).2 with hc | ⟨ho, -⟩
  · exact hc
  · exact absurd ho hover

/-- No call runs out of fuel: every loop comes to its end, unless something stops it on its way. -/
theorem Op.apply_ne_outOfFuel (h : w.cache.Ready) (op : Op κ ν ρ ω ε) :
    (op.apply w).1 ≠ .error (.faulted .outOfFuel) := by
  rcases (Op.apply_cases h op).2 with hc | ⟨ho, -⟩
  · rw [hc.outcome]
    exact Sequence.step_ne_faulted _ _ _ op (by simp)
  · rw [ho]
    nofun

/-! ### Calls in turn -/

theorem Op.run_cons (w : World κ ν ω) (op : Op κ ν ρ ω ε) (ops : List (Op κ ν ρ ω ε)) :
    Op.run w (op :: ops) =
      ((op.apply w).1 :: (Op.run (op.apply w).2 ops).1, (Op.run (op.apply w).2 ops).2) := rfl

theorem Op.run_append (w : World κ ν ω) (ops ops' : List (Op κ ν ρ ω ε)) :
    Op.run w (ops ++ ops') =
      ((Op.run w ops).1 ++ (Op.run (Op.run w ops).2 ops').1, (Op.run (Op.run w ops).2 ops').2) := by
  induction ops generalizing w with
  | nil => rfl
  | cons op ops ih => rw [List.cons_append, run_cons, ih, run_cons, List.cons_append]

theorem Op.run_ready (h : w.cache.Ready) (ops : List (Op κ ν ρ ω ε)) :
    (Op.run w ops).2.cache.Ready ∧ (Op.run w ops).2.cache.config = w.cache.config := by
  induction ops generalizing w with
  | nil => exact ⟨h, rfl⟩
  | cons op ops ih =>
    obtain ⟨hready, hconfig⟩ := ih (Op.apply_ready h op)
    exact ⟨hready, hconfig.trans (Op.apply_config h op)⟩

theorem Op.run_ne_outOfFuel (h : w.cache.Ready) (ops : List (Op κ ν ρ ω ε)) :
    ∀ o ∈ (Op.run w ops).1, o ≠ .error (.faulted .outOfFuel) := by
  induction ops generalizing w with
  | nil => nofun
  | cons op ops ih =>
    rw [run_cons, List.forall_mem_cons]
    exact ⟨Op.apply_ne_outOfFuel h op, ih (Op.apply_ready h op)⟩

/-- None of the calls is stopped by a counter that overflows. -/
def Op.NoOverflow (w : World κ ν ω) (ops : List (Op κ ν ρ ω ε)) : Prop :=
  ∀ o ∈ (Op.run w ops).1, o ≠ .error (.faulted .addOverflow)

theorem Op.noOverflow_append (w : World κ ν ω) (ops ops' : List (Op κ ν ρ ω ε)) :
    Op.NoOverflow w (ops ++ ops') ↔ Op.NoOverflow w ops ∧ Op.NoOverflow (Op.run w ops).2 ops' := by
  unfold NoOverflow
  rw [run_append]
  exact List.forall_mem_append

theorem Op.noOverflow_cons (w : World κ ν ω) (op : Op κ ν ρ ω ε) (ops : List (Op κ ν ρ ω ε)) :
    Op.NoOverflow w (op :: ops) ↔
      (op.apply w).1 ≠ .error (.faulted .addOverflow) ∧ Op.NoOverflow (op.apply w).2 ops :=
  List.forall_mem_cons

theorem Op.NoOverflow.take {w : World κ ν ω} {ops : List (Op κ ν ρ ω ε)} (h : Op.NoOverflow w ops) (n : Nat) :
    Op.NoOverflow w (ops.take n) := by
  rw [← List.take_append_drop n ops, Op.noOverflow_append] at h
  exact h.1

/-- The turns of calls in a world. -/
def Op.turns (w : World κ ν ω) (ops : List (Op κ ν ρ ω ε)) : List (Turn κ ν ω ε (Reply κ ν ρ)) :=
  Sequence.run w.cache.capacity w.cache.toList w.caller ops

theorem Op.Carries.turns_cons {op : Op κ ν ρ ω ε} (h : Op.Carries w (op.turn w) (op.apply w))
    (ops : List (Op κ ν ρ ω ε)) : Op.turns w (op :: ops) = op.turn w :: Op.turns (op.apply w).2 ops := by
  unfold Op.turns capacity
  rw [h.entries, h.caller, h.advances.config]
  rfl

/-- Calls go as the turns of the plain sequence go, at every moment. -/
theorem Op.run_eq (h : w.cache.Ready) {ops : List (Op κ ν ρ ω ε)} (hover : Op.NoOverflow w ops) :
    (Op.run w ops).1 = (Op.turns w ops).map (·.outcome) ∧
      ∀ n t, (Op.turns w ops)[n]? = some t →
        (Op.run w (ops.take (n + 1))).2.cache.toList = t.entries ∧
          (Op.run w (ops.take (n + 1))).2.caller = t.caller := by
  induction ops generalizing w with
  | nil => exact ⟨rfl, fun n t ht => by cases ht⟩
  | cons op ops ih =>
    rw [Op.noOverflow_cons] at hover
    have hc := Op.apply_carries h hover.1
    obtain ⟨houtcomes, hmoments⟩ := ih (Op.apply_ready h op) hover.2
    rw [hc.turns_cons]
    refine ⟨?_, fun n t ht => ?_⟩
    · rw [run_cons, houtcomes, hc.outcome]
      rfl
    · cases n with
      | zero =>
        cases ht
        exact ⟨hc.entries, hc.caller⟩
      | succ n => exact hmoments n t ht

/-- Calls count and log what their turns count and log. -/
theorem Op.run_advances (h : w.cache.Ready) {ops : List (Op κ ν ρ ω ε)} (hover : Op.NoOverflow w ops) :
    w.Advances (Op.run w ops).2 ((Op.turns w ops).flatMap (·.counted)) ((Op.turns w ops).flatMap (·.logged)) := by
  induction ops generalizing w with
  | nil => exact World.Advances.refl w
  | cons op ops ih =>
    rw [Op.noOverflow_cons] at hover
    have hc := Op.apply_carries h hover.1
    rw [hc.turns_cons, List.flatMap_cons, List.flatMap_cons]
    exact hc.advances.trans (ih (Op.apply_ready h op) hover.2)

/-- No counter overflows if and only if what the turns count fits into the counters. -/
theorem Op.noOverflow_iff (h : w.cache.Ready) (ops : List (Op κ ν ρ ω ε)) :
    Op.NoOverflow w ops ↔
      ∀ c, (w.cache.metrics.get c).toNat + tally ((Op.turns w ops).flatMap (·.counted)) c < UInt64.size := by
  induction ops generalizing w with
  | nil =>
    refine ⟨fun _ c => UInt64.toNat_lt _, fun _ o ho => ?_⟩
    cases ho
  | cons op ops ih =>
    rw [Op.noOverflow_cons, ih (Op.apply_ready h op)]
    rcases (Op.apply_cases h op).2 with hc | ⟨ho, hc⟩
    · have hne : (op.apply w).1 ≠ .error (.faulted .addOverflow) := by
        rw [hc.outcome]
        exact Sequence.step_ne_faulted _ _ _ op (by simp)
      have hcounts : ∀ c, ((op.apply w).2.cache.metrics.get c).toNat +
            tally ((Op.turns (op.apply w).2 ops).flatMap (·.counted)) c =
          (w.cache.metrics.get c).toNat + tally ((Op.turns w (op :: ops)).flatMap (·.counted)) c := by
        intro c
        rw [hc.turns_cons, List.flatMap_cons, tally_append, hc.advances.counts, Nat.add_assoc]
      simp only [hcounts]
      exact ⟨fun hover => hover.2, fun hfits => ⟨hne, hfits⟩⟩
    · -- the first call alone asks for more than fits
      obtain ⟨c, hfull⟩ := hc.counts
      refine ⟨fun hover => absurd ho hover.1, fun hfits => absurd (hfits c) ?_⟩
      have hturns : (Op.turns w (op :: ops)).flatMap (·.counted) = (op.turn w).counted ++
          (Sequence.run w.cache.capacity (op.turn w).entries (op.turn w).caller ops).flatMap (·.counted) := rfl
      rw [hturns, tally_append]
      omega

/-- A single call is not stopped by a counter if and only if what its turn counts fits into the counters. -/
theorem Op.apply_ne_overflow_iff (h : w.cache.Ready) (op : Op κ ν ρ ω ε) :
    (op.apply w).1 ≠ .error (.faulted .addOverflow) ↔
      ∀ c, (w.cache.metrics.get c).toNat + tally (op.turn w).counted c < UInt64.size := by
  have hone : Op.NoOverflow w [op] ↔ (op.apply w).1 ≠ .error (.faulted .addOverflow) := List.forall_mem_singleton
  have hturns : (Op.turns w [op]).flatMap (·.counted) = (op.turn w).counted := List.append_nil _
  rw [← hone, Op.noOverflow_iff h, hturns]

/-! ### From a new cache on -/

theorem ready_new (config : Config) (caller : ω) : (World.new config caller : World κ ν ω).cache.Ready :=
  ready_empty config

/-- A cache refines the plain sequence.  From a new cache on, calls of which no counter stops any end as the turns of
the sequence end, and after each call the entries and the caller's state are those of its turn; where no callback
stops early, every call comes to an answer. -/
theorem Op.run_refines (config : Config) (caller : ω) (ops : List (Op κ ν ρ ω ε))
    (hover : Op.NoOverflow (World.new config caller) ops) :
    (Op.run (World.new config caller) ops).1 = (Sequence.run config.limit [] caller ops).map (·.outcome) ∧
      (∀ n t, (Sequence.run config.limit [] caller ops)[n]? = some t →
        (Op.run (World.new config caller) (ops.take (n + 1))).2.cache.toList = t.entries ∧
          (Op.run (World.new config caller) (ops.take (n + 1))).2.caller = t.caller) ∧
      ((∀ op ∈ ops, op.Returns) →
        ∀ o ∈ (Op.run (World.new config caller) ops).1, ∃ reply, o = .ok reply) := by
  obtain ⟨houtcomes, hmoments⟩ := Op.run_eq (ready_new config caller) hover
  refine ⟨houtcomes, hmoments, fun hreturns o ho => ?_⟩
  rw [houtcomes] at ho
  obtain ⟨t, ht, rfl⟩ := List.mem_map.1 ho
  exact Sequence.run_ok _ _ _ hreturns t ht

theorem Op.run_refines_instance :
    let ops : List (Op Key Nat Unit Unit Empty) :=
      [.put (.int 1) 10, .put (.int 2) 20, .get (.int 1), .put (.int 3) 30]
    let w : World Key Nat Unit := World.new ⟨2, by decide⟩ ()
    Op.NoOverflow w ops ∧
      (Op.run w ops).1 = [.ok (.evicted none), .ok (.evicted none), .ok (.found (some 10)),
        .ok (.evicted (some (.int 2, 20)))] ∧
      (Op.run w ops).2.cache.toList = [(.int 3, 30), (.int 1, 10)] := by
  intro ops w
  have hover : Op.NoOverflow w ops := (Op.noOverflow_iff (ready_new _ _) _).2 fun c => by cases c <;> decide
  obtain ⟨houtcomes, hmoments, -⟩ := Op.run_refines ⟨2, by decide⟩ () ops hover
  exact ⟨hover, houtcomes, (hmoments 3 _ rfl).1⟩

/-- However calls on a new cache end, by an answer, by a callback that fails or raises, or by a counter that overflows
because it stood high before, they leave a coherent cache whose readers agree, and what the next call logs is right
for the entries that it finds. -/
theorem Op.run_coherent (config : Config) (metrics : Metrics) (caller : ω) (ops : List (Op κ ν ρ ω ε)) :
    let empty : Cache κ ν := { Cache.empty config with metrics }
    let start : World κ ν ω := { cache := empty, log := #[.created config], caller }
    let w := (Op.run start ops).2
    w.cache.Coherent ∧ w.cache.Agrees ∧ w.cache.held = false ∧ w.cache.config = config ∧
      ∀ op : Op κ ν ρ ω ε, ∃ said, (op.apply w).2.log.toList = w.log.toList ++ said ∧
        ∀ event ∈ said, event.Tells w.cache.length := by
  intro empty start w
  have hempty : empty.Holds [] := (Holds.empty config).congr rfl rfl rfl
  have hstart : start.cache.Ready := ⟨hempty.coherent, rfl⟩
  obtain ⟨hready, hconfig⟩ := Op.run_ready hstart ops
  refine ⟨hready.coherent, hready.coherent.agrees, hready.free, hconfig, fun op => ?_⟩
  have htells : (op.turn w).Tells w.cache.length := by
    rw [hready.coherent.agrees.length]
    exact Sequence.step_tells _ _ _ w.cache.config.limit_pos op
  rcases (Op.apply_cases hready op).2 with hc | ⟨-, hc⟩
  · exact ⟨_, hc.advances.log, htells⟩
  · obtain ⟨said, hsaid, hlog⟩ := hc.log
    exact ⟨said, hlog, fun event he => htells event (hsaid.mem he)⟩

/-- The counter of insertions overflows after the entry has been linked, and a sweep stops half way. -/
theorem Op.run_coherent_instance :
    let full : Metrics := { Metrics.zero with insertions := 18446744073709551615 }
    let ops : List (Op Key Nat Unit Unit Empty) :=
      [.put (.int 1) 10, .removeIf fun _ _ _ => .error (.raised "no") ()]
    let config : Config := ⟨2, by decide⟩
    let empty : Cache Key Nat := { Cache.empty config with metrics := full }
    let start : World Key Nat Unit := { cache := empty, log := #[.created config], caller := () }
    (Op.run start ops).2.cache.Coherent ∧ (Op.run start ops).2.cache.Agrees := by
  intro full ops config empty start
  obtain ⟨hcoherent, hagrees, -⟩ := Op.run_coherent config full () ops
  exact ⟨hcoherent, hagrees⟩

end Cache

end RecencyCache
