import RecencyCache.Proofs.Cache.Balance
import RecencyCache.Proofs.Cache.Forms
import RecencyCache.Proofs.Cache.Resolution
import RecencyCache.Proofs.Sequence.Sweeps

/-!
# A sweep offers every value once

A sweep calls its predicate with the values of the entries, front to back, each once, until the predicate stops early;
what it makes of the cache can be read off the answers (`Op.apply_sweep`).  After a run in which no counter overflowed
the counter of entries dropped by predicates has room for all that match, because every entry was counted when it came
in.  After any run a sweep comes to its end, at the latest when there is no entry left to be visited (`Op.run_sweeps`).
-/

namespace RecencyCache

open Sequence (survey Survey spared tally_replicate)

namespace Cache

variable {κ ν ρ ω ε : Type} [BEq κ] [Hashable κ] [EquivBEq κ] [LawfulHashable κ]

/-- A call that offers all values to a predicate is made by `tryRemoveIf`, whether or not its predicate can fail. -/
theorem Op.apply_of_predicate? {op : Op κ ν ρ ω ε} {matches? : ν → Callback ω ε Bool}
    (h : op.predicate? = some matches?) (w : World κ ν ω) :
    op.apply w = (Op.tryRemoveIf matches? : Op κ ν ρ ω ε).apply w := by
  unfold Op.apply
  rw [Op.perform_of_predicate? h]
  rfl

/-- The counter of entries dropped by predicates has room for so many more. -/
def Room (c : Cache κ ν) (entries : Nat) : Prop :=
  c.metrics.predicateEvictions.toNat + entries < UInt64.size

/-- What a sweep has made of the world `w`, and how it has ended, where a survey of the values came to `s`. -/
structure Op.Sweeps (w : World κ ν ω) (s : Survey ω ε) (x : Outcome κ ν ρ ε × World κ ν ω) : Prop where
  outcome : x.1 = s.outcome.map .removed
  entries : x.2.cache.toList = spared s.answers w.cache.toList
  ready : x.2.cache.Ready
  counts : ∀ c, (x.2.cache.metrics.get c).toNat =
    (w.cache.metrics.get c).toNat + if c = .predicateEvictions then s.matched else 0
  caller : x.2.caller = s.caller

variable {w : World κ ν ω}

/-- A sweep goes as the survey of the values goes, if the counter has room for those that match. -/
theorem Op.apply_sweep (h : w.cache.Ready) (matches? : ν → Callback ω ε Bool) {s : Survey ω ε}
    (hs : survey matches? (w.cache.toList.map (·.2)) w.caller = s) (hroom : w.cache.Room s.matched) :
    Op.Sweeps w s ((Op.tryRemoveIf matches? : Op κ ν ρ ω ε).apply w) := by
  obtain ⟨houtcome, hentries, hcaller, htally⟩ := Sequence.removeIf_survey matches? w.cache.toList w.caller hs
  have hturn : (Op.tryRemoveIf matches? : Op κ ν ρ ω ε).turn w =
      (Sequence.removeIf matches? w.cache.toList w.caller).map .removed := rfl
  have hfits : ((Op.tryRemoveIf matches? : Op κ ν ρ ω ε).apply w).1 ≠ .error (.faulted .addOverflow) := by
    refine (Op.apply_ne_overflow_iff h _).2 fun c => ?_
    have hc : Sequence.tally ((Op.tryRemoveIf matches? : Op κ ν ρ ω ε).turn w).counted c = _ := htally c
    rw [hc]
    split
    · rename_i hc
      subst hc
      exact hroom
    · exact UInt64.toNat_lt _
  have hc := Op.apply_carries h hfits
  rw [hturn] at hc
  refine ⟨?_, hc.entries.trans hentries, Op.apply_ready h _, fun c => ?_, hc.caller.trans hcaller⟩
  · rw [hc.outcome, ← houtcome]
    rfl
  · rw [hc.advances.counts c, ← htally c]
    rfl

omit [EquivBEq κ] [LawfulHashable κ] in
/-- Every entry was counted when it came in, and so the counter has room for all of them. -/
theorem room_of_balanced {cleared entries : Nat} (h : w.Balanced cleared) (hle : entries ≤ w.cache.length) :
    w.cache.Room entries := by
  have hlt := UInt64.toNat_lt w.cache.metrics.insertions
  unfold World.Balanced at h
  unfold Room
  show _ < 2 ^ 64
  omega

/-! ### After a run -/

/-- A sweep comes to an end and offers every value once.  After every run from a new cache, and however the sweep ends,
its loop does not run out of fuel, and the sweep comes to what the strict one comes to, which refuses to go on after as
many steps as there are entries.  The predicate is called with the values of the entries, front to back, until it stops
early or all have been offered, and answers as it does when it is offered these values one after the other with nothing
in between.  The entries left are those for which it did
not answer that they match and those that it was not asked about, in their order; the counter of entries dropped by
predicates has grown by the number of the others, and no other counter has changed; the call ends with that number,
or as the predicate has stopped.  A predicate that notes its calls notes as many of the values as there were calls,
the first ones.  All that is said of the calls needs room for that number in its counter, which there is unless a
counter has overflowed before. -/
theorem Op.run_sweeps (config : Config) (caller : ω) (ops : List (Op κ ν ρ ω ε)) (op : Op κ ν ρ ω ε)
    (matches? : ν → Callback ω ε Bool) (hop : op.predicate? = some matches?) :
    let start : World κ ν ω := World.new config caller
    let w := (Op.run start ops).2
    let values := w.cache.toList.map (·.2)
    let s := survey matches? values w.caller
    (op.apply w).1 ≠ .error (.faulted .outOfFuel) ∧ op.performStrict w = some (op.apply w) ∧
      (Op.NoOverflow start ops → w.cache.Room s.matched) ∧
      (w.cache.Room s.matched → Op.Sweeps w s (op.apply w) ∧
        let noting : Op κ ν ρ (ω × List ν) ε := .tryRemoveIf (Callback.noting matches?)
        (noting.apply { w with caller := (w.caller, []) }).2.caller = (s.caller, values.take s.calls)) ∧
      (s.stop = none → s.calls = values.length) ∧ s.calls ≤ values.length := by
  intro start w values s
  have hnew := ready_new (κ := κ) (ν := ν) config caller
  have hready : w.cache.Ready := (Op.run_ready hnew ops).1
  obtain ⟨hall, hle⟩ := Sequence.survey_calls matches? values w.caller
  refine ⟨Op.apply_ne_outOfFuel hready op, Op.performStrict_eq hready op, fun hover => ?_, fun hroom => ⟨?_, ?_⟩, hall,
    hle⟩
  · have hstart : start.Balanced 0 := rfl
    have hmatched := Sequence.survey_matched_le matches? values w.caller
    rw [List.length_map, ← hready.coherent.agrees.length] at hmatched
    exact room_of_balanced (Op.run_balanced hnew hover hstart) hmatched
  · rw [Op.apply_of_predicate? hop]
    exact Op.apply_sweep hready matches? rfl hroom
  · have hnoting := Op.apply_sweep (ρ := ρ) (w := { w with caller := (w.caller, []) }) hready (Callback.noting matches?)
      (Sequence.survey_noting matches? values w.caller []) hroom
    exact hnoting.caller

/-- The predicate counts its calls; it drops the first two values and fails at the third. -/
theorem Op.run_sweeps_instance :
    let ops : List (Op Key Nat Unit Nat String) :=
      [.put (.int 1) 10, .put (.int 2) 20, .put (.int 3) 30, .put (.int 4) 40]
    let matches? : Nat → Callback Nat String Bool := fun _ _ calls =>
      if calls < 2 then .ok true (calls + 1) else .error (.failed "no") (calls + 1)
    let start : World Key Nat Nat := World.new ⟨4, by decide⟩ 0
    let w := (Op.run start ops).2
    let op : Op Key Nat Unit Nat String := .tryRemoveIf matches?
    op.predicate? = some matches? ∧ Op.NoOverflow start ops ∧ op.performStrict w = some (op.apply w) ∧
      (op.apply w).1 = .error (.failed "no") ∧ (op.apply w).2.cache.toList = [(.int 2, 20), (.int 1, 10)] ∧
      (op.apply w).2.caller = 3 := by
  intro ops matches? start w op
  have hnew := ready_new (κ := Key) (ν := Nat) ⟨4, by decide⟩ 0
  have hover : Op.NoOverflow start ops := (Op.noOverflow_iff hnew _).2 fun c => by cases c <;> decide
  obtain ⟨-, hmoments⟩ := Op.run_eq hnew hover
  have hlist : w.cache.toList = [(.int 4, 40), (.int 3, 30), (.int 2, 20), (.int 1, 10)] := (hmoments 3 _ rfl).1
  have hcaller : w.caller = 0 := (hmoments 3 _ rfl).2
  obtain ⟨-, hstrict, hroom, hsweeps, -⟩ := Op.run_sweeps ⟨4, by decide⟩ 0 ops op matches? rfl
  obtain ⟨houtcome, hentries, -, -, hcalls⟩ := (hsweeps (hroom hover)).1
  have hw : (Op.run start ops).2 = w := rfl
  rw [hw, hlist, hcaller] at houtcome
  rw [hw, hlist, hcaller] at hentries
  rw [hw, hlist, hcaller] at hcalls
  exact ⟨rfl, hover, hstrict, houtcome, hentries, hcalls⟩

end Cache

end RecencyCache
