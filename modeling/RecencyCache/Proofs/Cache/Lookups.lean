import RecencyCache.Proofs.Cache.Atomic
import RecencyCache.Proofs.Cache.Sweeps
import RecencyCache.Proofs.Sequence.Lookups

/-!
# Lookups are counted exactly

The counters of requests, hits, updates and insertions can be told from how the calls of a run have ended
(`Op.run_accounts`).  What a call comes to as a lookup hangs on the entry that it finds and on what its callbacks say
of it: it hits (`Op.Hits`), it misses (`Op.Misses`), or one of its callbacks stops early, and then nothing is counted
(`Op.lookup_cases`).
-/

namespace RecencyCache

open Sequence (Books tally locked kept)

variable {κ ν ρ ω ε : Type} [BEq κ] [Hashable κ]

/-- From `m` to `m'` so much has been counted as the ends of the calls tell. -/
structure Metrics.Accounts (m m' : Metrics) (calls : List (Cache.Call κ ν ρ ω ε)) : Prop where
  requests : m'.requests.toNat = m.requests.toNat + calls.countP (·.verdict.isSome)
  hits : m'.hits.toNat = m.hits.toNat + calls.countP (·.verdict == some true)
  updates : m'.updates.toNat = m.updates.toNat + calls.countP (·.puts true)
  insertions : m'.insertions.toNat = m.insertions.toNat + (calls.countP (·.puts false) + calls.countP (·.makes))

omit [BEq κ] [Hashable κ] in
/-- Misses are the completed lookups that are not hits. -/
private theorem Metrics.Accounts.misses {m : Metrics} {calls : List (Cache.Call κ ν ρ ω ε)}
    (h : Metrics.zero.Accounts m calls) :
    ∃ misses, m.misses = .ok misses ∧ misses.toNat = calls.countP (·.verdict == some false) := by
  have hsum : calls.countP (·.verdict.isSome) =
      calls.countP (·.verdict == some true) + calls.countP (·.verdict == some false) := by
    clear h
    induction calls with
    | nil => rfl
    | cons call calls ih =>
      rw [List.countP_cons, List.countP_cons, List.countP_cons, ih]
      rcases call.verdict with _ | _ | _ <;> simp <;> omega
  have hrequests : m.requests.toNat = 0 + _ := h.requests
  have hhits : m.hits.toNat = 0 + _ := h.hits
  have hle : m.hits ≤ m.requests := UInt64.le_iff_toNat_le.2 (by omega)
  refine ⟨m.requests - m.hits, if_pos hle, ?_⟩
  rw [UInt64.toNat_sub_of_le _ _ hle]
  omega

namespace Cache

variable [EquivBEq κ] [LawfulHashable κ] {w : World κ ν ω} {op : Op κ ν ρ ω ε}

/-! ### Calls of a run -/

/-- The call that an operation makes in a world. -/
def Op.call (op : Op κ ν ρ ω ε) (w : World κ ν ω) : Call κ ν ρ ω ε :=
  ⟨op, (op.stores.bind w.cache.find?).isSome, (op.apply w).1⟩

/-- The calls that are made in turn. -/
def Op.calls (w : World κ ν ω) : List (Op κ ν ρ ω ε) → List (Call κ ν ρ ω ε)
  | [] => []
  | op :: ops => op.call w :: Op.calls (op.apply w).2 ops

private theorem find?_toList (h : w.cache.Ready) (k : κ) :
    w.cache.toList.find? (·.1 == k) = (w.cache.find? k).map (·.2) :=
  (h.coherent.agrees.find k).symm

theorem find?_toList_of_some (h : w.cache.Ready) {k : κ} {s : Nat} {e : κ × ν} (hf : w.cache.find? k = some (s, e)) :
    w.cache.toList.find? (·.1 == k) = some e := by
  rw [find?_toList h, hf]
  rfl

theorem find?_toList_of_none (h : w.cache.Ready) {k : κ} (hf : w.cache.find? k = none) :
    w.cache.toList.find? (·.1 == k) = none := by
  rw [find?_toList h, hf]
  rfl

private theorem Op.call_eq (h : w.cache.Ready) (hover : (op.apply w).1 ≠ .error (.faulted .addOverflow)) :
    op.call w = Sequence.called w.cache.capacity op w.cache.toList w.caller := by
  have hfound : (op.stores.bind w.cache.find?).isSome =
      (op.stores.bind fun k => w.cache.toList.find? (·.1 == k)).isSome := by
    cases op.stores with
    | none => rfl
    | some k => rw [Option.bind_some, Option.bind_some, find?_toList h, Option.isSome_map]
  unfold call Sequence.called
  rw [hfound, (Op.apply_carries h hover).outcome]
  rfl

/-- The calls of a run are those of the plain sequence. -/
theorem Op.calls_eq (h : w.cache.Ready) {ops : List (Op κ ν ρ ω ε)} (hover : Op.NoOverflow w ops) :
    Op.calls w ops = Sequence.calls w.cache.capacity w.cache.toList w.caller ops := by
  induction ops generalizing w with
  | nil => rfl
  | cons op ops ih =>
    rw [Op.noOverflow_cons] at hover
    have hc := Op.apply_carries h hover.1
    have hcapacity : (op.apply w).2.cache.capacity = w.cache.capacity := congrArg (·.limit) hc.advances.config
    rw [calls, Op.call_eq h hover.1, ih (Op.apply_ready h op) hover.2, hc.entries, hc.caller, hcapacity]
    rfl

private theorem Op.apply_accounts (h : w.cache.Ready) (hover : (op.apply w).1 ≠ .error (.faulted .addOverflow)) :
    w.cache.metrics.Accounts (op.apply w).2.cache.metrics [op.call w] := by
  have hbooks := Sequence.step_books w.cache.capacity op w.cache.toList w.caller
  have hcounts := (Op.apply_carries h hover).advances.counts
  rw [← Op.call_eq h hover] at hbooks
  refine ⟨?_, ?_, ?_, ?_⟩
  · rw [List.countP_singleton, ← hbooks.requests]
    exact hcounts .requests
  · rw [List.countP_singleton, ← hbooks.hits]
    exact hcounts .hits
  · rw [List.countP_singleton, ← hbooks.updates]
    exact hcounts .updates
  · rw [List.countP_singleton, List.countP_singleton, ← hbooks.insertions]
    exact hcounts .insertions

theorem Op.run_accounts (h : w.cache.Ready) {ops : List (Op κ ν ρ ω ε)} (hover : Op.NoOverflow w ops) :
    w.cache.metrics.Accounts (Op.run w ops).2.cache.metrics (Op.calls w ops) := by
  induction ops generalizing w with
  | nil => exact ⟨rfl, rfl, rfl, rfl⟩
  | cons op ops ih =>
    rw [Op.noOverflow_cons] at hover
    have hfirst := Op.apply_accounts h hover.1
    have hrest := ih (Op.apply_ready h op) hover.2
    rw [run_cons, calls]
    have hcons (p : Call κ ν ρ ω ε → Bool) : (op.call w :: Op.calls (op.apply w).2 ops).countP p =
        [op.call w].countP p + (Op.calls (op.apply w).2 ops).countP p := by
      rw [← List.countP_append, List.singleton_append]
    obtain ⟨h₁, h₂, h₃, h₄⟩ := hfirst
    obtain ⟨h₁', h₂', h₃', h₄'⟩ := hrest
    constructor <;> simp only [hcons] <;> omega

/-! ### What a lookup comes to -/

/-- A lookup finds an entry and keeps it: neither its predicate nor its update stops, and the predicate lets the entry
be; or a call that makes a value on demand finds one. -/
inductive Op.Hits (op : Op κ ν ρ ω ε) (w : World κ ν ω) : Prop
  | kept {k update evictIf s key value value' caller caller'} : op.lookup? = some (k, update, evictIf) →
    w.cache.find? k = some (s, key, value) → evictIf value locked w.caller = .ok false caller →
    update locked (value, caller) = .ok () (value', caller') → Hits op w
  | cached {k make found} : op.factory? = some (k, make) → w.cache.find? k = some found → Hits op w

/-- A lookup finds no entry, or has it dropped; or a call makes a value for a key that has none. -/
inductive Op.Misses (op : Op κ ν ρ ω ε) (w : World κ ν ω) : Prop
  | absent {k update evictIf} : op.lookup? = some (k, update, evictIf) → w.cache.find? k = none → Misses op w
  | dropped {k update evictIf s key value caller} : op.lookup? = some (k, update, evictIf) →
    w.cache.find? k = some (s, key, value) → evictIf value locked w.caller = .ok true caller → Misses op w
  | made {k make value caller} : op.factory? = some (k, make) → w.cache.find? k = none →
    make locked w.caller = .ok value caller → Misses op w

/-- A callback of the call, other than a view, stops early. -/
def Op.Stops (op : Op κ ν ρ ω ε) (w : World κ ν ω) : Prop :=
  ∃ stop caller, op.StopsDeciding w stop caller ∨ ∃ s key value value', op.StopsUpdating w s key value value' stop caller

/-- A call that is a lookup hits or misses, unless one of its callbacks stops early. -/
theorem Op.lookup_cases (op : Op κ ν ρ ω ε) (w : World κ ν ω) :
    (op.lookup? = none ∧ op.factory? = none) ∨ op.Hits w ∨ op.Misses w ∨ op.Stops w := by
  cases hl : op.lookup? with
  | some e =>
    obtain ⟨k, update, evictIf⟩ := e
    refine .inr ?_
    cases hf : w.cache.find? k with
    | none => exact .inr (.inl (.absent hl hf))
    | some found =>
      obtain ⟨s, key, value⟩ := found
      cases hrun : evictIf value locked w.caller with
      | error stop caller => exact .inr (.inr ⟨stop, caller, .inl (.evictIf hl hf hrun)⟩)
      | ok matched caller =>
        cases matched with
        | true => exact .inr (.inl (.dropped hl hf hrun))
        | false =>
          cases hupdate : update locked (value, caller) with
          | ok _ world => exact .inl (.kept hl hf hrun hupdate)
          | error stop world =>
            exact .inr (.inr ⟨stop, world.2, .inr ⟨s, key, value, world.1, .intro hl hf hrun hupdate⟩⟩)
  | none =>
    cases hm : op.factory? with
    | none => exact .inl ⟨rfl, rfl⟩
    | some e =>
      obtain ⟨k, make⟩ := e
      refine .inr ?_
      cases hf : w.cache.find? k with
      | some found => exact .inl (.cached hm hf)
      | none =>
        cases hrun : make locked w.caller with
        | ok value caller => exact .inr (.inl (.made hm hf hrun))
        | error stop caller => exact .inr (.inr ⟨stop, caller, .inl (.make hm hf hrun)⟩)

section

variable (h : w.cache.Ready) (hover : (op.apply w).1 ≠ .error (.faulted .addOverflow))

include h hover

private theorem Op.verdict_of_lookup? {k : κ} {update : Update ν ω ε} {evictIf : ν → Callback ω ε Bool}
    (hop : op.lookup? = some (k, update, evictIf)) : (op.call w).verdict =
      kept (Sequence.lookup k update evictIf w.cache.toList w.caller).outcome := by
  rw [Op.call_eq h hover]
  exact (Sequence.step_of_lookup? hop ..).verdict _

private theorem Op.verdict_of_factory? {k : κ} {make : Callback ω ε ν} (hop : op.factory? = some (k, make)) :
    (op.call w).verdict = (Sequence.getOrInsertWith w.cache.capacity k make w.cache.toList w.caller).outcome.toOption.map
      fun _ => (w.cache.find? k).isSome := by
  have hstores := (Op.stores_of_factory? hop).1
  have hfound : (op.stores.bind fun k => w.cache.toList.find? (·.1 == k)).isSome = (w.cache.find? k).isSome := by
    rw [hstores, Option.bind_some, find?_toList h, Option.isSome_map]
  rw [Op.call_eq h hover]
  unfold Sequence.called
  rw [Call.verdict_of_factory? hop, hfound, Sequence.step_of_factory? hop]
  unfold Sequence.Turn.map
  cases (Sequence.getOrInsertWith w.cache.capacity k make w.cache.toList w.caller).outcome <;> rfl

private theorem Op.Hits.verdict (hop : op.Hits w) : (op.call w).verdict = some true := by
  cases hop with
  | kept hl hf hrun hupdate =>
    rw [Op.verdict_of_lookup? h hover hl]
    exact Sequence.kept_lookup_kept (find?_toList_of_some h hf) hrun hupdate
  | cached hm hf =>
    rw [Op.verdict_of_factory? h hover hm, hf]
    unfold Sequence.getOrInsertWith
    rw [find?_toList_of_some h hf]
    rfl

private theorem Op.Misses.verdict (hop : op.Misses w) : (op.call w).verdict = some false := by
  cases hop with
  | absent hl hf =>
    rw [Op.verdict_of_lookup? h hover hl]
    exact Sequence.kept_lookup_absent (find?_toList_of_none h hf)
  | dropped hl hf hrun =>
    rw [Op.verdict_of_lookup? h hover hl]
    exact Sequence.kept_lookup_dropped (find?_toList_of_some h hf) hrun
  | made hm hf hrun =>
    rw [Op.verdict_of_factory? h hover hm, hf, Sequence.getOrInsertWith_made (find?_toList_of_none h hf) hrun]
    rfl

omit hover in
/-- A call in which a callback stops early, other than a view, is no complete lookup and counts nothing. -/
private theorem Op.Stops.verdict (hop : op.Stops w) :
    (op.call w).verdict = none ∧ (op.apply w).2.cache.metrics = w.cache.metrics := by
  have hne (stop : Stop ε) : (.error stop.toAbort : Outcome κ ν ρ ε) ≠ .error (.faulted .addOverflow) := by
    cases stop <;> simp [Stop.toAbort]
  obtain ⟨stop, caller, hstops⟩ := hop
  rcases hstops with hdeciding | ⟨s, key, value, value', hupdating⟩
  · have happly := Op.apply_of_deciding h.free hdeciding
    have hover : (op.apply w).1 ≠ .error (.faulted .addOverflow) := by
      rw [happly]
      exact hne stop
    refine ⟨?_, by rw [happly]⟩
    cases hdeciding with
    | make hm hf hrun =>
      rw [Op.verdict_of_factory? h hover hm]
      unfold Sequence.getOrInsertWith
      rw [find?_toList_of_none h hf]
      dsimp only
      rw [hrun]
      rfl
    | evictIf hl hf hrun =>
      rw [Op.verdict_of_lookup? h hover hl]
      exact Sequence.kept_lookup_stopped (find?_toList_of_some h hf) (.inl hrun)
  · have happly := Op.apply_of_updating h.free hupdating
    have hover : (op.apply w).1 ≠ .error (.faulted .addOverflow) := by
      rw [happly]
      exact hne stop
    refine ⟨?_, by rw [happly]⟩
    obtain ⟨hl, hf, hrun, hupdate⟩ := hupdating
    rw [Op.verdict_of_lookup? h hover hl]
    exact Sequence.kept_lookup_stopped (find?_toList_of_some h hf) (.inr ⟨_, _, hrun, hupdate⟩)

end

/-- There is no verdict on a call that is no lookup. -/
private theorem Op.verdict_of_neither (hl : op.lookup? = none) (hm : op.factory? = none) :
    (op.call w).verdict = none := by
  cases op with
  | get | getWith | getAndUpdate | getOrEvict | tryGetOrEvict | existsOrEvict | tryExistsOrEvict => cases hl
  | getOrInsertWith | tryGetOrInsertWith => cases hm
  | put | containsKey | remove | removeIf | tryRemoveIf | clear => rfl

/-- The verdict on a call is that it has found and kept its entry exactly when it hits. -/
private theorem Op.verdict_eq_true_iff (h : w.cache.Ready) (hover : (op.apply w).1 ≠ .error (.faulted .addOverflow)) :
    (op.call w).verdict = some true ↔ op.Hits w := by
  refine ⟨fun hverdict => ?_, Op.Hits.verdict h hover⟩
  rcases Op.lookup_cases op w with ⟨hl, hm⟩ | hhits | hmisses | hstops
  · rw [Op.verdict_of_neither hl hm] at hverdict
    cases hverdict
  · exact hhits
  · rw [hmisses.verdict h hover] at hverdict
    cases hverdict
  · rw [(hstops.verdict h).1] at hverdict
    cases hverdict

/-- The verdict on a call is that it has not, exactly when it misses. -/
private theorem Op.verdict_eq_false_iff (h : w.cache.Ready) (hover : (op.apply w).1 ≠ .error (.faulted .addOverflow)) :
    (op.call w).verdict = some false ↔ op.Misses w := by
  refine ⟨fun hverdict => ?_, Op.Misses.verdict h hover⟩
  rcases Op.lookup_cases op w with ⟨hl, hm⟩ | hhits | hmisses | hstops
  · rw [Op.verdict_of_neither hl hm] at hverdict
    cases hverdict
  · rw [hhits.verdict h hover] at hverdict
    cases hverdict
  · exact hmisses
  · rw [(hstops.verdict h).1] at hverdict
    cases hverdict

/-- A call that offers all values to a predicate counts nothing but what the predicate matches. -/
private theorem Op.counts_of_predicate? (h : w.cache.Ready) (hover : (op.apply w).1 ≠ .error (.faulted .addOverflow))
    {matches? : ν → Callback ω ε Bool} (hop : op.predicate? = some matches?) {c : Counter}
    (hc : c ≠ .predicateEvictions) : (op.apply w).2.cache.metrics.get c = w.cache.metrics.get c := by
  rw [Op.apply_of_predicate? hop] at hover ⊢
  have hcounts := (Op.apply_carries h hover).advances.counts c
  have hzero : tally ((Op.tryRemoveIf matches? : Op κ ν ρ ω ε).turn w).counted c = 0 :=
    Sequence.removeIf_tally matches? w.cache.toList w.caller hc
  rw [hzero, Nat.add_zero] at hcounts
  exact UInt64.toNat_inj.1 hcounts

/-- A call that is no lookup leaves the requests and the hits as they are. -/
private theorem Op.counts_of_neither (h : w.cache.Ready) (hover : (op.apply w).1 ≠ .error (.faulted .addOverflow))
    (hl : op.lookup? = none) (hm : op.factory? = none) :
    (op.apply w).2.cache.metrics.requests = w.cache.metrics.requests ∧
      (op.apply w).2.cache.metrics.hits = w.cache.metrics.hits := by
  obtain ⟨hrequests, hhits, -, -⟩ := Op.apply_accounts h hover
  rw [List.countP_singleton, Op.verdict_of_neither hl hm] at hrequests hhits
  exact ⟨UInt64.toNat_inj.1 hrequests, UInt64.toNat_inj.1 hhits⟩

/-! ### A run -/

/-- The lookups are counted exactly.  After every run from a new cache in which no counter overflows, there have been as
many requests as completed lookups, as many hits as those of them that found an entry and kept it, and as many misses
as the others; as many updates as calls of `put` that found their key; and as many insertions as those that did not,
and calls that made a value.  In the next call a lookup has found and kept its entry exactly when it hits, has not
when it misses, and is not complete when one of its callbacks stops early, which leaves all counters as they are; any
other call leaves requests and hits as they are, and a sweep all counters but that of the entries dropped by
predicates. -/
theorem Op.run_lookups (config : Config) (caller : ω) (ops : List (Op κ ν ρ ω ε))
    (hover : Op.NoOverflow (World.new config caller) ops) :
    let start : World κ ν ω := World.new config caller
    let calls := Op.calls start ops
    let w := (Op.run start ops).2
    let m := w.cache.metrics
    m.requests.toNat = calls.countP (·.verdict.isSome) ∧
      m.hits.toNat = calls.countP (·.verdict == some true) ∧
      (∃ misses, m.misses = .ok misses ∧ misses.toNat = calls.countP (·.verdict == some false)) ∧
      m.updates.toNat = calls.countP (·.puts true) ∧
      m.insertions.toNat = calls.countP (·.puts false) + calls.countP (·.makes) ∧
      ∀ op : Op κ ν ρ ω ε,
        (op.Stops w → (op.call w).verdict = none ∧ (op.apply w).2.cache.metrics = m) ∧
        ((op.apply w).1 ≠ .error (.faulted .addOverflow) →
          ((op.call w).verdict = some true ↔ op.Hits w) ∧
          ((op.call w).verdict = some false ↔ op.Misses w) ∧
          (op.lookup? = none → op.factory? = none → (op.apply w).2.cache.metrics.requests = m.requests ∧
            (op.apply w).2.cache.metrics.hits = m.hits) ∧
          ∀ matches?, op.predicate? = some matches? → ∀ c, c ≠ .predicateEvictions →
            (op.apply w).2.cache.metrics.get c = m.get c) := by
  intro start calls w m
  have hnew := ready_new (κ := κ) (ν := ν) config caller
  have hready : w.cache.Ready := (Op.run_ready hnew ops).1
  have haccounts : Metrics.zero.Accounts m calls := Op.run_accounts hnew hover
  have hmisses := haccounts.misses
  obtain ⟨hrequests, hhits, hupdates, hinsertions⟩ := haccounts
  refine ⟨hrequests.trans (Nat.zero_add _), hhits.trans (Nat.zero_add _), hmisses, hupdates.trans (Nat.zero_add _),
    hinsertions.trans (Nat.zero_add _), fun op => ⟨Op.Stops.verdict hready, fun hlast => ?_⟩⟩
  exact ⟨Op.verdict_eq_true_iff hready hlast, Op.verdict_eq_false_iff hready hlast,
    Op.counts_of_neither hready hlast, fun matches? hop c hc => Op.counts_of_predicate? hready hlast hop hc⟩

/-- Three hits, the last one by a call whose view raises, and three misses; then an update fails. -/
theorem Op.run_lookups_instance :
    let make : Callback Unit Empty Nat := fun _ _ => .ok 20 ()
    let ops : List (Op Key Nat Unit Unit String) :=
      [.put (.int 1) 10, .get (.int 1), .get (.int 2), .getOrInsertWith (.int 2) make, .getOrInsertWith (.int 2) make,
        .put (.int 1) 11, .existsOrEvict (.int 2) .keep fun _ _ _ => .ok true (),
        .getWith (.int 1) fun _ _ _ => .error (.raised "no") ()]
    let start : World Key Nat Unit := World.new ⟨2, by decide⟩ ()
    let w := (Op.run start ops).2
    let m := w.cache.metrics
    let op : Op Key Nat Unit Unit String :=
      .tryGetOrEvict (.int 1) (fun _ _ => .error (.failed "no") (99, ())) fun _ => pure false
    Op.NoOverflow start ops ∧ m.requests.toNat = 6 ∧ m.hits.toNat = 3 ∧
      (∃ misses, m.misses = .ok misses ∧ misses.toNat = 3) ∧ m.updates.toNat = 1 ∧ m.insertions.toNat = 2 ∧
      op.Stops w ∧ (op.apply w).2.cache.metrics = m := by
  intro make ops start w m op
  have hnew := ready_new (κ := Key) (ν := Nat) ⟨2, by decide⟩ ()
  have hover : Op.NoOverflow start ops := (Op.noOverflow_iff hnew _).2 fun c => by cases c <;> decide
  have hready : w.cache.Ready := (Op.run_ready hnew ops).1
  have hlist : w.cache.toList = [(.int 1, 11)] := ((Op.run_eq hnew hover).2 7 _ rfl).1
  have hcalls : Op.calls start ops = Sequence.calls 2 [] () ops := Op.calls_eq hnew hover
  obtain ⟨hrequests, hhits, hmisses, hupdates, hinsertions, hop⟩ := Op.run_lookups ⟨2, by decide⟩ () ops hover
  rw [hcalls] at hrequests hhits hmisses hupdates hinsertions
  obtain ⟨s, hs⟩ : ∃ s, w.cache.find? (.int 1) = some (s, .int 1, 11) := find?_of_toList hready (by rw [hlist]; rfl)
  have hstops : op.Stops w := ⟨.failed "no", (), .inr ⟨s, .int 1, 11, 99, .intro rfl hs rfl rfl⟩⟩
  exact ⟨hover, hrequests, hhits, hmisses, hupdates, hinsertions, hstops, ((hop op).1 hstops).2⟩

end Cache

end RecencyCache
