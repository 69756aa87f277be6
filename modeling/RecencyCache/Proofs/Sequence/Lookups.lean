import RecencyCache.Proofs.Cache.Forms
import RecencyCache.Proofs.Sequence.Recency

/-!
# What a call counts of lookups and stores

How a call ended tells whether it is a completed lookup, and whether it found an entry and kept it (`Call.verdict`);
with the entry that it found, or did not find, under the key that it stores, it tells all that the call has counted
as requests, hits, updates and insertions.  Every turn counts just that (`step_books`), for it goes as the lookup or
as the store goes that it starts with (`step_of_lookup?`, `step_of_factory?`).
-/

namespace RecencyCache

namespace Cache

variable {κ ν ρ ω ε α : Type}

/-- A call that makes a value on demand looks nothing up, and creates the entry of its key. -/
theorem Op.stores_of_factory? {op : Op κ ν ρ ω ε} {k : κ} {make : Callback ω ε ν} (h : op.factory? = some (k, make)) :
    op.stores = some k ∧ op.lookup? = none := by
  cases op <;> cases h <;> exact ⟨rfl, rfl⟩

/-- A call that has been made: whether there was an entry under the key that it stores, and how it ended. -/
structure Call (κ ν ρ ω ε : Type) where
  op : Op κ ν ρ ω ε
  found : Bool
  outcome : Outcome κ ν ρ ε

namespace Call

/-- Whether a completed lookup has found an entry and kept it; there is no verdict on any other call, nor on one whose
predicate, update or factory has stopped early.  A view runs after its lookup is complete. -/
def verdict (call : Call κ ν ρ ω ε) : Option Bool :=
  match call.op, call.outcome with
  | .get _, .ok (.found value) | .getAndUpdate _ _, .ok (.found value) => some value.isSome
  | .getOrEvict _ _ _, .ok (.found value) | .tryGetOrEvict _ _ _, .ok (.found value) => some value.isSome
  | .existsOrEvict _ _ _, .ok (.present found) | .tryExistsOrEvict _ _ _, .ok (.present found) => some found
  | .getWith _ _, .ok (.viewed view) => some view.isSome
  | .getWith _ _, .error _ => some true
  | .getOrInsertWith _ _, .ok _ | .tryGetOrInsertWith _ _, .ok _ => some call.found
  | _, _ => none

/-- Whether a call is a `put` under a key that had an entry, or had none. -/
def puts (found : Bool) (call : Call κ ν ρ ω ε) : Bool :=
  match call.op with
  | .put _ _ => call.found == found
  | _ => false

/-- Whether a call has made a value on demand. -/
def makes (call : Call κ ν ρ ω ε) : Bool :=
  call.op.factory?.isSome && call.verdict == some false

/-- Making a value on demand is complete unless its factory stops; it misses where it finds nothing. -/
theorem verdict_of_factory? {op : Op κ ν ρ ω ε} {e : κ × Callback ω ε ν} (h : op.factory? = some e) (found : Bool)
    (o : Outcome κ ν ρ ε) : verdict ⟨op, found, o⟩ = o.toOption.map fun _ => found := by
  cases op <;> cases h <;> cases o <;> rfl

end Call

end Cache

namespace Sequence

open Cache (Op Call)
open Metrics (Happening)

variable {κ ν ρ ω ε α : Type} [BEq κ]

/-! ### Lookups and stores behind calls -/

private theorem lookup_widen (k : κ) (update : Update ν ω Empty) (evictIf : ν → Callback ω Empty Bool)
    (es : List (κ × ν)) (caller : ω) : ((lookup k update evictIf es caller).widen : Turn κ ν ω ε _) =
      lookup k (Callback.widen update) (fun value => (evictIf value).widen) es caller := by
  unfold lookup Turn.widen Callback.widen
  cases es.find? (·.1 == k) with
  | none => rfl
  | some e =>
    dsimp only
    cases evictIf e.2 locked caller with
    | error stop caller => exact congrArg (Turn.mk · _ _ _ _) (congrArg _ stop.toAbort_widen.symm)
    | ok matched caller =>
      cases matched with
      | true => rfl
      | false =>
        dsimp only
        cases update locked (e.2, caller) with
        | error stop world => exact congrArg (Turn.mk · _ _ _ _) (congrArg _ stop.toAbort_widen.symm)
        | ok _ world => rfl

private theorem getOrInsertWith_widen (limit : Nat) (k : κ) (make : Callback ω Empty ν) (es : List (κ × ν))
    (caller : ω) :
    ((getOrInsertWith limit k make es caller).widen : Turn κ ν ω ε _) =
      getOrInsertWith limit k make.widen es caller := by
  unfold getOrInsertWith Turn.widen Callback.widen
  cases es.find? (·.1 == k) with
  | some e => rfl
  | none =>
    dsimp only
    cases make locked caller with
    | error stop caller => exact congrArg (Turn.mk · _ _ _ _) (congrArg _ stop.toAbort_widen.symm)
    | ok value caller =>
      unfold insert
      dsimp only
      split <;> rfl

variable {limit : Nat} {k : κ} {es : List (κ × ν)} {caller : ω} {op : Op κ ν ρ ω ε}

/-- The turn of a call that makes a value on demand. -/
theorem step_of_factory? {make : Callback ω ε ν} (h : op.factory? = some (k, make)) (limit : Nat) (es : List (κ × ν))
    (caller : ω) : step limit op es caller = (getOrInsertWith limit k make es caller).map .value := by
  cases op with
  | getOrInsertWith k make =>
    cases h
    show (getOrInsertWith limit k make es caller).widen.map _ = _
    rw [getOrInsertWith_widen]
  | tryGetOrInsertWith k make =>
    cases h
    rfl
  | _ => cases h

/-- A value that is made is the answer, whatever has to make room for it. -/
theorem getOrInsertWith_made {make : Callback ω ε ν} {value : ν} {caller' : ω}
    (hf : es.find? (·.1 == k) = none) (hrun : make locked caller = .ok value caller') :
    (getOrInsertWith limit k make es caller).outcome = .ok value := by
  obtain ⟨evicted, ho⟩ := insert_ok (ε := ε) limit k es caller' value
  unfold getOrInsertWith
  rw [hf]
  dsimp only
  rw [hrun]
  dsimp only [Turn.counting, Turn.map]
  rw [ho]
  rfl

/-- What the end of a lookup tells of the entry. -/
def kept : Except (Abort ε) (Option α) → Option Bool
  | .ok value => some value.isSome
  | .error _ => none

section

variable {update : Update ν ω ε} {evictIf : ν → Callback ω ε Bool} {key : κ} {value : ν}

theorem kept_lookup_absent (hf : es.find? (·.1 == k) = none) :
    kept (lookup k update evictIf es caller).outcome = some false := by
  unfold lookup
  rw [hf]
  rfl

theorem kept_lookup_dropped (hf : es.find? (·.1 == k) = some (key, value)) {caller' : ω}
    (hrun : evictIf value locked caller = .ok true caller') :
    kept (lookup k update evictIf es caller).outcome = some false := by
  unfold lookup
  rw [hf]
  dsimp only
  rw [hrun]
  rfl

theorem kept_lookup_kept (hf : es.find? (·.1 == k) = some (key, value)) {caller' caller'' : ω} {value' : ν}
    (hrun : evictIf value locked caller = .ok false caller')
    (hupdate : update locked (value, caller') = .ok () (value', caller'')) :
    kept (lookup k update evictIf es caller).outcome = some true := by
  unfold lookup
  rw [hf]
  dsimp only
  rw [hrun]
  dsimp only
  rw [hupdate]
  rfl

/-- A lookup that stops early has neither kept an entry nor found that there is none to keep. -/
theorem kept_lookup_stopped (hf : es.find? (·.1 == k) = some (key, value)) {stop : Stop ε} {caller' : ω}
    (hstop : evictIf value locked caller = .error stop caller' ∨
      ∃ caller₁ value', evictIf value locked caller = .ok false caller₁ ∧
        update locked (value, caller₁) = .error stop (value', caller')) :
    kept (lookup k update evictIf es caller).outcome = none := by
  unfold lookup
  rw [hf]
  dsimp only
  rcases hstop with hrun | ⟨caller₁, value', hrun, hupdate⟩
  · rw [hrun]
    rfl
  · rw [hrun]
    dsimp only
    rw [hupdate]
    rfl

end

/-- The turn of a call goes as the lookup goes that it starts with; only a view goes on with the caller's state. -/
structure GoesAs (op : Op κ ν ρ ω ε) (t : Turn κ ν ω ε (Cache.Reply κ ν ρ)) (t' : Turn κ ν ω ε (Option ν)) : Prop where
  entries : t.entries = t'.entries
  counted : t.counted = t'.counted
  verdict : ∀ found, Call.verdict ⟨op, found, t.outcome⟩ = kept t'.outcome
  caller : (∀ k view, op ≠ .getWith k view) → t.caller = t'.caller

omit [BEq κ] in
/-- A call that only tells in its own way what the lookup has come to. -/
private theorem GoesAs.of_map {t : Turn κ ν ω ε (Cache.Reply κ ν ρ)} {t' : Turn κ ν ω ε (Option ν)}
    {f : Option ν → Cache.Reply κ ν ρ} (ht : t = t'.map f)
    (hok : ∀ found value, Call.verdict ⟨op, found, .ok (f value)⟩ = some value.isSome)
    (herror : ∀ found e, Call.verdict ⟨op, found, .error e⟩ = none) : GoesAs op t t' := by
  subst ht
  refine ⟨rfl, rfl, fun found => ?_, fun _ => rfl⟩
  unfold Turn.map
  cases t'.outcome with
  | ok value => exact hok found value
  | error e => exact herror found e

/-- The turn of a call that looks a key up goes as the lookup. -/
theorem step_of_lookup? {update : Update ν ω ε} {evictIf : ν → Callback ω ε Bool}
    (h : op.lookup? = some (k, update, evictIf)) (limit : Nat) (es : List (κ × ν)) (caller : ω) :
    GoesAs op (step limit op es caller) (lookup k update evictIf es caller) := by
  cases op with
  | get k =>
    cases h
    refine .of_map (f := .found) ?_ (fun _ _ => rfl) fun _ _ => rfl
    exact congrArg (Turn.map _) (lookup_widen k .keep keepAll es caller)
  | getWith k view =>
    cases h
    have hview (h : ∀ k' view', (.getWith k view : Op κ ν ρ ω ε) ≠ .getWith k' view') : False := h k view rfl
    dsimp only [step, getWith, Turn.widen, Turn.map]
    rw [lookup_keep, lookup_keep]
    cases es.find? (·.1 == k) with
    | none => exact ⟨rfl, rfl, fun _ => rfl, fun h => (hview h).elim⟩
    | some e =>
      dsimp only [Turn.andThen]
      cases view e.2 locked caller <;> exact ⟨rfl, rfl, fun _ => rfl, fun h => (hview h).elim⟩
  | getAndUpdate k update =>
    cases h
    refine .of_map (f := .found) ?_ (fun _ _ => rfl) fun _ _ => rfl
    exact congrArg (Turn.map _) (lookup_widen k update keepAll es caller)
  | getOrEvict k update evictIf =>
    cases h
    refine .of_map (f := .found) ?_ (fun _ _ => rfl) fun _ _ => rfl
    exact congrArg (Turn.map _) (lookup_widen k update evictIf es caller)
  | existsOrEvict k update evictIf =>
    cases h
    refine .of_map (f := fun value => .present value.isSome) ?_ (fun _ _ => rfl) fun _ _ => rfl
    exact congrArg (Turn.map _) (lookup_widen k update evictIf es caller)
  | tryGetOrEvict k update evictIf =>
    cases h
    exact .of_map (f := .found) rfl (fun _ _ => rfl) fun _ _ => rfl
  | tryExistsOrEvict k update evictIf =>
    cases h
    exact .of_map (f := fun value => .present value.isSome) rfl (fun _ _ => rfl) fun _ _ => rfl
  | _ => cases h

/-! ### What is counted -/

/-- A turn counts a request if it is a complete lookup, and a hit if the entry is kept. -/
structure Turn.Looks (t : Turn κ ν ω ε (Option α)) : Prop where
  requests : tally t.counted .requests = if (kept t.outcome).isSome then 1 else 0
  hits : tally t.counted .hits = if kept t.outcome == some true then 1 else 0
  updates : tally t.counted .updates = 0
  insertions : tally t.counted .insertions = 0

private theorem lookup_looks (k : κ) (update : Update ν ω ε) (evictIf : ν → Callback ω ε Bool) (es : List (κ × ν))
    (caller : ω) : (lookup k update evictIf es caller).Looks := by
  unfold lookup
  split
  · exact ⟨rfl, rfl, rfl, rfl⟩
  split
  · exact ⟨rfl, rfl, rfl, rfl⟩
  · exact ⟨rfl, rfl, rfl, rfl⟩
  split
  · exact ⟨rfl, rfl, rfl, rfl⟩
  · exact ⟨rfl, rfl, rfl, rfl⟩

/-- So much of what is counted comes from a lookup or a store, as the end of the call tells. -/
structure Books (call : Call κ ν ρ ω ε) (counted : List Happening) : Prop where
  requests : tally counted .requests = if call.verdict.isSome then 1 else 0
  hits : tally counted .hits = if call.verdict == some true then 1 else 0
  updates : tally counted .updates = if call.puts true then 1 else 0
  insertions : tally counted .insertions = (if call.puts false then 1 else 0) + if call.makes then 1 else 0

omit [BEq κ] in
/-- A call counts each of its lookups and stores once. -/
theorem Books.tally_le {call : Call κ ν ρ ω ε} {counted : List Happening} (h : Books call counted) {c : Counter}
    (hc : c = .requests ∨ c = .hits ∨ c = .updates ∨ c = .insertions) : tally counted c ≤ 1 := by
  rcases hc with rfl | rfl | rfl | rfl
  · rw [h.requests]
    split <;> omega
  · rw [h.hits]
    split <;> omega
  · rw [h.updates]
    split <;> omega
  · -- what stores a value does not make one on demand
    have hone : call.puts false = true → call.makes = false := by
      obtain ⟨op, found, outcome⟩ := call
      unfold Call.puts Call.makes
      cases op <;> simp [Op.factory?]
    rw [h.insertions]
    by_cases hputs : call.puts false = true
    · simp [hputs, hone hputs]
    · rw [if_neg hputs]
      split <;> omega

omit [BEq κ] in
/-- A call that is neither a lookup nor a store counts no lookup and no store. -/
private theorem Books.of_neither {call : Call κ ν ρ ω ε} {counted : List Happening} (hverdict : call.verdict = none)
    (hputs : ∀ found, call.puts found = false)
    (hcounted : ∀ what ∈ counted, what = .predicateEviction ∨ what = .removal) : Books call counted := by
  have hzero (c : Counter) (hc : c ≠ .predicateEvictions ∧ c ≠ .removals) : tally counted c = 0 := by
    refine List.count_eq_zero.2 fun hm => ?_
    obtain ⟨what, hwhat, hc'⟩ := List.mem_flatMap.1 hm
    rcases hcounted what hwhat with rfl | rfl
    · exact hc.1 (List.mem_singleton.1 hc')
    · exact hc.2 (List.mem_singleton.1 hc')
  have hmakes : call.makes = false := by
    unfold Call.makes
    rw [hverdict, Bool.and_eq_false_iff]
    exact .inr rfl
  refine ⟨?_, ?_, ?_, ?_⟩
  · rw [hzero _ (by decide), hverdict]
    rfl
  · rw [hzero _ (by decide), hverdict]
    rfl
  · rw [hzero _ (by decide), hputs]
    rfl
  · rw [hzero _ (by decide), hputs, hmakes]
    rfl

/-- The call whose turn starts from a list. -/
def called (limit : Nat) (op : Op κ ν ρ ω ε) (es : List (κ × ν)) (caller : ω) : Call κ ν ρ ω ε :=
  ⟨op, (op.stores.bind fun k => es.find? (·.1 == k)).isSome, (step limit op es caller).outcome⟩

private theorem lookup_books {update : Update ν ω ε} {evictIf : ν → Callback ω ε Bool}
    (h : op.lookup? = some (k, update, evictIf)) :
    Books (called limit op es caller) (step limit op es caller).counted := by
  have hkind : (∀ found, (called limit op es caller).puts found = false) ∧
      (called limit op es caller).makes = false := by
    cases op <;> first | exact ⟨fun _ => rfl, rfl⟩ | cases h
  obtain ⟨hputs, hmakes⟩ := hkind
  have hlookup := step_of_lookup? h limit es caller
  have hcounted := hlookup.counted
  have hcalled : (called limit op es caller).verdict = kept (lookup k update evictIf es caller).outcome :=
    hlookup.verdict _
  obtain ⟨hrequests, hhits, hupdates, hinsertions⟩ := lookup_looks k update evictIf es caller
  rw [← hcounted] at hrequests hhits hupdates hinsertions
  rw [← hcalled] at hrequests hhits
  refine ⟨hrequests, hhits, ?_, ?_⟩
  · rw [hupdates, hputs]
    rfl
  · rw [hinsertions, hputs, hmakes]
    rfl

omit [BEq κ] in
private theorem insert_tally (limit : Nat) (k : κ) (value : ν) (es : List (κ × ν)) (caller : ω) :
    let t : Turn κ ν ω ε _ := insert limit k value es caller
    tally t.counted .requests = 0 ∧ tally t.counted .hits = 0 ∧ tally t.counted .updates = 0 ∧
      tally t.counted .insertions = 1 := by
  unfold insert
  split <;> exact ⟨rfl, rfl, rfl, rfl⟩

private theorem put_books (value : ν) : Books (called limit (.put k value : Op κ ν ρ ω ε) es caller)
    (step limit (.put k value : Op κ ν ρ ω ε) es caller).counted := by
  have hcounted : (step limit (.put k value : Op κ ν ρ ω ε) es caller).counted =
      (put limit k value es caller : Turn κ ν ω ε _).counted := rfl
  have hputs (found : Bool) : (called limit (.put k value : Op κ ν ρ ω ε) es caller).puts found =
      ((es.find? (·.1 == k)).isSome == found) := rfl
  have hmakes : (called limit (.put k value : Op κ ν ρ ω ε) es caller).makes = false := rfl
  have hverdict : (called limit (.put k value : Op κ ν ρ ω ε) es caller).verdict = none := rfl
  rw [hcounted]
  unfold put
  split
  · rename_i hf
    rw [hf] at hputs
    exact ⟨rfl, rfl, by rw [hputs]; rfl, by rw [hputs, hmakes]; rfl⟩
  · rename_i hf
    rw [hf] at hputs
    obtain ⟨hrequests, hhits, hupdates, hinsertions⟩ := insert_tally (ε := ε) limit k value es caller
    exact ⟨hrequests, hhits, by rw [hupdates, hputs]; rfl, by rw [hinsertions, hputs, hmakes]; rfl⟩

private theorem factory_books {make : Callback ω ε ν} (h : op.factory? = some (k, make)) :
    Books (called limit op es caller) (step limit op es caller).counted := by
  have hstores := (Op.stores_of_factory? h).1
  have hputs (found found' : Bool) (o : Cache.Outcome κ ν ρ ε) : Call.puts found ⟨op, found', o⟩ = false := by
    cases op <;> cases h <;> rfl
  have hok (found : Bool) (reply : Cache.Reply κ ν ρ) : Call.verdict ⟨op, found, .ok reply⟩ = some found :=
    Call.verdict_of_factory? h found _
  have hmakes (found : Bool) (o : Cache.Outcome κ ν ρ ε) :
      Call.makes ⟨op, found, o⟩ = (Call.verdict ⟨op, found, o⟩ == some false) := by
    unfold Call.makes
    rw [h]
    rfl
  unfold called
  rw [step_of_factory? h, hstores, Option.bind_some]
  unfold getOrInsertWith
  cases hf : es.find? (·.1 == k) with
  | some e =>
    show Books ⟨op, true, .ok (.value e.2)⟩ [.hit]
    refine ⟨?_, ?_, ?_, ?_⟩
    · rw [hok]
      rfl
    · rw [hok]
      rfl
    · rw [hputs]
      rfl
    · rw [hputs, hmakes, hok]
      rfl
  | none =>
    dsimp only
    split
    · rename_i e _ _
      show Books ⟨op, false, .error e.toAbort⟩ []
      exact .of_neither (Call.verdict_of_factory? h _ _) (fun _ => hputs _ _ _) nofun
    · rename_i value caller' _
      obtain ⟨evicted, ho⟩ := insert_ok (ε := ε) limit k es caller' value
      obtain ⟨hrequests, hhits, hupdates, hinsertions⟩ := insert_tally (ε := ε) limit k value es caller'
      have houtcome : ((((insert limit k value es caller').map fun _ => value).counting .miss).map
          Cache.Reply.value).outcome = (.ok (.value value) : Cache.Outcome κ ν ρ ε) := by
        unfold Turn.counting Turn.map
        rw [ho]
        rfl
      rw [houtcome]
      show Books ⟨op, false, _⟩ (.miss :: (insert limit k value es caller' : Turn κ ν ω ε _).counted)
      refine ⟨?_, ?_, ?_, ?_⟩
      · rw [tally_cons, hrequests, hok]
        rfl
      · rw [tally_cons, hhits, hok]
        rfl
      · rw [tally_cons, hupdates, hputs]
        rfl
      · rw [tally_cons, hinsertions, hputs, hmakes, hok]
        rfl

/-- Every turn counts of lookups and stores what its call tells. -/
theorem step_books (limit : Nat) (op : Op κ ν ρ ω ε) (es : List (κ × ν)) (caller : ω) :
    Books (called limit op es caller) (step limit op es caller).counted := by
  cases op with
  | put k value => exact put_books value
  | get | getWith | getAndUpdate | getOrEvict | tryGetOrEvict | existsOrEvict | tryExistsOrEvict =>
    exact lookup_books rfl
  | getOrInsertWith | tryGetOrInsertWith => exact factory_books rfl
  | containsKey | clear => exact .of_neither rfl (fun _ => rfl) nofun
  | remove k =>
    refine .of_neither rfl (fun _ => rfl) fun what hwhat => ?_
    have hremove : what ∈ (remove k es caller : Turn κ ν ω ε _).counted := hwhat
    unfold remove at hremove
    split at hremove
    · cases hremove
    · exact .inr (List.mem_singleton.1 hremove)
  | removeIf matches? | tryRemoveIf matches? =>
    refine .of_neither rfl (fun _ => rfl) fun what hwhat => ?_
    have hsweep : what ∈ (removeIf matches? es caller).counted := hwhat
    obtain ⟨n, hn⟩ := sweep_counted es caller matches?
    rw [(removeIf_eq es caller matches?).2, hn] at hsweep
    exact .inl (List.eq_of_mem_replicate hsweep)

omit [BEq κ] in
theorem removeIf_tally (matches? : ν → Callback ω ε Bool) (es : List (κ × ν)) (caller : ω) {c : Counter}
    (hc : c ≠ .predicateEvictions) : tally (removeIf matches? es caller).counted c = 0 := by
  obtain ⟨n, hn⟩ := sweep_counted es caller matches?
  rw [(removeIf_eq es caller matches?).2, hn, tally_replicate]
  have hzero : Happening.predicateEviction.counters.count c = 0 :=
    List.count_eq_zero.2 fun hm => hc (List.mem_singleton.1 hm)
  rw [hzero, Nat.mul_zero]

/-- The calls whose turns are made one after the other. -/
def calls (limit : Nat) (es : List (κ × ν)) (caller : ω) : List (Op κ ν ρ ω ε) → List (Call κ ν ρ ω ε)
  | [] => []
  | op :: ops =>
    let t := step limit op es caller
    called limit op es caller :: calls limit t.entries t.caller ops

end Sequence

end RecencyCache
