import RecencyCache.Proofs.Cache.Arena
import RecencyCache.Proofs.Cache.Room

/-!
# Every way to remove an entry leaves the same

An entry leaves by its key, by a lookup whose predicate has it dropped, by a sweep whose predicate matches it alone, or
to make room for a new one.  Taking it out by its key goes from the index to the list, by the key that was asked for;
the others go from the list to the index, by the key that is stored.  All leave the same list and the same index,
`Cache.without` (`Removal.lacks`); they differ in what they count and log.
-/

namespace RecencyCache

open Sequence (Turn Survey survey survey_of_error survey_of_ok locked)
open SlotList (firstSlot)

variable {κ ν ρ ω ε α β : Type}

private theorem SlotList.fst_remove (l : SlotList α) (s : Nat) : (l.remove s).1 = l.get? s := by
  unfold SlotList.remove SlotList.get?
  cases l.node? s <;> rfl

/-- Where one answer only is that a value matches, one is counted. -/
private theorem count_eq_one {answers : List Bool} {n : Nat} (h : ∀ i, answers[i]? = some true ↔ i = n) :
    answers.count true = 1 := by
  induction answers generalizing n with
  | nil => simpa using (h n).2 rfl
  | cons matched answers ih =>
    have hrest (i : Nat) : answers[i]? = some true ↔ i + 1 = n := by simpa using h (i + 1)
    cases n with
    | zero =>
      have hfirst : matched = true := by simpa using h 0
      have hnone : answers.count true = 0 := by
        rw [List.count_eq_zero]
        intro hmem
        obtain ⟨i, hi⟩ := List.mem_iff_getElem?.1 hmem
        have := (hrest i).1 hi
        omega
      rw [hfirst, List.count_cons_self, hnone]
    | succ n =>
      have hfirst : matched = false := by simpa using h 0
      have hlast : answers.count true = 1 := ih fun i => (hrest i).trans (Nat.succ_inj)
      rw [hfirst, List.count_cons_of_ne (by decide), hlast]

variable [BEq κ] [Hashable κ]

private theorem World.Advances.hold {w w' : World κ ν ω} {counted : List Metrics.Happening} {logged : List Event}
    (h : w.Advances w' counted logged) : w.hold.Advances w'.hold counted logged :=
  ⟨h.log, h.counts, h.config, rfl⟩

variable [EquivBEq κ] [LawfulHashable κ]

/-- Equal keys are erased alike. -/
private theorem erase_congr (index : Std.ExtHashMap κ α) {k k' : κ} (h : (k == k') = true) :
    index.erase k = index.erase k' := by
  refine Std.ExtHashMap.ext_getKey_getElem? (fun a ha ha' => ?_) fun a => ?_
  · rw [Std.ExtHashMap.getKey_erase, Std.ExtHashMap.getKey_erase]
  · rw [Std.ExtHashMap.getElem?_erase, Std.ExtHashMap.getElem?_erase, BEq.congr_left h]

namespace Cache

open Effect

/-- The cache without the entry of a key, which is in slot `s`. -/
def without (c : Cache κ ν) (s : Nat) (k : κ) : Cache κ ν :=
  { c with order := (c.order.remove s).2, index := c.index.erase k }

variable {w : World κ ν ω} {c : Cache κ ν} {k key : κ} {s : Nat} {value : ν} {es L R : List (Nat × κ × ν)}

/-! ### Taking an entry out -/

private theorem takeOut_eq (hf : c.find? k = some (s, key, value)) :
    c.takeOut k = (some (key, value), c.without s k) := by
  have hindex : c.index[k]? = some s := by
    unfold find? at hf
    obtain ⟨s', hs', hs⟩ := Option.bind_eq_some_iff.1 hf
    obtain ⟨e, -, heq⟩ := Option.map_eq_some_iff.1 hs
    cases heq
    exact hs'
  have hremove : (c.order.remove s).1 = some (key, value) := by rw [SlotList.fst_remove, get?_of_find? hf]
  unfold takeOut without
  rw [hindex]
  dsimp only
  rw [hremove]

/-- The key by which the index lets go of an entry is the stored one, which is as good as any that is equal to it. -/
private theorem unlink_eq (h : c.Coherent) (hf : c.find? k = some (s, key, value)) :
    c.unlink s = (some (key, value), c.without s k) := by
  have hremove : (c.order.remove s).1 = some (key, value) := by rw [SlotList.fst_remove, get?_of_find? hf]
  unfold unlink without
  rcases hr : c.order.remove s with ⟨found, order⟩
  rw [hr] at hremove
  cases hremove
  dsimp only
  rw [erase_congr c.index (h.beq_of_find? hf)]

private theorem Holds.without (h : c.Holds (L ++ (s, key, value) :: R)) (hk : (key == k) = true) :
    (c.without s k).Holds (L ++ R) := by
  have hf : c.find? k = some (s, key, value) := by rw [h.find?_eq, h.distinct.find?_of_beq hk]
  have hrest := (h.takeOut hk).2
  rw [takeOut_eq hf] at hrest
  exact hrest

/-- Without the entry of a key there is none, and the others are as they were. -/
private theorem find?_without (h : c.Holds (L ++ (s, key, value) :: R)) (hk : (key == k) = true) (k' : κ) :
    (c.without s k).find? k' = if key == k' then none else c.find? k' := by
  rw [(h.without hk).find?_eq, h.find?_eq, h.distinct.find?_append_cons]
  split
  · rename_i hk'
    exact h.distinct.find?_eq_none hk'
  · rfl

/-! ### The ways to remove an entry -/

/-- The entry of `k` has left, and nothing else of the entries has changed. -/
structure Lacks (c c' : Cache κ ν) (s : Nat) (k : κ) : Prop where
  order : c'.order = (c.without s k).order
  index : c'.index = (c.without s k).index

namespace Lacks

private theorem count {what : Metrics.Happening} {f : Unit → Effect κ ν ω ε α} (h : c.Lacks w.cache s k)
    (hf : ∀ w', c.Lacks w'.cache s k → c.Lacks ((f ()).leaves w').cache s k) :
    c.Lacks (leaves (count what >>= f) w).cache s k := by
  rcases count_cases (ε := ε) what w with ⟨m, hm, -⟩ | ⟨m, hm, -⟩
  · rw [leaves_bind_of_ok hm]
    exact hf _ ⟨h.order, h.index⟩
  · rw [leaves_bind_of_error hm]
    exact ⟨h.order, h.index⟩

private theorem exclusively {x : Effect κ ν ω ε α} (h : w.hold.cache.Lacks (x.leaves w.hold).cache s k) :
    w.cache.Lacks ((exclusively x).leaves w).cache s k := by
  rw [cache_exclusively]
  exact ⟨h.order, h.index⟩

/-- Once its entry has been unlinked, a key has none. -/
private theorem unlink (h : w.cache.Coherent) (hf : w.cache.find? k = some (s, key, value))
    {f : Option (κ × ν) → Effect κ ν ω ε α}
    (hrest : ∀ w', w'.caller = w.caller → w'.cache = w.cache.without s k →
      w.cache.Lacks ((f (some (key, value))).leaves w').cache s k) :
    w.cache.Lacks (leaves (changeGet (·.unlink s) >>= f) w).cache s k := by
  have hunlinked : (changeGet (·.unlink s) : Effect κ ν ω ε _) w =
      .ok (some (key, value)) { w with cache := w.cache.without s k } := by
    show EStateM.Result.ok (w.cache.unlink s).1 { w with cache := (w.cache.unlink s).2 } = _
    rw [unlink_eq h hf]
  rw [leaves_bind_of_ok hunlinked]
  exact hrest _ rfl rfl

end Lacks

private theorem remove_lacks (hf : w.cache.find? k = some (s, key, value)) :
    w.cache.Lacks ((remove k : Effect κ ν ω ε _).leaves w).cache s k := by
  have htaken : (changeGet (·.takeOut k) : Effect κ ν ω ε _) w.hold =
      .ok (some (key, value)) { w.hold with cache := w.hold.cache.without s k } := by
    have htake : w.hold.cache.takeOut k = (some (key, value), w.hold.cache.without s k) := takeOut_eq hf
    show EStateM.Result.ok (w.hold.cache.takeOut k).1 { w.hold with cache := (w.hold.cache.takeOut k).2 } = _
    rw [htake]
  unfold remove
  refine Lacks.exclusively ?_
  rw [leaves_bind_of_ok htaken]
  exact Lacks.count ⟨rfl, rfl⟩ fun w' hw' => hw'

/-- A lookup that drops its entry, whatever is left to do afterwards. -/
private theorem lookup_lacks (h : w.cache.Coherent) (hd : w.cache.held = true)
    (hf : w.cache.find? k = some (s, key, value)) {update : Update ν ω ε} {evictIf : ν → Callback ω ε Bool} {caller : ω}
    (hdrop : evictIf value locked w.caller = .ok true caller) {g : Option Nat → Effect κ ν ω ε α} {a : α}
    (hg : g none = pure a) : w.cache.Lacks (leaves (lookup k update evictIf >>= g) w).cache s k := by
  unfold lookup
  rw [bind_assoc, leaves_bind_ask, hf]
  dsimp only
  rw [bind_assoc, leaves_bind_of_ok (call_of_ok hd hdrop), if_pos rfl]
  simp only [bind_assoc, pure_bind]
  refine Lacks.unlink (w := { w with caller }) h hf fun w' _ hw' => ?_
  have hw : w.cache.Lacks w'.cache s k := by rw [hw']; exact ⟨rfl, rfl⟩
  refine Lacks.count hw fun w' hw => Lacks.count hw fun w' hw => ?_
  rw [hg]
  exact ⟨hw.order, hw.index⟩

private theorem Coherent.hold (h : w.cache.Coherent) : w.hold.cache.Coherent :=
  ⟨h.wellFormed, h.live, h.indexed, h.apart, h.size, h.le⟩

private theorem tryGetOrEvict_lacks (h : w.cache.Coherent) (hf : w.cache.find? k = some (s, key, value))
    {update : Update ν ω ε}
    {evictIf : ν → Callback ω ε Bool} {caller : ω} (hdrop : evictIf value locked w.caller = .ok true caller) :
    w.cache.Lacks ((tryGetOrEvict k update evictIf).leaves w).cache s k := by
  unfold tryGetOrEvict
  exact Lacks.exclusively (lookup_lacks h.hold rfl hf hdrop rfl)

private theorem tryExistsOrEvict_lacks (h : w.cache.Coherent) (hf : w.cache.find? k = some (s, key, value))
    {update : Update ν ω ε} {evictIf : ν → Callback ω ε Bool} {caller : ω}
    (hdrop : evictIf value locked w.caller = .ok true caller) :
    w.cache.Lacks ((tryExistsOrEvict k update evictIf).leaves w).cache s k := by
  unfold tryExistsOrEvict
  exact Lacks.exclusively (lookup_lacks h.hold rfl hf hdrop rfl)

private theorem evictOldest_lacks (h : w.cache.Coherent) (hf : w.cache.find? k = some (s, key, value))
    (hback : w.cache.order.back = some s) : w.cache.Lacks ((evictOldest : Effect κ ν ω ε _).leaves w).cache s k := by
  unfold evictOldest
  rw [leaves_bind_ask, hback]
  refine Lacks.unlink h hf fun w' _ hw' => ?_
  have hw : w.cache.Lacks w'.cache s k := by rw [hw']; exact ⟨rfl, rfl⟩
  exact Lacks.count hw fun w' hw => ⟨hw.order, hw.index⟩

/-! ### Sweeps that drop one entry -/

/-- A predicate that matches none of the values that it is offered leaves the cache as it is. -/
private theorem sweepFrom_idle {matches? : ν → Callback ω ε Bool} (h : w.cache.Holds (L ++ R))
    (hd : w.cache.held = true)
    {fuel : Nat} (hf : R.length ≤ fuel) (hnone : true ∉ (survey matches? (R.map (·.2.2)) w.caller).answers)
    (removed : Nat) : ((sweepFrom matches? fuel (firstSlot R) removed).leaves w).cache = w.cache := by
  induction R generalizing w L fuel with
  | nil => cases fuel <;> rfl
  | cons e R ih =>
    obtain ⟨t, key', value'⟩ := e
    obtain ⟨fuel, rfl⟩ : ∃ n, fuel = n + 1 := ⟨fuel - 1, by simp at hf; omega⟩
    rw [SlotList.firstSlot_cons, sweepFrom, leaves_bind_ask, leaves_bind_ask, h.layout.next?_eq, h.get?_eq]
    dsimp only
    cases hrun : matches? value' locked w.caller with
    | error stop caller => rw [leaves_bind_of_error (call_of_error hd hrun)]
    | ok matched caller =>
      rw [List.map_cons, survey_of_ok hrun, Survey.answers_after, List.mem_cons, not_or] at hnone
      have hmatched : matched = false := by simpa using hnone.1
      subst hmatched
      rw [leaves_bind_of_ok (call_of_ok hd hrun), if_neg Bool.false_ne_true]
      rw [← List.singleton_append, ← List.append_assoc] at h
      exact ih (w := { w with caller }) h hd (Nat.le_of_succ_le_succ hf) hnone.2

/-- A predicate that matches one value only has the entry of this value dropped. -/
private theorem sweepFrom_lacks {matches? : ν → Callback ω ε Bool} {A : List (Nat × κ × ν)}
    (h : w.cache.Holds (A ++ (L ++ (s, key, value) :: R))) (hd : w.cache.held = true) (hk : (key == k) = true)
    {fuel : Nat} (hf : (L ++ (s, key, value) :: R).length ≤ fuel)
    (hone : ∀ i, (survey matches? ((L ++ (s, key, value) :: R).map (·.2.2)) w.caller).answers[i]? = some true ↔
      i = L.length) (removed : Nat) :
    w.cache.Lacks ((sweepFrom matches? fuel (firstSlot (L ++ (s, key, value) :: R)) removed).leaves w).cache s k := by
  induction L generalizing w A fuel with
  | nil =>
    obtain ⟨fuel, rfl⟩ : ∃ n, fuel = n + 1 := ⟨fuel - 1, by simp at hf; omega⟩
    rw [List.nil_append] at h hf hone ⊢
    rw [SlotList.firstSlot_cons, sweepFrom, leaves_bind_ask, leaves_bind_ask, h.layout.next?_eq, h.get?_eq]
    dsimp only
    rw [List.map_cons] at hone
    cases hrun : matches? value locked w.caller with
    | error stop caller =>
      rw [survey_of_error hrun] at hone
      simpa using (hone 0).2 rfl
    | ok matched caller =>
      rw [survey_of_ok hrun, Survey.answers_after] at hone
      have hmatched : matched = true := by simpa using (hone 0).2 rfl
      subst hmatched
      have hnone : true ∉ (survey matches? (R.map (·.2.2)) caller).answers := by
        intro hmem
        obtain ⟨i, hi⟩ := List.mem_iff_getElem?.1 hmem
        have := (hone (i + 1)).1 (by simpa using hi)
        simp at this
      have hfind : w.cache.find? k = some (s, key, value) := by rw [h.find?_eq, h.distinct.find?_of_beq hk]
      rw [leaves_bind_of_ok (call_of_ok hd hrun), if_pos rfl]
      refine Lacks.unlink (w := { w with caller }) h.coherent hfind fun w' hcaller hw' => ?_
      have hrest : w'.cache.Holds (A ++ R) := by
        rw [hw']
        exact h.without hk
      have hheld : w'.cache.held = true := by
        rw [hw']
        exact hd
      rcases count_cases (ε := ε) .predicateEviction w' with ⟨m, hm, -⟩ | ⟨m, hm, -⟩
      · rw [leaves_bind_of_ok hm]
        have hidle := sweepFrom_idle (w := { w' with cache := { w'.cache with metrics := m } })
          (hrest.congr rfl rfl rfl) hheld (Nat.le_of_succ_le_succ hf) (by rw [hcaller]; exact hnone) (removed + 1)
        rw [hidle, hw']
        exact ⟨rfl, rfl⟩
      · rw [leaves_bind_of_error hm, hw']
        exact ⟨rfl, rfl⟩
  | cons e L ih =>
    obtain ⟨t, key', value'⟩ := e
    obtain ⟨fuel, rfl⟩ : ∃ n, fuel = n + 1 := ⟨fuel - 1, by simp at hf; omega⟩
    rw [List.cons_append] at h hf hone ⊢
    rw [SlotList.firstSlot_cons, sweepFrom, leaves_bind_ask, leaves_bind_ask, h.layout.next?_eq, h.get?_eq]
    dsimp only
    rw [List.map_cons] at hone
    cases hrun : matches? value' locked w.caller with
    | error stop caller =>
      rw [survey_of_error hrun] at hone
      simpa using (hone _).2 rfl
    | ok matched caller =>
      rw [survey_of_ok hrun, Survey.answers_after] at hone
      -- the entry in front is not the one that matches
      have hmatched : matched = false := by simpa using (hone 0).1
      subst hmatched
      rw [leaves_bind_of_ok (call_of_ok hd hrun), if_neg Bool.false_ne_true]
      rw [← List.singleton_append, ← List.append_assoc] at h
      exact ih (w := { w with caller }) h hd (Nat.le_of_succ_le_succ hf) fun i => by simpa using hone (i + 1)

/-- A predicate that is surveyed matches the value of the entry of a key, and no other. -/
def MatchesOnly (c : Cache κ ν) (k : κ) (answers : List Bool) : Prop :=
  ∀ i : Nat, answers[i]? = some true ↔ ∃ e : κ × ν, c.toList[i]? = some e ∧ (e.1 == k) = true

private theorem Holds.matchesOnly_iff (h : c.Holds (L ++ (s, key, value) :: R)) (hk : (key == k) = true)
    {answers : List Bool} :
    c.MatchesOnly k answers ↔ ∀ i : Nat, answers[i]? = some true ↔ i = L.length := by
  have hdistinct : Distinct ((L.map (·.2) ++ (key, value) :: R.map (·.2)).map (·.1)) := by
    simpa [Function.comp_def] using h.distinct
  have hlist : c.toList = L.map (·.2) ++ (key, value) :: R.map (·.2) := by
    rw [h.toList_eq, List.map_append, List.map_cons]
  have hplace (i : Nat) : (∃ e : κ × ν, c.toList[i]? = some e ∧ (e.1 == k) = true) ↔ i = L.length := by
    rw [hlist, hdistinct.getElem?_beq_iff hk, List.length_map]
  unfold MatchesOnly
  simp only [hplace]

private theorem tryRemoveIf_lacks (h : w.cache.Coherent) (hf : w.cache.find? k = some (s, key, value))
    {matches? : ν → Callback ω ε Bool}
    (honly : w.cache.MatchesOnly k (survey matches? (w.cache.toList.map (·.2)) w.caller).answers) :
    w.cache.Lacks ((tryRemoveIf matches?).leaves w).cache s k := by
  obtain ⟨es, hes⟩ := h.exists_holds
  rw [hes.find?_eq] at hf
  obtain ⟨hk, L, R, rfl⟩ := exists_split_of_find? hf
  have hv : w.hold.cache.Holds ([] ++ (L ++ (s, key, value) :: R)) := hes.congr rfl rfl rfl
  have hfuel : (L ++ (s, key, value) :: R).length ≤ w.hold.cache.order.slots.size := hv.layout.length_le_size
  rw [hes.matchesOnly_iff hk, hes.toList_eq, List.map_map] at honly
  have hsweep := sweepFrom_lacks (w := w.hold) hv rfl hk hfuel honly 0
  unfold tryRemoveIf
  refine Lacks.exclusively ?_
  rw [leaves_bind_ask, leaves_bind_ask, hv.layout.front]
  have hsay (removed : Nat) (w' : World κ ν ω) : (leaves (do
      if 0 < removed then
        say fun c => .swept removed c.index.size
      return removed : Effect κ ν ω ε Nat) w').cache = w'.cache := by
    by_cases hpos : 0 < removed
    · rw [if_pos hpos]
      rfl
    · rw [if_neg hpos]
      rfl
  rw [List.nil_append]
  cases hx : sweepFrom matches? w.hold.cache.order.slots.size (firstSlot (L ++ (s, key, value) :: R)) 0 w.hold with
  | ok removed w' =>
    rw [leaves_of_ok hx] at hsweep
    rw [leaves_bind_of_ok hx, hsay]
    exact hsweep
  | error e w' =>
    rw [leaves_of_error hx] at hsweep
    rw [leaves_bind_of_error hx]
    exact hsweep

/-! ### What the ways count, log and answer -/

/-- The answer of a lookup that has dropped its entry. -/
def Op.dropped : Op κ ν ρ ω ε → Reply κ ν ρ
  | .existsOrEvict _ _ _ | .tryExistsOrEvict _ _ _ => .present false
  | .getWith _ _ => .viewed none
  | _ => .found none

/-- A lookup whose predicate has the entry dropped is one of two. -/
private theorem Op.apply_of_drops {op : Op κ ν ρ ω ε} {update : Update ν ω ε} {evictIf : ν → Callback ω ε Bool}
    {caller : ω} (hop : op.lookup? = some (k, update, evictIf))
    (hdrop : evictIf value locked w.caller = .ok true caller) :
    (op.apply w = (Op.tryGetOrEvict k update evictIf : Op κ ν ρ ω ε).apply w ∧ op.dropped = .found none) ∨
      (op.apply w = (Op.tryExistsOrEvict k update evictIf : Op κ ν ρ ω ε).apply w ∧ op.dropped = .present false) := by
  cases op with
  | get | getWith | getAndUpdate =>
    -- its predicate keeps every entry
    cases hop
    cases hdrop
  | getOrEvict k update evictIf =>
    cases hop
    refine .inl ⟨?_, rfl⟩
    have hperform : (Op.getOrEvict k update evictIf : Op κ ν ρ ω ε).perform = _ :=
      congrArg (Reply.found <$> ·) (getOrEvict_eq k update evictIf)
    unfold Op.apply
    rw [hperform]
    rfl
  | existsOrEvict k update evictIf =>
    cases hop
    refine .inr ⟨?_, rfl⟩
    have hperform : (Op.existsOrEvict k update evictIf : Op κ ν ρ ω ε).perform = _ :=
      congrArg (Reply.present <$> ·) (existsOrEvict_eq k update evictIf)
    unfold Op.apply
    rw [hperform]
    rfl
  | tryGetOrEvict k update evictIf =>
    cases hop
    exact .inl ⟨rfl, rfl⟩
  | tryExistsOrEvict k update evictIf =>
    cases hop
    exact .inr ⟨rfl, rfl⟩
  | _ => cases hop

/-- The ways in which the entry of a key, in slot `s`, is removed, or goes in an insertion before the new entry is
linked in: the end of the call and the world that is left; and how the call should end, what should be counted, and
what should be logged. -/
inductive Removal (w : World κ ν ω) (k : κ) (s : Nat) (value : ν) :
    Outcome κ ν ρ ε × World κ ν ω → Outcome κ ν ρ ε → List Metrics.Happening → List Event → Prop
  | byKey : Removal w k s value ((Op.remove k).apply w) (.ok (.found (some value))) [.removal] []
  | onLookup {op : Op κ ν ρ ω ε} {update evictIf caller} : op.lookup? = some (k, update, evictIf) →
    evictIf value locked w.caller = .ok true caller →
    Removal w k s value (op.apply w) (.ok op.dropped) [.predicateEviction, .miss]
      [.evictedOnLookup (w.cache.length - 1)]
  | bySweep {op : Op κ ν ρ ω ε} {matches? asked} : op.predicate? = some matches? →
    survey matches? (w.cache.toList.map (·.2)) w.caller = asked → w.cache.MatchesOnly k asked.answers →
    Removal w k s value (op.apply w) (asked.stop.elim (.ok (.removed 1)) fun stop => .error stop.toAbort)
      [.predicateEviction] (if asked.stop.isNone then [.swept 1 (w.cache.length - 1)] else [])
  | inInsertion {o : Outcome κ ν ρ ε} : w.cache.isFull = true → w.cache.order.back = some s →
    Removal w k s value (o, (makeRoom : Effect κ ν ω ε _).leaves w.hold) o [.eviction]
      [.evictedOldest (w.cache.length - 1)]

variable {x : Outcome κ ν ρ ε × World κ ν ω} {o : Outcome κ ν ρ ε} {counted : List Metrics.Happening}
  {logged : List Event}

private theorem leaves_makeRoom_of_full (hfull : w.cache.isFull = true) :
    (makeRoom : Effect κ ν ω ε _).leaves w = (evictOldest : Effect κ ν ω ε _).leaves w := by
  unfold makeRoom
  rw [leaves_bind_ask, hfull]
  rfl

/-- However an entry is removed, what is left is the same. -/
theorem Removal.lacks (hr : Removal w k s value x o counted logged) (h : w.cache.Ready)
    (hf : w.cache.find? k = some (s, key, value)) : w.cache.Lacks x.2.cache s k := by
  cases hr with
  | byKey =>
    have hperform : (Op.remove k : Op κ ν ρ ω ε).perform = Reply.found <$> Cache.remove k := rfl
    rw [Op.apply_snd, hperform, leaves_map]
    exact remove_lacks hf
  | @onLookup op update evictIf caller hop hdrop =>
    rcases Op.apply_of_drops hop hdrop with ⟨happly, -⟩ | ⟨happly, -⟩
    · have hperform : (Op.tryGetOrEvict k update evictIf : Op κ ν ρ ω ε).perform =
          Reply.found <$> Cache.tryGetOrEvict k update evictIf := rfl
      rw [happly, Op.apply_snd, hperform, leaves_map]
      exact tryGetOrEvict_lacks h.coherent hf hdrop
    · have hperform : (Op.tryExistsOrEvict k update evictIf : Op κ ν ρ ω ε).perform =
          Reply.present <$> Cache.tryExistsOrEvict k update evictIf := rfl
      rw [happly, Op.apply_snd, hperform, leaves_map]
      exact tryExistsOrEvict_lacks h.coherent hf hdrop
  | bySweep hop hs honly =>
    subst hs
    rw [Op.apply_snd, Op.perform_of_predicate? hop, leaves_map]
    exact tryRemoveIf_lacks h.coherent hf honly
  | inInsertion hfull hback =>
    have hlacks := evictOldest_lacks (ε := ε) (w := w.hold) h.coherent.hold hf hback
    rw [leaves_makeRoom_of_full (w := w.hold) hfull]
    exact ⟨hlacks.order, hlacks.index⟩

private theorem Lacks.length (hl : w.cache.Lacks c s k) (h : w.cache.Coherent)
    (hf : w.cache.find? k = some (s, key, value)) :
    c.length + 1 = w.cache.length := by
  obtain ⟨es, hes⟩ := h.exists_holds
  rw [hes.find?_eq] at hf
  obtain ⟨hk, L, R, rfl⟩ := exists_split_of_find? hf
  have hlength : c.length = (w.cache.without s k).length := congrArg (·.length) hl.order
  rw [hlength, (hes.without hk).length_eq, hes.length_eq]
  simp
  omega

/-- An entry that makes room is counted as evicted, if it can be counted. -/
private theorem makeRoom_advances (h : w.cache.Coherent) (hfull : w.cache.isFull = true)
    (hfits : w.cache.metrics.Fits .eviction) :
    w.Advances ((makeRoom : Effect κ ν ω ε _).leaves w) [.eviction] [.evictedOldest (w.cache.length - 1)] := by
  obtain ⟨es, hes⟩ := h.exists_holds
  have hle : w.cache.capacity ≤ es.length := by simpa [hes.isFull_eq] using hfull
  rw [leaves_makeRoom_of_full hfull]
  rcases List.eq_nil_or_concat es with rfl | ⟨es, ⟨s, key, value⟩, rfl⟩
  · exact absurd hle (Nat.not_le_of_lt w.cache.config.limit_pos)
  rw [List.concat_eq_append] at hes
  have hlength : w.cache.length - 1 = es.length := by simp [hes.length_eq]
  have hmeets := evictOldest_meets (ε := ε) hes
  rw [hlength]
  unfold leaves
  generalize (evictOldest : Effect κ ν ω ε _) w = y at hmeets
  cases hmeets with
  | ok _ _ _ hw _ _ => exact hw
  | error _ _ _ hw _ => exact hw
  | overflow _ hw =>
    obtain ⟨c, hc⟩ := hw.counts
    have hlt := (Metrics.fits_iff ..).1 hfits c
    have htally : Sequence.tally [.eviction] c = Metrics.Happening.eviction.counters.count c := by
      rw [Sequence.tally_cons]
      rfl
    dsimp only at hc
    omega

/-- A call that no counter stops ends, counts and logs as its turn does. -/
private theorem Op.apply_of_turn (h : w.cache.Ready) {op : Op κ ν ρ ω ε} {t : Turn κ ν ω ε (Reply κ ν ρ)}
    (hturn : op.turn w = t) (hover : (op.apply w).1 ≠ .error (.faulted .addOverflow)) :
    (op.apply w).1 = t.outcome ∧ w.hold.Advances (op.apply w).2.hold t.counted t.logged := by
  subst hturn
  have hc := Op.apply_carries h hover
  exact ⟨hc.outcome, hc.advances.hold⟩

private theorem Op.turn_remove (h : w.cache.Ready) (hf : w.cache.find? k = some (s, key, value)) :
    (Op.remove k : Op κ ν ρ ω ε).turn w =
      { outcome := .ok (.found (some value)), entries := w.cache.toList.eraseP (·.1 == k), caller := w.caller
        counted := [.removal] } := by
  have hturn : (Op.remove k : Op κ ν ρ ω ε).turn w = (Sequence.remove k w.cache.toList w.caller).map .found := rfl
  unfold Sequence.remove at hturn
  rw [find?_toList_of_some h hf] at hturn
  exact hturn

/-- The turn of a lookup that drops its entry. -/
private theorem lookup_of_drops (h : w.cache.Ready) (hf : w.cache.find? k = some (s, key, value))
    (update : Update ν ω ε)
    {evictIf : ν → Callback ω ε Bool} {caller : ω} (hdrop : evictIf value locked w.caller = .ok true caller) :
    Sequence.lookup k update evictIf w.cache.toList w.caller =
      { outcome := .ok none, entries := w.cache.toList.eraseP (·.1 == k), caller
        counted := [.predicateEviction, .miss], logged := [.evictedOnLookup (w.cache.length - 1)] } := by
  have hlist := find?_toList_of_some h hf
  have hrest : (w.cache.toList.eraseP (·.1 == k)).length = w.cache.length - 1 := by
    have := Sequence.length_eraseP_add_one hlist
    rw [h.coherent.agrees.length]
    omega
  unfold Sequence.lookup
  rw [hlist]
  dsimp only
  rw [hdrop]
  dsimp only
  rw [hrest]

/-- The turn of a sweep that matches the entry of a key only. -/
private theorem Op.turn_sweep (h : w.cache.Ready) (hf : w.cache.find? k = some (s, key, value))
    {matches? : ν → Callback ω ε Bool} {asked : Survey ω ε}
    (hs : survey matches? (w.cache.toList.map (·.2)) w.caller = asked) (honly : w.cache.MatchesOnly k asked.answers)
    (hlength : ((Op.tryRemoveIf matches? : Op κ ν ρ ω ε).apply w).2.cache.length + 1 = w.cache.length)
    (hover : ((Op.tryRemoveIf matches? : Op κ ν ρ ω ε).apply w).1 ≠ .error (.faulted .addOverflow)) :
    (Op.tryRemoveIf matches? : Op κ ν ρ ω ε).turn w =
      { outcome := asked.stop.elim (.ok (.removed 1)) fun stop => .error stop.toAbort
        entries := Sequence.spared asked.answers w.cache.toList, caller := asked.caller
        counted := [.predicateEviction]
        logged := if asked.stop.isNone then [.swept 1 (w.cache.length - 1)] else [] } := by
  have hturn : (Op.tryRemoveIf matches? : Op κ ν ρ ω ε).turn w =
      (Sequence.removeIf matches? w.cache.toList w.caller).map .removed := rfl
  have hone : asked.matched = 1 := by
    obtain ⟨es, hes⟩ := h.coherent.exists_holds
    rw [hes.find?_eq] at hf
    obtain ⟨hk, L, R, rfl⟩ := exists_split_of_find? hf
    exact count_eq_one ((hes.matchesOnly_iff hk).1 honly)
  rw [Sequence.removeIf_turn matches? _ _ hs, hone] at hturn
  have hleft : (Sequence.spared asked.answers w.cache.toList).length = w.cache.length - 1 := by
    have hentries : ((Op.tryRemoveIf matches? : Op κ ν ρ ω ε).apply w).2.cache.toList =
        Sequence.spared asked.answers w.cache.toList := by
      rw [(Op.apply_carries h hover).entries, hturn]
      rfl
    rw [← hentries, ← (Op.apply_ready h _).coherent.agrees.length]
    omega
  rw [hturn, hleft]
  unfold Turn.map Survey.turn Survey.outcome
  rw [hone]
  cases asked.stop <;> rfl

/-- A removal ends, counts and logs as it should, unless a counter stops it. -/
private theorem Removal.carries (hr : Removal w k s value x o counted logged) (h : w.cache.Ready)
    (hf : w.cache.find? k = some (s, key, value)) (hfits : w.cache.metrics.Fits .eviction)
    (hover : ∀ op : Op κ ν ρ ω ε, (op.apply w).1 ≠ .error (.faulted .addOverflow)) :
    x.1 = o ∧ w.hold.Advances x.2.hold counted logged := by
  have hlength := (hr.lacks h hf).length h.coherent hf
  cases hr with
  | byKey => exact Op.apply_of_turn h (Op.turn_remove h hf) (hover _)
  | @onLookup op update evictIf caller hop hdrop =>
    have hlookup := lookup_of_drops h hf update hdrop
    rcases Op.apply_of_drops hop hdrop with ⟨happly, hdropped⟩ | ⟨happly, hdropped⟩
    · have hturn : (Op.tryGetOrEvict k update evictIf : Op κ ν ρ ω ε).turn w =
          (Sequence.lookup k update evictIf w.cache.toList w.caller).map .found := rfl
      rw [hlookup] at hturn
      rw [happly, hdropped]
      exact Op.apply_of_turn h hturn (hover _)
    · have hturn : (Op.tryExistsOrEvict k update evictIf : Op κ ν ρ ω ε).turn w =
          (Sequence.lookup k update evictIf w.cache.toList w.caller).map fun value => .present value.isSome := rfl
      rw [hlookup] at hturn
      rw [happly, hdropped]
      exact Op.apply_of_turn h hturn (hover _)
  | @bySweep op matches? asked hop hs honly =>
    have happly : op.apply w = (Op.tryRemoveIf matches? : Op κ ν ρ ω ε).apply w := Op.apply_of_predicate? hop w
    rw [happly] at hlength ⊢
    exact Op.apply_of_turn h (Op.turn_sweep h hf hs honly hlength (hover _)) (hover _)
  | inInsertion hfull hback =>
    exact ⟨rfl, (makeRoom_advances (ε := ε) (w := w.hold) h.coherent.hold hfull hfits).hold⟩

/-! ### A run -/

/-- Every way to remove an entry leaves the same.  After every run from a new cache, however its calls ended, an entry
that is removed by its key, or by any equal one, dropped by a lookup or by a sweep that matches it alone, or dropped
from a full cache to make room in an insertion, leaves the same list, with its links, slots and vacant slots, and the
same index.  There the key has no entry, what is found under other keys is as it was, and the order of the other
entries too.  An insertion links its entry in after that.  The ways differ in what they answer, count and log, unless a
counter stops them, and none does before there have been as many calls as a counter can count. -/
theorem Op.run_removals (config : Config) (caller : ω) (ops : List (Op κ ν ρ ω ε)) (k key : κ) (s : Nat) (value : ν)
    (hf : (Op.run (World.new config caller) ops).2.cache.find? k = some (s, key, value)) :
    let w := (Op.run (World.new config caller) ops).2
    let gone := w.cache.without s k
    (∀ k', gone.find? k' = if key == k' then none else w.cache.find? k') ∧
      (∃ L R, w.cache.toList = L ++ (key, value) :: R ∧ gone.toList = L ++ R) ∧
      gone.length + 1 = w.cache.length ∧
      (∀ (x : Outcome κ ν ρ ε × World κ ν ω) o counted logged, Removal w k s value x o counted logged →
        x.2.cache.order = gone.order ∧ x.2.cache.index = gone.index ∧
          (ops.length + 1 < UInt64.size → x.1 = o ∧ w.hold.Advances x.2.hold counted logged)) ∧
      ∀ k' value', (insertNew k' value' : Effect κ ν ω ε _) = do
        let evicted ← makeRoom
        change (·.link k' value')
        count .insertion
        return evicted := by
  intro w gone
  have hready : w.cache.Ready := (Op.run_ready (ready_new config caller) ops).1
  obtain ⟨es, hes⟩ := hready.coherent.exists_holds
  have hfind : es.find? (·.2.1 == k) = some (s, key, value) := by
    rw [← hes.find?_eq]
    exact hf
  obtain ⟨hk, L, R, rfl⟩ := exists_split_of_find? hfind
  refine ⟨find?_without hes hk, ⟨L.map (·.2), R.map (·.2), ?_, ?_⟩, ?_, fun x o counted logged hr => ?_, insertNew_eq⟩
  · rw [hes.toList_eq, List.map_append, List.map_cons]
  · rw [(hes.without hk).toList_eq, List.map_append]
  · exact Lacks.length ⟨rfl, rfl⟩ hready.coherent hf
  · have hlacks := hr.lacks hready hf
    refine ⟨hlacks.order, hlacks.index, fun hfew => ?_⟩
    exact hr.carries hready hf (Op.run_fits config caller hfew .eviction)
      (Op.apply_ne_overflow_of_few config caller hfew)

/-- In a full cache of two the older entry is removed by its key, and dropped by a lookup; both leave the same list and
the same index, and end in their own way. -/
theorem Op.run_removals_instance :
    let ops : List (Op Key Nat Unit Unit String) := [.put (.int 1) 10, .put (.int 2) 20]
    let w : World Key Nat Unit := (Op.run (World.new ⟨2, by decide⟩ ()) ops).2
    let dropping : Op Key Nat Unit Unit String := .tryExistsOrEvict (.int 1) .keep fun _ => pure true
    let removing : Op Key Nat Unit Unit String := .remove (.int 1)
    ∃ s, w.cache.find? (.int 1) = some (s, .int 1, 10) ∧
      (dropping.apply w).2.cache.order = (removing.apply w).2.cache.order ∧
      (dropping.apply w).2.cache.index = (removing.apply w).2.cache.index ∧
      (removing.apply w).1 = .ok (.found (some 10)) ∧ (dropping.apply w).1 = .ok (.present false) := by
  intro ops w dropping removing
  have hready : w.cache.Ready := (Op.run_ready (ready_new _ _) ops).1
  have hover : Op.NoOverflow (World.new ⟨2, by decide⟩ ()) ops := Op.noOverflow_of_few _ _ (by decide)
  have hlist : w.cache.toList = [(.int 2, 20), (.int 1, 10)] := ((Op.run_eq (ready_new _ _) hover).2 1 _ rfl).1
  obtain ⟨s, hs⟩ : ∃ s, w.cache.find? (.int 1) = some (s, .int 1, 10) := find?_of_toList hready (by rw [hlist]; rfl)
  obtain ⟨-, -, -, hways, -⟩ := Op.run_removals ⟨2, by decide⟩ () ops (.int 1) (.int 1) s 10 hs
  obtain ⟨horder, hindex, hremoved⟩ := hways _ _ _ _ .byKey
  obtain ⟨horder', hindex', hdropped⟩ := hways (dropping.apply w) _ _ _ (.onLookup rfl rfl)
  exact ⟨s, hs, horder'.trans horder.symm, hindex'.trans hindex.symm, (hremoved (by decide)).1,
    (hdropped (by decide)).1⟩

end Cache

end RecencyCache
