import RecencyCache.Metrics.Report

/-!
# Counting

Counting a happening adds to each of its counters, or one of them overflows (`record_cases`).  Counters are in order if
the hits do not outnumber the requests.  A hit counts the request first, so where there is no room for another request
nothing is counted, and where there is, there is room for another hit: what stops has changed nothing.  Therefore the
counters stay in order whatever happens to them (`Op.performAll_le`), and all that is asked of them has an answer
(`sound_of_le`).
-/

namespace RecencyCache

namespace Metrics

variable {m m' : Metrics} {what : Happening}

/-! ### What counting comes to -/

/-- Bumping counters in turn adds to each as often as it is named, or one of them overflows. -/
private theorem forM_bump (cs : List Counter) (m : Metrics) :
    (∃ m', (cs.forM bump) m = .ok () m' ∧ ∀ c, (m'.get c).toNat = (m.get c).toNat + cs.count c) ∨
      (∃ m', (cs.forM bump) m = .error .addOverflow m' ∧ ∃ c, UInt64.size ≤ (m.get c).toNat + cs.count c) := by
  induction cs generalizing m with
  | nil => exact Or.inl ⟨m, rfl, fun c => by simp⟩
  | cons d cs ih =>
    have hcons : ((d :: cs).forM bump) m = EStateM.bind (bump d) (fun _ => cs.forM bump) m := rfl
    rw [hcons]
    unfold EStateM.bind
    by_cases hd : (m.get d).toNat + 1 < UInt64.size
    · rw [bump_of_lt hd]
      have hget : ∀ c, ((m.set d (m.get d + 1)).get c).toNat + cs.count c = (m.get c).toNat + (d :: cs).count c := by
        intro c
        by_cases hc : d = c
        · subst hc
          rw [get_set, UInt64.toNat_add, UInt64.toNat_one, Nat.mod_eq_of_lt hd, List.count_cons_self]
          omega
        · rw [get_set_of_ne hc, List.count_cons_of_ne hc]
      rcases ih (m.set d (m.get d + 1)) with ⟨m', hm, hcount⟩ | ⟨m', hm, c, hc⟩
      · refine Or.inl ⟨m', hm, fun c => ?_⟩
        rw [hcount, hget]
      · -- a counter bumped later is too full, with what has been added to it by then
        refine Or.inr ⟨m', hm, c, ?_⟩
        rw [← hget]
        exact hc
    · rw [bump_of_le (by omega)]
      refine Or.inr ⟨m, rfl, d, ?_⟩
      rw [List.count_cons_self]
      omega

/-- Counting a happening adds to its counters, or one of them overflows. -/
theorem record_cases (what : Happening) (m : Metrics) :
    (∃ m', record what m = .ok () m' ∧ ∀ c, (m'.get c).toNat = (m.get c).toNat + what.counters.count c) ∨
      (∃ m', record what m = .error .addOverflow m' ∧
        ∃ c, UInt64.size ≤ (m.get c).toNat + what.counters.count c) :=
  forM_bump what.counters m

/-- All counters of a happening can be bumped. -/
def Fits (m : Metrics) (what : Happening) : Prop :=
  ∀ c ∈ what.counters, (m.get c).toNat + 1 < UInt64.size

instance (m : Metrics) (what : Happening) : Decidable (m.Fits what) := by
  unfold Fits
  infer_instance

/-- A happening bumps each of its counters once. -/
theorem fits_iff (m : Metrics) (what : Happening) :
    m.Fits what ↔ ∀ c, (m.get c).toNat + what.counters.count c < UInt64.size := by
  have hone : ∀ c ∈ what.counters, what.counters.count c = 1 := by cases what <;> decide
  constructor
  · intro h c
    by_cases hc : c ∈ what.counters
    · rw [hone c hc]
      exact h c hc
    · rw [List.count_eq_zero.2 hc]
      exact UInt64.toNat_lt _
  · intro h c hc
    rw [← hone c hc]
    exact h c

private theorem record_of_fits (h : m.Fits what) :
    ∃ m', record what m = .ok () m' ∧ ∀ c, (m'.get c).toNat = (m.get c).toNat + what.counters.count c := by
  rcases record_cases what m with hok | ⟨m', -, c, hc⟩
  · exact hok
  · have hlt := (fits_iff ..).1 h c
    omega

/-! ### Counters in order -/

private theorem Happening.counters_ne_nil (what : Happening) : what.counters ≠ [] := by cases what <;> decide

/-- The counter of a happening that is bumped first. -/
def Happening.first (what : Happening) : Counter :=
  what.counters.head what.counters_ne_nil

/-- A counter at the last word. -/
def Full (m : Metrics) (c : Counter) : Prop :=
  (m.get c).toNat + 1 = UInt64.size

instance (m : Metrics) (c : Counter) : Decidable (m.Full c) := by
  unfold Full
  infer_instance

/-- Where the counter that is bumped first is full, nothing is counted. -/
private theorem record_of_full (h : m.Full what.first) : record what m = .error .addOverflow m := by
  have hfirst : bump what.first m = .error .addOverflow m := bump_of_le (Nat.le_of_eq h.symm)
  have hrecord : ∃ rest : List Counter, record what = EStateM.bind (bump what.first) fun _ => rest.forM bump := by
    cases what <;> exact ⟨_, rfl⟩
  obtain ⟨rest, hrecord⟩ := hrecord
  rw [hrecord, EStateM.bind, hfirst]

/-- Where there is room for another request there is room for another hit. -/
private theorem fits_of_not_full (hm : m.hits ≤ m.requests) (h : ¬ m.Full what.first) : m.Fits what := by
  have hlt : (m.get what.first).toNat < UInt64.size := UInt64.toNat_lt _
  have hfirst : (m.get what.first).toNat + 1 < UInt64.size := Nat.lt_of_le_of_ne hlt h
  intro c hc
  cases what with
  | hit =>
    rcases List.mem_cons.1 hc with rfl | hc
    · exact hfirst
    · cases List.mem_singleton.1 hc
      exact Nat.lt_of_le_of_lt (Nat.succ_le_succ (UInt64.le_iff_toNat_le.1 hm)) hfirst
  | _ =>
    cases List.mem_singleton.1 hc
    exact hfirst

/-! ### Sessions -/

/-- The counters that an operation leaves behind, also where it stops early. -/
def Op.left (m : Metrics) (op : Op) : Metrics :=
  match op.perform m with
  | .ok _ m' => m'
  | .error _ m' => m'

/-- The counters that operations in turn leave behind; after one that stops early, the next goes on from there. -/
def Op.performAll (m : Metrics) (ops : List Op) : Metrics :=
  ops.foldl Op.left m

theorem Op.left_record_of_ok (h : Metrics.record what m = .ok () m') : (Op.record what).left m = m' := by
  have hperform : (Op.record what).perform m = .ok () m' := h
  unfold Op.left
  rw [hperform]

theorem Op.left_record_of_error {fault : Fault} (h : Metrics.record what m = .error fault m') :
    (Op.record what).left m = m' := by
  have hperform : (Op.record what).perform m = .error fault m' := h
  unfold Op.left
  rw [hperform]

private theorem Op.left_le (hm : m.hits ≤ m.requests) (op : Op) : (op.left m).hits ≤ (op.left m).requests := by
  cases op with
  | record what =>
    by_cases hfull : m.Full what.first
    · rw [Op.left_record_of_error (record_of_full hfull)]
      exact hm
    · obtain ⟨m', hrecord, hcounts⟩ := record_of_fits (fits_of_not_full hm hfull)
      rw [Op.left_record_of_ok hrecord]
      have hhits : m'.hits.toNat = m.hits.toNat + what.counters.count .hits := hcounts .hits
      have hrequests : m'.requests.toNat = m.requests.toNat + what.counters.count .requests := hcounts .requests
      have hboth : what.counters.count .hits ≤ what.counters.count .requests := by cases what <;> decide
      have hle := UInt64.le_iff_toNat_le.1 hm
      exact UInt64.le_iff_toNat_le.2 (by omega)
  | reset | resetCore => exact UInt64.le_refl _

theorem Op.performAll_le (hm : m.hits ≤ m.requests) (ops : List Op) :
    (performAll m ops).hits ≤ (performAll m ops).requests := by
  induction ops generalizing m with
  | nil => exact hm
  | cons op ops ih => exact ih (Op.left_le hm op)

/-! ### Reports -/

private theorem getElem?_ofList {figures : List (String × Float)} {name : String} {x : Float}
    (hnames : (figures.map (·.1)).Nodup) (h : (name, x) ∈ figures) :
    (Std.TreeMap.ofList figures : Report)[name]? = some x := by
  refine Std.TreeMap.getElem?_ofList_of_mem Std.ReflCmp.compare_self ?_ h
  rw [List.Nodup, List.pairwise_map] at hnames
  exact hnames.imp fun hne heq => hne (Std.LawfulEqCmp.eq_of_compare heq)

private theorem getElem?_insert_of_ne {r : Report} {name other : String} (h : other ≠ name) (x : Float) :
    (r.insert other x)[name]? = r[name]? := by
  rw [Std.TreeMap.getElem?_insert, if_neg fun heq => h (Std.LawfulEqCmp.eq_of_compare heq)]

/-- There is a report, and it has the misses and both rates as they are told to those who ask for them alone. -/
def Reports (m : Metrics) (made : Except Fault Report) : Prop :=
  ∃ report misses share, made = .ok report ∧ m.misses = .ok misses ∧ m.missRate = .ok share ∧
    report["cache_misses"]? = some misses.toFloat ∧ report["hit_rate"]? = some m.hitRate ∧
    report["miss_rate"]? = some share

private theorem reports_coreReport {misses : UInt64} {share : Float} (hmisses : m.misses = .ok misses)
    (hshare : m.missRate = .ok share) : m.Reports m.coreReport := by
  let figures : List (String × Float) := [
    ("cache_hits", m.hits.toFloat),
    ("cache_misses", misses.toFloat),
    ("evictions", m.evictions.toFloat),
    ("insertions", m.insertions.toFloat),
    ("requests", m.requests.toFloat),
    ("updates", m.updates.toFloat),
    ("hit_rate", m.hitRate),
    ("miss_rate", share)]
  let rates : List (String × Float) :=
    if 0 < m.requests then [("eviction_rate", rate m.evictions m.requests)] else []
  have hcore : m.coreReport = .ok (.ofList (figures ++ rates)) := by
    unfold coreReport
    rw [hmisses, hshare]
    rfl
  have hnames : ((figures ++ rates).map (·.1)).Nodup := by
    have hall : (figures.map (·.1) ++ ["eviction_rate"]).Nodup := by simp [figures]
    by_cases h : 0 < m.requests
    · simp only [rates, if_pos h, List.map_append]
      exact hall
    · simp only [rates, if_neg h, List.append_nil]
      exact hall.sublist (List.sublist_append_left ..)
  refine ⟨_, misses, share, hcore, hmisses, hshare, ?_, ?_, ?_⟩ <;>
    exact getElem?_ofList hnames (by simp [figures])

private theorem Reports.report (h : m.Reports m.coreReport) : m.Reports m.report := by
  obtain ⟨core, misses, share, hcore, hmisses, hshare, hnamed⟩ := h
  refine ⟨(core.insert "predicate_evictions" m.predicateEvictions.toFloat).insert "removals" m.removals.toFloat,
    misses, share, ?_, hmisses, hshare, ?_⟩
  · unfold Metrics.report
    rw [hcore]
    rfl
  · simp only [getElem?_insert_of_ne (by decide : "removals" ≠ "cache_misses"),
      getElem?_insert_of_ne (by decide : "removals" ≠ "hit_rate"),
      getElem?_insert_of_ne (by decide : "removals" ≠ "miss_rate"),
      getElem?_insert_of_ne (by decide : "predicate_evictions" ≠ "cache_misses"),
      getElem?_insert_of_ne (by decide : "predicate_evictions" ≠ "hit_rate"),
      getElem?_insert_of_ne (by decide : "predicate_evictions" ≠ "miss_rate")]
    exact hnamed

/-! ### Soundness -/

/-- Counters of which nothing that is asked stops, and that change as a whole or not at all: a happening is counted in
all of its counters, unless the one that is bumped first is full. -/
structure Sound (m : Metrics) : Prop where
  le : m.hits ≤ m.requests
  full : ∀ what : Happening, m.Full what.first → record what m = .error .addOverflow m
  counted : ∀ what : Happening, ¬ m.Full what.first →
    ∃ m', record what m = .ok () m' ∧ ∀ c, (m'.get c).toNat = (m.get c).toNat + what.counters.count c
  misses : m.misses = .ok (m.requests - m.hits)
  missRate : m.missRate = .ok (if 0 < m.requests then rate (m.requests - m.hits) m.requests else 0)
  coreReport : m.Reports m.coreReport
  report : m.Reports m.report

theorem sound_of_le (hm : m.hits ≤ m.requests) : m.Sound := by
  have hmisses : m.misses = .ok (m.requests - m.hits) := if_pos hm
  have hshare : m.missRate = .ok (if 0 < m.requests then rate (m.requests - m.hits) m.requests else 0) := by
    unfold missRate
    rw [hmisses]
    split <;> rfl
  have hcore := reports_coreReport hmisses hshare
  exact ⟨hm, fun _ => record_of_full, fun _ h => record_of_fits (fits_of_not_full hm h), hmisses, hshare, hcore,
    hcore.report⟩

end Metrics

end RecencyCache
