import RecencyCache.Proofs.Cache.Changes

/-!
# The counters of a cache are sound

Calls do nothing to the counters of a cache but count happenings with them, so whatever calls leave them at, a session
of happenings does (`Op.run_records`).  Counters in order stay in order in such a session, also where they overflow, and
so everything that is asked of the counters of a cache has an answer at any time (`Op.run_sound`).
-/

namespace RecencyCache

namespace Cache

variable {κ ν ρ ω ε : Type} [BEq κ] [Hashable κ] [EquivBEq κ] [LawfulHashable κ]

/-- Happenings have made of the counters of the first cache what they are in the second. -/
def Recorded (c c' : Cache κ ν) : Prop :=
  ∃ whats : List Metrics.Happening, c'.metrics = Metrics.Op.performAll c.metrics (whats.map .record)

omit [EquivBEq κ] [LawfulHashable κ] in
private theorem Rearranged.recorded {c c' : Cache κ ν} (h : c.Rearranged c') : c.Recorded c' :=
  ⟨[], h.metrics⟩

private theorem admits_recorded : Admits (Recorded : Cache κ ν → Cache κ ν → Prop) where
  refl _ := ⟨[], rfl⟩
  trans := by
    rintro _ _ _ ⟨whats, h⟩ ⟨whats', h'⟩
    refine ⟨whats ++ whats', ?_⟩
    rw [h', h, List.map_append]
    exact (List.foldl_append ..).symm
  hold _ _ := ⟨[], rfl⟩
  record _ what := ⟨[what], rfl⟩
  setValue c s value := (rearranged_setValue c s value).recorded
  touch c s := (rearranged_touch c s).recorded
  unlink c s := (rearranged_unlink c s).recorded
  takeOut c k := (rearranged_takeOut c k).recorded

theorem Op.run_records (w : World κ ν ω) (ops : List (Op κ ν ρ ω ε)) : w.cache.Recorded (Op.run w ops).2.cache :=
  Op.run_leads admits_recorded (fun c key value => (rearranged_link c key value).recorded)
    (fun c => (rearranged_drop c).recorded) w ops

/-- Counters are sound at any time.  Let the hits not outnumber the requests, however near to the last word the counters
stand.  In every session that counts happenings and sets all counters or those that any cache has back to zero, which
goes on from what an operation leaves that stops early, the hits do not outnumber the requests after any operation;
counting a happening stops just if the counter that it bumps first is at the last word, and then changes none of the
counters, and else it adds to each of the counters of the happening; and the misses, the share of them, and both
reports can be told.  All this goes for the counters of a cache after every run as well, whatever its calls have come
to, because they do nothing to them but count happenings. -/
theorem Op.run_sound (m : Metrics) (hm : m.hits ≤ m.requests) (session : List Metrics.Op) (config : Config) (caller : ω)
    (ops : List (Op κ ν ρ ω ε)) :
    let empty : Cache κ ν := { Cache.empty config with metrics := m }
    let start : World κ ν ω := { cache := empty, log := #[.created config], caller }
    (∀ n, (Metrics.Op.performAll m (session.take n)).Sound) ∧
      ∀ n, (Op.run start (ops.take n)).2.cache.metrics.Sound ∧
        empty.Recorded (Op.run start (ops.take n)).2.cache := by
  intro empty start
  have hsound (session : List Metrics.Op) : (Metrics.Op.performAll m session).Sound :=
    Metrics.sound_of_le (Metrics.Op.performAll_le hm session)
  refine ⟨fun n => hsound _, fun n => ?_⟩
  have hrecorded : empty.Recorded (Op.run start (ops.take n)).2.cache := Op.run_records start _
  refine ⟨?_, hrecorded⟩
  obtain ⟨whats, hwhats⟩ := hrecorded
  rw [hwhats]
  exact hsound _

/-- There is no room for another request, so a hit and a miss stop; of the counters of a cache there may still be asked
what they tell, after it has been looked into. -/
theorem Op.run_sound_instance :
    let m : Metrics := { Metrics.zero with requests := 18446744073709551615, hits := 18446744073709551614 }
    let session : List Metrics.Op := [.record .hit, .record .miss, .record .removal, .resetCore, .record .hit]
    let ops : List (Op Key Nat Unit Unit Empty) := [.put (.int 1) 10, .get (.int 1), .get (.int 2)]
    let empty : Cache Key Nat := { Cache.empty ⟨2, by decide⟩ with metrics := m }
    let start : World Key Nat Unit := { cache := empty, log := #[.created ⟨2, by decide⟩], caller := () }
    let c := (Op.run start ops).2.cache
    m.hits ≤ m.requests ∧ Metrics.Op.performAll m (session.take 2) = m ∧
      Metrics.Op.performAll m session = { Metrics.zero with requests := 1, hits := 1, removals := 1 } ∧
      Metrics.record .hit m = .error .addOverflow m ∧ m.misses = .ok 1 ∧ m.Reports m.report ∧
      c.metrics.misses = .ok (c.metrics.requests - c.metrics.hits) ∧ c.metrics.Reports c.metrics.report := by
  intro m session ops empty start c
  have hm : m.hits ≤ m.requests := by decide
  obtain ⟨hsession, hcache⟩ := Op.run_sound m hm session ⟨2, by decide⟩ () ops
  have hsound : m.Sound := hsession 0
  have hone : m.requests - m.hits = 1 := by decide
  have hmisses := hsound.misses
  rw [hone] at hmisses
  have hc : c.metrics.Sound := (hcache 3).1
  exact ⟨hm, by decide, by decide, hsound.full .hit (by decide), hmisses, hsound.report, hc.misses, hc.report⟩

end Cache

end RecencyCache
