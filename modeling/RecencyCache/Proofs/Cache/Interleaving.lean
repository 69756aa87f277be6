import RecencyCache.Proofs.Cache.Lookups
import RecencyCache.Proofs.Sequence.Mixes

/-!
# Threads that do not get in each other's way

Calls are made one at a time, but calls of several threads may come in any order that keeps the order of each thread
(`Interleaves`).  Where the calls of all threads are a mix that suits the cache, it does not matter in which: the
contents, the counters and what the calls get are the same (`Op.run_interleaved`).  No update is lost, and a value is
made at most once.
-/

namespace RecencyCache

open Sequence (Mix Contents tally value?)

/-- Calls of threads, one at a time, in an order that keeps the order of each thread. -/
inductive Interleaves {α : Type} : List (List α) → List α → Prop
  | done {threads} : (∀ thread ∈ threads, thread = []) → Interleaves threads []
  | next {before call thread after calls} : Interleaves (before ++ thread :: after) calls →
    Interleaves (before ++ (call :: thread) :: after) (call :: calls)

private theorem Interleaves.perm {α : Type} {threads : List (List α)} {calls : List α} (h : Interleaves threads calls) :
    calls.Perm threads.flatten := by
  induction h with
  | done hempty => rw [List.flatten_eq_nil_iff.2 hempty]
  | @next before call thread after calls _ ih =>
    rw [List.flatten_append, List.flatten_cons] at ih ⊢
    exact (ih.cons call).trans List.perm_middle.symm

private theorem Metrics.eq_of_get {m m' : Metrics} (h : ∀ c, m.get c = m'.get c) : m = m' := by
  obtain ⟨requests, hits, insertions, updates, evictions, predicateEvictions, removals⟩ := m
  cases h .requests
  cases h .hits
  cases h .insertions
  cases h .updates
  cases h .evictions
  cases h .predicateEvictions
  cases h .removals
  rfl

namespace Cache

variable {κ ν ρ ω ε : Type} [BEq κ] [Hashable κ] [EquivBEq κ] [LawfulHashable κ] {w : World κ ν ω}

/-- Calls leave the list, the caller's state and the counters that their turns leave. -/
private theorem Op.run_finish (h : w.cache.Ready) {ops : List (Op κ ν ρ ω ε)} (hover : Op.NoOverflow w ops) :
    (Op.run w ops).2.cache.toList = (Sequence.finish w.cache.capacity w.cache.toList w.caller ops).1 ∧
      (Op.run w ops).2.caller = (Sequence.finish w.cache.capacity w.cache.toList w.caller ops).2 ∧
      ∀ c, ((Op.run w ops).2.cache.metrics.get c).toNat =
        (w.cache.metrics.get c).toNat + tally ((Op.turns w ops).flatMap (·.counted)) c := by
  have hcounts := (Op.run_advances h hover).counts
  rw [← and_assoc]
  refine ⟨?_, hcounts⟩
  clear hcounts
  induction ops generalizing w with
  | nil => exact ⟨rfl, rfl⟩
  | cons op ops ih =>
    rw [Op.noOverflow_cons] at hover
    have hc := Op.apply_carries h hover.1
    have hcapacity : (op.apply w).2.cache.capacity = w.cache.capacity := congrArg (·.limit) hc.advances.config
    have hfinish := ih (Op.apply_ready h op) hover.2
    rw [hc.entries, hc.caller, hcapacity] at hfinish
    exact hfinish

/-! ### Mixes -/

section

variable (h : w.cache.Ready) {mix : Mix κ ν ρ ω ε} {ops ops' : List (Op κ ν ρ ω ε)}
  (hsuits : mix.Suits w.cache.capacity w.cache.toList ops)

include h hsuits

private theorem Op.goes_of_suits :
    mix.Goes w.cache.capacity (.ofList w.cache.toList) w.cache.toList w.caller ops :=
  hsuits.goes w.cache.config.limit_pos h.coherent.distinct (fun _ => rfl) w.caller

/-- The calls of a mix count the same in whatever order. -/
private theorem Op.tally_perm (hp : ops'.Perm ops) (c : Counter) :
    tally ((Op.turns w ops').flatMap (·.counted)) c = tally ((Op.turns w ops).flatMap (·.counted)) c := by
  have hcounted := (Op.goes_of_suits h hsuits).counted c
  have hcounted' := (Op.goes_of_suits h (hsuits.perm hp)).counted c
  rw [hsuits.foldl_perm hp.symm] at hcounted
  exact Nat.add_left_cancel (hcounted'.symm.trans hcounted)

/-- Whether a counter overflows in a mix does not hang on the order of its calls. -/
private theorem Op.noOverflow_perm (hp : ops'.Perm ops) : Op.NoOverflow w ops' ↔ Op.NoOverflow w ops := by
  rw [Op.noOverflow_iff h, Op.noOverflow_iff h]
  simp only [Op.tally_perm h hsuits hp]

/-- As long as every counter has room for one more bump a call, none overflows. -/
private theorem Op.noOverflow_of_room (hroom : ∀ c, (w.cache.metrics.get c).toNat + ops.length < UInt64.size) :
    Op.NoOverflow w ops := by
  refine (Op.noOverflow_iff h ops).2 fun c => ?_
  have hcounted := (Op.goes_of_suits h hsuits).counted c
  have hle : (ops.foldl mix.after (.ofList w.cache.toList)).counted c ≤ _ := Mix.foldl_counted_le ops _ c
  rw [hcounted] at hle
  exact Nat.lt_of_le_of_lt (Nat.add_le_add_left (Nat.le_of_add_le_add_left hle) _) (hroom c)

/-- The contents after a mix, key by key, and all that has been counted and made. -/
private theorem Op.run_mix (hover : Op.NoOverflow w ops) :
    let old := value? w.cache.toList
    let w' := (Op.run w ops).2
    (∀ k, value? w'.cache.toList k = mix.final ops old k) ∧
      w'.cache.metrics.evictions = w.cache.metrics.evictions ∧ (∀ call ∈ Op.calls w ops, call.Welcome) ∧
      ∀ measure k, (∀ op ∈ ops, op.Meters measure k) →
        measure w'.caller = measure w.caller + mix.makings ops old k := by
  intro old w'
  obtain ⟨hlist, hcaller, hcounts⟩ := Op.run_finish h hover
  have hgoes := Op.goes_of_suits h hsuits
  have hevictions := hgoes.counted .evictions
  rw [Mix.foldl_evictions] at hevictions
  refine ⟨fun k => ?_, ?_, ?_, fun measure k hmeters => ?_⟩
  · rw [hlist, ← hgoes.shows, Mix.foldl_value]
    rfl
  · have htally : tally ((Op.turns w ops).flatMap (·.counted)) .evictions = 0 := Nat.left_eq_add.1 hevictions
    refine UInt64.toNat_inj.1 ((hcounts .evictions).trans ?_)
    rw [htally]
    rfl
  · rw [Op.calls_eq h hover]
    exact hgoes.welcome
  · have hmade := hgoes.made measure k hmeters
    rw [Mix.foldl_made, ← hcaller] at hmade
    simpa [Contents.ofList] using hmade

end

/-! ### Threads -/

/-- Threads whose calls are a mix that suits a cache do not get in each other's way, from any state that a run can reach
and in whatever order the calls come.  A counter overflows either in every order or in none, and in none as long as each
has room for one bump a call.  If none does, the values are those that the parts of the keys say, every update made
once; the keys are those that were there and those stored; size and counters are those of the threads run one after
the other; nothing has been evicted, and every lookup has found its entry and kept it; and a value has been made once
for each key that had none and was asked for, and for no other. -/
theorem Op.run_interleaved (config : Config) (caller : ω) (before : List (Op κ ν ρ ω ε)) (mix : Mix κ ν ρ ω ε)
    (threads : List (List (Op κ ν ρ ω ε))) :
    let w := (Op.run (World.new config caller) before).2
    let old := value? w.cache.toList
    let serial := threads.flatten
    mix.Suits w.cache.capacity w.cache.toList serial → ∀ ops, Interleaves threads ops →
      let w' := (Op.run w ops).2
      (Op.NoOverflow w ops ↔ Op.NoOverflow w serial) ∧
      ((∀ c, (w.cache.metrics.get c).toNat + serial.length < UInt64.size) → Op.NoOverflow w ops) ∧
      (Op.NoOverflow w ops →
        (∀ k, value? w'.cache.toList k = mix.final serial old k) ∧
        (∀ k, (value? w'.cache.toList k).isSome = ((old k).isSome || serial.any fun op => op.stores.any (· == k))) ∧
        w'.cache.length = (Op.run w serial).2.cache.length ∧
        w'.cache.metrics = (Op.run w serial).2.cache.metrics ∧
        w'.cache.metrics.evictions = w.cache.metrics.evictions ∧
        (∀ call ∈ Op.calls w ops, call.Welcome) ∧
        ∀ measure k, (∀ op ∈ serial, op.Meters measure k) →
          measure w'.caller = measure w.caller + mix.makings serial old k) := by
  intro w old serial hsuits ops hinterleaves w'
  have h : w.cache.Ready := (Op.run_ready (ready_new config caller) before).1
  have hp : ops.Perm serial := hinterleaves.perm
  have hiff := Op.noOverflow_perm h hsuits hp
  refine ⟨hiff, fun hroom => hiff.2 (Op.noOverflow_of_room h hsuits hroom), fun hover => ?_⟩
  obtain ⟨hvalues, hevictions, hwelcome, hmade⟩ := Op.run_mix h (hsuits.perm hp) hover
  obtain ⟨hvalues', -⟩ := Op.run_mix h hsuits (hiff.1 hover)
  have hready := (Op.run_ready h ops).1
  have hready' := (Op.run_ready h serial).1
  have hfinal (k : κ) : mix.final ops old k = mix.final serial old k := (hsuits.final_perm hp k).1
  have hvalue (k : κ) : value? w'.cache.toList k = mix.final serial old k := (hvalues k).trans (hfinal k)
  have hsame (k : κ) : value? w'.cache.toList k = value? (Op.run w serial).2.cache.toList k :=
    (hvalue k).trans (hvalues' k).symm
  refine ⟨hvalue, fun k => ?_, ?_, ?_, hevictions, hwelcome, fun measure k hmeters => ?_⟩
  · rw [hvalue]
    exact Mix.isSome_final hsuits.allows old k
  · rw [hready.coherent.agrees.length, hready'.coherent.agrees.length]
    exact Nat.le_antisymm (Sequence.length_le_of_value? hready.coherent.distinct fun k hk => hsame k ▸ hk)
      (Sequence.length_le_of_value? hready'.coherent.distinct fun k hk => hsame k ▸ hk)
  · refine Metrics.eq_of_get fun c => UInt64.toNat_inj.1 ?_
    rw [(Op.run_finish h hover).2.2, (Op.run_finish h (hiff.1 hover)).2.2, Op.tally_perm h hsuits hp]
  · rw [hmade measure k fun op hop => hmeters op (hp.subset hop)]
    exact congrArg _ (hsuits.final_perm hp k).2

/-- Two threads add to one value, and both ask for a value that is made once. -/
theorem Op.run_interleaved_instance :
    let add : Update Nat Nat Empty := fun _ world => .ok () (world.1 + 1, world.2)
    let make : Callback Nat Empty Nat := fun _ caller => .ok 30 (caller + 1)
    let before : List (Op Key Nat Unit Nat Empty) := [.put (.int 1) 10]
    let threads : List (List (Op Key Nat Unit Nat Empty)) :=
      [[.getAndUpdate (.int 1) add, .getOrInsertWith (.int 3) make],
        [.put (.int 2) 20, .getAndUpdate (.int 1) add, .getOrInsertWith (.int 3) make, .containsKey (.int 1)]]
    let mix : Mix Key Nat Unit Nat Empty :=
      { part := fun k => if k = .int 1 then .updated else if k = .int 2 then .stored else .made
        value := fun k => if k = .int 2 then 20 else 30
        edit := fun _ => (· + 1)
        part_congr := fun hk => by rw [eq_of_beq hk]
        value_congr := fun hk => by rw [eq_of_beq hk] }
    let ops : List (Op Key Nat Unit Nat Empty) :=
      [.put (.int 2) 20, .getAndUpdate (.int 1) add, .getAndUpdate (.int 1) add, .getOrInsertWith (.int 3) make,
        .getOrInsertWith (.int 3) make, .containsKey (.int 1)]
    let w := (Op.run (World.new ⟨3, by decide⟩ 0) before).2
    let w' := (Op.run w ops).2
    mix.Suits w.cache.capacity w.cache.toList threads.flatten ∧ Interleaves threads ops ∧
      Op.NoOverflow w ops ∧ (∀ op ∈ threads.flatten, op.Meters id (.int 3)) ∧
      value? w'.cache.toList (.int 1) = some 12 ∧ value? w'.cache.toList (.int 3) = some 30 ∧
      w'.cache.metrics.evictions = w.cache.metrics.evictions ∧ w'.caller = w.caller + 1 := by
  intro add make before threads mix ops w w'
  have hnew := ready_new (κ := Key) (ν := Nat) ⟨3, by decide⟩ 0
  have hover₀ : Op.NoOverflow (World.new ⟨3, by decide⟩ 0) before :=
    (Op.noOverflow_iff hnew _).2 fun c => by cases c <;> decide
  have hlist : w.cache.toList = [(.int 1, 10)] := ((Op.run_eq hnew hover₀).2 0 _ rfl).1
  have hcapacity : w.cache.capacity = 3 := congrArg Config.limit (Op.run_ready hnew before).2
  have hadd : mix.Allows [(.int 1, 10)] (.getAndUpdate (.int 1) add) :=
    .update rfl rfl rfl (fun _ _ caller => ⟨caller, rfl⟩) Sequence.keepAll_goesBy
  have hmake : mix.Allows [(.int 1, 10)] (.getOrInsertWith (.int 3) make) :=
    .make rfl rfl fun _ caller => ⟨caller + 1, rfl⟩
  have hput : mix.Allows [(.int 1, 10)] (.put (.int 2) 20) := .put rfl
  have hcontains : mix.Allows [(.int 1, 10)] (.containsKey (.int 1)) := .contains rfl
  have hsuits : mix.Suits w.cache.capacity w.cache.toList threads.flatten := by
    rw [hcapacity, hlist]
    exact ⟨by simp [threads, hadd, hmake, hput, hcontains], fun _ _ _ _ _ _ _ _ _ _ _ => rfl,
      [.int 1, .int 2, .int 3], Nat.le_refl _, by simp, by simp [threads, Op.stores]⟩
  have hinterleaves : Interleaves threads ops :=
    @Interleaves.next _ [_] _ _ [] _ <| @Interleaves.next _ [] _ _ _ _ <| @Interleaves.next _ [_] _ _ [] _ <|
      @Interleaves.next _ [_] _ _ [] _ <| @Interleaves.next _ [] _ _ _ _ <| @Interleaves.next _ [_] _ _ [] _ <|
      .done (by simp)
  have hmeters : ∀ op ∈ threads.flatten, op.Meters id (.int 3) := by
    have hadd' : (.getAndUpdate (.int 1) add : Op Key Nat Unit Nat Empty).Meters id (.int 3) := by
      refine ⟨fun h => ?_, fun h => ?_, fun h => ?_, fun h => ?_⟩ <;> cases h
      · exact fun _ _ _ => rfl
      · exact fun _ _ => rfl
    have hmake' : (.getOrInsertWith (.int 3) make : Op Key Nat Unit Nat Empty).Meters id (.int 3) := by
      refine ⟨fun h => ?_, fun h => ?_, fun h => ?_, fun h => ?_⟩ <;> cases h
      exact fun _ _ => rfl
    have hput' : (.put (.int 2) 20 : Op Key Nat Unit Nat Empty).Meters id (.int 3) := by
      refine ⟨fun h => ?_, fun h => ?_, fun h => ?_, fun h => ?_⟩ <;> cases h
    have hcontains' : (.containsKey (.int 1) : Op Key Nat Unit Nat Empty).Meters id (.int 3) := by
      refine ⟨fun h => ?_, fun h => ?_, fun h => ?_, fun h => ?_⟩ <;> cases h
    simp [threads, hadd', hmake', hput', hcontains']
  obtain ⟨-, hroom, hrun⟩ := Op.run_interleaved ⟨3, by decide⟩ 0 before mix threads hsuits ops hinterleaves
  have hover : Op.NoOverflow w ops := hroom fun c => by
    rw [(Op.run_finish hnew hover₀).2.2 c]
    cases c <;> decide
  obtain ⟨hvalues, -, -, -, hevictions, -, hmade⟩ := hrun hover
  refine ⟨hsuits, hinterleaves, hover, hmeters, ?_, ?_, hevictions, ?_⟩
  · rw [hvalues, hlist]
    rfl
  · rw [hvalues, hlist]
    rfl
  · have hcaller := hmade id (.int 3) hmeters
    rw [hlist] at hcaller
    exact hcaller

end Cache

end RecencyCache
