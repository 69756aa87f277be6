import RecencyCache.Proofs.Cache.Recency
import RecencyCache.Proofs.Sequence.Accesses

/-!
# What stays can be told from the accesses

A new cache on which only accesses are made holds the keys accessed last, as many as it has room for
(`Op.run_resident`).  Whether the next access finds its key, and which entry it drops if it does not, can therefore be
read off the keys of the accesses alone (`Op.run_accesses`).
-/

namespace RecencyCache

open Sequence (latestFirst Recent Resident)

namespace Cache

variable {κ ν ρ ω ε : Type} [BEq κ] [Hashable κ] [EquivBEq κ] [LawfulHashable κ]

/-! ### One access -/

/-- An access that finds an entry drops none. -/
structure Op.Finds (op : Op κ ν ρ ω ε) (w : World κ ν ω) : Prop where
  keys : ((op.apply w).2.cache.toList.map (·.1)).Perm (w.cache.toList.map (·.1))
  evictions : (op.apply w).2.cache.metrics.evictions = w.cache.metrics.evictions
  reply : ∀ k value, op = .put k value → (op.apply w).1 = .ok (.evicted none)

/-- An access that makes an entry for `k` and drops `victim`, if there is one. -/
structure Op.Inserts (op : Op κ ν ρ ω ε) (w : World κ ν ω) (k : κ) (victim : Option (κ × ν)) : Prop where
  entries : ∃ value kept, w.cache.toList = kept ++ victim.toList ∧ (op.apply w).2.cache.toList = (k, value) :: kept
  evictions : (op.apply w).2.cache.metrics.evictions.toNat =
    w.cache.metrics.evictions.toNat + victim.toList.length
  reply : ∀ value, op = .put k value → (op.apply w).1 = .ok (.evicted victim)

variable {w : World κ ν ω} {op : Op κ ν ρ ω ε} {k : κ} {reply : Reply κ ν ρ}

/-- The answer of a `put`. -/
private theorem Op.apply_put (h : w.cache.Ready) {value : ν}
    (ho : (Op.apply (.put k value : Op κ ν ρ ω ε) w).1 = .ok reply) :
    (Op.apply (.put k value : Op κ ν ρ ω ε) w).1 = .ok (.evicted
      (if (w.cache.toList.find? (·.1 == k)).isSome then none else w.cache.toList[w.cache.capacity - 1]?)) := by
  have hover : (Op.apply (.put k value : Op κ ν ρ ω ε) w).1 ≠ .error (.faulted .addOverflow) := by simp [ho]
  have hpos : 0 < w.cache.capacity := w.cache.config.limit_pos
  rw [(Op.apply_carries h hover).outcome]
  show ((Sequence.put w.cache.capacity k value w.cache.toList w.caller).outcome).map Reply.evicted = _
  rw [Sequence.put_outcome _ _ _ hpos h.coherent.length_toList_le]
  rfl

/-- An access finds the entry of its key, or inserts one and drops the last entry of a full cache. -/
private theorem Op.apply_access (h : w.cache.Ready) (hs : op.stores = some k) (ho : (op.apply w).1 = .ok reply) :
    if (w.cache.toList.find? (·.1 == k)).isSome then op.Finds w
      else op.Inserts w k w.cache.toList[w.cache.capacity - 1]? := by
  have hover : (op.apply w).1 ≠ .error (.faulted .addOverflow) := by simp [ho]
  obtain ⟨n, hmoves, hcount⟩ := Op.apply_moves h hover
  rw [hs, ho, Sequence.touched_ok hs] at hmoves
  split
  · rename_i hf
    obtain ⟨rfl, hkeys, -⟩ := hmoves.of_found h.coherent.distinct hf
    refine ⟨hkeys, UInt64.toNat_inj.1 hcount, ?_⟩
    rintro k' value rfl
    cases hs
    rw [Op.apply_put h ho, if_pos hf]
  · rename_i hf
    have hpos : 0 < w.cache.capacity := w.cache.config.limit_pos
    have hle := h.coherent.length_toList_le
    obtain ⟨value, hentries, rfl⟩ := hmoves.of_not_found hpos hle (by simpa using hf)
    refine ⟨⟨value, _, ?_, hentries⟩, hcount, ?_⟩
    · rw [← List.take_add_one, Nat.sub_add_cancel hpos, List.take_of_length_le hle]
    · rintro value rfl
      rw [Op.apply_put h ho, if_neg hf]

/-- An access keeps the entries those of the keys accessed last; a call that only asks leaves them as they are. -/
private theorem Op.apply_resident (h : w.cache.Ready) (haccess : op.Accesses) (ho : (op.apply w).1 = .ok reply)
    {ks : List κ} (hr : Resident w.cache.capacity ks (w.cache.toList.map (·.1))) :
    Resident w.cache.capacity (ks ++ op.stores.toList) ((op.apply w).2.cache.toList.map (·.1)) := by
  have hover : (op.apply w).1 ≠ .error (.faulted .addOverflow) := by simp [ho]
  cases hs : op.stores with
  | some k =>
    obtain ⟨n, hmoves, -⟩ := Op.apply_moves h hover
    rw [hs, ho, Sequence.touched_ok hs] at hmoves
    exact hr.moves w.cache.config.limit_pos h.coherent.distinct hmoves
  | none =>
    obtain ⟨k, rfl⟩ : ∃ k, op = .containsKey k := by
      refine haccess.resolve_left ?_
      simp [hs]
    have hentries : (Op.apply (.containsKey k : Op κ ν ρ ω ε) w).2.cache.toList = w.cache.toList :=
      (Op.apply_carries h hover).entries
    rw [hentries, Option.toList_none, List.append_nil]
    exact hr

/-! ### A run -/

/-- Every call of a run comes to an answer. -/
def Op.Answered (w : World κ ν ω) (ops : List (Op κ ν ρ ω ε)) : Prop :=
  ∀ o ∈ (Op.run w ops).1, ∃ reply, o = .ok reply

private theorem Op.answered_append (w : World κ ν ω) (ops ops' : List (Op κ ν ρ ω ε)) :
    Op.Answered w (ops ++ ops') ↔ Op.Answered w ops ∧ Op.Answered (Op.run w ops).2 ops' := by
  unfold Answered
  rw [run_append]
  exact List.forall_mem_append

/-- Accesses whose callbacks return come to an answer as long as they are fewer than a counter can count. -/
private theorem Op.answered_of_returns (config : Config) (caller : ω) {ops : List (Op κ ν ρ ω ε)}
    (haccess : ∀ op ∈ ops, op.Accesses) (hreturns : ∀ op ∈ ops, op.Returns)
    (hfew : (ops.filterMap Op.stores).length < UInt64.size) : Op.Answered (World.new config caller) ops := by
  have hready := ready_new (κ := κ) (ν := ν) config caller
  have hover : Op.NoOverflow (World.new config caller) ops := by
    refine (Op.noOverflow_iff hready ops).2 fun c => ?_
    have hzero : ((World.new config caller : World κ ν ω).cache.metrics.get c).toNat = 0 := by cases c <;> rfl
    have htally : Sequence.tally ((Op.turns (World.new config caller) ops).flatMap (·.counted)) c ≤ _ :=
      Sequence.run_tally_le _ _ _ haccess c
    omega
  intro o ho
  rw [(Op.run_eq hready hover).1] at ho
  obtain ⟨t, ht, rfl⟩ := List.mem_map.1 ho
  exact Sequence.run_ok _ _ _ hreturns t ht

/-- The entries of a cache on which only accesses are made are those of the keys accessed last. -/
theorem Op.run_resident (config : Config) (caller : ω) {ops : List (Op κ ν ρ ω ε)}
    (haccess : ∀ op ∈ ops, op.Accesses) (hanswered : Op.Answered (World.new config caller) ops) :
    Resident config.limit (ops.filterMap Op.stores)
      ((Op.run (World.new config caller) ops).2.cache.toList.map (·.1)) := by
  induction ops using List.reverseRecOn with
  | nil => exact Resident.nil
  | append_singleton ops op ih =>
    rw [Op.answered_append] at hanswered
    obtain ⟨hready, hconfig⟩ := Op.run_ready (ready_new config caller) ops
    have hresident := ih (fun op' hop => haccess op' (List.mem_append_left _ hop)) hanswered.1
    have hreply : ∃ reply, (op.apply (Op.run (World.new config caller) ops).2).1 = .ok reply :=
      hanswered.2 _ (List.mem_singleton_self _)
    obtain ⟨reply, ho⟩ := hreply
    have hcapacity : (Op.run (World.new config caller) ops).2.cache.capacity = config.limit :=
      congrArg Config.limit hconfig
    rw [← hcapacity] at hresident ⊢
    have hnext := Op.apply_resident hready (haccess op (by simp)) ho hresident
    have hstores : (ops ++ [op]).filterMap Op.stores = ops.filterMap Op.stores ++ op.stores.toList := by
      cases hs : op.stores <;> simp [hs]
    rw [hstores, run_append]
    exact hnext

/-- The accesses alone tell what stays in a cache.  On a new cache calls are made that access keys, by `put` or by
making a value on demand, or that only ask whether a key has an entry; if the callbacks return and the accesses are
fewer than a counter can count, every call comes to an answer.  Then the keys of the entries, front to back, are the
first of the keys accessed, the latest first, as many as there is room for.  The next access finds its key if it was
accessed before and fewer other keys than there is room for have been since, and only then.  Otherwise it inserts it,
and drops an entry if at least as many keys as there is room for were accessed: that of the key whose place in the
order of last accesses is the last that there is room for, with which a `put` answers. -/
theorem Op.run_accesses (config : Config) (caller : ω) (ops : List (Op κ ν ρ ω ε))
    (haccess : ∀ op ∈ ops, op.Accesses) :
    let start : World κ ν ω := World.new config caller
    let w := (Op.run start ops).2
    let ks := ops.filterMap Op.stores
    ((∀ op ∈ ops, op.Returns) → ks.length < UInt64.size → Op.Answered start ops) ∧
      (Op.Answered start ops →
        List.Forall₂ (fun e k => (e.1 == k) = true) w.cache.toList ((latestFirst ks).take config.limit) ∧
        ∀ (op : Op κ ν ρ ω ε) k, op.stores = some k →
          ((w.cache.find? k).isSome ↔ Recent config.limit ks k) ∧
          ∀ reply, (op.apply w).1 = .ok reply →
            (Recent config.limit ks k → op.Finds w) ∧
            (¬ Recent config.limit ks k → ∃ victim, op.Inserts w k victim ∧
              (victim.isSome ↔ config.limit ≤ (latestFirst ks).length) ∧
              ∀ e, victim = some e → ∃ key, (latestFirst ks)[config.limit - 1]? = some key ∧ (e.1 == key) = true)) := by
  intro start w ks
  refine ⟨fun hreturns hfew => Op.answered_of_returns config caller haccess hreturns hfew, fun hanswered => ?_⟩
  have hresident : Resident config.limit ks (w.cache.toList.map (·.1)) :=
    Op.run_resident config caller haccess hanswered
  obtain ⟨hready, hconfig⟩ := Op.run_ready (ready_new config caller) ops
  have hcapacity : w.cache.capacity = config.limit := congrArg Config.limit hconfig
  refine ⟨List.forall₂_map_left_iff.1 hresident, fun op k hs => ?_⟩
  have hfind : (w.cache.toList.find? (·.1 == k)).isSome ↔ Recent config.limit ks k := by
    rw [← hresident.any_iff]
    simp
  have hindex := hready.coherent.agrees.find k
  refine ⟨?_, fun reply ho => ?_⟩
  · rw [← hfind, ← hindex, Option.isSome_map]
  have hcall := Op.apply_access hready hs ho
  refine ⟨fun hrecent => ?_, fun hrecent => ⟨w.cache.toList[w.cache.capacity - 1]?, ?_, ?_, fun e he => ?_⟩⟩
  · rwa [if_pos (hfind.2 hrecent)] at hcall
  · rwa [if_neg (fun hf => hrecent (hfind.1 hf))] at hcall
  · have hlen := hresident.length
    rw [List.length_map] at hlen
    have hpos := config.limit_pos
    rw [hcapacity, isSome_getElem?]
    omega
  · refine hresident.getElem? ?_
    rw [List.getElem?_map, ← hcapacity, he]
    rfl

theorem Op.run_accesses_instance :
    let ops : List (Op Key Nat Unit Unit Empty) :=
      [.put (.int 1) 10, .getOrInsertWith (.int 2) (fun _ _ => .ok 20 ()), .containsKey (.int 3), .put (.int 1) 11]
    let start : World Key Nat Unit := World.new ⟨2, by decide⟩ ()
    let w := (Op.run start ops).2
    let op : Op Key Nat Unit Unit Empty := .put (.int 3) 30
    (∀ op ∈ ops, op.Accesses) ∧ Op.Answered start ops ∧
      List.Forall₂ (fun e k => (e.1 == k) = true) w.cache.toList [.int 1, .int 2] ∧
      ∃ e, op.Inserts w (.int 3) (some e) ∧ (e.1 == .int 2) = true := by
  intro ops start w op
  have haccess : ∀ o ∈ ops ++ [op], o.Accesses := by simp [ops, op, Op.Accesses, Op.stores]
  have hreturns : ∀ o ∈ ops ++ [op], o.Returns := by
    simp [ops, op, Op.Returns, Op.StopsIn, Callback.StopsIn]
  have hfew : ((ops ++ [op]).filterMap Op.stores).length < UInt64.size := by decide
  have hanswered : Op.Answered start (ops ++ [op]) :=
    (Op.run_accesses ⟨2, by decide⟩ () (ops ++ [op]) haccess).1 hreturns hfew
  obtain ⟨hbefore, hlast⟩ := (Op.answered_append ..).1 hanswered
  have haccess' : ∀ o ∈ ops, o.Accesses := fun o ho => haccess o (List.mem_append_left _ ho)
  obtain ⟨hkeys, hnext⟩ := (Op.run_accesses ⟨2, by decide⟩ () ops haccess').2 hbefore
  obtain ⟨-, hnext⟩ := hnext op (.int 3) rfl
  obtain ⟨reply, ho⟩ : ∃ reply, (op.apply w).1 = .ok reply := hlast _ (List.mem_singleton_self _)
  have hrecent : ¬ Recent 2 (ops.filterMap Op.stores) (.int 3) := by
    rw [← Sequence.any_take_latestFirst]
    decide
  obtain ⟨victim, hinserts, hsome, hvictim⟩ := (hnext reply ho).2 hrecent
  obtain ⟨e, rfl⟩ := Option.isSome_iff_exists.1 (hsome.2 (by decide))
  obtain ⟨key, hkey, hek⟩ := hvictim e rfl
  have hlatest : (latestFirst (ops.filterMap Op.stores))[2 - 1]? = some (.int 2) := by decide
  cases hlatest.symm.trans hkey
  exact ⟨haccess', hbefore, hkeys, e, hinserts, hek⟩

end Cache

end RecencyCache
