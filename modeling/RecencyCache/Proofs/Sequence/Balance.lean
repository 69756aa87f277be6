import RecencyCache.Proofs.Keyed
import RecencyCache.Proofs.Sequence.Turns

/-!
# Every pair that leaves is counted once

A pair leaves a list in one of four ways: it is evicted for lack of room, a predicate matches it, it is removed by its
key, or the list is cleared.  A turn settles its account when the pairs that it had and those that it inserts are the
pairs that it leaves and those that have gone, and all that have gone are counted in the one way that the operation
has, and in no other (`Settles`).  Every turn does, however it ends (`step_settles`).
-/

namespace RecencyCache

namespace Sequence

open Metrics (Happening)

/-- The ways in which a pair leaves. -/
inductive Departure where
  | evicted
  | matched
  | removed
  | cleared
deriving DecidableEq

end Sequence

open Sequence (Departure)

namespace Cache

variable {κ ν ρ ω ε : Type}

/-- The way in which a pair leaves, if one does; none leaves when a key is only asked for. -/
def Op.departure : Op κ ν ρ ω ε → Departure
  | .put _ _ | .getOrInsertWith _ _ | .tryGetOrInsertWith _ _ => .evicted
  | .remove _ => .removed
  | .clear => .cleared
  | _ => .matched

/-- How many of so many pairs are cleared away. -/
def Op.clears (entries : Nat) : Op κ ν ρ ω ε → Nat
  | .clear => entries
  | _ => 0

end Cache

namespace Sequence

open Metrics (Happening)
open Cache (Op)

variable {κ ν ρ ω ε α β : Type} [BEq κ]

/-! ### Keys that have gone -/

/-- How many of the keys `ks` are not among `ks'` any more. -/
def gone (ks ks' : List κ) : Nat :=
  ks.countP fun k => !ks'.any (· == k)

section

variable {ks ks' : List κ} {k last : κ}

private theorem gone_eq_zero (h : ∀ k ∈ ks, ∃ k' ∈ ks', (k' == k) = true) : gone ks ks' = 0 := by
  rw [gone, List.countP_eq_zero]
  intro k hk
  have hany : ks'.any (· == k) = true := List.any_eq_true.2 (h k hk)
  simp [hany]

variable [EquivBEq κ]

/-- Of distinct keys those have gone that are not kept. -/
private theorem gone_add_length (hs : ks'.Sublist ks) (hd : Distinct ks) : gone ks ks' + ks'.length = ks.length := by
  induction hs with
  | slnil => rfl
  | @cons ks' ks a hs ih =>
    rw [Distinct.cons_iff] at hd
    have ha : ks'.any (· == a) = false := by
      rw [List.any_eq_false]
      intro k hk
      rw [BEq.comm]
      simpa using hd.1 k (hs.subset hk)
    have hcons : gone (a :: ks) ks' = gone ks ks' + 1 := List.countP_cons_of_pos (by simp [ha])
    have hlen := ih hd.2
    rw [List.length_cons]
    omega
  | @cons_cons ks' ks a hs ih =>
    rw [Distinct.cons_iff] at hd
    -- the key kept in front is none of the others
    have hcongr : gone ks (a :: ks') = gone ks ks' := by
      refine List.countP_congr fun k hk => ?_
      rw [List.any_cons, hd.1 k hk, Bool.false_or]
    have hcons : gone (a :: ks) (a :: ks') = gone ks (a :: ks') := List.countP_cons_of_neg (by simp)
    have hlen := ih hd.2
    rw [List.length_cons, List.length_cons]
    omega

/-- Where a new key comes in front and the last one makes room, one key has gone. -/
private theorem gone_displaced (hd : Distinct (ks ++ [last])) (hk : ∀ k' ∈ ks ++ [last], (k == k') = false) :
    gone (ks ++ [last]) (k :: ks) = 1 := by
  obtain ⟨-, -, hlast⟩ := List.pairwise_append.1 hd
  have hrest : gone ks (k :: ks) = 0 := gone_eq_zero fun k' hk' => ⟨k', List.mem_cons_of_mem _ hk', BEq.rfl⟩
  have hnot : (k :: ks).any (· == last) = false := by
    rw [List.any_eq_false]
    intro k' hk'
    rcases List.mem_cons.1 hk' with rfl | hk'
    · simpa using hk last (by simp)
    · simpa using hlast k' hk' last (List.mem_singleton_self _)
  have hone : gone [last] (k :: ks) = 1 := List.countP_cons_of_pos (by simp [hnot])
  have happend : gone (ks ++ [last]) (k :: ks) = gone ks (k :: ks) + gone [last] (k :: ks) := List.countP_append
  omega

end

/-! ### Accounts -/

/-- How often a departure has been counted, where so many pairs were cleared away. -/
def booked (counted : List Happening) (cleared : Nat) : Departure → Nat
  | .evicted => tally counted .evictions
  | .matched => tally counted .predicateEvictions
  | .removed => tally counted .removals
  | .cleared => cleared

/-- From `es` to `es'` pairs have come in only as counted, and have left only in the way `d`, and so they have been
counted. -/
structure Settles (d : Departure) (cleared : Nat) (es es' : List (κ × ν)) (counted : List Happening) : Prop where
  balance : es.length + tally counted .insertions = es'.length + gone (es.map (·.1)) (es'.map (·.1))
  booked : ∀ d', booked counted cleared d' = if d' = d then gone (es.map (·.1)) (es'.map (·.1)) else 0

/-- A turn from `es` settles its account. -/
def Turn.Settles (d : Departure) (cleared : Nat) (es : List (κ × ν)) (t : Turn κ ν ω ε α) : Prop :=
  Sequence.Settles d cleared es t.entries t.counted

namespace Settles

variable {d : Departure} {cleared : Nat} {es es' : List (κ × ν)} {counted : List Happening}

/-- A request alone does not matter for the account. -/
private theorem counting_miss (h : Settles d cleared es es' counted) : Settles d cleared es es' (.miss :: counted) := by
  have hmiss : ∀ c, c ≠ .requests → tally (.miss :: counted) c = tally counted c := by
    intro c hc
    have hzero : Happening.miss.counters.count c = 0 := by cases c <;> first | rfl | exact absurd rfl hc
    rw [tally_cons, hzero, Nat.zero_add]
  refine ⟨?_, fun d' => ?_⟩
  · rw [hmiss _ (by decide)]
    exact h.balance
  · rw [← h.booked d']
    cases d' with
    | evicted | matched | removed => exact hmiss _ (by decide)
    | cleared => rfl

variable [EquivBEq κ]

/-- Keys are lost in one way only, and so many pairs are counted in it. -/
private theorem of_sublist (hd : Distinct (es.map (·.1))) (hs : (es'.map (·.1)).Sublist (es.map (·.1)))
    (hinsert : tally counted .insertions = 0)
    (hbooked : ∀ d', Sequence.booked counted cleared d' = if d' = d then es.length - es'.length else 0) :
    Settles d cleared es es' counted := by
  have hgone := gone_add_length hs hd
  rw [List.length_map, List.length_map] at hgone
  refine ⟨by omega, fun d' => ?_⟩
  rw [hbooked]
  split <;> omega

/-- Nothing comes in and nothing is lost. -/
private theorem of_perm (hp : (es'.map (·.1)).Perm (es.map (·.1))) (hinsert : tally counted .insertions = 0)
    (hbooked : ∀ d', Sequence.booked counted 0 d' = 0) : Settles d 0 es es' counted := by
  have hgone : gone (es.map (·.1)) (es'.map (·.1)) = 0 := gone_eq_zero fun k hk => ⟨k, hp.mem_iff.2 hk, BEq.rfl⟩
  have hlen := hp.length_eq
  rw [List.length_map, List.length_map] at hlen
  refine ⟨by omega, fun d' => ?_⟩
  rw [hbooked, hgone, ite_self]

end Settles

/-! ### Turns settle their accounts -/

variable (limit : Nat) (k : κ) (es : List (κ × ν)) (caller : ω)

omit [BEq κ] in
/-- A sweep counts the pairs that it drops, also where it stops early. -/
private theorem sweep_balance (matches? : ν → Callback ω ε Bool) :
    (sweep matches? es caller).entries.length + (sweep matches? es caller).counted.length = es.length := by
  induction es generalizing caller with
  | nil => rfl
  | cons e es ih =>
    unfold sweep
    split
    · rfl
    · rename_i caller' _
      have hlen := ih caller'
      show (sweep matches? es caller').entries.length + ((sweep matches? es caller').counted.length + 1) = _
      rw [List.length_cons]
      omega
    · rename_i caller' _
      have hlen := ih caller'
      show (sweep matches? es caller').entries.length + 1 + (sweep matches? es caller').counted.length = _
      rw [List.length_cons]
      omega

variable [EquivBEq κ] {es}

private theorem insert_settles (hl : 0 < limit) (hd : Distinct (es.map (·.1))) (hf : es.find? (·.1 == k) = none)
    (value : ν) :
    (insert limit k value es caller : Turn κ ν ω ε _).Settles .evicted 0 es := by
  have hk : ∀ k' ∈ es.map (·.1), (k == k') = false := fun k' hk' => beq_eq_false_of_find? hf hk'
  unfold insert Turn.Settles
  split
  · rename_i hfull
    rcases List.eq_nil_or_concat es with rfl | ⟨rest, last, rfl⟩
    · exact absurd hfull (Nat.not_le_of_lt hl)
    · rw [List.concat_eq_append] at *
      have hgone : gone ((rest ++ [last]).map (·.1)) (((k, value) :: rest).map (·.1)) = 1 := by
        rw [List.map_append] at hd hk ⊢
        exact gone_displaced hd hk
      dsimp only
      rw [List.dropLast_concat]
      refine ⟨?_, fun d' => ?_⟩
      · rw [hgone]
        simp [tally, Happening.counters]
      · rw [hgone]
        cases d' <;> rfl
  · have hgone : gone (es.map (·.1)) (((k, value) :: es).map (·.1)) = 0 :=
      gone_eq_zero fun k' hk' => ⟨k', List.mem_cons_of_mem _ hk', BEq.rfl⟩
    refine ⟨?_, fun d' => ?_⟩
    · rw [hgone]
      rfl
    · rw [hgone, ite_self]
      cases d' <;> rfl

/-- A pair that is found and put in front stays. -/
private theorem settles_of_find? {d : Departure} (hd : Distinct (es.map (·.1))) {key : κ} {old : ν}
    (hf : es.find? (·.1 == k) = some (key, old)) (value : ν) {counted : List Happening}
    (hinsert : tally counted .insertions = 0) (hbooked : ∀ d', booked counted 0 d' = 0) :
    Settles d 0 es ((key, value) :: es.eraseP (·.1 == k)) counted := by
  obtain ⟨hk, L, R, rfl⟩ := exists_split_of_find? hf
  rw [hd.eraseP_eq hk]
  refine .of_perm ?_ hinsert hbooked
  rw [List.map_cons, List.map_append, List.map_append, List.map_cons]
  exact List.perm_middle.symm

/-- A pair that is found and dropped has gone, and all others stay. -/
private theorem settles_erase {d : Departure} (hd : Distinct (es.map (·.1))) {e : κ × ν}
    (hf : es.find? (·.1 == k) = some e) {counted : List Happening} (hinsert : tally counted .insertions = 0)
    (hbooked : ∀ d', booked counted 0 d' = if d' = d then 1 else 0) :
    Settles d 0 es (es.eraseP (·.1 == k)) counted := by
  have hlen := length_eraseP_add_one hf
  refine .of_sublist hd (List.eraseP_sublist.map _) hinsert fun d' => ?_
  rw [hbooked]
  split <;> omega

private theorem settles_self {d : Departure} {counted : List Happening} (hinsert : tally counted .insertions = 0)
    (hbooked : ∀ d', booked counted 0 d' = 0) : Settles d 0 es es counted :=
  .of_perm (List.Perm.refl _) hinsert hbooked

private theorem put_settles (hl : 0 < limit) (hd : Distinct (es.map (·.1))) (value : ν) :
    (put limit k value es caller : Turn κ ν ω ε _).Settles .evicted 0 es := by
  unfold put
  split
  · rename_i hf
    exact settles_of_find? k hd hf value rfl fun d' => by cases d' <;> rfl
  · rename_i hf
    exact insert_settles limit k caller hl hd hf value

private theorem getOrInsertWith_settles (hl : 0 < limit) (hd : Distinct (es.map (·.1))) (make : Callback ω ε ν) :
    (getOrInsertWith limit k make es caller).Settles .evicted 0 es := by
  unfold getOrInsertWith
  split
  · rename_i hf
    exact settles_of_find? k hd hf _ rfl fun d' => by cases d' <;> rfl
  · rename_i hf
    split
    · exact settles_self rfl fun d' => by cases d' <;> rfl
    · exact (insert_settles (ε := ε) limit k _ hl hd hf _).counting_miss

private theorem lookup_settles (hd : Distinct (es.map (·.1))) (update : Update ν ω ε)
    (evictIf : ν → Callback ω ε Bool) :
    (lookup k update evictIf es caller).Settles .matched 0 es := by
  unfold lookup
  split
  · exact settles_self rfl fun d' => by cases d' <;> rfl
  · rename_i hf
    split
    · exact settles_self rfl fun d' => by cases d' <;> rfl
    · exact settles_erase k hd hf rfl fun d' => by cases d' <;> rfl
    · split
      · -- an update that stops early leaves its pair where it was
        refine .of_perm ?_ rfl fun d' => by cases d' <;> rfl
        rw [setValue_keys]
      · exact settles_of_find? k hd hf _ rfl fun d' => by cases d' <;> rfl

private theorem getWith_settles (hd : Distinct (es.map (·.1))) (view : ν → Callback ω ε ρ) :
    (getWith k view es caller).Settles .matched 0 es := by
  obtain ⟨hentries, hcounted, -⟩ := getWith_eq k es caller view
  unfold Turn.Settles
  rw [hentries, hcounted]
  exact lookup_settles k caller hd _ _

private theorem remove_settles (hd : Distinct (es.map (·.1))) :
    (remove k es caller : Turn κ ν ω ε _).Settles .removed 0 es := by
  unfold remove
  split
  · exact settles_self rfl fun d' => by cases d' <;> rfl
  · rename_i hf
    exact settles_erase k hd hf rfl fun d' => by cases d' <;> rfl

private theorem removeIf_settles (hd : Distinct (es.map (·.1))) (matches? : ν → Callback ω ε Bool) :
    (removeIf matches? es caller).Settles .matched 0 es := by
  obtain ⟨hentries, hcounted⟩ := removeIf_eq es caller matches?
  obtain ⟨n, hn⟩ := sweep_counted es caller matches?
  have hlen := sweep_balance es caller matches?
  unfold Turn.Settles
  rw [hentries, hcounted, hn]
  rw [hn, List.length_replicate] at hlen
  refine .of_sublist hd ((sweep_sublist es caller matches?).map _) ?_ fun d' => ?_
  · rw [tally_replicate]
    rfl
  · have htally : ∀ c, tally (List.replicate n .predicateEviction) c =
        n * Happening.predicateEviction.counters.count c := tally_replicate n _
    cases d' with
    | matched =>
      show tally _ _ = _
      rw [htally, if_pos rfl]
      show n * 1 = _
      omega
    | evicted | removed => exact htally _
    | cleared => rfl

/-- Whatever leaves in a turn is counted, once, in the way of its operation. -/
theorem step_settles (hl : 0 < limit) (hd : Distinct (es.map (·.1))) (op : Op κ ν ρ ω ε) :
    (step limit op es caller).Settles op.departure (op.clears es.length) es := by
  cases op with
  | put k value => exact put_settles limit k caller hl hd value
  | get k => exact lookup_settles k caller (ε := Empty) hd _ _
  | getWith k view => exact getWith_settles k caller hd view
  | getAndUpdate k update => exact lookup_settles k caller hd update _
  | getOrEvict k update evictIf | existsOrEvict k update evictIf | tryGetOrEvict k update evictIf
  | tryExistsOrEvict k update evictIf => exact lookup_settles k caller hd update evictIf
  | containsKey k => exact settles_self rfl fun d' => by cases d' <;> rfl
  | remove k => exact remove_settles k caller (ε := ε) hd
  | removeIf matches? | tryRemoveIf matches? => exact removeIf_settles caller hd matches?
  | getOrInsertWith k make | tryGetOrInsertWith k make => exact getOrInsertWith_settles limit k caller hl hd make
  | clear =>
    refine .of_sublist hd (List.nil_sublist _) rfl fun d' => ?_
    cases d' <;> rfl

end Sequence

end RecencyCache
