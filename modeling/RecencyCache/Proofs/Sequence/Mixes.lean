import Mathlib.Data.List.Perm.Basic
import RecencyCache.Proofs.Sequence.Contents
import RecencyCache.Proofs.Sequence.Lookups

/-!
# Mixes of calls that may come in any order

In a mix every key has one part: it is updated where it has an entry, or one and the same value is stored or made for
it.  What such calls do to the values of their keys are acts that may change places, and so the contents after a mix do
not hang on the order of its calls (`Mix.Suits.foldl_perm`); what they are can be written down key by key
(`Mix.foldl_value`, `Mix.foldl_made`).  While there is room for all keys of a mix, a list goes as its contents go
(`Mix.Suits.goes`).
-/

namespace RecencyCache

/-- However a callback ends, it adds so much to a measure of the caller's state. -/
def Callback.Adds {ω ε α : Type} (measure : ω → Nat) (n : Nat) (f : Callback ω ε α) : Prop :=
  ∀ seen caller, match f seen caller with
    | .ok _ caller' | .error _ caller' => measure caller' = measure caller + n

namespace Cache

variable {κ ν ρ ω ε : Type}

/-- The key that a call looks up or stores. -/
def Op.aims (op : Op κ ν ρ ω ε) : Option κ :=
  (op.lookup?.map (·.1)).or op.stores

private theorem Op.aims_of_lookup? {op : Op κ ν ρ ω ε} {k : κ} {update : Update ν ω ε} {evictIf : ν → Callback ω ε Bool}
    (h : op.lookup? = some (k, update, evictIf)) : op.aims = some k := by
  rw [aims, h]
  rfl

private theorem Op.aims_of_factory? {op : Op κ ν ρ ω ε} {k : κ} {make : Callback ω ε ν}
    (h : op.factory? = some (k, make)) :
    op.aims = some k := by
  obtain ⟨hstores, hlookup⟩ := stores_of_factory? h
  rw [aims, hstores, hlookup]
  rfl

/-- A measure of the caller's state counts how often a call makes a value for a key, and nothing else. -/
structure Op.Meters [BEq κ] (measure : ω → Nat) (k : κ) (op : Op κ ν ρ ω ε) : Prop where
  evictIf {k' update evictIf} : op.lookup? = some (k', update, evictIf) → ∀ value, (evictIf value).Adds measure 0
  update {k' update evictIf} : op.lookup? = some (k', update, evictIf) → update.Adds (fun world => measure world.2) 0
  view {k' view} : op = .getWith k' view → ∀ value, (view value).Adds measure 0
  make {k' make} : op.factory? = some (k', make) → make.Adds measure (if k' == k then 1 else 0)

/-- A call gets what it is made for: a lookup finds an entry and keeps it, a put has no entry evicted, and asking for a
key finds it. -/
structure Call.Welcome (call : Call κ ν ρ ω ε) : Prop where
  lookup : call.op.lookup?.isSome → call.verdict = some true
  put {k value} : call.op = .put k value → call.outcome = .ok (.evicted none)
  contains {k} : call.op = .containsKey k → call.outcome = .ok (.present true)

end Cache

namespace Sequence

open Cache (Op Call)

variable {κ ν ρ ω ε : Type} [BEq κ]

/-! ### What turns answer, and what their callbacks add up to -/

variable {limit : Nat} {es : List (κ × ν)}

private theorem lookup_kept {k : κ} (hk : (value? es k).isSome) {update : Update ν ω ε}
    {evictIf : ν → Callback ω ε Bool}
    {f : ν → ν} (hu : update.GoesBy f) (hm : Callback.GoesBy (fun _ => false) evictIf) (caller : ω) :
    kept (lookup k update evictIf es caller).outcome = some true := by
  rw [value?, Option.isSome_map] at hk
  obtain ⟨⟨key, value⟩, hf⟩ := Option.isSome_iff_exists.1 hk
  obtain ⟨caller₁, hkeep⟩ := hm value locked caller
  obtain ⟨caller₂, hupdate⟩ := hu locked value caller₁
  exact kept_lookup_kept hf hkeep hupdate

private theorem put_ok (k : κ) (value : ν) (hroom : value? es k = none → es.length < limit) (caller : ω) :
    (put limit k value es caller : Turn κ ν ω ε _).outcome = .ok none := by
  unfold put
  cases hf : es.find? (·.1 == k) with
  | none =>
    dsimp only
    unfold insert
    rw [if_neg (Nat.not_le.2 (hroom (value?_eq_none_iff.2 hf)))]
  | some e => rfl

private theorem lookup_adds {k : κ} {update : Update ν ω ε} {evictIf : ν → Callback ω ε Bool} {measure : ω → Nat}
    (hm : ∀ value, (evictIf value).Adds measure 0) (hu : update.Adds (fun world => measure world.2) 0) (caller : ω) :
    measure (lookup k update evictIf es caller).caller = measure caller := by
  unfold lookup
  cases es.find? (·.1 == k) with
  | none => rfl
  | some e =>
    have hmatch := hm e.2 locked caller
    dsimp only
    cases hrun : evictIf e.2 locked caller with
    | error stop caller₁ =>
      rw [hrun] at hmatch
      exact hmatch
    | ok matched caller₁ =>
      rw [hrun] at hmatch
      cases matched with
      | true => exact hmatch
      | false =>
        have hupdate := hu locked (e.2, caller₁)
        dsimp only at hmatch hupdate ⊢
        cases hrun' : update locked (e.2, caller₁) with
        | error stop world =>
          rw [hrun'] at hupdate
          exact hupdate.trans hmatch
        | ok _ world =>
          rw [hrun'] at hupdate
          exact hupdate.trans hmatch

private theorem put_caller (limit : Nat) (k : κ) (value : ν) (es : List (κ × ν)) (caller : ω) :
    (put limit k value es caller : Turn κ ν ω ε _).caller = caller := by
  unfold put insert
  split
  · rfl
  · split <;> rfl

/-- A factory is called where there is no value. -/
private theorem getOrInsertWith_adds {k : κ} {make : Callback ω ε ν} {measure : ω → Nat} {n : Nat}
    (hmake : make.Adds measure n) (limit : Nat) (es : List (κ × ν)) (caller : ω) :
    measure (getOrInsertWith limit k make es caller).caller =
      measure caller + if (value? es k).isSome then 0 else n := by
  unfold getOrInsertWith value?
  cases es.find? (·.1 == k) with
  | some e => rfl
  | none =>
    have hadds := hmake locked caller
    dsimp only
    cases hrun : make locked caller with
    | error stop caller' =>
      rw [hrun] at hadds
      exact hadds
    | ok value caller' =>
      rw [hrun] at hadds
      unfold insert
      dsimp only
      split <;> exact hadds

private theorem getWith_adds {k : κ} {view : ν → Callback ω Empty ρ} {measure : ω → Nat}
    (hview : ∀ value, (view value).Adds measure 0) (es : List (κ × ν)) (caller : ω) :
    measure (getWith k view es caller).caller = measure caller := by
  unfold getWith
  rw [lookup_keep]
  cases es.find? (·.1 == k) with
  | none => rfl
  | some e =>
    have hadds := hview e.2 locked caller
    dsimp only [Turn.andThen]
    cases hrun : view e.2 locked caller <;> rw [hrun] at hadds <;> exact hadds

/-! ### Mixes -/

/-- The part that a key has in a mix. -/
inductive Part where
  | updated
  | stored
  | made
deriving DecidableEq

/-- Which part each key has, which value is stored or made for it, and what each call makes of a value that it
updates; equal keys have the same part and the same value. -/
structure Mix (κ ν ρ ω ε : Type) [BEq κ] where
  part : κ → Part
  value : κ → ν
  edit : Op κ ν ρ ω ε → ν → ν
  part_congr : ∀ {k k'}, (k == k') = true → part k = part k'
  value_congr : ∀ {k k'}, (k == k') = true → value k = value k'

/-- The calls that a mix allows in a list: lookups of keys that have an entry, which never drop it and edit its value in
the way of the call; storing and making the one value of a key; and asking for a key that has an entry. -/
inductive Mix.Allows (mix : Mix κ ν ρ ω ε) (es : List (κ × ν)) : Op κ ν ρ ω ε → Prop
  | update {op k update evictIf} : op.lookup? = some (k, update, evictIf) → mix.part k = .updated →
    (value? es k).isSome → update.GoesBy (mix.edit op) → Callback.GoesBy (fun _ => false) evictIf → Allows mix es op
  | put {k} : mix.part k = .stored → Allows mix es (.put k (mix.value k))
  | make {op k make} : op.factory? = some (k, make) → mix.part k = .made →
    (∀ seen caller, ∃ caller', make seen caller = .ok (mix.value k) caller') → Allows mix es op
  | contains {k} : (value? es k).isSome → Allows mix es (.containsKey k)

/-- A mix suits a list of at most `limit` pairs if it allows all the calls, those that update one key may change places,
and there is room for all keys that are there or are stored. -/
structure Mix.Suits (mix : Mix κ ν ρ ω ε) (limit : Nat) (es : List (κ × ν)) (ops : List (Op κ ν ρ ω ε)) : Prop where
  allows : ∀ op ∈ ops, mix.Allows es op
  commutes : ∀ op ∈ ops, ∀ op' ∈ ops, ∀ k k', op.aims = some k → op'.aims = some k' → (k == k') = true →
    mix.part k = .updated → ∀ value, mix.edit op (mix.edit op' value) = mix.edit op' (mix.edit op value)
  room : ∃ keys : List κ, keys.length ≤ limit ∧ (∀ k ∈ es.map (·.1), ∃ k' ∈ keys, (k == k') = true) ∧
    ∀ op ∈ ops, ∀ k, op.stores = some k → ∃ k' ∈ keys, (k == k') = true

namespace Mix

variable (mix : Mix κ ν ρ ω ε)

/-- What a call does to the value of its key. -/
def act (op : Op κ ν ρ ω ε) (k : κ) : Act ν :=
  match mix.part k with
  | .updated => .edits (mix.edit op)
  | .stored => .stores (mix.value k)
  | .made => .makes (mix.value k)

/-- The contents after a call. -/
def after [EquivBEq κ] (z : Contents κ ν) (op : Op κ ν ρ ω ε) : Contents κ ν :=
  match op.aims with
  | some k => z.act k (mix.act op k)
  | none => z

/-- The calls on a key, in their order. -/
def on (ops : List (Op κ ν ρ ω ε)) (k : κ) : List (Op κ ν ρ ω ε) :=
  ops.filter fun op => op.aims.any (· == k)

/-- The value of a key after calls. -/
def final (ops : List (Op κ ν ρ ω ε)) (old : κ → Option ν) (k : κ) : Option ν :=
  match mix.part k with
  | .updated => (old k).map fun value => (on ops k).foldl (fun value op => mix.edit op value) value
  | .stored => if (on ops k).isEmpty then old k else some (mix.value k)
  | .made => (old k).or (if (on ops k).isEmpty then none else some (mix.value k))

/-- How often a value is made for a key: once if there is none and one is asked for, else never. -/
def makings (ops : List (Op κ ν ρ ω ε)) (old : κ → Option ν) (k : κ) : Nat :=
  if mix.part k = .made ∧ old k = none ∧ (on ops k).isEmpty = false then 1 else 0

variable {mix} {es' : List (κ × ν)} {ops : List (Op κ ν ρ ω ε)} {op op' : Op κ ν ρ ω ε}

private theorem on_cons (op : Op κ ν ρ ω ε) (ops : List (Op κ ν ρ ω ε)) (k : κ) :
    on (op :: ops) k = if op.aims.any (· == k) then op :: on ops k else on ops k :=
  List.filter_cons

private theorem act_congr {k k' : κ} (hk : (k == k') = true) : mix.act op k = mix.act op k' := by
  unfold act
  rw [mix.part_congr hk, mix.value_congr hk]

private theorem act_commutes {k k' : κ} (hk : (k == k') = true)
    (hedit : mix.part k = .updated → ∀ value, mix.edit op (mix.edit op' value) = mix.edit op' (mix.edit op value)) :
    (mix.act op k).Commutes (mix.act op' k') := by
  rw [← act_congr hk]
  unfold act
  cases hp : mix.part k with
  | updated => exact .edits (hedit hp)
  | stored => exact .stores
  | made => exact .makes

/-- A mix suits calls in whatever order. -/
theorem Suits.perm (h : mix.Suits limit es ops) {ops' : List (Op κ ν ρ ω ε)} (hp : ops'.Perm ops) :
    mix.Suits limit es ops' := by
  obtain ⟨keys, hlimit, hes, hops⟩ := h.room
  exact ⟨fun op hop => h.allows op (hp.subset hop),
    fun op hop op' hop' => h.commutes op (hp.subset hop) op' (hp.subset hop'),
    keys, hlimit, hes, fun op hop => hops op (hp.subset hop)⟩

variable [EquivBEq κ]

/-- Calls of a mix that suits may change places. -/
private theorem Suits.after_comm (h : mix.Suits limit es ops) (hop : op ∈ ops) (hop' : op' ∈ ops) (z : Contents κ ν) :
    mix.after (mix.after z op) op' = mix.after (mix.after z op') op := by
  unfold after
  cases hk : op.aims with
  | none => rfl
  | some k =>
    cases hk' : op'.aims with
    | none => rfl
    | some k' => exact z.act_comm fun hkk' => act_commutes hkk' (h.commutes op hop op' hop' k k' hk hk' hkk')

/-- The contents after a mix do not hang on the order of its calls. -/
theorem Suits.foldl_perm (h : mix.Suits limit es ops) {ops' : List (Op κ ν ρ ω ε)} (hp : ops.Perm ops')
    (z : Contents κ ν) : ops.foldl mix.after z = ops'.foldl mix.after z :=
  hp.foldl_eq' (fun _ hop _ hop' z => h.after_comm hop hop' z) z

/-! ### Contents key by key -/

private theorem after_value (z : Contents κ ν) (op : Op κ ν ρ ω ε) (k : κ) :
    (mix.after z op).value k =
      if op.aims.any (· == k) then (mix.act op k).value (z.value k) else z.value k := by
  unfold after
  cases op.aims with
  | none => rfl
  | some k' =>
    rw [Option.any_some]
    show (if k' == k then _ else _) = _
    split
    · rename_i hk
      rw [act_congr hk, z.congr hk]
    · rfl

private theorem after_made (z : Contents κ ν) (op : Op κ ν ρ ω ε) (k : κ) :
    (mix.after z op).made k =
      z.made k + if op.aims.any (· == k) then (mix.act op k).made (z.value k) else 0 := by
  unfold after
  cases op.aims with
  | none => rfl
  | some k' =>
    rw [Option.any_some]
    show z.made k + (if k' == k then _ else _) = _
    split
    · rename_i hk
      rw [act_congr hk, z.congr hk]
    · rfl

/-- The value of a key after calls is that which its part says. -/
theorem foldl_value (ops : List (Op κ ν ρ ω ε)) (z : Contents κ ν) (k : κ) :
    (ops.foldl mix.after z).value k = mix.final ops z.value k := by
  induction ops generalizing z with
  | nil =>
    unfold final
    cases mix.part k with
    | updated => exact (Option.map_id' ..).symm
    | stored => rfl
    | made => exact (Option.or_none ..).symm
  | cons op ops ih =>
    rw [List.foldl_cons, ih]
    unfold final
    rw [after_value, on_cons]
    by_cases haims : op.aims.any (· == k) = true
    · rw [if_pos haims, if_pos haims]
      unfold act
      cases mix.part k with
      | updated => exact Option.map_map ..
      | stored => exact ite_self _
      | made =>
        show ((z.value k).or _).or _ = (z.value k).or _
        rw [Option.or_assoc]
        rfl
    · rw [if_neg haims, if_neg haims]

/-- A value is made for a key as often as its part says. -/
theorem foldl_made (ops : List (Op κ ν ρ ω ε)) (z : Contents κ ν) (k : κ) :
    (ops.foldl mix.after z).made k = z.made k + mix.makings ops z.value k := by
  induction ops generalizing z with
  | nil =>
    unfold makings
    rw [if_neg fun h => nomatch h.2.2]
    rfl
  | cons op ops ih =>
    rw [List.foldl_cons, ih]
    unfold makings
    rw [after_made, after_value, on_cons, Nat.add_assoc]
    by_cases haims : op.aims.any (· == k) = true
    · rw [if_pos haims, if_pos haims, if_pos haims]
      unfold act
      cases mix.part k with
      | updated | stored => simp [Act.made]
      | made => cases z.value k <;> simp [Act.made, Act.value]
    · rw [if_neg haims, if_neg haims, if_neg haims, Nat.zero_add]

/-- So neither do the values nor the number of values made. -/
theorem Suits.final_perm (h : mix.Suits limit es ops) {ops' : List (Op κ ν ρ ω ε)} (hp : ops'.Perm ops) (k : κ) :
    mix.final ops' (value? es) k = mix.final ops (value? es) k ∧
      mix.makings ops' (value? es) k = mix.makings ops (value? es) k := by
  have hfoldl := h.foldl_perm hp.symm (.ofList es)
  have hvalue := congrArg (·.value k) hfoldl
  have hmade := congrArg (·.made k) hfoldl
  rw [foldl_value, foldl_value] at hvalue
  rw [foldl_made, foldl_made] at hmade
  exact ⟨hvalue.symm, (Nat.add_left_cancel hmade).symm⟩

/-- Nothing is evicted. -/
theorem foldl_evictions (ops : List (Op κ ν ρ ω ε)) (z : Contents κ ν) :
    (ops.foldl mix.after z).counted .evictions = z.counted .evictions := by
  induction ops generalizing z with
  | nil => rfl
  | cons op ops ih =>
    rw [List.foldl_cons, ih]
    unfold after
    cases op.aims with
    | none => rfl
    | some k =>
      show z.counted .evictions + tally _ .evictions = _
      rw [Act.tally_evictions]
      rfl

/-- No counter goes up by more than one a call. -/
theorem foldl_counted_le (ops : List (Op κ ν ρ ω ε)) (z : Contents κ ν) (c : Counter) :
    (ops.foldl mix.after z).counted c ≤ z.counted c + ops.length := by
  induction ops generalizing z with
  | nil => exact Nat.le_refl _
  | cons op ops ih =>
    have hrest := ih (mix.after z op)
    have hfirst : (mix.after z op).counted c ≤ z.counted c + 1 := by
      unfold after
      cases op.aims with
      | none => exact Nat.le_succ _
      | some k => exact Nat.add_le_add_left (Act.tally_le ..) _
    rw [List.foldl_cons, List.length_cons]
    omega

/-! ### The keys -/

omit [EquivBEq κ] in
/-- A call that is allowed stores the key at which it aims, unless the mix updates that key. -/
private theorem Allows.any_stores (h : mix.Allows es op) (k : κ) :
    op.stores.any (· == k) = (op.aims.any (· == k) && mix.part k ≠ .updated) := by
  have hpart {k' : κ} (hp : mix.part k' ≠ .updated) : (k' == k) = ((k' == k) && mix.part k ≠ .updated) := by
    cases hk : k' == k with
    | false => rfl
    | true => simpa [← mix.part_congr hk] using hp
  cases h with
  | @update _ k' update evictIf hl hp =>
    have hstores : op.stores = none := by
      cases op <;> first | rfl | cases hl
    rw [hstores, Cache.Op.aims_of_lookup? hl, Option.any_some]
    cases hk : k' == k with
    | false => rfl
    | true => simp [← mix.part_congr hk, hp]
  | put hp => exact hpart (by simp [hp])
  | make hm hp =>
    rw [(Op.stores_of_factory? hm).1, Cache.Op.aims_of_factory? hm]
    exact hpart (by simp [hp])
  | contains => rfl

omit [EquivBEq κ] in
private theorem isEmpty_on (ops : List (Op κ ν ρ ω ε)) (k : κ) :
    (on ops k).isEmpty = !ops.any fun op => op.aims.any (· == k) := by
  induction ops with
  | nil => rfl
  | cons op ops ih =>
    rw [on_cons, List.any_cons]
    cases op.aims.any (· == k) with
    | true => rfl
    | false => exact ih

omit [EquivBEq κ] in
private theorem any_stores (h : ∀ op ∈ ops, mix.Allows es op) (k : κ) :
    (ops.any fun op => op.stores.any (· == k)) = (!(on ops k).isEmpty && mix.part k ≠ .updated) := by
  rw [isEmpty_on, Bool.not_not]
  induction ops with
  | nil => rfl
  | cons op ops ih =>
    rw [List.forall_mem_cons] at h
    rw [List.any_cons, List.any_cons, h.1.any_stores, ih h.2, Bool.and_or_distrib_right]

omit [EquivBEq κ] in
/-- In the end there are the keys that were there and those that are stored. -/
theorem isSome_final (h : ∀ op ∈ ops, mix.Allows es op) (old : κ → Option ν) (k : κ) :
    (mix.final ops old k).isSome = ((old k).isSome || ops.any fun op => op.stores.any (· == k)) := by
  rw [any_stores h]
  unfold final
  cases mix.part k with
  | updated => simp
  | stored => cases (on ops k).isEmpty <;> simp
  | made => cases (on ops k).isEmpty <;> simp

/-! ### Turns -/

omit [EquivBEq κ] in
/-- A mix allows the same calls in a list that has all the keys. -/
private theorem Allows.mono (h : mix.Allows es op) (hstay : ∀ k, (value? es k).isSome → (value? es' k).isSome) :
    mix.Allows es' op := by
  cases h with
  | update hl hp hk hu hm => exact .update hl hp (hstay _ hk) hu hm
  | put hp => exact .put hp
  | make hm hp hmake => exact .make hm hp hmake
  | contains hk => exact .contains (hstay _ hk)

/-- A call that is allowed, and has room for its entry, does its act. -/
private theorem Allows.acts (h : mix.Allows es op) {k : κ} (hk : op.aims = some k) (hd : Distinct (es.map (·.1)))
    (hroom : op.stores = some k → value? es k = none → es.length < limit) (caller : ω) :
    Acts (mix.act op k) k es (step limit op es caller).effect := by
  cases h with
  | update hl hp _ hu hm =>
    cases (Cache.Op.aims_of_lookup? hl).symm.trans hk
    have hgoes := step_of_lookup? hl limit es caller
    have heffect : (step limit op es caller).effect = (lookup _ _ _ es caller).effect :=
      Prod.ext hgoes.entries hgoes.counted
    rw [heffect, act, hp]
    exact lookup_acts hd hu hm caller
  | put hp =>
    cases hk
    rw [act, hp]
    exact put_acts hd (hroom rfl) _ caller
  | make hm hp hmake =>
    cases (Cache.Op.aims_of_factory? hm).symm.trans hk
    obtain ⟨caller', hrun⟩ := hmake locked caller
    rw [act, hp, step_of_factory? hm]
    exact getOrInsertWith_acts hd (hroom (Op.stores_of_factory? hm).1) hrun
  | contains => cases hk

omit [EquivBEq κ] in
/-- A call that neither looks up nor stores changes nothing. -/
private theorem Allows.idle (h : mix.Allows es op) (hk : op.aims = none) (limit : Nat) (caller : ω) :
    ∃ reply, step limit op es caller = { outcome := .ok reply, entries := es, caller } := by
  cases h with
  | update hl =>
    rw [Cache.Op.aims_of_lookup? hl] at hk
    cases hk
  | put => cases hk
  | make hm =>
    rw [Cache.Op.aims_of_factory? hm] at hk
    cases hk
  | contains => exact ⟨_, rfl⟩

/-- There is room for the entry of a call that stores a key. -/
private theorem Suits.length_lt (h : mix.Suits limit es (op :: ops)) (hd : Distinct (es.map (·.1))) {k : κ}
    (hk : op.stores = some k) (hnone : value? es k = none) : es.length < limit := by
  obtain ⟨keys, hlimit, hes, hops⟩ := h.room
  have hdistinct : Distinct (k :: es.map (·.1)) :=
    Distinct.cons_iff.2 ⟨fun k' hk' => beq_eq_false_of_find? (value?_eq_none_iff.1 hnone) hk', hd⟩
  have hlen := hdistinct.length_le (List.forall_mem_cons.2 ⟨hops op (List.mem_cons_self ..) k hk, hes⟩)
  rw [List.length_cons, List.length_map] at hlen
  omega

/-- A turn of a mix goes as the contents go. -/
private theorem Suits.shows (h : mix.Suits limit es (op :: ops)) (hd : Distinct (es.map (·.1))) {z : Contents κ ν}
    (hz : z.Shows es) (caller : ω) :
    (mix.after z op).Shows (step limit op es caller).entries ∧
      ∀ c, (mix.after z op).counted c = z.counted c + tally (step limit op es caller).counted c := by
  have hallows := h.allows op (List.mem_cons_self ..)
  unfold after
  cases hk : op.aims with
  | none =>
    obtain ⟨reply, hidle⟩ := hallows.idle hk limit caller
    rw [hidle]
    exact ⟨hz, fun _ => rfl⟩
  | some k =>
    have hacts := hallows.acts hk hd (h.length_lt hd) caller
    exact ⟨hacts.shows hz, hacts.tally hz⟩

/-- No act takes a key out. -/
private theorem isSome_after {z : Contents κ ν} {k : κ} (h : (z.value k).isSome) :
    ((mix.after z op).value k).isSome := by
  rw [after_value]
  split
  · unfold act
    cases mix.part k with
    | updated => rwa [Act.value, Option.isSome_map]
    | stored => rfl
    | made => rw [Act.value, Option.isSome_or, h, Bool.true_or]
  · exact h

/-- A mix suits the list after a turn as well. -/
private theorem Suits.tail (h : mix.Suits limit es (op :: ops)) (hl : 0 < limit) (hd : Distinct (es.map (·.1)))
    (caller : ω) : mix.Suits limit (step limit op es caller).entries ops := by
  have hshows := (h.shows hd (z := .ofList es) (fun _ => rfl) caller).1
  have hstay (k : κ) (hk : (value? es k).isSome) : (value? (step limit op es caller).entries k).isSome := by
    rw [← hshows]
    exact isSome_after hk
  obtain ⟨keys, hlimit, hes, hops⟩ := h.room
  have hmoves := step_moves limit caller hl hd op
  have hamong := (hmoves.among hd hlimit hes fun k hk _ _ => hops op (List.mem_cons_self ..) k hk).2
  exact ⟨fun op' hop => (h.allows op' (List.mem_cons_of_mem _ hop)).mono hstay,
    fun op₁ h₁ op₂ h₂ => h.commutes op₁ (List.mem_cons_of_mem _ h₁) op₂ (List.mem_cons_of_mem _ h₂),
    keys, hlimit, hamong, fun op' hop => hops op' (List.mem_cons_of_mem _ hop)⟩

/-! ### What calls get -/

/-- Every call of a mix gets what it is made for. -/
private theorem Suits.welcome (h : mix.Suits limit es (op :: ops)) (hd : Distinct (es.map (·.1))) (caller : ω) :
    (called limit op es caller).Welcome := by
  have hallows := h.allows op (List.mem_cons_self ..)
  refine ⟨fun hlookup => ?_, fun {k value} hop => ?_, fun {k} hop => ?_⟩
  · have hlookup' : op.lookup?.isSome := hlookup
    cases hallows with
    | update hl _ hk hu hm =>
      have hgoes := step_of_lookup? hl limit es caller
      exact (hgoes.verdict _).trans (lookup_kept hk hu hm caller)
    | put | contains => cases hlookup'
    | make hm =>
      rw [(Op.stores_of_factory? hm).2] at hlookup'
      cases hlookup'
  · have hput : op = .put k value := hop
    subst hput
    have hok := put_ok (ε := ε) k value (h.length_lt hd rfl) caller
    exact congrArg (Except.map _) hok
  · have hcontains : op = .containsKey k := hop
    subst hcontains
    cases hallows with
    | update hl => cases hl
    | make hm => cases hm
    | contains hk =>
      have hany : es.any (·.1 == k) = true := by
        rw [value?, Option.isSome_map, List.find?_isSome] at hk
        exact List.any_eq_true.2 hk
      show (Except.ok (.present (es.any (·.1 == k))) : Cache.Outcome κ ν ρ ε) = _
      rw [hany]

/-! ### What is made -/

omit [EquivBEq κ] in
/-- A call on a key that is updated or stored makes no value. -/
private theorem made_act {k k' : κ} (haims : op.aims = some k') (hp : mix.part k' ≠ .made) (old : Option ν) :
    (if op.aims.any (· == k) then (mix.act op k).made old else 0) = 0 := by
  rw [haims, Option.any_some]
  split
  · rename_i hk
    rw [← act_congr hk, act]
    cases hpart : mix.part k' with
    | updated | stored => rfl
    | made => exact absurd hpart hp
  · rfl

/-- A value is made as often as the act of a call says. -/
private theorem Allows.adds (h : mix.Allows es op) {measure : ω → Nat} {k : κ} (hmeters : op.Meters measure k)
    (limit : Nat) (caller : ω) :
    measure (step limit op es caller).caller =
      measure caller + if op.aims.any (· == k) then (mix.act op k).made (value? es k) else 0 := by
  cases h with
  | @update _ k' update evictIf hl hp =>
    rw [made_act (Cache.Op.aims_of_lookup? hl) (by simp [hp])]
    by_cases hview : ∃ k view, op = .getWith k view
    · obtain ⟨k', view, rfl⟩ := hview
      exact getWith_adds (hmeters.view rfl) es caller
    · rw [(step_of_lookup? hl limit es caller).caller fun k view hop => hview ⟨k, view, hop⟩]
      exact lookup_adds (hmeters.evictIf hl) (hmeters.update hl) caller
  | @put k' hp =>
    rw [made_act rfl (by simp [hp])]
    exact congrArg measure (put_caller limit k' (mix.value k') es caller)
  | @make _ k' make hm hp =>
    rw [step_of_factory? hm, Cache.Op.aims_of_factory? hm, Option.any_some]
    refine (getOrInsertWith_adds (hmeters.make hm) limit es caller).trans ?_
    by_cases hk : (k' == k) = true
    · rw [if_pos hk, if_pos hk, ← act_congr hk, act, hp, value?_congr es hk]
      cases value? es k <;> rfl
    · rw [if_neg hk, if_neg hk, ite_self]
  | contains => rfl

end Mix

/-! ### A whole mix -/

/-- The list and the caller's state after operations made one after the other. -/
def finish (limit : Nat) (es : List (κ × ν)) (caller : ω) : List (Op κ ν ρ ω ε) → List (κ × ν) × ω
  | [] => (es, caller)
  | op :: ops =>
    let t := step limit op es caller
    finish limit t.entries t.caller ops

/-- Operations made one after the other go as the contents go. -/
structure Mix.Goes [EquivBEq κ] (mix : Mix κ ν ρ ω ε) (limit : Nat) (z : Contents κ ν) (es : List (κ × ν)) (caller : ω)
    (ops : List (Op κ ν ρ ω ε)) : Prop where
  shows : (ops.foldl mix.after z).Shows (finish limit es caller ops).1
  counted : ∀ c, (ops.foldl mix.after z).counted c =
    z.counted c + tally ((run limit es caller ops).flatMap (·.counted)) c
  welcome : ∀ call ∈ calls limit es caller ops, call.Welcome
  made : ∀ measure k, (∀ op ∈ ops, op.Meters measure k) →
    measure (finish limit es caller ops).2 + z.made k = measure caller + (ops.foldl mix.after z).made k

/-- While there is room for all keys of a mix, a list goes as its contents go. -/
theorem Mix.Suits.goes [EquivBEq κ] {mix : Mix κ ν ρ ω ε} {limit : Nat} {es : List (κ × ν)} {ops : List (Op κ ν ρ ω ε)}
    (h : mix.Suits limit es ops) (hl : 0 < limit) (hd : Distinct (es.map (·.1))) {z : Contents κ ν}
    (hz : z.Shows es) (caller : ω) : mix.Goes limit z es caller ops := by
  induction ops generalizing es z caller with
  | nil => exact ⟨hz, fun _ => rfl, nofun, fun _ _ _ => rfl⟩
  | cons op ops ih =>
    obtain ⟨hshows, hcounted⟩ := h.shows hd hz caller
    have hdistinct := (step_moves limit caller hl hd op).distinct hd
    have hrest := ih (h.tail hl hd caller) hdistinct hshows (step limit op es caller).caller
    refine ⟨hrest.shows, fun c => ?_, ?_, fun measure k hmeters => ?_⟩
    · rw [List.foldl_cons, hrest.counted, hcounted, Nat.add_assoc, ← tally_append]
      rfl
    · exact List.forall_mem_cons.2 ⟨h.welcome hd caller, hrest.welcome⟩
    · have hadds := (h.allows op (List.mem_cons_self ..)).adds (hmeters op (List.mem_cons_self ..)) limit caller
      have hmade : (mix.after z op).made k = _ := after_made z op k
      have hmeasure := hrest.made measure k fun op' hop => hmeters op' (List.mem_cons_of_mem _ hop)
      rw [hz] at hmade
      show measure (finish limit _ _ ops).2 + _ = _
      rw [List.foldl_cons]
      omega

end Sequence

end RecencyCache
