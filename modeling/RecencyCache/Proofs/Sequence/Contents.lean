import RecencyCache.Proofs.Keyed
import RecencyCache.Proofs.Sequence.Edits

/-!
# The contents of a list

The contents of a list are what it has under each key, in whatever order.  What a call does to the value of its key is
an act, and acts on one key that are of one kind may change places (`Act.Commutes`); so may all acts on contents,
whatever their keys (`Contents.act_comm`).  While there is room, lookups that keep their entry, puts, and values made
on demand do no more than an act (`lookup_acts`, `put_acts`, `getOrInsertWith_acts`).
-/

namespace RecencyCache

namespace Sequence

open Metrics (Happening)

variable {κ ν ω ε : Type}

/-! ### Acts on one value -/

/-- What a call of a mix does to the value of its key, where there is one and where there is none. -/
inductive Act (ν : Type) where
  | edits (f : ν → ν)
  | stores (value : ν)
  | makes (value : ν)

namespace Act

/-- The value afterwards. -/
def value : Act ν → Option ν → Option ν
  | edits f, old => old.map f
  | stores value, _ => some value
  | makes value, old => old.or (some value)

/-- What happens that is worth counting. -/
def counted : Act ν → Option ν → List Happening
  | edits _, some _ | makes _, some _ => [.hit]
  | edits _, none => [.miss]
  | stores _, some _ => [.update]
  | stores _, none => [.insertion]
  | makes _, none => [.miss, .insertion]

/-- How often a value is made. -/
def made : Act ν → Option ν → Nat
  | makes _, none => 1
  | _, _ => 0

/-- Two acts on one key may change places: edits that do, and acts that store or make the same value. -/
inductive Commutes : Act ν → Act ν → Prop
  | edits {f g} : (∀ value, f (g value) = g (f value)) → Commutes (edits f) (edits g)
  | stores {value} : Commutes (stores value) (stores value)
  | makes {value} : Commutes (makes value) (makes value)

variable {a b : Act ν}

private theorem Commutes.value (h : a.Commutes b) (old : Option ν) : b.value (a.value old) = a.value (b.value old) := by
  cases h with
  | edits h =>
    cases old with
    | none => rfl
    | some old => exact congrArg some (h old).symm
  | stores | makes => rfl

private theorem Commutes.tally (h : a.Commutes b) (old : Option ν) (c : Counter) :
    tally (a.counted old) c + tally (b.counted (a.value old)) c =
      tally (b.counted old) c + tally (a.counted (b.value old)) c := by
  cases h with
  | edits | stores | makes => cases old <;> rfl

private theorem Commutes.made (h : a.Commutes b) (old : Option ν) :
    a.made old + b.made (a.value old) = b.made old + a.made (b.value old) := by
  cases h with
  | edits | stores | makes => cases old <;> rfl

/-- Nothing is evicted. -/
theorem tally_evictions (a : Act ν) (old : Option ν) : Sequence.tally (a.counted old) .evictions = 0 := by
  cases a <;> cases old <;> rfl

/-- No counter goes up by more than one. -/
theorem tally_le (a : Act ν) (old : Option ν) (c : Counter) : Sequence.tally (a.counted old) c ≤ 1 := by
  cases a <;> cases old <;> cases c <;> exact Nat.le_of_ble_eq_true rfl

end Act

/-! ### Acts on contents -/

variable [BEq κ]

/-- What a list has under each key, how often each counter has been bumped, and how often a value was made for each
key. -/
structure Contents (κ ν : Type) [BEq κ] where
  value : κ → Option ν
  counted : Counter → Nat
  made : κ → Nat
  congr : ∀ {k k'}, (k == k') = true → value k = value k'

namespace Contents

@[ext] theorem ext {z z' : Contents κ ν} (hvalue : z.value = z'.value) (hcounted : z.counted = z'.counted)
    (hmade : z.made = z'.made) : z = z' := by
  obtain ⟨value, counted, made, _⟩ := z
  obtain ⟨value', counted', made', _⟩ := z'
  cases hvalue
  cases hcounted
  cases hmade
  rfl

variable [EquivBEq κ]

/-- An act on the value of a key. -/
def act (z : Contents κ ν) (k : κ) (a : Act ν) : Contents κ ν where
  value k' := if k == k' then a.value (z.value k) else z.value k'
  counted c := z.counted c + tally (a.counted (z.value k)) c
  made k' := z.made k' + if k == k' then a.made (z.value k) else 0
  congr h := by rw [BEq.congr_right h, z.congr h]

/-- Acts may change places if those on one key may. -/
theorem act_comm {k k' : κ} {a b : Act ν} (h : (k == k') = true → a.Commutes b) (z : Contents κ ν) :
    (z.act k a).act k' b = (z.act k' b).act k a := by
  cases hk : k == k' with
  | true =>
    have hcomm := h hk
    have hvalue : z.value k = z.value k' := z.congr hk
    have hk' : (k' == k) = true := BEq.symm hk
    refine Contents.ext ?_ ?_ ?_
    · funext x
      simp only [act, hk', if_true, hvalue, BEq.congr_left hk, BEq.refl]
      split
      · exact hcomm.value _
      · rfl
    · funext c
      have htally := hcomm.tally (z.value k') c
      simp only [act, hk, hk', if_true, hvalue]
      omega
    · funext x
      have hmade := hcomm.made (z.value k')
      simp only [act, hk', if_true, hvalue, BEq.congr_left hk, BEq.refl]
      split <;> omega
  | false =>
    have hk' : (k' == k) = false := by rw [BEq.comm, hk]
    refine Contents.ext ?_ ?_ ?_
    · funext x
      simp only [act, hk, hk', Bool.false_eq_true, if_false]
      by_cases hx : (k' == x) = true
      · have hkx : (k == x) = false := by rw [← BEq.congr_right hx, hk]
        simp [hx, hkx]
      · simp [hx]
    · funext c
      simp only [act, hk, hk', Bool.false_eq_true, if_false]
      omega
    · funext x
      simp only [act, hk, hk', Bool.false_eq_true, if_false]
      omega

end Contents

/-! ### Turns as acts -/

/-- The value that a list has under a key. -/
def value? (es : List (κ × ν)) (k : κ) : Option ν :=
  (es.find? (·.1 == k)).map (·.2)

variable {es : List (κ × ν)} {k key : κ}

private theorem value?_cons (e : κ × ν) (es : List (κ × ν)) (k : κ) :
    value? (e :: es) k = if e.1 == k then some e.2 else value? es k := by
  unfold value?
  rw [List.find?_cons]
  cases e.1 == k <;> rfl

private theorem value?_of_find? {value : ν} (hf : es.find? (·.1 == k) = some (key, value)) : value? es k = some value :=
  congrArg (Option.map _) hf

theorem value?_eq_none_iff : value? es k = none ↔ es.find? (·.1 == k) = none :=
  Option.map_eq_none_iff

private theorem value?_isSome_iff : (value? es k).isSome ↔ ∃ key ∈ es.map (·.1), (key == k) = true := by
  unfold value?
  rw [Option.isSome_map, List.find?_isSome]
  simp

variable [EquivBEq κ]

theorem value?_congr (es : List (κ × ν)) {k k' : κ} (hk : (k == k') = true) : value? es k = value? es k' := by
  unfold value?
  simp only [BEq.congr_right hk]

/-- A list whose keys are distinct is no longer than one that has all its keys. -/
theorem length_le_of_value? {es es' : List (κ × ν)} (hd : Distinct (es.map (·.1)))
    (h : ∀ k, (value? es k).isSome → (value? es' k).isSome) : es.length ≤ es'.length := by
  have hkeys : ∀ k ∈ es.map (·.1), ∃ key ∈ es'.map (·.1), (k == key) = true := by
    intro k hk
    obtain ⟨key, hkey, hbeq⟩ := value?_isSome_iff.1 (h k (value?_isSome_iff.2 ⟨k, hk, BEq.refl k⟩))
    exact ⟨key, hkey, BEq.symm hbeq⟩
  have hlen := hd.length_le hkeys
  rwa [List.length_map, List.length_map] at hlen

/-- Putting the pair of a key in front matters to the value of that key only. -/
private theorem value?_moved (hd : Distinct (es.map (·.1))) {old : ν} (hf : es.find? (·.1 == k) = some (key, old))
    (value : ν) (k' : κ) :
    value? ((key, value) :: es.eraseP (·.1 == k)) k' = if k == k' then some value else value? es k' := by
  obtain ⟨hk, L, R, rfl⟩ := exists_split_of_find? hf
  rw [hd.eraseP_eq hk, value?_cons, BEq.congr_left hk]
  split
  · rfl
  · rename_i hne
    unfold value?
    rw [hd.find?_append_cons, BEq.congr_left hk, if_neg hne]

namespace Contents

/-- What a list has, when nothing has been counted or made yet. -/
def ofList (es : List (κ × ν)) : Contents κ ν where
  value := value? es
  counted _ := 0
  made _ := 0
  congr := value?_congr es

/-- The contents have the values of a list. -/
def Shows (z : Contents κ ν) (es : List (κ × ν)) : Prop :=
  ∀ k, z.value k = value? es k

end Contents

/-- What a turn makes of a list, and what it counts, are an act on the value of one key. -/
structure Acts (a : Act ν) (k : κ) (es : List (κ × ν)) (effect : List (κ × ν) × List Happening) : Prop where
  value : ∀ k', value? effect.1 k' = if k == k' then a.value (value? es k) else value? es k'
  counted : effect.2 = a.counted (value? es k)

theorem Acts.shows {a : Act ν} {effect : List (κ × ν) × List Happening} (h : Acts a k es effect) {z : Contents κ ν}
    (hz : z.Shows es) : (z.act k a).Shows effect.1 := by
  intro k'
  show (if k == k' then _ else _) = _
  rw [h.value, hz, hz]

theorem Acts.tally {a : Act ν} {effect : List (κ × ν) × List Happening} (h : Acts a k es effect) {z : Contents κ ν}
    (hz : z.Shows es) (c : Counter) : (z.act k a).counted c = z.counted c + Sequence.tally effect.2 c := by
  show z.counted c + Sequence.tally (a.counted (z.value k)) c = _
  rw [h.counted, hz]

section

variable (hd : Distinct (es.map (·.1)))

include hd

/-- A lookup that keeps its entry edits its value. -/
theorem lookup_acts {update : Update ν ω ε} {evictIf : ν → Callback ω ε Bool} {f : ν → ν} (hu : update.GoesBy f)
    (hm : Callback.GoesBy (fun _ => false) evictIf) (caller : ω) :
    Acts (.edits f) k es (lookup k update evictIf es caller).effect := by
  rw [lookup_edit 0 k es caller hu hm]
  cases hf : es.find? (·.1 == k) with
  | none =>
    have hnone := value?_eq_none_iff.2 hf
    rw [Edit.apply_lookup_of_none hf]
    refine ⟨fun k' => ?_, by rw [hnone]; rfl⟩
    split
    · rename_i hk
      rw [← value?_congr es hk, hnone]
      rfl
    · rfl
  | some e =>
    have hvalue := value?_of_find? hf
    rw [Edit.apply_lookup_of_keeps hf Bool.false_ne_true]
    exact ⟨fun k' => by rw [hvalue]; exact value?_moved hd hf _ k', by rw [hvalue]; rfl⟩

variable {limit : Nat} (hroom : value? es k = none → es.length < limit)

include hroom

/-- A put stores its value. -/
theorem put_acts (value : ν) (caller : ω) :
    Acts (.stores value) k es (put limit k value es caller : Turn κ ν ω ε _).effect := by
  rw [put_edit]
  cases hf : es.find? (·.1 == k) with
  | none =>
    have hnone := value?_eq_none_iff.2 hf
    rw [Edit.apply_put_of_room hf (Nat.not_le.2 (hroom hnone))]
    exact ⟨fun k' => value?_cons .., by rw [hnone]; rfl⟩
  | some e =>
    rw [Edit.apply_put_of_some hf]
    exact ⟨value?_moved hd hf value, by rw [value?_of_find? hf]; rfl⟩

/-- A value is made where there is none. -/
theorem getOrInsertWith_acts {make : Callback ω ε ν} {value : ν} {caller caller' : ω}
    (hrun : make locked caller = .ok value caller') :
    Acts (.makes value) k es (getOrInsertWith limit k make es caller).effect := by
  unfold getOrInsertWith
  cases hf : es.find? (·.1 == k) with
  | none =>
    have hnone := value?_eq_none_iff.2 hf
    dsimp only
    rw [hrun]
    dsimp only
    unfold insert
    rw [if_neg (Nat.not_le.2 (hroom hnone))]
    exact ⟨fun k' => by rw [hnone]; exact value?_cons .., by rw [hnone]; rfl⟩
  | some e =>
    have hvalue := value?_of_find? hf
    exact ⟨fun k' => by rw [hvalue]; exact value?_moved hd hf e.2 k', by rw [hvalue]; rfl⟩

end

end Sequence

end RecencyCache
