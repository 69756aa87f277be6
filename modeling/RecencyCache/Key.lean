/-!
# Keys

A key is a number or a text.  Two wrappers change how keys are told apart: `Caseless` keys count as equal when their
texts differ in ASCII case only, and `Coarse n` keys are spread over few hashes, which changes no answer of a map.
-/

namespace RecencyCache

/-- A number of 64 bits or a text; a number is never a text. -/
inductive Key where
  | int (n : Int64)
  | text (s : String)
deriving DecidableEq, Hashable

/-- A type of keys that stands for `Key`, perhaps with an equality of its own. -/
class KeyForm (κ : Type) extends BEq κ, Hashable κ, EquivBEq κ, LawfulHashable κ where
  ofKey : Key → κ
  toKey : κ → Key

instance : KeyForm Key where
  ofKey := id
  toKey := id

/-! ### Keys up to ASCII case -/

/-- The key with the letters `A` to `Z` in lower case. -/
def Key.fold : Key → Key
  | .int n => .int n
  | .text s => .text (s.map Char.toLower)

/-- A key whose case does not count. -/
structure Caseless where
  key : Key

namespace Caseless

instance : BEq Caseless where
  beq a b := a.key.fold == b.key.fold

instance : Hashable Caseless where
  hash a := hash a.key.fold

private theorem beq_iff {a b : Caseless} : (a == b) = true ↔ a.key.fold = b.key.fold := by
  show (a.key.fold == b.key.fold) = true ↔ _
  exact beq_iff_eq

instance : EquivBEq Caseless where
  rfl := beq_iff.2 rfl
  symm h := beq_iff.2 (beq_iff.1 h).symm
  trans h h' := beq_iff.2 ((beq_iff.1 h).trans (beq_iff.1 h'))

instance : LawfulHashable Caseless where
  hash_eq a b h := by
    show hash a.key.fold = hash b.key.fold
    rw [beq_iff.1 h]

instance : KeyForm Caseless where
  ofKey := Caseless.mk
  toKey := Caseless.key

end Caseless

/-! ### Keys with few hashes -/

/-- A key with one of `n` hashes, or with hash zero where `n` is zero. -/
structure Coarse (n : Nat) (κ : Type) where
  inner : κ

namespace Coarse

variable {n : Nat} {κ : Type}

instance [BEq κ] : BEq (Coarse n κ) where
  beq a b := a.inner == b.inner

instance [Hashable κ] : Hashable (Coarse n κ) where
  hash a := if n = 0 then 0 else UInt64.ofNat ((hash a.inner).toNat % n)

instance [BEq κ] [EquivBEq κ] : EquivBEq (Coarse n κ) where
  rfl {a} := BEq.refl a.inner
  symm {a b} h := show (b.inner == a.inner) = true from BEq.symm h
  trans {a b c} h h' := show (a.inner == c.inner) = true from BEq.trans (b := b.inner) h h'

instance [BEq κ] [Hashable κ] [LawfulHashable κ] : LawfulHashable (Coarse n κ) where
  hash_eq a b h := by
    have : hash a.inner = hash b.inner := LawfulHashable.hash_eq _ _ h
    simp only [Hashable.hash] at this ⊢
    rw [this]

instance [KeyForm κ] : KeyForm (Coarse n κ) where
  ofKey k := ⟨KeyForm.ofKey k⟩
  toKey k := KeyForm.toKey k.inner

end Coarse

end RecencyCache
