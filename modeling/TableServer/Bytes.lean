import Mathlib.Tactic.Common

/-!
Strings as the program has them: sequences of bytes, read through the signed
`char` of the platform where the source compares character codes.
-/

namespace TableServer.Bytes

/-- A `std::string`: any bytes, `NUL` included. -/
abbrev Str := List UInt8

/-- The bytes of an ASCII literal. -/
def lit (s : String) : Str := s.toList.map (fun c => UInt8.ofNat c.toNat)

abbrev NUL : UInt8 := 0
abbrev newline : UInt8 := 10
abbrev space : UInt8 := 32
abbrev quote : UInt8 := 34

/-- The value of a `char`, which is signed. -/
def charValue (b : UInt8) : Int := if b.toNat < 128 then b.toNat else (b.toNat : Int) - 256

/-- The cast `(int)n` of a `size_t`. -/
def intCast (n : Nat) : Int :=
  if n % 4294967296 < 2147483648 then (n % 4294967296 : Nat) else (n % 4294967296 : Nat) - 4294967296

/-- `std::isspace` in the C locale. -/
def isspace (b : UInt8) : Bool := b == 32 || (9 ≤ b && b ≤ 13)

/-- A non-empty word that the tokenizer keeps whole: no space, newline or quote. -/
def Bare (w : Str) : Prop := w ≠ [] ∧ ∀ c ∈ w, c ≠ space ∧ c ≠ newline ∧ c ≠ quote

instance (w : Str) : Decidable (Bare w) := inferInstanceAs (Decidable (_ ∧ _))

theorem intCast_small {n : Nat} (small : n < 2147483648) : intCast n = n := by
  have whole : n % 4294967296 = n := Nat.mod_eq_of_lt (by omega)
  rw [intCast, whole, if_pos small]

theorem ne_of_not_isspace {b : UInt8} (h : isspace b = false) : b ≠ space ∧ b ≠ newline := by
  constructor
  · rintro rfl; exact absurd h (by decide)
  · rintro rfl; exact absurd h (by decide)

end TableServer.Bytes
