import TableServer.Messages
import Mathlib.Data.List.TakeWhile
import Mathlib.Data.Nat.Digits.Lemmas

/-!
The integer conversions and the 64-bit operations that the arithmetic requests use.
-/

namespace TableServer.Numbers
open TableServer.Bytes TableServer.Messages

def isdigit (b : UInt8) : Bool := 48 ≤ b && b ≤ 57

/-- The number a run of decimal digits stands for. -/
def digitsValue (ds : Str) : Nat := ds.foldl (fun n d => 10 * n + (d.toNat - 48)) 0

/-- `strtol` to base 10, before any range check: white space, a sign, the longest run
    of digits, and whatever follows them. No digits, no conversion. -/
def strtol (s : Str) : Option Int :=
  let s := s.dropWhile isspace
  let negative := s.head? == some 45
  let s := if s.head? = some 45 ∨ s.head? = some 43 then s.drop 1 else s
  let ds := s.takeWhile isdigit
  if ds = [] then none
  else some (if negative then -(digitsValue ds : Int) else digitsValue ds)

/-- `std::stoi`, where `int` has 32 bits. -/
def stoi (s : Str) : Except Exn Int :=
  match strtol s with
  | none => .error .invalid_argument
  | some n => if -2147483648 ≤ n ∧ n < 2147483648 then .ok n else .error .out_of_range

/-- The decimal digits of a number, most significant first. -/
def decimal (n : Nat) : Str :=
  if n = 0 then [48] else (Nat.digits 10 n).reverse.map (fun d => UInt8.ofNat (48 + d))

/-- `std::to_string` of an `int64_t`. -/
def to_string (n : Int) : Str := if n < 0 then 45 :: decimal n.natAbs else decimal n.natAbs

/-- A result of `int64_t` arithmetic; outside the type the operation is undefined. -/
def int64 (n : Int) : Option Int :=
  if -9223372036854775808 ≤ n ∧ n < 9223372036854775808 then some n else none

/-- The lambdas of `chat_with_client`: `a` is the value popped first. -/
def add (a b : Int) : Option Int := int64 (a + b)
def mul (a b : Int) : Option Int := int64 (a * b)
def sub (a b : Int) : Option Int := int64 (b - a)
/-- Division truncates toward zero and by zero is undefined. -/
def div (a b : Int) : Option Int := if a = 0 then none else int64 (b.tdiv a)

theorem stoi_range {s : Str} {n : Int} (run : stoi s = .ok n) : -2147483648 ≤ n ∧ n < 2147483648 := by
  unfold stoi at run
  split at run
  · cases run
  · split at run
    · rename_i range; cases run; exact range
    · cases run

theorem int64_range {n m : Int} (run : int64 n = some m) :
    -9223372036854775808 ≤ m ∧ m < 9223372036854775808 := by
  unfold int64 at run
  split at run
  · rename_i range; cases run; exact range
  · cases run

section
variable {a b : Int} (rangeA : -2147483648 ≤ a ∧ a < 2147483648) (rangeB : -2147483648 ≤ b ∧ b < 2147483648)
include rangeA rangeB

theorem add_defined : add a b = some (a + b) := if_pos (by omega)

theorem sub_defined : sub a b = some (b - a) := if_pos (by omega)

theorem mul_defined : mul a b = some (a * b) := by
  have bound : (a * b).natAbs ≤ 2147483648 * 2147483648 := by
    rw [Int.natAbs_mul]
    exact Nat.mul_le_mul (by omega) (by omega)
  exact if_pos (by omega)

omit rangeA in
theorem div_defined : div a b = if a = 0 then none else some (b.tdiv a) := by
  unfold div
  split
  · rfl
  · have bound : (b.tdiv a).natAbs ≤ b.natAbs := by
      rw [Int.natAbs_tdiv]; exact Nat.div_le_self _ _
    exact if_pos (by omega)
end

private theorem decimal_length {n k : Nat} (bound : n < 10 ^ k) (positive : 0 < k) : (decimal n).length ≤ k := by
  unfold decimal
  split
  · exact positive
  · simpa using (Nat.digits_length_le_iff (by decide) n).mpr bound

private theorem decimal_nonempty (n : Nat) : decimal n ≠ [] := by
  unfold decimal
  split
  · simp
  · rename_i positive
    simpa [Nat.digits_eq_nil_iff_eq_zero] using positive

private theorem decimal_digits (n : Nat) : ∀ c ∈ decimal n, isdigit c = true := by
  intro c member
  unfold decimal at member
  split at member
  · rw [List.mem_singleton.mp member]; decide
  · obtain ⟨d, inside, rfl⟩ := List.mem_map.mp member
    have small : d < 10 := Nat.digits_lt_base (by decide) (List.mem_reverse.mp inside)
    interval_cases d <;> decide

theorem to_string_length {n : Int} (range : -9223372036854775808 ≤ n ∧ n < 9223372036854775808) :
    (to_string n).length ≤ 20 := by
  have digits : (decimal n.natAbs).length ≤ 19 := decimal_length (by omega) (by decide)
  unfold to_string
  split
  · rw [List.length_cons]; omega
  · omega

theorem to_string_nonempty (n : Int) : to_string n ≠ [] := by
  unfold to_string
  split
  · simp
  · exact decimal_nonempty _

theorem to_string_chars (n : Int) : ∀ c ∈ to_string n, c = 45 ∨ isdigit c = true := by
  intro c member
  unfold to_string at member
  split at member
  · rcases List.mem_cons.mp member with same | inside
    · exact .inl same
    · exact .inr (decimal_digits _ c inside)
  · exact .inr (decimal_digits _ c member)

private theorem digitsValue_map {ds : List Nat} (small : ∀ d ∈ ds, d < 10) :
    digitsValue (ds.reverse.map fun d => UInt8.ofNat (48 + d)) = Nat.ofDigits 10 ds := by
  induction ds with
  | nil => rfl
  | cons d rest ih =>
    have first : d < 10 := small d List.mem_cons_self
    have digit : (UInt8.ofNat (48 + d)).toNat = 48 + d := by
      rw [UInt8.toNat_ofNat']
      omega
    have before := ih fun e inside => small e (List.mem_cons_of_mem _ inside)
    simp only [digitsValue, List.reverse_cons, List.map_append, List.foldl_append] at before ⊢
    rw [before, Nat.ofDigits_cons]
    simp only [List.map_cons, List.map_nil, List.foldl_cons, List.foldl_nil, digit]
    omega

private theorem digitsValue_decimal (n : Nat) : digitsValue (decimal n) = n := by
  unfold decimal
  split
  · rename_i zero
    rw [zero]
    rfl
  · rw [digitsValue_map fun d inside => Nat.digits_lt_base (by decide) inside, Nat.ofDigits_digits]

theorem digit_not_space {c : UInt8} (digit : isdigit c = true) : isspace c = false ∧ c ≠ 45 ∧ c ≠ 43 := by
  simp only [isdigit, Bool.and_eq_true, decide_eq_true_eq, UInt8.le_iff_toNat_le] at digit
  have low : (48 : UInt8).toNat = 48 := rfl
  have high : (13 : UInt8).toNat = 13 := rfl
  refine ⟨?_, ?_, ?_⟩
  · simp only [isspace, Bool.or_eq_false_iff, Bool.and_eq_false_iff, beq_eq_false_iff_ne, ne_eq,
      decide_eq_false_iff_not, UInt8.le_iff_toNat_le]
    refine ⟨?_, .inr (by omega)⟩
    rintro rfl
    exact absurd digit.1 (by decide)
  · rintro rfl
    exact absurd digit.1 (by decide)
  · rintro rfl
    exact absurd digit.1 (by decide)

private theorem takeWhile_decimal (n : Nat) : (decimal n).takeWhile isdigit = decimal n :=
  List.takeWhile_eq_self_iff.mpr (decimal_digits n)

/-- A printed number is read back as itself. -/
theorem strtol_to_string (n : Int) : strtol (to_string n) = some n := by
  by_cases negative : n < 0
  · have printed : to_string n = 45 :: decimal n.natAbs := if_pos negative
    have value : -(n.natAbs : Int) = n := by omega
    have bare : (45 :: decimal n.natAbs).dropWhile isspace = 45 :: decimal n.natAbs := rfl
    simp only [strtol, printed, bare, List.head?_cons, true_or, if_true, List.drop_succ_cons, List.drop_zero,
      takeWhile_decimal, decimal_nonempty, if_false, digitsValue_decimal, beq_self_eq_true, value]
  · have printed : to_string n = decimal n.natAbs := if_neg negative
    have value : (n.natAbs : Int) = n := by omega
    obtain ⟨d, rest, digits⟩ := List.exists_cons_of_ne_nil (decimal_nonempty n.natAbs)
    obtain ⟨unspaced, notMinus, notPlus⟩ := digit_not_space (decimal_digits n.natAbs d (by rw [digits]; simp))
    have bare : (decimal n.natAbs).dropWhile isspace = decimal n.natAbs := by
      rw [digits, List.dropWhile_cons_of_neg (by simp [unspaced])]
    have unsigned : (decimal n.natAbs).head? = some d := by rw [digits]; rfl
    simp only [strtol, printed, bare, unsigned, Option.some.injEq, notMinus, notPlus, or_self, if_false,
      takeWhile_decimal, decimal_nonempty, digitsValue_decimal, value]
    simp [notMinus]

theorem stoi_to_string {n : Int} (range : -2147483648 ≤ n ∧ n < 2147483648) : stoi (to_string n) = .ok n := by
  unfold stoi
  rw [strtol_to_string]
  exact if_pos range

/-- What follows an optional sign. -/
def unsigned (s : Str) : Str := if s.head? = some 45 ∨ s.head? = some 43 then s.drop 1 else s

/-- An optional sign, then one or more decimal digits, and nothing else. -/
def isInteger (s : Str) : Bool := unsigned s ≠ [] && (unsigned s).all isdigit

/-- The integer that such a text stands for. -/
def integerValue (s : Str) : Int :=
  if s.head? = some 45 then -(digitsValue (unsigned s) : Int) else digitsValue (unsigned s)

/-- The text begins with an integer, which no further digit follows. -/
def BeginsWith (s : Str) (n : Int) : Prop :=
  ∃ head rest, s = head ++ rest ∧ isInteger head = true ∧ (∀ c ∈ rest.head?, isdigit c = false) ∧ integerValue head = n

private theorem strtol_unspaced {s : Str} (unspaced : ∀ c ∈ s, isspace c = false) : strtol s =
    if (unsigned s).takeWhile isdigit = [] then none
    else some (if s.head? = some 45 then -(digitsValue ((unsigned s).takeWhile isdigit) : Int)
      else digitsValue ((unsigned s).takeWhile isdigit)) := by
  have bare : s.dropWhile isspace = s := by
    cases s with
    | nil => rfl
    | cons c t => exact List.dropWhile_cons_of_neg (by simp [unspaced c])
  by_cases negative : s.head? = some 45
  · simp [strtol, bare, unsigned, negative]
  · simp [strtol, bare, unsigned, negative]

private theorem unsigned_digit {c : UInt8} (digit : isdigit c = true) (t : Str) : unsigned (c :: t) = c :: t := by
  obtain ⟨_, notMinus, notPlus⟩ := digit_not_space digit
  simp [unsigned, notMinus, notPlus]

/-- The longest integer that a text begins with. -/
theorem head_of_text {s : Str} (some_ : (unsigned s).takeWhile isdigit ≠ []) : ∃ head rest, s = head ++ rest ∧
    unsigned head = (unsigned s).takeWhile isdigit ∧ head.head? = s.head? ∧ ∀ c ∈ rest.head?, isdigit c = false := by
  cases s with
  | nil => exact absurd rfl some_
  | cons c t =>
    refine ⟨c :: t.takeWhile isdigit, t.dropWhile isdigit, ?_, ?_, rfl, ?_⟩
    · rw [List.cons_append, List.takeWhile_append_dropWhile]
    · by_cases signed : c = 45 ∨ c = 43
      · simp [unsigned, signed]
      · have plain : unsigned (c :: t) = c :: t := by simp [unsigned, signed]
        rw [plain] at some_ ⊢
        have digit : isdigit c = true := by
          by_contra other
          exact some_ (List.takeWhile_cons_of_neg other)
        rw [unsigned_digit digit, List.takeWhile_cons_of_pos digit]
    · intro c first
      have stopped := List.head?_dropWhile_not isdigit t
      rw [Option.mem_def.mp first] at stopped
      simpa using stopped

/-- Where a text is cut after an integer, the digits that are read are those of the integer. -/
theorem digits_of_head {head rest : Str} (integer : isInteger head = true)
    (ends : ∀ c ∈ rest.head?, isdigit c = false) :
    (unsigned (head ++ rest)).takeWhile isdigit = unsigned head ∧ (head ++ rest).head? = head.head? := by
  simp only [isInteger, Bool.and_eq_true, decide_eq_true_eq, List.all_eq_true] at integer
  obtain ⟨some_, digits⟩ := integer
  have stops : rest.takeWhile isdigit = [] := by
    cases rest with
    | nil => rfl
    | cons c t => exact List.takeWhile_cons_of_neg (by simp [ends c rfl])
  cases head with
  | nil => exact absurd rfl some_
  | cons c t =>
    have first : (c :: t ++ rest).head? = (c :: t).head? := rfl
    have tail : unsigned (c :: t ++ rest) = unsigned (c :: t) ++ rest := by
      unfold unsigned
      rw [first]
      split <;> rfl
    refine ⟨?_, first⟩
    rw [tail, List.takeWhile_append_of_pos digits, stops, List.append_nil]

/-- `stoi` reads the integer that a text begins with, when it fits in an `int`, and
    does not look at what follows. -/
theorem stoi_iff {s : Str} (unspaced : ∀ c ∈ s, isspace c = false) (n : Int) :
    stoi s = .ok n ↔ BeginsWith s n ∧ -2147483648 ≤ n ∧ n < 2147483648 := by
  constructor
  · intro run
    refine ⟨?_, stoi_range run⟩
    have read : strtol s = some n := by
      unfold stoi at run
      split at run
      · cases run
      · rename_i m value
        split at run
        · cases run
          exact value
        · cases run
    rw [strtol_unspaced unspaced] at read
    split at read
    · cases read
    · rename_i some_
      obtain ⟨head, rest, whole, digits, first, ends⟩ := head_of_text some_
      refine ⟨head, rest, whole, ?_, ends, ?_⟩
      · simp only [isInteger, digits, Bool.and_eq_true, decide_eq_true_eq]
        exact ⟨some_, List.all_takeWhile⟩
      · rw [integerValue, digits, first]
        exact Option.some.inj read
  · rintro ⟨⟨head, rest, rfl, integer, ends, value⟩, range⟩
    obtain ⟨digits, first⟩ := digits_of_head integer ends
    have some_ : unsigned head ≠ [] := by
      simp only [isInteger, Bool.and_eq_true, decide_eq_true_eq] at integer
      exact integer.1
    have read : strtol (head ++ rest) = some n := by
      rw [strtol_unspaced unspaced, digits, first, if_neg some_, ← value, integerValue]
    unfold stoi
    rw [read]
    exact if_pos range

end TableServer.Numbers
