import Mathlib.Data.List.Basic
import TableServer.Bytes

/-!
Messages, their validators, and the exceptions of the program.
-/

namespace TableServer.Messages
open TableServer.Bytes

/-- What the program throws: its own four classes and those of the standard
    library that its calls can raise. -/
inductive Exn where
  | InvalidMessage (what : Str)
  | CommException (what : Str)
  | OperationException (what : Str)
  | FailedTransaction (what : Str)
  | out_of_range
  | invalid_argument
  | runtime_error (what : Str)
  deriving DecidableEq

inductive MessageType where
  | NONE
  | LOGIN | CREATE | PUSH | POP | TOP | SET | GET | ADD | SUB | MUL | DIV | BEGIN | COMMIT | BYE
  | OK | FAILED | ERROR | DATA
  deriving DecidableEq

structure Message where
  m_message_type : MessageType
  m_args : List Str
  deriving DecidableEq

/-- Maximum encoded length, the terminating newline included. -/
def MAX_ENCODED_LEN : Nat := 1024

/-- A letter by the source's numeric ranges, which start at 64. -/
def letterRange (c : UInt8) : Bool :=
  (64 ≤ charValue c && charValue c ≤ 90) || (97 ≤ charValue c && charValue c ≤ 122)

/-- What a character after the first may be. -/
def identifierRange (c : UInt8) : Bool :=
  letterRange c || charValue c == 95 || (48 ≤ charValue c && charValue c ≤ 57)

/-- The loop runs over the positions `1 ≤ i < (int)length`. -/
def identifier_is_valid (identifier : Str) : Bool :=
  match identifier with
  | [] => false
  | first :: _ =>
    letterRange first &&
      ((identifier.take (intCast identifier.length).toNat).drop 1).all identifierRange

def value_is_valid (value : Str) : Bool :=
  1 ≤ value.length && value.all (fun c => !isspace c)

/-- The loop runs over the positions `1 ≤ i < (int)length - 1`. -/
def quoted_text_is_valid (quoted_text : Str) : Bool :=
  ((quoted_text.take (intCast quoted_text.length - 1).toNat).drop 1).all (fun c => c != quote)

namespace Message

/-- `m_args.at(i)`. -/
def get_arg (m : Message) (i : Nat) : Except Exn Str :=
  match m.m_args[i]? with
  | some a => .ok a
  | none => .error .out_of_range

def get_table (m : Message) : Except Exn Str :=
  if m.m_message_type = .CREATE ∨ m.m_message_type = .GET ∨ m.m_message_type = .SET then m.get_arg 0
  else .ok []

def get_key (m : Message) : Except Exn Str :=
  if m.m_message_type = .SET ∨ m.m_message_type = .GET then m.get_arg 1 else .ok []

def get_value (m : Message) : Except Exn Str :=
  if m.m_message_type = .PUSH ∨ m.m_message_type = .DATA then m.get_arg 0 else .ok []

def get_quoted_text (m : Message) : Except Exn Str :=
  if m.m_message_type = .FAILED ∨ m.m_message_type = .ERROR then m.get_arg 0 else .ok []

/-- The number of arguments of each type. -/
def valid_number_of_args (m : Message) : Bool :=
  match m.m_message_type with
  | .POP | .TOP | .ADD | .MUL | .SUB | .DIV | .BEGIN | .COMMIT | .BYE | .OK | .NONE => m.m_args.length == 0
  | .LOGIN | .CREATE | .PUSH | .FAILED | .ERROR | .DATA => m.m_args.length == 1
  | .SET | .GET => m.m_args.length == 2

/-- `at` on an argument that `valid_number_of_args` has found to be there. -/
def is_valid (m : Message) : Bool :=
  m.valid_number_of_args &&
    match m.m_message_type with
    | .LOGIN | .CREATE => (m.m_args[0]?).any identifier_is_valid
    | .SET | .GET => (m.m_args[0]?).any identifier_is_valid && (m.m_args[1]?).any identifier_is_valid
    | .PUSH | .DATA => (m.m_args[0]?).any value_is_valid
    | .FAILED | .ERROR => (m.m_args[0]?).any quoted_text_is_valid
    | _ => true

end Message

/-- The shape of a valid message: its arguments by number, and each one checked. -/
inductive Shape : MessageType → List Str → Prop
  | plain {t : MessageType} (bare : t ∈ [.POP, .TOP, .ADD, .MUL, .SUB, .DIV, .BEGIN, .COMMIT, .BYE, .OK, .NONE]) :
      Shape t []
  | named {t : MessageType} {n : Str} (one : t ∈ [.LOGIN, .CREATE]) (ok : identifier_is_valid n = true) : Shape t [n]
  | value {t : MessageType} {v : Str} (one : t ∈ [.PUSH, .DATA]) (ok : value_is_valid v = true) : Shape t [v]
  | text {t : MessageType} {x : Str} (one : t ∈ [.FAILED, .ERROR]) (ok : quoted_text_is_valid x = true) : Shape t [x]
  | cell {t : MessageType} {n k : Str} (two : t ∈ [.SET, .GET]) (table : identifier_is_valid n = true)
      (key : identifier_is_valid k = true) : Shape t [n, k]

theorem shape_of_valid {m : Message} (valid : m.is_valid = true) : Shape m.m_message_type m.m_args := by
  obtain ⟨t, args⟩ := m
  simp only [Message.is_valid, Message.valid_number_of_args, Bool.and_eq_true] at valid
  obtain ⟨number, checked⟩ := valid
  cases t
  case LOGIN | CREATE =>
    obtain ⟨a, rfl⟩ := List.length_eq_one_iff.mp (beq_iff_eq.mp number)
    exact .named (by simp) (by simpa using checked)
  case PUSH | DATA =>
    obtain ⟨a, rfl⟩ := List.length_eq_one_iff.mp (beq_iff_eq.mp number)
    exact .value (by simp) (by simpa using checked)
  case FAILED | ERROR =>
    obtain ⟨a, rfl⟩ := List.length_eq_one_iff.mp (beq_iff_eq.mp number)
    exact .text (by simp) (by simpa using checked)
  case SET | GET =>
    obtain ⟨a, b, rfl⟩ := List.length_eq_two.mp (beq_iff_eq.mp number)
    simp only [List.getElem?_cons_zero, List.getElem?_cons_succ, Option.any_some, Bool.and_eq_true] at checked
    exact .cell (by simp) checked.1 checked.2
  all_goals
    obtain rfl := List.length_eq_zero_iff.mp (beq_iff_eq.mp number)
    exact .plain (by simp)

theorem push_form {m : Message} (valid : m.is_valid = true) (push : m.m_message_type = .PUSH) :
    ∃ v, m = ⟨.PUSH, [v]⟩ := by
  have shape := shape_of_valid valid
  obtain ⟨t, args⟩ := m
  obtain rfl : t = .PUSH := push
  cases shape with
  | plain bare => simp at bare
  | named one => simp at one
  | value one => exact ⟨_, rfl⟩
  | text one => simp at one
  | cell two => simp at two

private theorem identifierRange_bare {c : UInt8} (h : identifierRange c = true) :
    c ≠ space ∧ c ≠ newline ∧ c ≠ quote := by
  refine ⟨?_, ?_, ?_⟩ <;> rintro rfl <;> exact absurd h (by decide)

/-- Up to the length limit of a line the cast loses nothing, and every character
    of an identifier is in the ranges. -/
theorem identifier_bare {n : Str} (ok : identifier_is_valid n = true) (short : n.length < 2147483648) : Bare n := by
  cases n with
  | nil => simp [identifier_is_valid] at ok
  | cons first tail =>
    simp only [identifier_is_valid, Bool.and_eq_true] at ok
    obtain ⟨head, others⟩ := ok
    have whole : (intCast (first :: tail).length).toNat = (first :: tail).length := by
      rw [intCast_small short]; exact Int.toNat_natCast _
    rw [whole, List.take_length] at others
    refine ⟨by simp, ?_⟩
    intro c member
    rcases List.mem_cons.mp member with rfl | later
    · exact identifierRange_bare (by simp [identifierRange, head])
    · exact identifierRange_bare (List.all_eq_true.mp others c later)

theorem value_nonempty {v : Str} (ok : value_is_valid v = true) : v ≠ [] := by
  rintro rfl
  exact absurd ok (by decide)

theorem value_unspaced {v : Str} (ok : value_is_valid v = true) : ∀ c ∈ v, isspace c = false := by
  simp only [value_is_valid, Bool.and_eq_true, List.all_eq_true, Bool.not_eq_true'] at ok
  exact ok.2

/-- A valid value is kept whole by the tokenizer exactly when it has no quote. -/
theorem value_bare {v : Str} (ok : value_is_valid v = true) (unquoted : quote ∉ v) : Bare v := by
  refine ⟨value_nonempty ok, ?_⟩
  intro c member
  obtain ⟨noSpace, noNewline⟩ := ne_of_not_isspace (value_unspaced ok c member)
  exact ⟨noSpace, noNewline, fun same => unquoted (same ▸ member)⟩

end TableServer.Messages
