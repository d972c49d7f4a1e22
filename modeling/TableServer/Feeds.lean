import Mathlib.Data.List.Basic

/-!
A stream that arrives in pieces. A reader is given what has arrived, told that it
was interrupted, or told that the read failed; a writer is told how much of a text
was accepted. What a reader sees in the end, byte by byte and failure by failure,
are the marks of the stream: they do not depend on the pieces.
-/

namespace Feeds

variable {α : Type}

/-- What one read finds; a piece that has arrived is not empty. -/
inductive Event (α : Type) where
  | data (first : α) (more : List α)
  | interrupted
  | failed

/-- What the reads find one after another; then the stream has ended. -/
abbrev Feed (α : Type) : Type := List (Event α)

/-- What is left of a piece comes with the next read. -/
def later (left : List α) (feed : Feed α) : Feed α :=
  match left with
  | [] => feed
  | first :: more => .data first more :: feed

/-- The elements in order; `none` where a read fails. -/
def marks : Feed α → List (Option α)
  | [] => []
  | .data first more :: feed => some first :: (more.map some ++ marks feed)
  | .interrupted :: feed => marks feed
  | .failed :: feed => none :: marks feed

@[simp] theorem marks_nil : marks ([] : Feed α) = [] := rfl

@[simp] theorem marks_data (first : α) (more : List α) (feed : Feed α) :
    marks (.data first more :: feed) = some first :: (more.map some ++ marks feed) := rfl

@[simp] theorem marks_interrupted (feed : Feed α) : marks (.interrupted :: feed) = marks feed := rfl

@[simp] theorem marks_failed (feed : Feed α) : marks (.failed :: feed) = none :: marks feed := rfl

@[simp] theorem marks_later (left : List α) (feed : Feed α) :
    marks (later left feed) = left.map some ++ marks feed := by
  cases left with
  | nil => simp [later]
  | cons first more => simp [later]

/-- What taking a line gives: its elements, whether a failure cut it short, and what
    comes after it. -/
structure Taken (α : Type) where
  line : List α
  failed : Bool
  rest : List (Option α)

/-- At most `room` elements, up to the first one that stops the line, the end or a failure. -/
def takeLine (stop : α → Bool) : Nat → List (Option α) → Taken α
  | 0, marks => ⟨[], false, marks⟩
  | _ + 1, [] => ⟨[], false, []⟩
  | _ + 1, none :: marks => ⟨[], true, marks⟩
  | room + 1, some a :: marks =>
    if stop a then ⟨[a], false, marks⟩
    else ⟨a :: (takeLine stop room marks).line, (takeLine stop room marks).failed, (takeLine stop room marks).rest⟩

variable {stop : α → Bool}

@[simp] theorem takeLine_zero (marks : List (Option α)) : takeLine stop 0 marks = ⟨[], false, marks⟩ := by
  cases marks <;> rfl

@[simp] theorem takeLine_nil (room : Nat) : takeLine stop room [] = ⟨[], false, []⟩ := by
  cases room <;> rfl

theorem takeLine_stop {a : α} (room : Nat) (stops : stop a = true) (marks : List (Option α)) :
    takeLine stop (room + 1) (some a :: marks) = ⟨[a], false, marks⟩ := by
  simp [takeLine, stops]

theorem takeLine_more {a : α} (room : Nat) (goes : stop a = false) (marks : List (Option α)) :
    takeLine stop (room + 1) (some a :: marks) = ⟨a :: (takeLine stop room marks).line,
      (takeLine stop room marks).failed, (takeLine stop room marks).rest⟩ := by
  simp [takeLine, goes]

/-- The failure that a line was cut short by. -/
def cut (failed : Bool) : List (Option α) := if failed then [none] else []

/-- Nothing is lost, doubled or put in another order. -/
theorem takeLine_whole (room : Nat) (marks : List (Option α)) :
    marks = (takeLine stop room marks).line.map some ++ (cut (takeLine stop room marks).failed ++
      (takeLine stop room marks).rest) := by
  induction room generalizing marks with
  | zero => simp [cut]
  | succ room ih =>
    match marks with
    | [] => simp [cut]
    | none :: marks => simp [takeLine, cut]
    | some a :: marks =>
      by_cases stops : stop a = true
      · simp [takeLine_stop room stops, cut]
      · rw [takeLine_more room (by simpa using stops), List.map_cons, List.cons_append, ← ih marks]

theorem takeLine_length (room : Nat) (marks : List (Option α)) : (takeLine stop room marks).line.length ≤ room := by
  induction room generalizing marks with
  | zero => simp
  | succ room ih =>
    match marks with
    | [] => simp
    | none :: marks => simp [takeLine]
    | some a :: marks =>
      by_cases stops : stop a = true
      · simp [takeLine_stop room stops]
      · have shorter := ih marks
        simp only [takeLine_more room (by simpa using stops), List.length_cons]
        omega

/-- Only the last element of a line stops it. -/
theorem takeLine_ended (room : Nat) (marks : List (Option α)) {before after : List α} {a : α} (stops : stop a = true)
    (at_ : (takeLine stop room marks).line = before ++ a :: after) : after = [] := by
  induction room generalizing marks before with
  | zero => simp at at_
  | succ room ih =>
    match marks with
    | [] => simp at at_
    | none :: marks => simp [takeLine] at at_
    | some b :: marks =>
      by_cases first : stop b = true
      · rw [takeLine_stop room first] at at_
        cases before with
        | nil => simp only [List.nil_append, List.cons.injEq] at at_; exact at_.2.symm
        | cons c before => simp at at_
      · rw [takeLine_more room (by simpa using first)] at at_
        cases before with
        | nil =>
          simp only [List.nil_append, List.cons.injEq] at at_
          rw [at_.1] at first
          exact absurd stops first
        | cons c before =>
          simp only [List.cons_append, List.cons.injEq] at at_
          exact ih marks at_.2

/-- A line that no failure cut short and that is not full was stopped, or the stream ended. -/
theorem takeLine_short {room : Nat} {marks : List (Option α)} (whole : (takeLine stop room marks).failed = false)
    (short : (takeLine stop room marks).line.length < room) :
    (∃ before a, (takeLine stop room marks).line = before ++ [a] ∧ stop a = true) ∨
      (takeLine stop room marks).rest = [] := by
  induction room generalizing marks with
  | zero => omega
  | succ room ih =>
    match marks with
    | [] => simp
    | none :: marks => simp [takeLine] at whole
    | some a :: marks =>
      by_cases stops : stop a = true
      · exact .inl ⟨[], a, by rw [takeLine_stop room stops]; rfl, stops⟩
      · have same := takeLine_more room (by simpa using stops) marks
        rw [same] at whole short ⊢
        simp only [List.length_cons] at short
        rcases ih whole (by omega) with ⟨before, b, line, last⟩ | none_
        · exact .inl ⟨a :: before, b, by simp [line], last⟩
        · exact .inr none_

/-- A line that fits is taken whole, and nothing after it is touched. -/
theorem takeLine_line {line : List α} {a : α} {room : Nat} (goes : ∀ b ∈ line, stop b = false) (stops : stop a = true)
    (fits : line.length < room) (marks : List (Option α)) :
    takeLine stop room (line.map some ++ some a :: marks) = ⟨line ++ [a], false, marks⟩ := by
  induction line generalizing room with
  | nil =>
    obtain ⟨room, rfl⟩ := Nat.exists_eq_succ_of_ne_zero (by simp at fits; omega : room ≠ 0)
    exact takeLine_stop room stops marks
  | cons b line ih =>
    obtain ⟨room, rfl⟩ := Nat.exists_eq_succ_of_ne_zero (by simp at fits; omega : room ≠ 0)
    have shorter : line.length < room := by simp at fits; omega
    have tail := ih (fun c inside => goes c (List.mem_cons_of_mem _ inside)) shorter
    rw [List.map_cons, List.cons_append, takeLine_more room (goes b (by simp)), tail]
    rfl

/-- Elements that do not stop a line and end the stream are one line, if they fit. -/
theorem takeLine_all {line : List α} {room : Nat} (goes : ∀ b ∈ line, stop b = false) (fits : line.length ≤ room) :
    takeLine stop room (line.map some) = ⟨line, false, []⟩ := by
  induction line generalizing room with
  | nil => simp
  | cons b line ih =>
    obtain ⟨room, rfl⟩ := Nat.exists_eq_succ_of_ne_zero (by simp at fits; omega : room ≠ 0)
    have shorter : line.length ≤ room := by simpa using fits
    have tail := ih (fun c inside => goes c (List.mem_cons_of_mem _ inside)) shorter
    rw [List.map_cons, takeLine_more room (goes b (by simp)), tail]

/-- What one write of a text that is not empty does; at least one element is accepted. -/
inductive Accept where
  | accepted (more : Nat)
  | interrupted
  | failed

end Feeds
