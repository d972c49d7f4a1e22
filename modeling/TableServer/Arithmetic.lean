import TableServer.Validity

/-!
The arithmetic requests. On operands that `stoi` reads they compute the exact result,
since 64 bits hold every result of 32-bit operands; only a division by zero is left
undefined.
-/

namespace TableServer.Arithmetic
open TableServer.Bytes TableServer.Messages TableServer.Serialization TableServer.Stores TableServer.Numbers
open TableServer.Connection TableServer.Server TableServer.Requests TableServer.Validity
open Resumption Interleaving

variable {memory : ConnId → Bool} {tr : ServerTrace} {s : ServerState} {input : Input} {m : Message} {l l' : Local}

def arithmetic : List MessageType := [.ADD, .MUL, .SUB, .DIV]

/-- The lambda that `chat_with_client` passes to the handler. -/
def operation : MessageType → Int → Int → Option Int
  | .ADD => add
  | .MUL => mul
  | .SUB => sub
  | .DIV => div
  | _ => fun _ _ => none

/-- The result in mathematics: `x` was on top of `y`, and division truncates toward zero. -/
def calculated : MessageType → Int → Int → Int
  | .ADD, x, y => x + y
  | .MUL, x, y => x * y
  | .SUB, x, y => y - x
  | .DIV, x, y => y.tdiv x
  | _, _, _ => 0

section
variable {t : MessageType} (arith : t ∈ arithmetic) {x y : Int}
include arith

/-- On two values of an `int` only the division by zero is undefined. -/
theorem operation_eq (rangeX : -2147483648 ≤ x ∧ x < 2147483648) (rangeY : -2147483648 ≤ y ∧ y < 2147483648) :
    operation t x y = if t = .DIV ∧ x = 0 then none else some (calculated t x y) := by
  simp only [arithmetic, List.mem_cons, List.not_mem_nil, or_false] at arith
  rcases arith with rfl | rfl | rfl | rfl
  · simp [operation, add_defined rangeX rangeY, calculated]
  · simp [operation, mul_defined rangeX rangeY, calculated]
  · simp [operation, sub_defined rangeX rangeY, calculated]
  · simp [operation, div_defined rangeY, calculated]

private theorem operation_range {z : Int} (run : operation t x y = some z) :
    -9223372036854775808 ≤ z ∧ z < 9223372036854775808 := by
  simp only [arithmetic, List.mem_cons, List.not_mem_nil, or_false] at arith
  rcases arith with rfl | rfl | rfl | rfl
  · exact int64_range run
  · exact int64_range run
  · exact int64_range run
  · simp only [operation, div] at run
    split at run
    · cases run
    · exact int64_range run

theorem quietly_arithmetic (args : List Str) (l : Local) :
    quietly ⟨t, args⟩ l = arithmetically (operation t) l := by
  simp only [arithmetic, List.mem_cons, List.not_mem_nil, or_false] at arith
  rcases arith with rfl | rfl | rfl | rfl <;> rfl

theorem arithmetic_quiet : usesTables t = false ∧ t ≠ .LOGIN := by
  simp only [arithmetic, List.mem_cons, List.not_mem_nil, or_false] at arith
  rcases arith with rfl | rfl | rfl | rfl <;> decide

end

/-- The iteration writes one response, of the given type, and the loop goes on. -/
def Answers (input : Input) (l : Local) (t : MessageType) (l' : Local) : Prop :=
  ∃ line, encode l'.response = .ok line ∧ l'.response.m_message_type = t ∧
    chat_with_client input l = .call l' (.write line) fun _ => .done (.ok true) l'

theorem operands_some {stk : List Str} {x y : Int} :
    operands stk = some (x, y) ↔ ∃ a b r, stk = a :: b :: r ∧ stoi a = .ok x ∧ stoi b = .ok y := by
  rcases stk with _ | ⟨a, _ | ⟨b, r⟩⟩
  · simp [operands]
  · simp [operands]
  · simp only [operands, List.cons.injEq]
    constructor
    · intro read
      split at read
      · rename_i x' y' first second
        cases read
        exact ⟨a, b, r, ⟨rfl, rfl, rfl⟩, first, second⟩
      · cases read
    · rintro ⟨_, _, _, ⟨rfl, rfl, rfl⟩, first, second⟩
      rw [first, second]

theorem responding_eq {keep : Bool} {line : Str} (run : encode l.response = .ok line) :
    responding keep l = .call l (.write line) fun _ => .done (.ok keep) l := by
  rw [responding, run]

private theorem arithmetically_some {operation : Int → Int → Option Int} {x y z : Int}
    (read : operands l.client_stack.stk = some (x, y)) (result : operation x y = some z) :
    arithmetically operation l =
      (.ok true, (l.withStack (to_string z :: l.client_stack.stk.drop 2)).respond .OK []) := by
  simp only [arithmetically, read, result]

section
variable (asked : requestOf input = some m) (arith : m.m_message_type ∈ arithmetic)
include asked arith

private theorem arithmetic_chat (login : l.logged_in = true) : chat_with_client input l =
    settle (arithmetically (operation m.m_message_type) l).1 (arithmetically (operation m.m_message_type) l).2 := by
  obtain ⟨quiet, other⟩ := arithmetic_quiet arith
  rw [request_run asked other login, requesting_quiet quiet, Prog.bind_done]
  obtain ⟨t, args⟩ := m
  rw [quietly_arithmetic arith]

/-- Readable operands whose operation is defined. -/
theorem arithmetic_answered {a b : Str} {r : List Str} {x y : Int} (login : l.logged_in = true)
    (stack : l.client_stack.stk = a :: b :: r) (readA : stoi a = .ok x) (readB : stoi b = .ok y)
    (defined : m.m_message_type = .DIV → x ≠ 0) :
    operation m.m_message_type x y = some (calculated m.m_message_type x y) ∧
      Answers input l .OK ((l.withStack (to_string (calculated m.m_message_type x y) :: r)).respond .OK []) := by
  have result : operation m.m_message_type x y = some (calculated m.m_message_type x y) := by
    rw [operation_eq arith (stoi_range readA) (stoi_range readB), if_neg (fun zero => defined zero.1 zero.2)]
  have pair : operands l.client_stack.stk = some (x, y) := operands_some.mpr ⟨a, b, r, stack, readA, readB⟩
  refine ⟨result, lit "OK\n", ok_encoded, rfl, ?_⟩
  rw [arithmetic_chat asked arith login, arithmetically_some pair result, stack]
  exact responding_eq (l := (l.withStack _).respond .OK []) ok_encoded

/-- Operands that are missing or that `stoi` rejects are popped all the same. -/
theorem arithmetic_refused (login : l.logged_in = true) (unread : operands l.client_stack.stk = none) :
    chat_with_client input l =
      settle (.error (.thrown (.OperationException badOperands))) (l.withStack (l.client_stack.stk.drop 2)) := by
  rw [arithmetic_chat asked arith login]
  simp only [arithmetically, unread]

omit asked arith in
theorem bad_operands_encoded :
    encode ⟨.FAILED, [badOperands]⟩ = .ok (lit "FAILED Stack is empty or operands are not valid\n") := by decide

theorem arithmetic_failed (login : l.logged_in = true) (unread : operands l.client_stack.stk = none)
    (outside : l.transaction_mode = false) :
    Answers input l .FAILED ((l.withStack (l.client_stack.stk.drop 2)).respond .FAILED [badOperands]) := by
  have mode : (l.withStack (l.client_stack.stk.drop 2)).transaction_mode = false := outside
  refine ⟨_, bad_operands_encoded, rfl, ?_⟩
  rw [arithmetic_refused asked arith login unread]
  simp only [settle, mode, Bool.false_eq_true, if_false]
  exact responding_eq (l := (l.withStack _).respond .FAILED _) bad_operands_encoded

end

/-- No response of the iteration says OK. -/
def NeverOK (input : Input) (l : Local) : Prop := (chat_with_client input l).Calls fun _ op => op ≠ .write (lit "OK\n")

/-- All the way the stack is what is left of the stack before. -/
def PushesNothing (input : Input) (l : Local) : Prop :=
  (chat_with_client input l).Calls (fun l' _ => l'.client_stack.stk <:+ l.client_stack.stk) ∧
    (chat_with_client input l).Ends fun _ l' => l'.client_stack.stk <:+ l.client_stack.stk

private theorem operands_none {stk : List Str} : operands stk = none ↔ stk.length < 2 ∨ ∃ a b r, stk = a :: b :: r ∧
    ((∀ x, stoi a ≠ .ok x) ∨ ∀ y, stoi b ≠ .ok y) := by
  rcases stk with _ | ⟨a, _ | ⟨b, r⟩⟩
  · simp [operands]
  · simp [operands]
  · have long : ¬ (a :: b :: r).length < 2 := by simp
    simp only [operands, long, false_or, List.cons.injEq]
    constructor
    · intro unread
      refine ⟨a, b, r, ⟨rfl, rfl, rfl⟩, ?_⟩
      by_contra read
      simp only [not_or, not_forall, not_not] at read
      obtain ⟨⟨x, first⟩, y, second⟩ := read
      rw [first, second] at unread
      cases unread
    · rintro ⟨_, _, _, ⟨rfl, rfl, rfl⟩, rejected⟩
      split
      · rename_i x y first second
        rcases rejected with bad | bad
        · exact absurd first (bad x)
        · exact absurd second (bad y)
      · rfl

/-- A response that is not OK, with the stack at most popped. -/
theorem responding_silent {keep : Bool} {before : List Str} {line : Str} (run : encode l.response = .ok line)
    (other : line ≠ lit "OK\n") (popped : l.client_stack.stk <:+ before) :
    (responding keep l).Calls (fun l' op => op ≠ .write (lit "OK\n") ∧ l'.client_stack.stk <:+ before) ∧
      (responding keep l).Ends fun _ l' => l'.client_stack.stk <:+ before := by
  rw [responding_eq run]
  refine ⟨⟨⟨?_, popped⟩, fun _ => trivial⟩, fun _ => popped⟩
  intro same
  exact other (Op.write.inj same)

private theorem unread_silent (asked : requestOf input = some m) (arith : m.m_message_type ∈ arithmetic)
    (unread : operands l.client_stack.stk = none) : NeverOK input l ∧ PushesNothing input l := by
  have silent : (chat_with_client input l).Calls
      (fun l' op => op ≠ .write (lit "OK\n") ∧ l'.client_stack.stk <:+ l.client_stack.stk) ∧
        (chat_with_client input l).Ends fun _ l' => l'.client_stack.stk <:+ l.client_stack.stk := by
    by_cases login : l.logged_in = true
    · rw [arithmetic_refused asked arith login unread, settle]
      have popped : (l.withStack (l.client_stack.stk.drop 2)).client_stack.stk <:+ l.client_stack.stk :=
        List.drop_suffix 2 _
      split
      · exact ⟨trivial, popped⟩
      · exact responding_silent (l := (l.withStack _).respond .FAILED _) bad_operands_encoded (by decide) popped
    · rw [stranger_run asked (arithmetic_quiet arith).2 (Bool.eq_false_of_not_eq_true login), settle]
      have encoded : encode ⟨.ERROR, [notLoggedIn]⟩ = .ok (lit "ERROR User not logged in\n") := by decide
      exact responding_silent (l := l.respond .ERROR _) encoded (by decide) (List.suffix_refl _)
  obtain ⟨calls, ends⟩ := silent
  obtain ⟨never, popped⟩ := Prog.calls_and calls
  exact ⟨never, popped, ends⟩

/-- Where `stoi` reads both operands, and the divisor is not zero, the response is OK and
    the exact result, which fits in 64 bits, replaces them. Otherwise the response is not OK
    and nothing is pushed. -/
theorem arithmetic_exact (asked : requestOf input = some m) (arith : m.m_message_type ∈ arithmetic) :
    (∀ a b r x y, l.logged_in = true → l.client_stack.stk = a :: b :: r → stoi a = .ok x → stoi b = .ok y →
      (m.m_message_type = .DIV → x ≠ 0) →
      (-9223372036854775808 ≤ calculated m.m_message_type x y ∧
        calculated m.m_message_type x y < 9223372036854775808) ∧
      Answers input l .OK ((l.withStack (to_string (calculated m.m_message_type x y) :: r)).respond .OK [])) ∧
    ((l.client_stack.stk.length < 2 ∨ ∃ a b r, l.client_stack.stk = a :: b :: r ∧
        ((∀ x, stoi a ≠ .ok x) ∨ ∀ y, stoi b ≠ .ok y)) →
      NeverOK input l ∧ PushesNothing input l) := by
  constructor
  · intro a b r x y login stack readA readB defined
    obtain ⟨result, answered⟩ := arithmetic_answered asked arith login stack readA readB defined
    exact ⟨operation_range arith result, answered⟩
  · intro missing
    exact unread_silent asked arith (operands_none.mpr missing)

/-- A logged-in client with two values on its stack. -/
def holding (a b : Str) : Local := (Local.create true).withStack [a, b]

theorem arithmetic_exact_sub : Answers (rio_readlineb (lit "SUB\n")) (holding (lit "-7") (lit "12")) .OK
    (((holding (lit "-7") (lit "12")).withStack [lit "19"]).respond .OK []) := by
  have printed : to_string (calculated .SUB (-7) 12) = lit "19" := by decide +kernel
  have asked : requestOf (rio_readlineb (lit "SUB\n")) = some ⟨.SUB, []⟩ := by decide +kernel
  have answered := (arithmetic_exact (l := holding (lit "-7") (lit "12")) asked (by decide)).1 (lit "-7") (lit "12") []
    (-7) 12 rfl rfl (by decide +kernel) (by decide +kernel) (by decide)
  rw [← printed]
  exact answered.2

/-- The end of an iteration that has executed no undefined operation. -/
def Regular (r : Except Fault Bool) (_ : Local) : Prop := r ≠ .error .undefined

/-- Whatever the two popped values are, the operation on them is defined, or the response
    is FAILED. -/
def Defined (input : Input) (m : Message) (l : Local) : Prop :=
  (chat_with_client input l).Ends Regular ∧
    ∀ x y, operands l.client_stack.stk = some (x, y) → operation m.m_message_type x y = none →
      ∃ l', Answers input l .FAILED l'

/-- A division of a readable value by a zero on top. -/
def DividesByZero (m : Message) (l : Local) : Prop :=
  m.m_message_type = .DIV ∧ ∃ a b r y, l.client_stack.stk = a :: b :: r ∧ stoi a = .ok 0 ∧ stoi b = .ok y

private theorem ok_regular (keep : Bool) (l : Local) : Regular (.ok keep) l := by simp [Regular]

private theorem thrown_regular (e : Exn) (l : Local) : Regular (.error (.thrown e)) l := by simp [Regular]

private theorem responding_defined (keep : Bool) (l : Local) : (responding keep l).Ends Regular :=
  ends_responding keep (ok_regular keep l) fun e => thrown_regular e l

private theorem settle_defined {result : Except Fault Bool} (defined : result ≠ .error .undefined) (l : Local) :
    (settle result l).Ends Regular := by
  rcases result with (e | _) | keep
  · cases e with
    | OperationException what =>
      rw [settle]
      split
      · exact thrown_regular _ l
      · exact responding_defined true _
    | FailedTransaction what => exact ends_releasing .rollback _ (responding_defined true _)
    | InvalidMessage what => exact responding_defined false _
    | CommException what => exact responding_defined false _
    | out_of_range => exact defined
    | invalid_argument => exact defined
    | runtime_error what => exact defined
  · exact absurd rfl defined
  · exact responding_defined keep l

/-- An arithmetic request is undefined only where it divides by zero. -/
theorem arithmetically_defined (arith : m.m_message_type ∈ arithmetic) (safe : ¬ DividesByZero m l) :
    (arithmetically (operation m.m_message_type) l).1 ≠ .error .undefined := by
  cases read : operands l.client_stack.stk with
  | none => simp [arithmetically, read]
  | some xy =>
    obtain ⟨x, y⟩ := xy
    obtain ⟨a, b, r, stack, readA, readB⟩ := operands_some.mp read
    have result : operation m.m_message_type x y = some (calculated m.m_message_type x y) := by
      rw [operation_eq arith (stoi_range readA) (stoi_range readB), if_neg]
      rintro ⟨div, rfl⟩
      exact safe ⟨div, a, b, r, y, stack, readA, readB⟩
    rw [arithmetically_some read result]
    simp

theorem divides_undefined (asked : requestOf input = some m) (login : l.logged_in = true) (zero : DividesByZero m l) :
    chat_with_client input l = .done (.error .undefined) (l.withStack (l.client_stack.stk.drop 2)) := by
  obtain ⟨div, a, b, r, y, stack, readA, readB⟩ := zero
  have arith : m.m_message_type ∈ arithmetic := by simp [arithmetic, div]
  have read : operands l.client_stack.stk = some (0, y) := operands_some.mpr ⟨a, b, r, stack, readA, readB⟩
  rw [arithmetic_chat asked arith login, div]
  simp [arithmetically, read, operation, Numbers.div, settle]

private theorem defined_iff (asked : requestOf input = some m) (arith : m.m_message_type ∈ arithmetic)
    (login : l.logged_in = true) : Defined input m l ↔ ¬ DividesByZero m l := by
  constructor
  · rintro ⟨ends, -⟩ zero
    rw [divides_undefined asked login zero] at ends
    exact ends rfl
  · intro safe
    refine ⟨?_, ?_⟩
    · rw [arithmetic_chat asked arith login]
      exact settle_defined (arithmetically_defined arith safe) _
    · intro x y read undefined
      obtain ⟨a, b, r, stack, readA, readB⟩ := operands_some.mp read
      rw [operation_eq arith (stoi_range readA) (stoi_range readB)] at undefined
      split at undefined
      · rename_i zero
        obtain ⟨div, rfl⟩ := zero
        exact absurd ⟨div, a, b, r, y, stack, readA, readB⟩ safe
      · cases undefined

private theorem quietly_defined (safe : ¬ DividesByZero m l) : (quietly m l).1 ≠ .error .undefined := by
  by_cases arith : m.m_message_type ∈ arithmetic
  · obtain ⟨t, args⟩ := m
    rw [quietly_arithmetic arith]
    exact arithmetically_defined (m := ⟨t, args⟩) arith safe
  · simp only [arithmetic, List.mem_cons, List.not_mem_nil, or_false, not_or] at arith
    obtain ⟨noAdd, noMul, noSub, noDiv⟩ := arith
    unfold quietly
    split
    · simp
    · cases l.client_stack.stk <;> simp
    · cases l.client_stack.stk <;> simp
    · rename_i add; exact absurd add noAdd
    · rename_i mul; exact absurd mul noMul
    · rename_i sub; exact absurd sub noSub
    · rename_i div; exact absurd div noDiv
    · simp
    · simp
    · simp

private theorem onTable_defined {n : Str} {use : Addr → Local → Iteration} (uses : ∀ t l, (use t l).Ends Regular) :
    (onTable n l use).Ends Regular := by
  intro found
  cases found with
  | none => exact thrown_regular _ l
  | some t =>
    show (locking t l (use t)).Ends Regular
    unfold locking
    split
    · split
      · exact uses t l
      · rintro (_ | _)
        · exact thrown_regular _ l
        · exact uses t _
    · exact fun _ => uses t l

private theorem autocommitting_defined {t : Addr} {after : Iteration} (then_ : after.Ends Regular) :
    (autocommitting t l after).Ends Regular := by
  unfold autocommitting
  split
  · exact then_
  · exact fun _ _ => then_

private theorem requesting_defined (valid : m.is_valid = true) (safe : ¬ DividesByZero m l) :
    (requesting m l).Ends Regular := by
  rcases request_forms valid with ⟨n, rfl⟩ | ⟨n, k, rfl⟩ | ⟨n, k, rfl⟩ | rfl | quiet
  · rintro (_ | t)
    · exact fun _ => ok_regular true _
    · exact thrown_regular _ _
  · refine onTable_defined fun t l => ?_
    rintro (e | v)
    · exact thrown_regular _ l
    · exact autocommitting_defined (ok_regular true _)
  · refine onTable_defined fun t l => ?_
    unfold writing
    split
    · exact thrown_regular _ l
    · exact fun _ => autocommitting_defined (ok_regular true _)
  · exact ends_releasing .commit _ (ok_regular true _)
  · rw [requesting_quiet quiet]
    exact quietly_defined safe

/-- An iteration that is not a division by zero executes no undefined operation. -/
theorem chat_defined (safe : ∀ m, requestOf input = some m → ¬ (l.logged_in = true ∧ DividesByZero m l)) :
    (chat_with_client input l).Ends Regular := by
  cases asked : requestOf input with
  | none =>
    obtain ⟨e, run⟩ := unread_run (l := l) asked
    rw [run]
    exact settle_defined (by simp) l
  | some m =>
    by_cases login : m.m_message_type = .LOGIN
    · rw [login_run asked login]
      exact responding_defined true _
    · by_cases in_ : l.logged_in = true
      · rw [request_run asked login in_]
        refine Prog.ends_bind (requesting_defined (request_valid asked) (fun zero => safe m asked ⟨in_, zero⟩)) ?_
        exact fun result l' defined => settle_defined defined l'
      · rw [stranger_run asked login (Bool.eq_false_of_not_eq_true in_)]
        exact settle_defined (by simp) l

/-- In every run each arithmetic request is defined exactly when it does not divide by
    zero, and where no request that is read divides by zero, no worker ever executes an
    undefined operation. -/
theorem arithmetic_defined (run : Run server anyStep (booted memory) tr s) :
    (∀ c input l calls m, progress c tr = some (input, l, calls) → requestOf input = some m →
      m.m_message_type ∈ arithmetic → l.logged_in = true → (Defined input m l ↔ ¬ DividesByZero m l)) ∧
    ((∀ c input l m, (c, .recv l input) ∈ tr → requestOf input = some m → ¬ DividesByZero m l) →
      ∀ c input f l', s.threads c = .running input (.done (.error f) l') → f ≠ .undefined) := by
  constructor
  · intro c input l calls m _ asked arith login
    exact defined_iff asked arith login
  · rintro safe c input f l' here rfl
    obtain ⟨l, calls, _, path, received, _⟩ := run_path run (opened_fresh _ _) here
    have ends : (chat_with_client input l).Ends Regular :=
      chat_defined fun m asked zero => safe c input l m received asked zero.2
    exact path.ends ends rfl

/-- The request that a connection is at, in a state where it is at one. -/
def asking (tr : ServerTrace) (c : ConnId) (m : Message) (stk : List Str) : Bool :=
  (progress c tr).any fun p => requestOf p.1 == some m && (p.2.1.logged_in && p.2.1.client_stack.stk == stk)

private theorem asking_eq {c : ConnId} {stk : List Str} (asks : asking tr c m stk = true) : ∃ input l calls,
    progress c tr = some (input, l, calls) ∧ requestOf input = some m ∧ l.logged_in = true ∧
      l.client_stack.stk = stk := by
  obtain ⟨⟨input, l, calls⟩, now, holds⟩ := (Option.any_eq_true _ _).mp asks
  simp only [Bool.and_eq_true, beq_iff_eq] at holds
  exact ⟨input, l, calls, now, holds.1, holds.2.1, holds.2.2⟩

/-- A client pushes two numbers and asks for an operation on them. -/
def computing (first second request : String) : List (ConnId × Action Input Addr) :=
  turn 0 "LOGIN ann\n" 2 0 ++ turn 0 first 2 0 ++ turn 0 second 2 0 ++ turn 0 request 0 0

theorem arithmetic_defined_adding : ∃ input l, l.client_stack.stk = [lit "2", lit "1"] ∧
    Defined input ⟨.ADD, []⟩ l := by
  have shown : (execute server noCheck (computing "PUSH 1\n" "PUSH 2\n" "ADD\n") (booted fun _ => false)).any
      (fun r => asking r.1 0 ⟨.ADD, []⟩ [lit "2", lit "1"]) = true := by
    decide +kernel
  obtain ⟨tr, s, run, asks⟩ := run_of_check shown
  obtain ⟨input, l, calls, now, asked, login, stack⟩ := asking_eq asks
  have iff := (arithmetic_defined run.any).1 0 input l calls _ now asked (by decide) login
  exact ⟨input, l, stack, iff.mpr fun zero => absurd zero.1 (by decide)⟩

/-- One divided by zero is not answered at all. -/
theorem arithmetic_undefined : ¬ ∀ tr s, Run server anyStep (booted fun _ => false) tr s → ∀ c input l calls m,
    progress c tr = some (input, l, calls) → requestOf input = some m → m.m_message_type ∈ arithmetic →
    l.logged_in = true → Defined input m l := by
  intro always
  have shown : (execute server noCheck (computing "PUSH 1\n" "PUSH 0\n" "DIV\n") (booted fun _ => false)).any
      (fun r => asking r.1 0 ⟨.DIV, []⟩ [lit "0", lit "1"]) = true := by
    decide +kernel
  obtain ⟨tr, s, run, asks⟩ := run_of_check shown
  obtain ⟨input, l, calls, now, asked, login, stack⟩ := asking_eq asks
  have defined := always tr s run.any 0 input l calls _ now asked (by decide) login
  exact (defined_iff asked (by decide) login).mp defined
    ⟨rfl, lit "0", lit "1", [], 1, stack, by decide +kernel, by decide +kernel⟩

end TableServer.Arithmetic
