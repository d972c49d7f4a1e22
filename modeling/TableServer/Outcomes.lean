import TableServer.Values

/-!
How an iteration of the loop ends, from the line it reads, the members it starts
with and what its look-ups and locks return: which requests stumble on the stack,
which exceptions leave the loop, which response is written, and what a refused
lock leads to.
-/

namespace TableServer.Outcomes
open TableServer.Bytes TableServer.Messages TableServer.Serialization TableServer.Stores TableServer.Numbers
open TableServer.Connection TableServer.Server TableServer.Requests TableServer.Tokens TableServer.Values
open Resumption Interleaving

/-- An iteration up to some point: what it has read, the members it started with, and
    its calls. -/
structure Request where
  input : Input
  start : Local
  calls : List (Call Op Res)

/-- A look-up has returned a table. -/
def foundTable (calls : List (Call Op Res)) : Bool :=
  calls.any fun call =>
    match call with
    | ⟨.find_table _, found⟩ => found.isSome
    | _ => false

/-- A `trylock` has failed. -/
def refusedLock (calls : List (Call Op Res)) : Bool :=
  calls.any fun call =>
    match call with
    | ⟨.trylock _, got⟩ => !got
    | _ => false

/-- The request has got to its table. -/
def underLock (calls : List (Call Op Res)) : Bool := foundTable calls && !refusedLock calls

/-- The operation fails on the stack: it is empty or the operands are bad. -/
def stumbles (m : Message) (l : Local) (calls : List (Call Op Res)) : Bool :=
  match m.m_message_type with
  | .POP | .TOP => l.client_stack.stk.isEmpty
  | .SET => underLock calls && l.client_stack.stk.isEmpty
  | .ADD | .MUL | .SUB | .DIV => (operands l.client_stack.stk).isNone
  | _ => false

def dividesByZero (m : Message) (l : Local) : Bool :=
  m.m_message_type == .DIV && (operands l.client_stack.stk).any (fun xy => xy.1 == 0)

/-- The request does what it asks for, and the client can read the answer. -/
def completes (m : Message) (l : Local) (calls : List (Call Op Res)) : Bool :=
  match m.m_message_type with
  | .CREATE => !foundTable calls
  | .GET => underLock calls
  | .SET => underLock calls && !l.client_stack.stk.isEmpty
  | .POP => !l.client_stack.stk.isEmpty
  | .TOP => l.client_stack.stk.head?.any (fun v => !v.isEmpty)
  | .ADD | .MUL | .SUB | .DIV => (operands l.client_stack.stk).isSome
  | .PUSH | .BEGIN | .COMMIT | .BYE => true
  | _ => false

/-- An exception leaves the iteration: the line runs the scanner off its end, an
    operation fails on the stack inside a transaction, or a division by zero. -/
def escapes (r : Request) : Bool :=
  match r.input with
  | .closed => false
  | .line buf => decide (Unreadable buf.text) ||
      (requestOf r.input).any (fun m => r.start.logged_in &&
        (dividesByZero m r.start || (r.start.transaction_mode && stumbles m r.start r.calls)))

/-- The response, if there is one, can be read by the client. -/
def readable (r : Request) : Bool :=
  match r.input with
  | .closed => false
  | .line buf =>
    match requestOf r.input with
    | none => buf.text.getLast? == some newline
    | some m => m.m_message_type == .LOGIN || (r.start.logged_in && completes m r.start r.calls)

def Ending.call : Ending → Addr → Call Op Res
  | .commit, t => ⟨.commit_changes t, ()⟩
  | .rollback, t => ⟨.rollback_changes t, ()⟩

def releaseCalls (ending : Ending) (tables : List Addr) : List (Call Op Res) :=
  tables.flatMap fun t => [Ending.call ending t, ⟨.unlock t, ()⟩]

@[simp] theorem foundTable_append (calls more : List (Call Op Res)) :
    foundTable (calls ++ more) = (foundTable calls || foundTable more) := List.any_append

@[simp] theorem refusedLock_append (calls more : List (Call Op Res)) :
    refusedLock (calls ++ more) = (refusedLock calls || refusedLock more) := List.any_append

@[simp] theorem foundTable_release (ending : Ending) (tables : List Addr) :
    foundTable (releaseCalls ending tables) = false := by
  induction tables with
  | nil => rfl
  | cons t rest ih =>
    cases ending
    · exact ih
    · exact ih

@[simp] theorem refusedLock_release (ending : Ending) (tables : List Addr) :
    refusedLock (releaseCalls ending tables) = false := by
  induction tables with
  | nil => rfl
  | cons t rest ih =>
    cases ending
    · exact ih
    · exact ih

namespace Request

def after (r : Request) (more : List (Call Op Res)) : Request := { r with calls := r.calls ++ more }

@[simp] theorem after_input (r : Request) (more : List (Call Op Res)) : (r.after more).input = r.input := rfl
@[simp] theorem after_start (r : Request) (more : List (Call Op Res)) : (r.after more).start = r.start := rfl
@[simp] theorem after_calls (r : Request) (more : List (Call Op Res)) : (r.after more).calls = r.calls ++ more := rfl

@[simp] theorem after_after (r : Request) (more rest : List (Call Op Res)) :
    (r.after more).after rest = r.after (more ++ rest) := by
  simp [after]

@[simp] theorem after_nil (r : Request) : r.after [] = r := by simp [after]

end Request

/-- Calls that neither look up a table nor try to lock one leave the outcome as it is. -/
theorem escapes_after {r : Request} {more : List (Call Op Res)} (noLookup : foundTable more = false)
    (noLock : refusedLock more = false) : escapes (r.after more) = escapes r := by
  simp [escapes, stumbles, underLock, noLookup, noLock]

private theorem readable_after {r : Request} {more : List (Call Op Res)} (noLookup : foundTable more = false)
    (noLock : refusedLock more = false) : readable (r.after more) = readable r := by
  simp [readable, completes, underLock, noLookup, noLock]

/-! ## The discipline -/

def Sound (l : Local) : Prop := ∀ v ∈ l.client_stack.stk, Fine v

/-- What a refused lock leads to: all tables of the transaction are rolled back and
    unlocked, then one FAILED is written, and the loop goes on outside a transaction. -/
structure AfterRefusal (r : Request) (l : Local) : Prop where
  emptied : l.locked_tables.addrs = []
  outside : l.transaction_mode = false
  released : ∃ n t line, r.calls = [⟨.find_table n, some t⟩, ⟨.trylock t, false⟩] ++
    releaseCalls .rollback r.start.locked_tables.addrs ++ [⟨.write line, ()⟩] ∧
      encode ⟨.FAILED, [lockRefused]⟩ = .ok line

/-- The ghost state is the request itself. -/
def discipline : Discipline Request Local Input Fault Op Res where
  rest l r := Sound l ∧ escapes r = false ∧ (refusedLock r.calls = true → AfterRefusal r l)
  gone _ r := escapes r = false ∧ refusedLock r.calls = false
  failed _ _ r := escapes r = true ∧ refusedLock r.calls = false
  node input r l op := r.input = input ∧ Writes Fine op ∧
    match op with
    | .write line => encode l.response = .ok line ∧ (decode line = .ok (meant l.response) ↔ readable r = true)
    | _ => True
  take _ l input r := r = ⟨input, l, []⟩
  next _ r _ op result r' := r' = r.after [⟨op, result⟩] ∧ Returns Fine op result

variable {input : Input} {l : Local} {r : Request} {m : Message}

private theorem ensures_responding {keep : Bool} (at_ : r.input = input)
    (arrives : Arrives l.response (readable r = true))
    (then_ : ∀ line, encode l.response = .ok line → discipline.outcome (.ok keep) l (r.after [⟨.write line, ()⟩])) :
    discipline.Ensures input discipline.outcome (responding keep l) r := by
  obtain ⟨line, run, iff⟩ := arrives
  unfold responding
  rw [run]
  refine ⟨⟨at_, trivial, run, iff⟩, ?_⟩
  rintro _ _ ⟨rfl, _⟩
  exact then_ line run

private theorem outcome_plain {keep : Bool} {line : Str} (sound : Sound l) (stays : escapes r = false)
    (unrefused : refusedLock r.calls = false) : discipline.outcome (.ok keep) l (r.after [⟨.write line, ()⟩]) := by
  have same : escapes (r.after [⟨.write line, ()⟩]) = false := by rw [escapes_after rfl rfl, stays]
  have none_ : refusedLock (r.after [⟨.write line, ()⟩]).calls = false := by
    rw [Request.after_calls, refusedLock_append, unrefused]
    rfl
  cases keep with
  | true => exact ⟨sound, same, fun refused => by rw [none_] at refused; cases refused⟩
  | false => exact ⟨same, none_⟩

private theorem ensures_releasing {α : Type} {post : Except Fault α → Local → Request → Prop} (ending : Ending)
    {after : Program α} (tables : List Addr) (at_ : r.input = input)
    (then_ : discipline.Ensures input post after (r.after (releaseCalls ending tables))) :
    discipline.Ensures input post (releasing ending l after tables) r := by
  induction tables generalizing r with
  | nil => simpa [releaseCalls, releasing] using then_
  | cons t rest ih =>
    have both : ((r.after [Ending.call ending t]).after [⟨.unlock t, ()⟩]).after (releaseCalls ending rest) =
        r.after (releaseCalls ending (t :: rest)) := by
      simp [releaseCalls]
    rw [← both] at then_
    cases ending with
    | commit =>
      refine ⟨⟨at_, trivial, trivial⟩, ?_⟩
      rintro ⟨⟩ _ ⟨rfl, _⟩
      refine ⟨⟨at_, trivial, trivial⟩, ?_⟩
      rintro ⟨⟩ _ ⟨rfl, _⟩
      exact ih at_ then_
    | rollback =>
      refine ⟨⟨at_, trivial, trivial⟩, ?_⟩
      rintro ⟨⟩ _ ⟨rfl, _⟩
      refine ⟨⟨at_, trivial, trivial⟩, ?_⟩
      rintro ⟨⟩ _ ⟨rfl, _⟩
      exact ih at_ then_

/-- How the handling of a line may end, before the `catch` clauses. -/
def Handled (result : Except Fault Bool) (l : Local) (r : Request) : Prop :=
  match result with
  | .ok _ => Sound l ∧ escapes r = false ∧ refusedLock r.calls = false ∧ Arrives l.response (readable r = true)
  | .error (.thrown (.OperationException what)) =>
    Sound l ∧ what ∈ plainTexts ∧ escapes r = l.transaction_mode ∧ refusedLock r.calls = false ∧ readable r = false
  | .error (.thrown (.FailedTransaction what)) =>
    what = lockRefused ∧ Sound l ∧ l = r.start ∧ escapes r = false ∧ readable r = false ∧
      ∃ n t, r.calls = [⟨.find_table n, some t⟩, ⟨.trylock t, false⟩]
  | .error (.thrown (.InvalidMessage what)) =>
    escapes r = false ∧ refusedLock r.calls = false ∧ Arrives ⟨.ERROR, [what]⟩ (readable r = true)
  | .error (.thrown (.CommException what)) =>
    escapes r = false ∧ refusedLock r.calls = false ∧ Arrives ⟨.ERROR, [what]⟩ (readable r = true)
  | .error (.thrown .out_of_range) => escapes r = true ∧ refusedLock r.calls = false
  | .error .undefined => escapes r = true ∧ refusedLock r.calls = false
  | .error _ => False

private theorem arrives_not {w : Str} {t : MessageType} {r : Request} (plain : w ∈ plainTexts)
    (failure : t = .FAILED ∨ t = .ERROR) (lost : readable r = false) : Arrives ⟨t, [w]⟩ (readable r = true) := by
  rw [lost]
  simpa using plain_lost plain failure

theorem ensures_settle {result : Except Fault Bool} (at_ : r.input = input) (handled : Handled result l r) :
    discipline.Ensures input discipline.outcome (settle result l) r := by
  rcases result with (e | _) | keep
  · cases e with
    | OperationException what =>
      obtain ⟨sound, plain, stays, unrefused, lost⟩ := handled
      rw [settle]
      split
      · rename_i mode
        exact ⟨stays.trans mode, unrefused⟩
      · rename_i mode
        have safe : escapes r = false := stays.trans (Bool.eq_false_of_not_eq_true mode)
        exact ensures_responding at_ (arrives_not plain (.inl rfl) lost) (fun _ _ => outcome_plain sound safe unrefused)
    | FailedTransaction what =>
      obtain ⟨rfl, sound, rfl, stays, lost, n, t, calls⟩ := handled
      refine ensures_releasing .rollback _ at_ ?_
      have kept : readable (r.after (releaseCalls .rollback r.start.locked_tables.addrs)) = false := by
        rw [readable_after (foundTable_release _ _) (refusedLock_release _ _), lost]
      refine ensures_responding at_ (arrives_not (by decide) (.inl rfl) kept) ?_
      intro line run
      refine ⟨sound, ?_, ?_⟩
      · rw [escapes_after rfl rfl, escapes_after (foundTable_release _ _) (refusedLock_release _ _), stays]
      · intro _
        exact ⟨rfl, rfl, n, t, line, by simp [calls], run⟩
    | InvalidMessage what =>
      obtain ⟨stays, unrefused, arrives⟩ := handled
      exact ensures_responding at_ arrives (fun _ _ => ⟨by rw [escapes_after rfl rfl, stays], by simp [unrefused]; rfl⟩)
    | CommException what =>
      obtain ⟨stays, unrefused, arrives⟩ := handled
      exact ensures_responding at_ arrives (fun _ _ => ⟨by rw [escapes_after rfl rfl, stays], by simp [unrefused]; rfl⟩)
    | out_of_range => exact handled
    | invalid_argument => exact handled.elim
    | runtime_error what => exact handled.elim
  · exact handled
  · obtain ⟨sound, stays, unrefused, arrives⟩ := handled
    exact ensures_responding at_ arrives (fun _ _ => outcome_plain sound stays unrefused)

/-! ## Requests -/

theorem escapes_request (asked : requestOf r.input = some m) (login : r.start.logged_in = true) : escapes r =
    (dividesByZero m r.start || (r.start.transaction_mode && stumbles m r.start r.calls)) := by
  obtain ⟨buf, input, parsed⟩ := requestOf_line asked
  have ready : ¬ Unreadable buf.text := by
    rcases line_cases buf with ⟨failed, _⟩ | ⟨failed, _⟩ | ⟨failed, _⟩ | ⟨_, _, ready⟩
    · cases failed.symm.trans parsed
    · cases failed.symm.trans parsed
    · cases failed.symm.trans parsed
    · exact ready
  rw [input] at asked
  simp [escapes, input, ready, asked, login]

private theorem readable_request (asked : requestOf r.input = some m) (login : r.start.logged_in = true)
    (notLogin : m.m_message_type ≠ .LOGIN) : readable r = completes m r.start r.calls := by
  obtain ⟨buf, input, _⟩ := requestOf_line asked
  rw [input] at asked
  simp [readable, input, asked, login, notLogin]

/-- A request that is answered with OK. -/
theorem handled_ok {keep : Bool} (sound : Sound l) (stays : escapes r = false) (unrefused : refusedLock r.calls = false)
    (ready : readable r = true) : Handled (.ok keep) (l.respond .OK []) r := by
  refine ⟨sound, stays, unrefused, ?_⟩
  have arrives : Arrives ⟨.OK, []⟩ (readable r = true) := by rw [ready]; simpa using ok_arrives
  exact arrives

private theorem ensures_creating {n : Str} (asked : requestOf input = some ⟨.CREATE, [n]⟩) (login : l.logged_in = true)
    (sound : Sound l) : discipline.Ensures input Handled (creating n l) ⟨input, l, []⟩ := by
  have stays : ∀ calls, escapes ⟨input, l, calls⟩ = false := by
    intro calls
    rw [escapes_request asked login]
    simp [dividesByZero, stumbles]
  have ready : ∀ calls, readable ⟨input, l, calls⟩ = !foundTable calls := by
    intro calls
    rw [readable_request asked login (by simp)]
    simp [completes]
  refine ⟨⟨rfl, trivial, trivial⟩, ?_⟩
  rintro found _ ⟨rfl, _⟩
  cases found with
  | some t => exact ⟨stays _, rfl, arrives_not (by decide) (.inr rfl) (ready _)⟩
  | none =>
    refine ⟨⟨rfl, trivial, trivial⟩, ?_⟩
    rintro ⟨⟩ _ ⟨rfl, _⟩
    exact handled_ok sound (stays _) rfl (ready _)

/-- A request on a table, once the table is found and locked. -/
structure AtTable (input : Input) (l l' : Local) (r : Request) : Prop where
  input : r.input = input
  start : r.start = l
  found : foundTable r.calls = true
  unrefused : refusedLock r.calls = false
  stack : l'.client_stack = l.client_stack
  mode : l'.transaction_mode = l.transaction_mode

private theorem ensures_onTable {n : Str} {use : Addr → Local → Iteration}
    (cell : m.m_message_type = .GET ∨ m.m_message_type = .SET)
    (asked : requestOf input = some m) (login : l.logged_in = true) (sound : Sound l)
    (then_ : ∀ t l' r, AtTable input l l' r → discipline.Ensures input Handled (use t l') r) :
    discipline.Ensures input Handled (onTable n l use) ⟨input, l, []⟩ := by
  have notLogin : m.m_message_type ≠ .LOGIN := by rcases cell with type | type <;> rw [type] <;> decide
  have off : ∀ calls, underLock calls = false →
      escapes ⟨input, l, calls⟩ = false ∧ readable ⟨input, l, calls⟩ = false := by
    intro calls out
    rw [escapes_request asked login, readable_request asked login notLogin]
    rcases cell with type | type <;> simp [dividesByZero, stumbles, completes, type, out]
  refine ⟨⟨rfl, trivial, trivial⟩, ?_⟩
  rintro found _ ⟨rfl, _⟩
  cases found with
  | none => exact ⟨(off _ rfl).1, rfl, arrives_not (by decide) (.inr rfl) (off _ rfl).2⟩
  | some t =>
    simp only [locking]
    split
    · rename_i mode
      split
      · exact then_ t l _ ⟨rfl, rfl, rfl, rfl, rfl, rfl⟩
      · refine ⟨⟨rfl, trivial, trivial⟩, ?_⟩
        rintro got _ ⟨rfl, _⟩
        cases got with
        | true => exact then_ t (l.withLocked t) _ ⟨rfl, rfl, rfl, rfl, rfl, rfl⟩
        | false => exact ⟨rfl, sound, rfl, (off _ rfl).1, (off _ rfl).2, n, t, rfl⟩
    · refine ⟨⟨rfl, trivial, trivial⟩, ?_⟩
      rintro ⟨⟩ _ ⟨rfl, _⟩
      exact then_ t l _ ⟨rfl, rfl, rfl, rfl, rfl, rfl⟩

private theorem ensures_autocommitting {t : Addr} {keep : Bool} (at_ : r.input = input) (sound : Sound l)
    (stays : escapes r = false) (unrefused : refusedLock r.calls = false) (ready : readable r = true) :
    discipline.Ensures input Handled (autocommitting t l (.done (.ok keep) (l.respond .OK []))) r := by
  unfold autocommitting
  split
  · exact handled_ok sound stays unrefused ready
  · refine ⟨⟨at_, trivial, trivial⟩, ?_⟩
    rintro ⟨⟩ _ ⟨rfl, _⟩
    refine ⟨⟨at_, trivial, trivial⟩, ?_⟩
    rintro ⟨⟩ _ ⟨rfl, _⟩
    rw [Request.after_after]
    refine handled_ok sound ?_ ?_ ?_
    · rw [escapes_after rfl rfl, stays]
    · rw [Request.after_calls, refusedLock_append, unrefused]; rfl
    · rw [readable_after rfl rfl, ready]

private theorem ensures_reading {n k : Str} {t : Addr} {l' : Local} (asked : requestOf input = some ⟨.GET, [n, k]⟩)
    (login : l.logged_in = true) (sound : Sound l) (at_ : AtTable input l l' r) :
    discipline.Ensures input Handled (reading t k l') r := by
  obtain ⟨rfl, rfl, found, unrefused, stack, _⟩ := at_
  have stays : escapes r = false := by
    rw [escapes_request asked login]
    simp [dividesByZero, stumbles]
  have ready : readable r = true := by
    rw [readable_request asked login (by simp)]
    simp [completes, underLock, found, unrefused]
  refine ⟨⟨rfl, trivial, trivial⟩, ?_⟩
  rintro _ _ ⟨rfl, v, rfl, fine⟩
  refine ensures_autocommitting rfl ?_ ?_ ?_ ?_
  · intro w inside
    rcases List.mem_cons.mp inside with rfl | before
    · exact fine
    · rw [stack] at before
      exact sound w before
  · rw [escapes_after rfl rfl, stays]
  · rw [Request.after_calls, refusedLock_append, unrefused]; rfl
  · rw [readable_after rfl rfl, ready]

private theorem ensures_writing {n k : Str} {t : Addr} {l' : Local} (asked : requestOf input = some ⟨.SET, [n, k]⟩)
    (login : l.logged_in = true) (sound : Sound l) (at_ : AtTable input l l' r) :
    discipline.Ensures input Handled (writing t k l') r := by
  obtain ⟨rfl, rfl, found, unrefused, stack, mode⟩ := at_
  have stays : escapes r = (r.start.transaction_mode && r.start.client_stack.stk.isEmpty) := by
    rw [escapes_request asked login]
    simp [dividesByZero, stumbles, underLock, found, unrefused]
  have ready : readable r = !r.start.client_stack.stk.isEmpty := by
    rw [readable_request asked login (by simp)]
    simp [completes, underLock, found, unrefused]
  unfold writing
  rw [stack]
  cases values : r.start.client_stack.stk with
  | nil =>
    refine ⟨?_, by decide, ?_, unrefused, ?_⟩
    · intro v inside
      rw [stack, values] at inside
      cases inside
    · rw [stays, values, mode]; simp
    · rw [ready, values]; rfl
  | cons v rest =>
    have fine : ∀ w ∈ v :: rest, Fine w := by
      rw [← values]
      exact sound
    refine ⟨⟨rfl, fine v (by simp), trivial⟩, ?_⟩
    rintro ⟨⟩ _ ⟨rfl, _⟩
    refine ensures_autocommitting rfl ?_ ?_ ?_ ?_
    · intro w inside
      exact fine w (List.mem_cons_of_mem _ inside)
    · rw [escapes_after rfl rfl, stays, values]; simp
    · rw [Request.after_calls, refusedLock_append, unrefused]; rfl
    · rw [readable_after rfl rfl, ready, values]; rfl

/-- What a request that uses no table needs to know of its own conditions. -/
structure Quiet (input : Input) (m : Message) (l : Local) (r : Request) : Prop where
  request : r = ⟨input, l, []⟩
  stays : escapes r = (dividesByZero m l || (l.transaction_mode && stumbles m l []))
  ready : readable r = completes m l []

private theorem operands_range {stk : List Str} {x y : Int} (some_ : operands stk = some (x, y)) :
    (-2147483648 ≤ x ∧ x < 2147483648) ∧ -2147483648 ≤ y ∧ y < 2147483648 := by
  unfold operands at some_
  split at some_
  · split at some_
    · rename_i left right
      obtain ⟨rfl, rfl⟩ := Prod.mk.inj (Option.some.inj some_)
      exact ⟨stoi_range left, stoi_range right⟩
    · cases some_
  · cases some_

/-- Arithmetic on operands that are there is undefined only for a division by zero. -/
theorem arithmetically_handled {operation : Int → Int → Option Int} (sound : Sound l) (quiet : Quiet input m l r)
    (arithmetic : m.m_message_type ∈ [MessageType.ADD, .MUL, .SUB, .DIV])
    (defined : ∀ x y, operands l.client_stack.stk = some (x, y) → (operation x y = none ↔ dividesByZero m l = true))
    (small : ∀ x y z, operation x y = some z → -9223372036854775808 ≤ z ∧ z < 9223372036854775808) :
    Handled (arithmetically operation l).1 (arithmetically operation l).2 r := by
  obtain ⟨rfl, stays, ready⟩ := quiet
  have stumbled : stumbles m l [] = (operands l.client_stack.stk).isNone := by
    simp only [List.mem_cons, List.not_mem_nil, or_false] at arithmetic
    rcases arithmetic with type | type | type | type <;> rw [stumbles, type]
  have completed : completes m l [] = (operands l.client_stack.stk).isSome := by
    simp only [List.mem_cons, List.not_mem_nil, or_false] at arithmetic
    rcases arithmetic with type | type | type | type <;> rw [completes, type]
  have dropped : ∀ v ∈ l.client_stack.stk.drop 2, Fine v := fun v inside => sound v (List.mem_of_mem_drop inside)
  unfold arithmetically
  cases values : operands l.client_stack.stk with
  | none =>
    have whole : dividesByZero m l = false := by simp [dividesByZero, values]
    refine ⟨dropped, by decide, ?_, rfl, ?_⟩
    · rw [stays, whole, stumbled, values]
      simp [Local.withStack]
    · rw [ready, completed, values]
      rfl
  | some xy =>
    obtain ⟨x, y⟩ := xy
    dsimp only
    cases result : operation x y with
    | none => exact ⟨by rw [stays, (defined x y values).mp result]; rfl, rfl⟩
    | some z =>
      have whole : dividesByZero m l = false := by
        rw [Bool.eq_false_iff, ne_eq, ← defined x y values, result]
        simp
      refine handled_ok (l := l.withStack (to_string z :: l.client_stack.stk.drop 2)) ?_ ?_ rfl ?_
      · intro v inside
        rcases List.mem_cons.mp inside with rfl | before
        · exact fine_to_string (small x y z result)
        · exact dropped v before
      · rw [stays, whole, stumbled, values]
        simp
      · rw [ready, completed, values]
        rfl

/-- A request that uses no table, unless it is LOGIN, which does not get to the handlers. -/
theorem quietly_handled (asked : requestOf input = some m) (notLogin : m.m_message_type ≠ .LOGIN)
    (login : l.logged_in = true) (sound : Sound l) (quiet : usesTables m.m_message_type = false)
    (pushed : m.m_message_type = .PUSH → Fine (m.m_args.headD [])) :
    Handled (quietly m l).1 (quietly m l).2 ⟨input, l, []⟩ := by
  have conditions : Quiet input m l ⟨input, l, []⟩ :=
    ⟨rfl, escapes_request asked login, readable_request asked login notLogin⟩
  have stays := conditions.stays
  have ready := conditions.ready
  obtain ⟨type, args⟩ := m
  dsimp only at quiet pushed notLogin
  cases type with
  | ADD =>
    refine arithmetically_handled sound conditions (by simp) ?_ (fun x y z => int64_range)
    intro x y values
    rw [add_defined (operands_range values).1 (operands_range values).2]
    simp [dividesByZero]
  | MUL =>
    refine arithmetically_handled sound conditions (by simp) ?_ (fun x y z => int64_range)
    intro x y values
    rw [mul_defined (operands_range values).1 (operands_range values).2]
    simp [dividesByZero]
  | SUB =>
    refine arithmetically_handled sound conditions (by simp) ?_ (fun x y z => int64_range)
    intro x y values
    rw [sub_defined (operands_range values).1 (operands_range values).2]
    simp [dividesByZero]
  | DIV =>
    refine arithmetically_handled sound conditions (by simp) ?_ ?_
    · intro x y values
      rw [div_defined (operands_range values).2]
      simp [dividesByZero, values]
    · intro x y z result
      unfold div at result
      split at result
      · cases result
      · exact int64_range result
  | PUSH =>
    refine handled_ok (l := l.withStack (args.headD [] :: l.client_stack.stk)) ?_ ?_ rfl ?_
    · intro v inside
      rcases List.mem_cons.mp inside with rfl | before
      · exact pushed rfl
      · exact sound v before
    · rw [stays]; simp [dividesByZero, stumbles]
    · rw [ready]; rfl
  | POP =>
    unfold quietly
    cases values : l.client_stack.stk with
    | nil => exact ⟨sound, by decide, by rw [stays]; simp [dividesByZero, stumbles, values], rfl, by
        rw [ready]; simp [completes, values]⟩
    | cons v rest =>
      refine handled_ok (l := l.withStack rest) ?_ ?_ rfl ?_
      · intro w inside
        exact sound w (by rw [values]; exact List.mem_cons_of_mem _ inside)
      · rw [stays]; simp [dividesByZero, stumbles, values]
      · rw [ready]; simp [completes, values]
  | TOP =>
    unfold quietly
    cases values : l.client_stack.stk with
    | nil => exact ⟨sound, by decide, by rw [stays]; simp [dividesByZero, stumbles, values], rfl, by
        rw [ready]; simp [completes, values]⟩
    | cons v rest =>
      refine ⟨sound, by rw [stays]; simp [dividesByZero, stumbles, values], rfl, ?_⟩
      have shown : readable ⟨input, l, []⟩ = true ↔ v ≠ [] := by
        rw [ready]
        simp [completes, values]
      rw [shown]
      exact data_arrives (sound v (by rw [values]; exact List.mem_cons_self))
  | BEGIN =>
    refine handled_ok (l := { l with transaction_mode := true }) sound ?_ rfl ?_
    · rw [stays]; simp [dividesByZero, stumbles]
    · rw [ready]; rfl
  | BYE =>
    refine handled_ok sound ?_ rfl ?_
    · rw [stays]; simp [dividesByZero, stumbles]
    · rw [ready]; rfl
  | LOGIN => exact absurd rfl notLogin
  | CREATE => cases quiet
  | SET => cases quiet
  | GET => cases quiet
  | COMMIT => cases quiet
  | NONE | OK | FAILED | ERROR | DATA =>
    have lost : readable ⟨input, l, []⟩ = false := by rw [ready]; rfl
    exact ⟨by rw [stays]; simp [dividesByZero, stumbles], rfl, arrives_not (by decide) (.inr rfl) lost⟩

/-! ## The whole iteration -/

private theorem ensures_requesting (valid : m.is_valid = true) (asked : requestOf input = some m)
    (notLogin : m.m_message_type ≠ .LOGIN) (login : l.logged_in = true) (sound : Sound l)
    (pushed : m.m_message_type = .PUSH → Fine (m.m_args.headD [])) :
    discipline.Ensures input Handled (requesting m l) ⟨input, l, []⟩ := by
  rcases request_forms valid with ⟨n, rfl⟩ | ⟨n, k, rfl⟩ | ⟨n, k, rfl⟩ | rfl | quiet
  · exact ensures_creating asked login sound
  · exact ensures_onTable (.inl rfl) asked login sound (fun t l' r at_ => ensures_reading asked login sound at_)
  · exact ensures_onTable (.inr rfl) asked login sound (fun t l' r at_ => ensures_writing asked login sound at_)
  · refine ensures_releasing .commit _ rfl (handled_ok (l := l.released) sound ?_ (refusedLock_release _ _) ?_)
    · rw [escapes_request asked login]
      simp [dividesByZero, stumbles]
    · rw [readable_request asked login notLogin]
      rfl
  · rw [requesting_quiet quiet]
    exact quietly_handled asked notLogin login sound quiet pushed

/-- A line that is no request, and the end of the connection. -/
theorem handled_refused {e : Exn} {what : Str} (kind : e = .InvalidMessage what ∨ e = .CommException what)
    (stays : escapes r = false) (unrefused : refusedLock r.calls = false)
    (arrives : Arrives ⟨.ERROR, [what]⟩ (readable r = true)) : Handled (.error (.thrown e)) l r := by
  rcases kind with rfl | rfl
  · exact ⟨stays, unrefused, arrives⟩
  · exact ⟨stays, unrefused, arrives⟩

theorem ensures_input {α : Type} {post : α → Local → Request → Prop} {p : Prog Op Res Local α} (at_ : r.input = input)
    (ensures : discipline.Ensures input post p r) :
    discipline.Ensures input (fun a l r => r.input = input ∧ post a l r) p r := by
  induction p generalizing r with
  | done a l => exact ⟨at_, ensures⟩
  | call l op k ih =>
    refine ⟨ensures.1, ?_⟩
    intro result r' moves
    obtain ⟨rfl, fine⟩ := moves
    exact ih result at_ (ensures.2 result _ ⟨rfl, fine⟩)

/-- What the `try` block comes to, on any input. -/
theorem ensures_handling (sound : Sound l) : discipline.Ensures input Handled (handling input l) ⟨input, l, []⟩ := by
  cases input with
  | closed => exact handled_refused (.inr rfl) rfl rfl (arrives_not (by decide) (.inr rfl) rfl)
  | line buf =>
    rcases line_cases buf with ⟨failed, lost⟩ | ⟨failed, whole, last⟩ | ⟨failed, whole, last⟩ | ⟨m, parsed, whole⟩
    · simp only [handling, failed]
      exact ⟨by simp [escapes, lost], rfl⟩
    · have none_ : requestOf (.line buf) = none := requestOf_error failed
      simp only [handling, failed]
      refine handled_refused (.inl rfl) ?_ rfl (arrives_not (by decide) (.inr rfl) ?_)
      · simp [escapes, none_, whole]
      · simp [readable, none_, last]
    · have none_ : requestOf (.line buf) = none := requestOf_error failed
      have ready : readable ⟨.line buf, l, []⟩ = true := by simp [readable, none_, last]
      simp only [handling, failed]
      refine handled_refused (.inl rfl) ?_ rfl ?_
      · simp [escapes, none_, whole]
      · have arrives : Arrives ⟨.ERROR, [quotedText]⟩ (readable ⟨.line buf, l, []⟩ = true) := by
          rw [ready]
          simpa using quoted_arrives
        exact arrives
    · have asked : requestOf (.line buf) = some m := requestOf_decode parsed
      have valid := (decode_accepted parsed).2.2
      simp only [handling, parsed]
      by_cases notLogin : m.m_message_type = .LOGIN
      · rw [if_pos notLogin]
        refine handled_ok (l := { l with logged_in := true }) sound ?_ rfl ?_
        · simp [escapes, asked, whole, dividesByZero, stumbles, notLogin]
        · simp [readable, asked, notLogin]
      · rw [if_neg notLogin]
        by_cases login : l.logged_in = true
        · rw [if_pos login]
          refine ensures_requesting valid asked notLogin login sound ?_
          intro push
          obtain ⟨v, rfl⟩ := push_form valid push
          exact fine_pushed parsed
        · rw [if_neg login]
          refine handled_refused (.inl rfl) ?_ rfl (arrives_not (by decide) (.inr rfl) ?_)
          · simp [escapes, asked, whole, login]
          · simp [readable, asked, notLogin, login]

/-- Every iteration follows the discipline. -/
theorem ensures_iteration (sound : Sound l) :
    discipline.Ensures input discipline.outcome (chat_with_client input l) ⟨input, l, []⟩ := by
  rw [chat_run, iteration_eq]
  refine Discipline.ensures_bind (ensures_input rfl (ensures_handling sound)) ?_
  rintro result l' r' ⟨at_, handled⟩
  exact ensures_settle at_ handled

/-! ## Every run -/

variable {memory : ConnId → Bool} {tr : ServerTrace} {s : ServerState}
  {ok : ServerState → ConnId → ServerEvent → Prop}

/-- The ghost states are the requests in progress, and all values are fine. -/
structure Underway (gs : ConnId → Request) (tr : ServerTrace) (sh : Shared) : Prop where
  now : ∀ c input l calls, progress c tr = some (input, l, calls) → gs c = ⟨input, l, calls⟩
  fine : StoreHolds Fine sh

private theorem Underway.step {gs : ConnId → Request} {sh sh' : Shared} {c : ConnId} {e : ServerEvent} {r' : Request}
    (inv : Underway gs tr sh) (fine : StoreHolds Fine sh')
    (mine : ∀ input l calls, progress c (tr ++ [(c, e)]) = some (input, l, calls) → r' = ⟨input, l, calls⟩) :
    Underway (Function.update gs c r') (tr ++ [(c, e)]) sh' := by
  refine ⟨?_, fine⟩
  refine (Function.forall_update_iff gs fun d g => ∀ input l calls,
    progress d (tr ++ [(c, e)]) = some (input, l, calls) → g = ⟨input, l, calls⟩).mpr ⟨mine, ?_⟩
  intro d other input l calls now
  rw [progress_other (Ne.symm other)] at now
  exact inv.now d input l calls now

/-- In every reachable state the requests in progress fit the discipline, also one that
    asks for more where an exception leaves. -/
theorem underway_run {D : Discipline Request Local Input Fault Op Res} {failed : Fault → Local → Request → Prop}
    (same : D = { discipline with failed := failed })
    (body : ∀ input l, Sound l → D.Ensures input D.outcome (chat_with_client input l) ⟨input, l, []⟩)
    (run : Run server ok (booted memory) tr s) : ∃ gs, Underway gs tr s.shared ∧ ∀ c, D.Fits (s.threads c) (gs c) := by
  subst same
  refine Discipline.sound ?_ ?_ ?_ ?_ ?_ run
  · rintro input l g g' ⟨sound, _⟩ rfl
    exact body input l sound
  · intro gs tr s c l input inv _ _
    refine ⟨_, rfl, inv.step inv.fine ?_⟩
    intro input' l' calls now
    rw [progress_recv] at now
    cases now
    rfl
  · intro gs tr s c choice input l op r after inv _ node exec
    have exec : Server.exec c choice op s.shared = some (r, after) := exec
    obtain ⟨fine, returned⟩ := exec_holds inv.fine node.2.1 (.inr fine_empty) exec
    refine ⟨_, ⟨rfl, returned⟩, inv.step fine ?_⟩
    intro input' l' calls now
    rw [progress_call] at now
    obtain ⟨p, before, same⟩ := Option.map_eq_some_iff.mp now
    cases same
    rw [inv.now c p.1 p.2.1 p.2.2 before]
    rfl
  · intro gs tr s c input l r inv _ _
    have kept : Underway (Function.update gs c (gs c)) (tr ++ [(c, .finish input l r)]) s.shared := by
      refine inv.step inv.fine ?_
      intro input' l' calls now
      have before : progress c tr = some (input', l', calls) := by simpa [progress] using now
      exact inv.now c input' l' calls before
    simpa using kept
  · refine ⟨fun c => ⟨.closed, Local.create (memory c), []⟩, ⟨?_, ?_⟩, ?_⟩
    · intro c input l calls now
      cases now
    · intro t tb here
      cases here
    · intro c
      refine ⟨?_, rfl, ?_⟩
      · intro v inside
        cases inside
      · intro refused
        cases refused

theorem outcomes_run (run : Run server ok (booted memory) tr s) :
    ∃ gs, Underway gs tr s.shared ∧ ∀ c, discipline.Fits (s.threads c) (gs c) :=
  underway_run rfl (fun _ _ sound => ensures_iteration sound) run

end TableServer.Outcomes
