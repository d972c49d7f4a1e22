import TableServer.Serialization
import TableServer.Stores
import TableServer.Numbers
import TableServer.Resumption

/-!
The worker of one client: the members of `ClientConnection`, what it reads from
the socket, its request handlers and one iteration of the loop of
`chat_with_client`. Everything that touches a table, the table map, a mutex or the
socket is an operation that the server executes; the rest is local.
-/

namespace TableServer.Connection
open TableServer.Bytes TableServer.Messages TableServer.Serialization TableServer.Stores TableServer.Numbers
open Resumption
open Resumption.Handler (look update perform)

/-- What `rio_readlineb` leaves in the 1025 bytes of `buf` before the terminating `NUL`. -/
structure Line where
  bytes : Str
  nonempty : bytes ≠ []
  short : bytes.length ≤ 1024
  ended : ∀ before after, bytes = before ++ newline :: after → after = []

/-- The outcome of the read: a line, or a return value that is not positive. -/
inductive Input where
  | line (buf : Line)
  | closed

/-- The loop of `rio_readlineb` with room for `n` more bytes: the bytes stored and
    the bytes left in the stream. -/
def readBytes : Nat → Str → Str × Str
  | 0, stream => ([], stream)
  | _ + 1, [] => ([], [])
  | n + 1, c :: stream => if c = newline then ([c], stream) else
    (c :: (readBytes n stream).1, (readBytes n stream).2)

private theorem readBytes_length (n : Nat) (stream : Str) : (readBytes n stream).1.length ≤ n := by
  induction n generalizing stream with
  | zero => simp [readBytes]
  | succ n ih =>
    cases stream with
    | nil => simp [readBytes]
    | cons c stream =>
      rw [readBytes]
      split
      · simp
      · have := ih stream; simp only [List.length_cons]; omega

private theorem readBytes_ended (n : Nat) (stream before after : Str)
    (at_ : (readBytes n stream).1 = before ++ newline :: after) : after = [] := by
  induction n generalizing stream before with
  | zero => simp [readBytes] at at_
  | succ n ih =>
    cases stream with
    | nil => simp [readBytes] at at_
    | cons c stream =>
      rw [readBytes] at at_
      split at at_
      · cases before with
        | nil => simp only [List.nil_append, List.cons.injEq] at at_; exact at_.2.symm
        | cons d before => simp at at_
      · rename_i other
        cases before with
        | nil => simp only [List.nil_append, List.cons.injEq] at at_; exact absurd at_.1 other
        | cons d before =>
          simp only [List.cons_append, List.cons.injEq] at at_
          exact ih stream before at_.2

/-- Reading from a stream that then ends; with no byte before the end nothing is read. -/
def rio_readlineb (stream : Str) : Input :=
  if some_ : (readBytes 1024 stream).1 ≠ [] then
    .line ⟨(readBytes 1024 stream).1, some_, readBytes_length _ _, readBytes_ended _ _⟩
  else .closed

/-- `std::string encoded_message(buf)`: the bytes before the first `NUL`. -/
def Line.text (buf : Line) : Str := buf.bytes.takeWhile (· != NUL)

/-- A `std::set<Table*>`: addresses in increasing order. -/
structure TableSet where
  addrs : List Addr
  sorted : addrs.Pairwise (· < ·)

namespace TableSet

def empty : TableSet := ⟨[], .nil⟩

def insertAddr (t : Addr) : List Addr → List Addr
  | [] => [t]
  | u :: rest => if t < u then t :: u :: rest else if t = u then u :: rest else u :: insertAddr t rest

theorem mem_insertAddr {t u : Addr} {l : List Addr} : u ∈ insertAddr t l ↔ u = t ∨ u ∈ l := by
  induction l with
  | nil => simp [insertAddr]
  | cons v rest ih =>
    rw [insertAddr]
    split
    · simp
    · split
      · rename_i same; subst same; simp
      · simp only [List.mem_cons, ih]
        exact or_left_comm

private theorem sorted_insertAddr (t : Addr) {l : List Addr} (sorted : l.Pairwise (· < ·)) :
    (insertAddr t l).Pairwise (· < ·) := by
  induction l with
  | nil => simp [insertAddr]
  | cons v rest ih =>
    obtain ⟨below, tail⟩ := List.pairwise_cons.mp sorted
    rw [insertAddr]
    split
    · rename_i lt
      refine List.pairwise_cons.mpr ⟨?_, sorted⟩
      intro u member
      rcases List.mem_cons.mp member with rfl | later
      · exact lt
      · exact Nat.lt_trans lt (below u later)
    · split
      · exact sorted
      · rename_i notLt other
        refine List.pairwise_cons.mpr ⟨?_, ih tail⟩
        intro u member
        rcases mem_insertAddr.mp member with rfl | later
        · exact Nat.lt_of_le_of_ne (Nat.le_of_not_lt notLt) (Ne.symm other)
        · exact below u later

def insert (s : TableSet) (t : Addr) : TableSet := ⟨insertAddr t s.addrs, sorted_insertAddr t s.sorted⟩

def contains (s : TableSet) (t : Addr) : Bool := s.addrs.contains t

end TableSet

/-- The members of `ClientConnection` that its methods change. -/
structure Local where
  logged_in : Bool
  client_stack : ValueStack
  response : Message
  transaction_mode : Bool
  locked_tables : TableSet

/-- The constructor, which leaves `logged_in` as it is in memory. -/
def Local.create (logged_in : Bool) : Local := ⟨logged_in, .empty, ⟨.NONE, []⟩, false, .empty⟩

inductive Op where
  | find_table (name : Str)
  | create_table (name : Str)
  | lock (t : Addr)
  | trylock (t : Addr)
  | unlock (t : Addr)
  | get (t : Addr) (key : Str)
  | set (t : Addr) (key value : Str)
  | commit_changes (t : Addr)
  | rollback_changes (t : Addr)
  | write (line : Str)
  deriving DecidableEq

/-- What an operation returns; `Table::get` can throw. -/
abbrev Res : Op → Type
  | .find_table _ => Option Addr
  | .create_table _ => Unit
  | .lock _ => Unit
  | .trylock _ => Bool
  | .unlock _ => Unit
  | .get _ _ => Except Exn Str
  | .set _ _ _ => Unit
  | .commit_changes _ => Unit
  | .rollback_changes _ => Unit
  | .write _ => Unit

/-- An exception, or an operation that C++ leaves undefined and nothing catches. -/
inductive Fault where
  | thrown (e : Exn)
  | undefined

abbrev Task (α : Type) : Type := Handler Op Res Local Fault α

/-- A `throw` expression of the source. -/
def raise {α : Type} (e : Exn) : Task α := throw (.thrown e)

/-- The result of a call that may throw. -/
def orThrow {α : Type} (r : Except Exn α) : Task α := Handler.ofExcept (r.mapError .thrown)

def find_table (name : Str) : Task (Option Addr) := perform (Op.find_table name)
def create_table (name : Str) : Task Unit := perform (Op.create_table name)
def lock (t : Addr) : Task Unit := perform (Op.lock t)
def trylock (t : Addr) : Task Bool := perform (Op.trylock t)
def unlock (t : Addr) : Task Unit := perform (Op.unlock t)
def get (t : Addr) (key : Str) : Task (Except Exn Str) := perform (Op.get t key)
def set (t : Addr) (key value : Str) : Task Unit := perform (Op.set t key value)
def commit_changes (t : Addr) : Task Unit := perform (Op.commit_changes t)
def rollback_changes (t : Addr) : Task Unit := perform (Op.rollback_changes t)
def rio_writen (line : Str) : Task Unit := perform (Op.write line)

def setResponse (m : Message) : Task Unit := update fun l => { l with response := m }

def return_response_to_client : Task Unit := do
  let encoded_response ← orThrow (encode (← look).response)
  rio_writen encoded_response

def table_is_locked (table : Addr) : Task Bool := do
  return (← look).locked_tables.contains table

def handle_table_locking (table : Addr) : Task Unit := do
  if !(← look).transaction_mode then
    lock table
  else if ← table_is_locked table then
    return ()
  else if ← trylock table then
    update fun l => { l with locked_tables := l.locked_tables.insert table }
  else
    raise (.FailedTransaction (lit "Failed to acquire lock"))

/-- The loop over `locked_tables` that finishes and unlocks each table. -/
def release (finish : Addr → Task Unit) : Task Unit := do
  (← look).locked_tables.addrs.forM fun table => do
    finish table
    unlock table
  update fun l => { l with locked_tables := .empty }

def rollback_tables : Task Unit := release rollback_changes

def commit_tables : Task Unit := release commit_changes

/-- `client_stack.pop()`. -/
def popStack : Task Unit := do
  let rest ← orThrow (← look).client_stack.pop
  update fun l => { l with client_stack := rest }

def pushStack (value : Str) : Task Unit := update fun l => { l with client_stack := l.client_stack.push value }

def pop_two_values : Task (Option (Int × Int)) :=
  tryCatch (do
    let pop1 ← orThrow (← look).client_stack.get_top
    popStack
    let pop2 ← orThrow (← look).client_stack.get_top
    popStack
    let val1 ← orThrow (stoi pop1)
    let val2 ← orThrow (stoi pop2)
    return some (val1, val2))
  fun e => match e with
    | .thrown _ => return none
    | e => throw e

def create_request_handler (request : Message) : Task Unit := do
  let name ← orThrow request.get_table
  match ← find_table name with
  | some _ => raise (.InvalidMessage (lit "Table has already been created"))
  | none =>
    create_table name
    setResponse ⟨.OK, []⟩

def push_request_handler (request : Message) : Task Unit := do
  let value ← orThrow request.get_value
  pushStack value
  setResponse ⟨.OK, []⟩

def pop_request_handler : Task Unit := do
  if (← look).client_stack.is_empty then raise (.OperationException (lit "Stack is empty"))
  else
    popStack
    setResponse ⟨.OK, []⟩

def top_request_handler : Task Unit := do
  if (← look).client_stack.is_empty then raise (.OperationException (lit "Stack is empty"))
  else
    let top ← orThrow (← look).client_stack.get_top
    setResponse ⟨.DATA, [top]⟩

/-- `commit_changes` and `unlock`, outside a transaction. -/
def autocommit (table : Addr) : Task Unit := do
  if !(← look).transaction_mode then
    commit_changes table
    unlock table
  else
    return ()

def get_request_handler (request : Message) : Task Unit := do
  let name ← orThrow request.get_table
  match ← find_table name with
  | none => raise (.InvalidMessage (lit "Table not found"))
  | some cur_table =>
    handle_table_locking cur_table
    let key ← orThrow request.get_key
    let cur_val ← orThrow (← get cur_table key)
    pushStack cur_val
    autocommit cur_table
    setResponse ⟨.OK, []⟩

def set_request_handler (request : Message) : Task Unit := do
  let name ← orThrow request.get_table
  match ← find_table name with
  | none => raise (.InvalidMessage (lit "Table not found"))
  | some cur_table =>
    handle_table_locking cur_table
    if (← look).client_stack.is_empty then raise (.OperationException (lit "Stack is empty"))
    else
      let popped_val ← orThrow (← look).client_stack.get_top
      popStack
      let key ← orThrow request.get_key
      set cur_table key popped_val
      autocommit cur_table
      setResponse ⟨.OK, []⟩

def arithmetic_request_handler (operation : Int → Int → Option Int) : Task Unit := do
  match ← pop_two_values with
  | none => raise (.OperationException (lit "Stack is empty or operands are not valid"))
  | some (value_1, value_2) =>
    match operation value_1 value_2 with
    | none => throw .undefined
    | some result =>
      pushStack (to_string result)
      setResponse ⟨.OK, []⟩

/-- The `switch` over the type of a request; it returns `keep_going`. -/
def handle_request (request : Message) : Task Bool := do
  match request.m_message_type with
  | .CREATE => create_request_handler request; return true
  | .PUSH => push_request_handler request; return true
  | .POP => pop_request_handler; return true
  | .TOP => top_request_handler; return true
  | .SET => set_request_handler request; return true
  | .GET => get_request_handler request; return true
  | .ADD => arithmetic_request_handler add; return true
  | .MUL => arithmetic_request_handler mul; return true
  | .SUB => arithmetic_request_handler sub; return true
  | .DIV => arithmetic_request_handler div; return true
  | .BEGIN =>
    setResponse ⟨.OK, []⟩
    update fun l => { l with transaction_mode := true }
    return true
  | .COMMIT =>
    commit_tables
    update fun l => { l with transaction_mode := false }
    setResponse ⟨.OK, []⟩
    return true
  | .BYE => setResponse ⟨.OK, []⟩; return false
  | _ => raise (.InvalidMessage (lit "Invalid message sent"))

/-- How the `try` block ends: with the `continue` after a LOGIN, or with `keep_going`. -/
inductive Flow where
  | again
  | proceed (keep_going : Bool)

def tryBlock (input : Input) : Task Flow := do
  match input with
  | .closed => raise (.CommException (lit "Error reading client input"))
  | .line buf =>
    let request ← orThrow (decode buf.text)
    if !request.is_valid then raise invalidArguments
    else if request.m_message_type = .LOGIN then
      update fun l => { l with logged_in := true }
      setResponse ⟨.OK, []⟩
      return_response_to_client
      return .again
    else if !(← look).logged_in then raise (.InvalidMessage (lit "User not logged in"))
    else
      return .proceed (← handle_request request)

/-- The `catch` clauses; what none of them matches goes on. -/
def catchClauses (e : Fault) : Task Flow := do
  match e with
  | .thrown (.OperationException what) =>
    if (← look).transaction_mode then raise (.FailedTransaction (lit "operation failed during transaction"))
    else
      setResponse ⟨.FAILED, [what]⟩
      return .proceed true
  | .thrown (.FailedTransaction what) =>
    rollback_tables
    update fun l => { l with transaction_mode := false }
    setResponse ⟨.FAILED, [what]⟩
    return .proceed true
  | .thrown (.InvalidMessage what) =>
    setResponse ⟨.ERROR, [what]⟩
    return .proceed false
  | .thrown (.CommException what) =>
    setResponse ⟨.ERROR, [what]⟩
    return .proceed false
  | e => throw e

/-- The body of the `while` loop; it returns whether the loop goes on. -/
def chat_with_client (input : Input) : Task Bool := do
  match ← tryCatch (tryBlock input) catchClauses with
  | .again => return true
  | .proceed keep_going =>
    return_response_to_client
    return keep_going

end TableServer.Connection
