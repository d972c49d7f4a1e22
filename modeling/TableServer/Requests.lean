import TableServer.Server
import TableServer.Tokens

/-!
One iteration of the loop of `chat_with_client` as a program: for every kind of
line, the operations it calls, in which local state, and what it ends with. Later
modules reason about these programs and no longer about the handlers.
-/

namespace TableServer.Connection.Local
open TableServer.Bytes TableServer.Messages TableServer.Stores

def respond (l : Local) (t : MessageType) (args : List Str) : Local := { l with response := ⟨t, args⟩ }

def withStack (l : Local) (stk : List Str) : Local := { l with client_stack := .ofList stk }

def withLocked (l : Local) (t : Addr) : Local := { l with locked_tables := l.locked_tables.insert t }

/-- After the release of all tables. -/
def released (l : Local) : Local := { l with locked_tables := .empty, transaction_mode := false }

@[simp] theorem withStack_self (l : Local) : l.withStack l.client_stack.stk = l := by
  simp [withStack]

@[simp] theorem withStack_stk (l : Local) (stk : List Str) : (l.withStack stk).client_stack.stk = stk := rfl

@[simp] theorem withStack_withStack (l : Local) (stk stk' : List Str) :
    (l.withStack stk).withStack stk' = l.withStack stk' := rfl

end TableServer.Connection.Local

namespace TableServer.Requests
open TableServer.Bytes TableServer.Messages TableServer.Serialization TableServer.Stores TableServer.Numbers
open TableServer.Connection TableServer.Server TableServer.Tokens
open Resumption

abbrev Program (α : Type) := Prog Op Res Local (Except Fault α)

abbrev Iteration := Program Bool

/-- `return_response_to_client` and then the end of the loop body. -/
def responding (keep : Bool) (l : Local) : Iteration :=
  match encode l.response with
  | .ok line => .call l (.write line) fun _ => .done (.ok keep) l
  | .error e => .done (.error (.thrown e)) l

/-- How the loops over `locked_tables` finish a table. -/
inductive Ending where
  | commit
  | rollback

def Ending.op : Ending → Addr → Op
  | .commit, t => .commit_changes t
  | .rollback, t => .rollback_changes t

/-- The loop over the tables to release, and what follows it. The local state does
    not change before the loop is over. -/
def releasing {α : Type} (ending : Ending) (l : Local) (after : Program α) : List Addr → Program α
  | [] => after
  | t :: rest => .call l (ending.op t) fun _ => .call l (.unlock t) fun _ => releasing ending l after rest

def lockRefused : Str := lit "Failed to acquire lock"
def operationFailed : Str := lit "operation failed during transaction"

/-- What the `catch` clauses and the code after them make of the end of a request. -/
def settle (r : Except Fault Bool) (l : Local) : Iteration :=
  match r with
  | .ok keep => responding keep l
  | .error (.thrown (.OperationException what)) =>
    if l.transaction_mode then .done (.error (.thrown (.FailedTransaction operationFailed))) l
    else responding true (l.respond .FAILED [what])
  | .error (.thrown (.FailedTransaction what)) =>
    releasing .rollback l (responding true (l.released.respond .FAILED [what])) l.locked_tables.addrs
  | .error (.thrown (.InvalidMessage what)) => responding false (l.respond .ERROR [what])
  | .error (.thrown (.CommException what)) => responding false (l.respond .ERROR [what])
  | .error e => .done (.error e) l

/-- The operands of an arithmetic request, the top of the stack first. -/
def operands : List Str → Option (Int × Int)
  | a :: b :: _ =>
    match stoi a, stoi b with
    | .ok x, .ok y => some (x, y)
    | _, _ => none
  | _ => none

def emptyStack : Str := lit "Stack is empty"
def badOperands : Str := lit "Stack is empty or operands are not valid"

/-- An arithmetic request: the end of the handler and the members after it. -/
def arithmetically (operation : Int → Int → Option Int) (l : Local) : Except Fault Bool × Local :=
  let left := l.withStack (l.client_stack.stk.drop 2)
  match operands l.client_stack.stk with
  | none => (.error (.thrown (.OperationException badOperands)), left)
  | some (x, y) =>
    match operation x y with
    | none => (.error .undefined, left)
    | some z => (.ok true, (l.withStack (to_string z :: l.client_stack.stk.drop 2)).respond .OK [])

/-- A request that needs no table: the end of the handler and the members after it. -/
def quietly (m : Message) (l : Local) : Except Fault Bool × Local :=
  match m.m_message_type with
  | .PUSH => (.ok true, (l.withStack (m.m_args.headD [] :: l.client_stack.stk)).respond .OK [])
  | .POP =>
    match l.client_stack.stk with
    | [] => (.error (.thrown (.OperationException emptyStack)), l)
    | _ :: rest => (.ok true, (l.withStack rest).respond .OK [])
  | .TOP =>
    match l.client_stack.stk with
    | [] => (.error (.thrown (.OperationException emptyStack)), l)
    | v :: _ => (.ok true, l.respond .DATA [v])
  | .ADD => arithmetically add l
  | .MUL => arithmetically mul l
  | .SUB => arithmetically sub l
  | .DIV => arithmetically div l
  | .BEGIN => (.ok true, { l.respond .OK [] with transaction_mode := true })
  | .BYE => (.ok false, l.respond .OK [])
  | _ => (.error (.thrown (.InvalidMessage (lit "Invalid message sent"))), l)

/-! ## Requests that use tables -/

/-- `handle_table_locking`, and what follows it in the local state it leaves. -/
def locking {α : Type} (t : Addr) (l : Local) (after : Local → Program α) : Program α :=
  if l.transaction_mode then
    if l.locked_tables.contains t then after l
    else .call l (.trylock t) fun got =>
      if got then after (l.withLocked t) else .done (.error (.thrown (.FailedTransaction lockRefused))) l
  else .call l (.lock t) fun _ => after l

/-- `autocommit`, and what follows it. -/
def autocommitting {α : Type} (t : Addr) (l : Local) (after : Program α) : Program α :=
  if l.transaction_mode then after
  else .call l (.commit_changes t) fun _ => .call l (.unlock t) fun _ => after

def tableExists : Str := lit "Table has already been created"
def tableMissing : Str := lit "Table not found"

def creating (n : Str) (l : Local) : Iteration :=
  .call l (.find_table n) fun found =>
    match found with
    | some _ => .done (.error (.thrown (.InvalidMessage tableExists))) l
    | none => .call l (.create_table n) fun _ => .done (.ok true) (l.respond .OK [])

/-- A GET once the table is locked. -/
def reading (t : Addr) (k : Str) (l : Local) : Iteration :=
  .call l (.get t k) fun value =>
    match value with
    | .error e => .done (.error (.thrown e)) l
    | .ok v => autocommitting t (l.withStack (v :: l.client_stack.stk))
        (.done (.ok true) ((l.withStack (v :: l.client_stack.stk)).respond .OK []))

/-- A SET once the table is locked. -/
def writing (t : Addr) (k : Str) (l : Local) : Iteration :=
  match l.client_stack.stk with
  | [] => .done (.error (.thrown (.OperationException emptyStack))) l
  | v :: rest => .call (l.withStack rest) (.set t k v) fun _ =>
      autocommitting t (l.withStack rest) (.done (.ok true) ((l.withStack rest).respond .OK []))

/-- A request on a cell of an existing table. -/
def onTable (n : Str) (l : Local) (use : Addr → Local → Iteration) : Iteration :=
  .call l (.find_table n) fun found =>
    match found with
    | none => .done (.error (.thrown (.InvalidMessage tableMissing))) l
    | some t => locking t l (use t)

/-- The program of a valid request. -/
def requesting (m : Message) (l : Local) : Iteration :=
  match m.m_message_type, m.m_args with
  | .CREATE, [n] => creating n l
  | .GET, [n, k] => onTable n l (fun t => reading t k)
  | .SET, [n, k] => onTable n l (fun t => writing t k)
  | .COMMIT, _ => releasing .commit l (.done (.ok true) (l.released.respond .OK [])) l.locked_tables.addrs
  | _, _ => .done (quietly m l).1 (quietly m l).2

/-! ## The handlers are these programs -/

private theorem popStack_run (l : Local) : popStack l =
    match l.client_stack.stk with
    | [] => .done (.error (.thrown (.OperationException emptyStack))) l
    | _ :: rest => .done (.ok ()) (l.withStack rest) := by
  simp only [popStack, Handler.bind_run, Handler.look_run, Prog.bind_done, Handler.andThen_ok, orThrow,
    Handler.ofExcept_run, ValueStack.pop_eq]
  cases l.client_stack.stk <;> rfl

private theorem getTop_run (l : Local) : (orThrow l.client_stack.get_top : Connection.Task Str) l =
    match l.client_stack.stk with
    | [] => .done (.error (.thrown (.OperationException emptyStack))) l
    | v :: _ => .done (.ok v) l := by
  simp only [orThrow, Handler.ofExcept_run, ValueStack.get_top_eq]
  cases l.client_stack.stk <;> rfl

theorem orThrow_ok {α : Type} (a : α) (l : Local) : (orThrow (.ok a) : Connection.Task α) l = .done (.ok a) l := rfl

/-- Whatever happens, up to two values are gone from the stack. -/
theorem pop_two_values_run (l : Local) :
    pop_two_values l = .done (.ok (operands l.client_stack.stk)) (l.withStack (l.client_stack.stk.drop 2)) := by
  rcases stack : l.client_stack.stk with _ | ⟨a, _ | ⟨b, rest⟩⟩
  · have same : l.withStack [] = l := by rw [← stack, Local.withStack_self]
    simp [pop_two_values, getTop_run, stack, operands, same]
  · simp [pop_two_values, getTop_run, popStack_run, stack, operands]
  · simp only [pop_two_values, Handler.tryCatch_run, Handler.bind_run, Handler.look_run, Prog.bind_done,
      Handler.andThen_ok, getTop_run, popStack_run, stack, Local.withStack_stk, Local.withStack_withStack, operands,
      List.drop_succ_cons, List.drop_zero]
    cases stoi a with
    | error e => rfl
    | ok x =>
      simp only [orThrow_ok, Prog.bind_done, Handler.andThen_ok]
      cases stoi b with
      | error e => rfl
      | ok y => rfl

private theorem arithmetic_run (operation : Int → Int → Option Int) (l : Local) :
    (do arithmetic_request_handler operation; return true : Connection.Task Bool) l =
      .done (arithmetically operation l).1 (arithmetically operation l).2 := by
  simp only [arithmetic_request_handler, Handler.bind_run, pop_two_values_run, Prog.bind_done, Handler.andThen_ok,
    arithmetically]
  cases operands l.client_stack.stk with
  | none => rfl
  | some xy =>
    obtain ⟨x, y⟩ := xy
    simp only
    cases operation x y with
    | none => rfl
    | some z => rfl

private theorem stack_cases (l : Local) : (l.client_stack.stk = [] ∧ l.client_stack.is_empty = true) ∨
    ∃ v rest, l.client_stack.stk = v :: rest ∧ l.client_stack.is_empty = false := by
  cases stack : l.client_stack.stk with
  | nil => exact .inl ⟨rfl, (ValueStack.is_empty_iff _).mpr stack⟩
  | cons v rest =>
    refine .inr ⟨v, rest, rfl, Bool.eq_false_iff.mpr ?_⟩
    intro empty
    rw [ValueStack.is_empty_iff, stack] at empty
    cases empty

private theorem pushStack_run (v : Str) (l : Local) :
    pushStack v l = .done (.ok ()) (l.withStack (v :: l.client_stack.stk)) := by
  have same : l.client_stack.push v = .ofList (v :: l.client_stack.stk) := ValueStack.ext rfl
  simp only [pushStack, Handler.update_run, same]
  rfl

private theorem pop_run (l : Local) : handle_request ⟨.POP, []⟩ l =
    .done (quietly ⟨.POP, []⟩ l).1 (quietly ⟨.POP, []⟩ l).2 := by
  simp only [handle_request, pop_request_handler, Handler.bind_run, Handler.look_run, Prog.bind_done,
    Handler.andThen_ok, quietly]
  rcases stack_cases l with ⟨stack, empty⟩ | ⟨v, rest, stack, some_⟩
  · simp only [empty, stack, if_true]
    rfl
  · simp only [some_, stack, Bool.false_eq_true, if_false, Handler.bind_run, popStack_run, Prog.bind_done,
      Handler.andThen_ok]
    rfl

private theorem top_run (l : Local) : handle_request ⟨.TOP, []⟩ l =
    .done (quietly ⟨.TOP, []⟩ l).1 (quietly ⟨.TOP, []⟩ l).2 := by
  simp only [handle_request, top_request_handler, Handler.bind_run, Handler.look_run, Prog.bind_done,
    Handler.andThen_ok, quietly]
  rcases stack_cases l with ⟨stack, empty⟩ | ⟨v, rest, stack, some_⟩
  · simp only [empty, stack, if_true]
    rfl
  · simp only [some_, stack, Bool.false_eq_true, if_false, Handler.bind_run, Handler.look_run, Prog.bind_done,
      Handler.andThen_ok, getTop_run]
    rfl

private theorem create_run (n : Str) (l : Local) : handle_request ⟨.CREATE, [n]⟩ l = creating n l := by
  show Prog.call l _ _ = Prog.call l _ _
  congr 1
  funext found
  cases found with
  | none => rfl
  | some t => rfl

theorem releasing_bind {α β : Type} (ending : Ending) (l : Local) (after : Program α) (addrs : List Addr)
    (f : Except Fault α → Local → Program β) :
    (releasing ending l after addrs).bind f = releasing ending l (after.bind f) addrs := by
  induction addrs with
  | nil => rfl
  | cons t rest ih => simp only [releasing, Prog.bind_call, ih]

private theorem locking_bind {α β : Type} (t : Addr) (l : Local) (after : Local → Program α)
    (f : α → Connection.Task β) :
    (locking t l after).bind (Handler.andThen f) = locking t l (fun l => (after l).bind (Handler.andThen f)) := by
  unfold locking
  split
  · split
    · rfl
    · simp only [Prog.bind_call]
      congr 1
      funext got
      cases got <;> rfl
  · rfl

private theorem autocommitting_bind {α β : Type} (t : Addr) (l : Local) (after : Program α)
    (f : α → Connection.Task β) :
    (autocommitting t l after).bind (Handler.andThen f) = autocommitting t l (after.bind (Handler.andThen f)) := by
  unfold autocommitting
  split <;> rfl

/-- The loop of `rollback_tables` and `commit_tables`. -/
theorem releaseLoop_run {finish : Addr → Connection.Task Unit} {ending : Ending}
    (finishes : ∀ t l, finish t l = .call l (ending.op t) fun _ => .done (.ok ()) l) (l : Local) (addrs : List Addr) :
    (addrs.forM fun t => do finish t; unlock t) l = releasing ending l (.done (.ok ()) l) addrs := by
  induction addrs with
  | nil => rfl
  | cons t rest ih =>
    have unrolled : ((t :: rest).forM fun t => do finish t; unlock t) l =
        ((finish t l).bind (Handler.andThen fun _ => unlock t)).bind
          (Handler.andThen fun _ => rest.forM fun t => do finish t; unlock t) := rfl
    rw [unrolled, finishes]
    simp only [Prog.bind_call, Prog.bind_done, Handler.andThen_ok, releasing, ← ih]
    rfl

private theorem release_run (finish : Addr → Connection.Task Unit) (ending : Ending)
    (finishes : ∀ t l, finish t l = .call l (ending.op t) fun _ => .done (.ok ()) l) (l : Local) :
    release finish l =
      releasing ending l (.done (.ok ()) { l with locked_tables := .empty }) l.locked_tables.addrs := by
  simp only [release, Handler.bind_run, Handler.look_run, Prog.bind_done, Handler.andThen_ok,
    releaseLoop_run finishes, releasing_bind, Handler.update_run]

private theorem handle_table_locking_run (t : Addr) (l : Local) :
    handle_table_locking t l = locking t l (fun l => .done (.ok ()) l) := by
  simp only [handle_table_locking, table_is_locked, Handler.bind_run, Handler.look_run, Prog.bind_done,
    Handler.andThen_ok, locking]
  cases l.transaction_mode with
  | false => rfl
  | true =>
    simp only [Bool.not_true, Bool.false_eq_true, if_false, if_true, Handler.bind_run, Handler.look_run, Prog.bind_done,
      Handler.andThen_ok, Handler.pure_run]
    cases l.locked_tables.contains t with
    | true => rfl
    | false =>
      show Prog.call l _ _ = Prog.call l _ _
      congr 1
      funext got
      cases got <;> rfl

private theorem autocommit_run (t : Addr) (l : Local) :
    autocommit t l = autocommitting t l (.done (.ok ()) l) := by
  simp only [autocommit, Handler.bind_run, Handler.look_run, Prog.bind_done, Handler.andThen_ok, autocommitting]
  cases l.transaction_mode <;> rfl

private theorem get_run (n k : Str) (l : Local) :
    handle_request ⟨.GET, [n, k]⟩ l = onTable n l (fun t => reading t k) := by
  show Prog.call l _ _ = Prog.call l _ _
  congr 1
  funext found
  cases found with
  | none => rfl
  | some t =>
    simp only [Prog.bind_done, Handler.andThen_ok, Handler.bind_run, handle_table_locking_run, locking_bind]
    congr 1
    funext l
    show Prog.call l _ _ = Prog.call l _ _
    congr 1
    funext value
    cases value with
    | error e => rfl
    | ok v =>
      simp only [orThrow_ok, Prog.bind_done, Handler.andThen_ok, Handler.bind_run, pushStack_run, autocommit_run,
        autocommitting_bind]
      rfl

private theorem set_run (n k : Str) (l : Local) :
    handle_request ⟨.SET, [n, k]⟩ l = onTable n l (fun t => writing t k) := by
  show Prog.call l _ _ = Prog.call l _ _
  congr 1
  funext found
  cases found with
  | none => rfl
  | some t =>
    simp only [Prog.bind_done, Handler.andThen_ok, Handler.bind_run, handle_table_locking_run, locking_bind]
    congr 1
    funext l
    simp only [Handler.look_run, Prog.bind_done, Handler.andThen_ok, writing]
    rcases stack_cases l with ⟨stack, empty⟩ | ⟨v, rest, stack, some_⟩
    · simp only [empty, stack, if_true]
      rfl
    · have key : Message.get_key ⟨.SET, [n, k]⟩ = .ok k := rfl
      simp only [some_, stack, Bool.false_eq_true, if_false, Handler.bind_run, Handler.look_run, Prog.bind_done,
        Handler.andThen_ok, getTop_run, popStack_run, key, orThrow_ok, Connection.set, Handler.perform_run,
        Prog.bind_call, autocommit_run, autocommitting_bind]
      rfl

private theorem commit_run (l : Local) : handle_request ⟨.COMMIT, []⟩ l =
    releasing .commit l (.done (.ok true) (l.released.respond .OK [])) l.locked_tables.addrs := by
  simp only [handle_request, Handler.bind_run, commit_tables]
  rw [release_run commit_changes .commit (fun _ _ => rfl)]
  simp only [releasing_bind]
  rfl

private theorem plain_run {t : MessageType}
    (bare : t ∈ [.POP, .TOP, .ADD, .MUL, .SUB, .DIV, .BEGIN, .COMMIT, .BYE, .OK, .NONE])
    (l : Local) : handle_request ⟨t, []⟩ l = requesting ⟨t, []⟩ l := by
  simp only [List.mem_cons, List.not_mem_nil, or_false] at bare
  rcases bare with rfl | rfl | rfl | rfl | rfl | rfl | rfl | rfl | rfl | rfl | rfl
  · exact pop_run l
  · exact top_run l
  · exact arithmetic_run add l
  · exact arithmetic_run mul l
  · exact arithmetic_run sub l
  · exact arithmetic_run div l
  · rfl
  · exact commit_run l
  · rfl
  · rfl
  · rfl

/-- Every valid request but LOGIN, which does not reach the handlers, runs as `requesting` says. -/
theorem handle_request_run {m : Message} (valid : m.is_valid = true) (l : Local) :
    handle_request m l = requesting m l := by
  have shape := shape_of_valid valid
  obtain ⟨t, args⟩ := m
  cases shape with
  | plain bare => exact plain_run bare l
  | named one ok =>
    simp only [List.mem_cons, List.not_mem_nil, or_false] at one
    rcases one with rfl | rfl
    · rfl
    · exact create_run _ l
  | value one ok =>
    simp only [List.mem_cons, List.not_mem_nil, or_false] at one
    rcases one with rfl | rfl
    · rename_i v
      have pushes : handle_request ⟨.PUSH, [v]⟩ l = ((pushStack v l).bind
          (Handler.andThen fun _ => setResponse ⟨.OK, []⟩)).bind (Handler.andThen fun _ => pure true) := rfl
      rw [pushes, pushStack_run]
      rfl
    · rfl
  | text one ok =>
    simp only [List.mem_cons, List.not_mem_nil, or_false] at one
    rcases one with rfl | rfl <;> rfl
  | cell two table key =>
    simp only [List.mem_cons, List.not_mem_nil, or_false] at two
    rcases two with rfl | rfl
    · exact set_run _ _ l
    · exact get_run _ _ l

/-! ## The whole iteration -/

def readError : Str := lit "Error reading client input"
def notLoggedIn : Str := lit "User not logged in"

/-- The program of one iteration on what the connection reads. -/
def iteration (input : Input) (l : Local) : Iteration :=
  match input with
  | .closed => settle (.error (.thrown (.CommException readError))) l
  | .line buf =>
    match decode buf.text with
    | .error e => settle (.error (.thrown e)) l
    | .ok m =>
      if m.m_message_type = .LOGIN then responding true (Local.respond { l with logged_in := true } .OK [])
      else if l.logged_in then (requesting m l).bind settle
      else settle (.error (.thrown (.InvalidMessage notLoggedIn))) l

/-- What the `try` block comes to, before the `catch` clauses. -/
def handling (input : Input) (l : Local) : Iteration :=
  match input with
  | .closed => .done (.error (.thrown (.CommException readError))) l
  | .line buf =>
    match decode buf.text with
    | .error e => .done (.error (.thrown e)) l
    | .ok m =>
      if m.m_message_type = .LOGIN then .done (.ok true) (Local.respond { l with logged_in := true } .OK [])
      else if l.logged_in then requesting m l
      else .done (.error (.thrown (.InvalidMessage notLoggedIn))) l

theorem iteration_eq (input : Input) (l : Local) : iteration input l = (handling input l).bind settle := by
  cases input with
  | closed => rfl
  | line buf =>
    simp only [iteration, handling]
    cases decode buf.text with
    | error e => rfl
    | ok m =>
      simp only
      split
      · rfl
      · split
        · rfl
        · rfl

/-- The loop body after its `try` statement. -/
def afterTry (flow : Flow) : Connection.Task Bool :=
  match flow with
  | .again => pure true
  | .proceed keep_going => do
    return_response_to_client
    return keep_going

private theorem respond_run (keep : Bool) (l : Local) : afterTry (.proceed keep) l = responding keep l := by
  simp only [afterTry, return_response_to_client, Handler.bind_run, Handler.look_run, Prog.bind_done,
    Handler.andThen_ok, responding]
  cases encode l.response with
  | error e => rfl
  | ok line => rfl

private theorem rollback_run (l : Local) : rollback_tables l =
    releasing .rollback l (.done (.ok ()) { l with locked_tables := .empty }) l.locked_tables.addrs :=
  release_run rollback_changes .rollback (fun _ _ => rfl) l

/-- The `catch` clauses and the rest of the body, on the end of a request. -/
theorem settle_run (r : Except Fault Bool) (l : Local) :
    ((Handler.andThen (fun keep => (pure (Flow.proceed keep) : Connection.Task Flow)) r l).bind
      (Handler.orElse catchClauses)).bind (Handler.andThen afterTry) = settle r l := by
  rcases r with (e | _) | keep
  · cases e with
    | OperationException what =>
      simp only [Handler.andThen_error, Prog.bind_done, Handler.orElse_error, catchClauses, Handler.bind_run,
        Handler.look_run, Handler.andThen_ok, settle]
      cases l.transaction_mode with
      | true => rfl
      | false => exact respond_run true (l.respond .FAILED [what])
    | FailedTransaction what =>
      simp only [Handler.andThen_error, Prog.bind_done, Handler.orElse_error, catchClauses, Handler.bind_run,
        rollback_run, releasing_bind, Handler.andThen_ok, settle]
      congr 1
      exact respond_run true (l.released.respond .FAILED [what])
    | InvalidMessage what => exact respond_run false (l.respond .ERROR [what])
    | CommException what => exact respond_run false (l.respond .ERROR [what])
    | out_of_range => rfl
    | invalid_argument => rfl
    | runtime_error what => rfl
  · rfl
  · exact respond_run keep l

theorem chat_run (input : Input) (l : Local) : chat_with_client input l = iteration input l := by
  have body : chat_with_client input l =
    ((tryBlock input l).bind (Handler.orElse catchClauses)).bind (Handler.andThen afterTry) := by
    simp only [chat_with_client, Handler.bind_run, Handler.tryCatch_run]
    rfl
  rw [body]
  cases input with
  | closed => exact settle_run (.error (.thrown (.CommException readError))) l
  | line buf =>
    simp only [tryBlock, Handler.bind_run, iteration]
    cases parsed : decode buf.text with
    | error e => exact settle_run (.error (.thrown e)) l
    | ok m =>
      have valid := (decode_accepted parsed).2.2
      simp only [orThrow_ok, Prog.bind_done, Handler.andThen_ok, valid, Bool.not_true, Bool.false_eq_true, if_false]
      by_cases login : m.m_message_type = .LOGIN
      · simp only [login, if_true]
        rfl
      · simp only [login, if_false, Handler.bind_run, Handler.look_run, Prog.bind_done, Handler.andThen_ok]
        cases l.logged_in with
        | false => exact settle_run (.error (.thrown (.InvalidMessage notLoggedIn))) l
        | true =>
          simp only [Bool.not_true, Bool.false_eq_true, if_false, if_true, Handler.bind_run,
            handle_request_run valid, Prog.bind_assoc]
          congr 1
          funext r l
          rw [← settle_run, Prog.bind_assoc]

private theorem text_append (buf : Line) : buf.text ++ buf.bytes.dropWhile (· != NUL) = buf.bytes :=
  List.takeWhile_append_dropWhile

private theorem text_short (buf : Line) : buf.text.length ≤ 1024 := by
  have all := congrArg List.length (text_append buf)
  have short := buf.short
  rw [List.length_append] at all
  omega

private theorem text_ended (buf : Line) (before after : Str) (cut : buf.text = before ++ newline :: after) :
    after = [] := by
  have all := text_append buf
  rw [cut, List.append_assoc, List.cons_append] at all
  exact (List.append_eq_nil_iff.mp (buf.ended before _ all.symm)).1

/-- All that decoding a line from the socket can end with. -/
theorem line_cases (buf : Line) :
    (decode buf.text = .error .out_of_range ∧ Unreadable buf.text) ∨
    (decode buf.text = .error notTerminated ∧ ¬ Unreadable buf.text ∧ buf.text.getLast? ≠ some newline) ∨
    (decode buf.text = .error invalidArguments ∧ ¬ Unreadable buf.text ∧ buf.text.getLast? = some newline) ∨
    ∃ m, decode buf.text = .ok m ∧ ¬ Unreadable buf.text := by
  rcases decode_cases (text_short buf) (text_ended buf) with
    ⟨bad, run⟩ | ⟨good, last, run⟩ | ⟨good, last, run | ⟨m, run⟩⟩
  · exact .inl ⟨run, bad⟩
  · exact .inr (.inl ⟨run, good, last⟩)
  · exact .inr (.inr (.inl ⟨run, good, last⟩))
  · exact .inr (.inr (.inr ⟨m, run, good⟩))

/-! ## Requests by what they use -/

/-- The request on a line that decodes. -/
def requestOf (input : Input) : Option Message :=
  match input with
  | .closed => none
  | .line buf => (decode buf.text).toOption

section
variable {input : Input} {m : Message} {l : Local}

theorem requestOf_decode {buf : Line} (parsed : decode buf.text = .ok m) : requestOf (.line buf) = some m := by
  rw [requestOf, parsed]
  rfl

theorem requestOf_error {buf : Line} {e : Exn} (failed : decode buf.text = .error e) :
    requestOf (.line buf) = none := by
  rw [requestOf, failed]
  rfl

theorem requestOf_line (asked : requestOf input = some m) : ∃ buf, input = .line buf ∧ decode buf.text = .ok m := by
  cases input with
  | closed => cases asked
  | line buf =>
    cases parsed : decode buf.text with
    | error e =>
      rw [requestOf_error parsed] at asked
      cases asked
    | ok m' =>
      rw [requestOf_decode parsed] at asked
      cases asked
      exact ⟨buf, rfl, parsed⟩

theorem request_valid (asked : requestOf input = some m) : m.is_valid = true := by
  obtain ⟨buf, rfl, parsed⟩ := requestOf_line asked
  exact (decode_accepted parsed).2.2

/-- A valid request that is not LOGIN is handled and its end settled. -/
theorem request_run (asked : requestOf input = some m) (other : m.m_message_type ≠ .LOGIN)
    (login : l.logged_in = true) :
    chat_with_client input l = (requesting m l).bind settle := by
  obtain ⟨buf, rfl, parsed⟩ := requestOf_line asked
  rw [chat_run]
  simp only [iteration, parsed]
  rw [if_neg other, if_pos login]

theorem login_run (asked : requestOf input = some m) (login : m.m_message_type = .LOGIN) :
    chat_with_client input l = responding true (Local.respond { l with logged_in := true } .OK []) := by
  obtain ⟨buf, rfl, parsed⟩ := requestOf_line asked
  rw [chat_run]
  simp only [iteration, parsed]
  rw [if_pos login]

/-- Before the login all other requests are refused. -/
theorem stranger_run (asked : requestOf input = some m) (other : m.m_message_type ≠ .LOGIN)
    (out : l.logged_in = false) :
    chat_with_client input l = settle (.error (.thrown (.InvalidMessage notLoggedIn))) l := by
  obtain ⟨buf, rfl, parsed⟩ := requestOf_line asked
  rw [chat_run]
  simp only [iteration, parsed]
  rw [if_neg other, out, if_neg (by decide)]

/-- Without a request there is only an exception to settle. -/
theorem unread_run (none_ : requestOf input = none) :
    ∃ e, chat_with_client input l = settle (.error (.thrown e)) l := by
  rw [chat_run]
  cases input with
  | closed => exact ⟨.CommException readError, rfl⟩
  | line buf =>
    cases parsed : decode buf.text with
    | error e => exact ⟨e, by simp only [iteration, parsed]⟩
    | ok m =>
      rw [requestOf_decode parsed] at none_
      cases none_

theorem ok_encoded : encode ⟨.OK, []⟩ = .ok (lit "OK\n") := by decide

end

/-- The requests that use tables. -/
def usesTables (t : MessageType) : Bool := t == .CREATE || t == .GET || t == .SET || t == .COMMIT

/-- The valid requests that use tables, by their arguments, and all the others. -/
theorem request_forms {m : Message} (valid : m.is_valid = true) :
    (∃ n, m = ⟨.CREATE, [n]⟩) ∨ (∃ n k, m = ⟨.GET, [n, k]⟩) ∨ (∃ n k, m = ⟨.SET, [n, k]⟩) ∨ m = ⟨.COMMIT, []⟩ ∨
      usesTables m.m_message_type = false := by
  have shape := shape_of_valid valid
  obtain ⟨t, args⟩ := m
  cases shape with
  | plain bare =>
    by_cases commit : t = .COMMIT
    · subst commit; exact .inr (.inr (.inr (.inl rfl)))
    · refine .inr (.inr (.inr (.inr ?_)))
      cases t <;> first | rfl | exact absurd rfl commit | simp at bare
  | named one =>
    simp only [List.mem_cons, List.not_mem_nil, or_false] at one
    rcases one with rfl | rfl
    · exact .inr (.inr (.inr (.inr rfl)))
    · exact .inl ⟨_, rfl⟩
  | value one =>
    simp only [List.mem_cons, List.not_mem_nil, or_false] at one
    rcases one with rfl | rfl <;> exact .inr (.inr (.inr (.inr rfl)))
  | text one =>
    simp only [List.mem_cons, List.not_mem_nil, or_false] at one
    rcases one with rfl | rfl <;> exact .inr (.inr (.inr (.inr rfl)))
  | cell two =>
    simp only [List.mem_cons, List.not_mem_nil, or_false] at two
    rcases two with rfl | rfl
    · exact .inr (.inr (.inl ⟨_, _, rfl⟩))
    · exact .inr (.inl ⟨_, _, rfl⟩)

theorem requesting_quiet {m : Message} (quiet : usesTables m.m_message_type = false) (l : Local) :
    requesting m l = .done (quietly m l).1 (quietly m l).2 := by
  unfold requesting
  split
  · rename_i create _; rw [create] at quiet; cases quiet
  · rename_i get _; rw [get] at quiet; cases quiet
  · rename_i set _; rw [set] at quiet; cases quiet
  · rename_i commit; rw [commit] at quiet; cases quiet
  · rfl

section
variable {α : Type} {l : Local} {P : Local → Op → Prop}

/-- An iteration ends with an exception, with a response, or with a response after the
    rollback of all tables. -/
theorem settle_cases {motive : Iteration → Prop} (r : Except Fault Bool) (l : Local)
    (failed : ∀ f, motive (.done (.error f) l)) (answered : ∀ keep t args, motive (responding keep (l.respond t args)))
    (rolled : ∀ what, motive (releasing .rollback l (responding true (l.released.respond .FAILED [what]))
      l.locked_tables.addrs)) : motive (settle r l) := by
  rcases r with (e | _) | keep
  · cases e with
    | OperationException what =>
      rw [settle]
      split
      · exact failed _
      · exact answered true .FAILED [what]
    | FailedTransaction what => exact rolled what
    | InvalidMessage what => exact answered false .ERROR [what]
    | CommException what => exact answered false .ERROR [what]
    | out_of_range => exact failed _
    | invalid_argument => exact failed _
    | runtime_error what => exact failed _
  · exact failed _
  · exact answered keep l.response.m_message_type l.response.m_args

/-- The rest of an iteration after its handler calls one operation, the write. -/
theorem calls_responding (keep : Bool) (writes : ∀ line, P l (.write line)) : (responding keep l).Calls P := by
  unfold responding
  split
  · exact ⟨writes _, fun _ => trivial⟩
  · trivial

theorem ends_responding {Q : Except Fault Bool → Local → Prop} (keep : Bool) (done : Q (.ok keep) l)
    (failed : ∀ e, Q (.error (.thrown e)) l) : (responding keep l).Ends Q := by
  unfold responding
  split
  · exact fun _ => done
  · exact failed _

theorem calls_releasing (ending : Ending) {after : Program α} (finishes : ∀ t, P l (ending.op t))
    (unlocks : ∀ t, P l (.unlock t)) (tables : List Addr) (then_ : after.Calls P) :
    (releasing ending l after tables).Calls P := by
  induction tables with
  | nil => exact then_
  | cons t rest ih => exact ⟨finishes t, fun _ => ⟨unlocks t, fun _ => ih⟩⟩

theorem ends_releasing {Q : Except Fault α → Local → Prop} (ending : Ending) {after : Program α}
    (tables : List Addr) (then_ : after.Ends Q) : (releasing ending l after tables).Ends Q := by
  induction tables with
  | nil => exact then_
  | cons t rest ih => exact fun _ _ => ih

end

end TableServer.Requests
