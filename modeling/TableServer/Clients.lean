import TableServer.Connection

/-!
The three client programs. Each one logs in, sends its requests one at a time and
reads a response after each; what it does with a response that is not the one it
wants is where they differ.
-/

namespace TableServer.Clients
open TableServer.Bytes TableServer.Messages TableServer.Serialization TableServer.Connection
open Resumption
open Resumption.Handler (update perform)

/-- What a call of `rio_readlineb` gives a client: a line in `buf`, 0 at the end, or -1. -/
inductive Receipt where
  | line (buf : Line)
  | ended
  | failed

/-- What a client does with its socket. -/
inductive ClientOp where
  | write (line : Str)
  | read

/-- No client looks at what `rio_writen` returns. -/
abbrev ClientRes : ClientOp → Type
  | .write _ => Unit
  | .read => Receipt

/-- What goes to `cerr`: a text, or `"Error: "` and the `what()` of an exception. -/
inductive Complaint where
  | text (t : Str)
  | exception (e : Exn)

structure Console where
  cout : List Str
  cerr : List Complaint

/-- How the statements of `main` can stop before its end. -/
inductive Halt where
  | returned (code : Nat)
  | thrown (e : Exn)
  | undefined

abbrev Process (α : Type) : Type := Handler ClientOp ClientRes Console Halt α

/-- A client at some point of its run: the exit code at the end. -/
abbrev Client : Type := Prog ClientOp ClientRes Console (Except Halt Nat)

def rio_writen (line : Str) : Process Unit := perform (ClientOp.write line)
def rio_readlineb : Process Receipt := perform ClientOp.read

def cout (t : Str) : Process Unit := update fun con => { con with cout := con.cout ++ [t] }
def cerr (t : Str) : Process Unit := update fun con => { con with cerr := con.cerr ++ [.text t] }

def exit {α : Type} (code : Nat) : Process α := throw (.returned code)

def orThrow {α : Type} (r : Except Exn α) : Process α := Handler.ofExcept (r.mapError .thrown)

/-- Encode and send a request, read a line and decode it. When the read fails the program
    does `unread`; if that does not return, well, and else it writes to `buf[-1]`. -/
def exchange (request : Message) (unread : Process Unit) : Process Message := do
  let msg ← orThrow (encode request)
  rio_writen msg
  match ← rio_readlineb with
  | .line buf => orThrow (decode buf.text)
  | .ended => orThrow (decode [])
  | .failed =>
    unread
    throw .undefined

/-- `"Error: " + resp.get_quoted_text()` on `cerr`. -/
def complain (resp : Message) : Process Unit := do
  let text ← orThrow resp.get_quoted_text
  cerr (lit "Error: " ++ text)

/-- A response of another type is complained of, and the program stops. -/
def require (type : MessageType) (resp : Message) : Process Unit := do
  if resp.m_message_type ≠ type then
    complain resp
    exit 1
  else
    return ()

/-- The `try` block of a `main` with its `catch` clause. -/
def guarded (body : Process Nat) : Process Nat :=
  tryCatch body fun
    | .returned code => return code
    | .thrown e => do
      update fun con => { con with cerr := con.cerr ++ [.exception e] }
      return 1
    | .undefined => throw .undefined

def failedToRead : Str := lit "Failed to read response"
def errorFailedToRead : Str := lit "Error: Failed to read response"

/-- A failed read ends the program. -/
def stopUnread (t : Str) : Process Unit := do
  cerr t
  exit 1

/-- A request after which only an OK lets the program go on. -/
def request (m : Message) : Process Unit := do
  let resp ← exchange m (stopUnread errorFailedToRead)
  require .OK resp

def requests : List Message → Process Unit
  | [] => return ()
  | m :: rest => do
    request m
    requests rest

/-- After a failed LOGIN, and after a failed read of the first two responses, the program
    only complains. -/
def get_value (argv : List Str) : Process Nat :=
  match argv with
  | [_hostname, _port, username, table, key] =>
    guarded do
      let loginResp ← exchange ⟨.LOGIN, [username]⟩ (cerr failedToRead)
      if loginResp.m_message_type ≠ .OK then complain loginResp
      let getResp ← exchange ⟨.GET, [table, key]⟩ (cerr failedToRead)
      require .OK getResp
      let topResp ← exchange ⟨.TOP, []⟩ (stopUnread failedToRead)
      require .DATA topResp
      let value ← orThrow topResp.get_value
      cout (value ++ lit "\n")
      let byeResp ← exchange ⟨.BYE, []⟩ (stopUnread errorFailedToRead)
      require .OK byeResp
      return 0
  | _ => do
    cerr (lit "Requires this format: ./get_value <hostname> <port> <username> <table> <key>\n")
    return 1

/-- A failed read of the response to PUSH is complained of with the text of the response
    to LOGIN. -/
def set_value (argv : List Str) : Process Nat :=
  match argv with
  | [_hostname, _port, username, table, key, value] =>
    guarded do
      let loginResp ← exchange ⟨.LOGIN, [username]⟩ (stopUnread errorFailedToRead)
      require .OK loginResp
      let pushResp ← exchange ⟨.PUSH, [value]⟩ (do complain loginResp; exit 1)
      require .OK pushResp
      requests [⟨.SET, [table, key]⟩, ⟨.BYE, []⟩]
      return 0
  | _ => do
    cerr (lit "Requored format: ./set_value <hostname> <port> <username> <table> <key> <value>\n")
    return 1

/-- The requests of `incr_value`, in a transaction or not. -/
def increment (useTransaction : Bool) (username table key : Str) : Process Nat :=
  guarded do
    request ⟨.LOGIN, [username]⟩
    if useTransaction then request ⟨.BEGIN, []⟩
    request ⟨.GET, [table, key]⟩
    request ⟨.PUSH, [lit "1"]⟩
    request ⟨.ADD, []⟩
    request ⟨.SET, [table, key]⟩
    if useTransaction then request ⟨.COMMIT, []⟩
    request ⟨.BYE, []⟩
    return 0

def incr_value (argv : List Str) : Process Nat :=
  let usage : Process Nat := do
    cerr (lit "Requires format: ./incr_value [-t] hostname port username table key\n")
    return 1
  match argv with
  | [flag, _hostname, _port, username, table, key] =>
    if flag = lit "-t" then increment true username table key else usage
  | [_hostname, _port, username, table, key] => increment false username table key
  | _ => usage

/-- A line as the protocol has it. -/
structure OneLine (line : Str) : Prop where
  short : line.length ≤ MAX_ENCODED_LEN
  ended : ∃ body, line = body ++ [newline] ∧ newline ∉ body

/-- A message without newlines in its arguments is encoded as one line. -/
theorem oneLine_encoded {m : Message} {line : Str} (unbroken : ∀ a ∈ m.m_args, newline ∉ a)
    (run : encode m = .ok line) : OneLine line := by
  obtain ⟨rfl, fits⟩ := encode_ok run
  refine ⟨fits, messageTypeToString m.m_message_type ++ encodedArgs m.m_args, rfl, ?_⟩
  intro inside
  rcases List.mem_append.mp inside with name | args
  · exact (name_chars _ newline name).2.1 rfl
  · obtain ⟨a, member, place⟩ := List.mem_flatMap.mp args
    rcases List.mem_cons.mp place with impossible | letter
    · exact absurd impossible (by decide)
    · exact unbroken a member letter

/-- A program that reads once after each line that it writes, and at no other time. -/
inductive Polite {α : Type} : Prog ClientOp ClientRes Console α → Prop
  | ends (a : α) (con : Console) : Polite (.done a con)
  | ask {con con' : Console} {line : Str} {k : Unit → Prog ClientOp ClientRes Console α}
      {k' : Receipt → Prog ClientOp ClientRes Console α} (whole : OneLine line) (then_ : k () = .call con' .read k')
      (after : ∀ r, Polite (k' r)) : Polite (.call con (.write line) k)

private theorem polite_bind {α β : Type} {p : Prog ClientOp ClientRes Console α}
    {f : α → Console → Prog ClientOp ClientRes Console β} (first : Polite p) (second : ∀ a con, Polite (f a con)) :
    Polite (p.bind f) := by
  induction first with
  | ends a con => exact second a con
  | @ask con con' line k k' whole then_ after ih =>
    have next : (k ()).bind f = .call con' .read fun r => (k' r).bind f := by rw [then_]; rfl
    exact .ask whole next ih

section
variable {α β : Type} {t : Process α} {f : α → Process β}

def PoliteTask (t : Process α) : Prop := ∀ con, Polite (t con)

private theorem polite_pure (a : α) : PoliteTask (pure a : Process α) := fun con => .ends _ con

private theorem polite_throw (h : Halt) : PoliteTask (throw h : Process α) := fun con => .ends _ con

private theorem polite_update (g : Console → Console) : PoliteTask (update g : Process Unit) :=
  fun con => .ends _ (g con)

private theorem polite_orThrow (r : Except Exn α) : PoliteTask (orThrow r) := fun con => .ends _ con

private theorem polite_then (first : PoliteTask t) (second : ∀ a, PoliteTask (f a)) : PoliteTask (t >>= f) := by
  intro con
  refine polite_bind (first con) ?_
  rintro (h | a) con'
  · exact .ends _ con'
  · exact second a con'

private theorem polite_catch {g : Halt → Process α} (first : PoliteTask t) (second : ∀ h, PoliteTask (g h)) :
    PoliteTask (tryCatch t g) := by
  intro con
  refine polite_bind (first con) ?_
  rintro (h | a) con'
  · exact second h con'
  · exact .ends _ con'

private theorem polite_exchange {m : Message} {unread : Process Unit} (unbroken : ∀ a ∈ m.m_args, newline ∉ a)
    (quiet : PoliteTask unread) : PoliteTask (exchange m unread) := by
  intro con
  cases run : encode m with
  | error e =>
    have stops : exchange m unread con = .done (.error (.thrown e)) con := by
      simp only [exchange, run]
      rfl
    rw [stops]
    exact .ends _ con
  | ok line =>
    have asks : exchange m unread con = .call con (.write line) fun _ => .call con .read fun r =>
        (match r with
          | .line buf => orThrow (decode buf.text)
          | .ended => orThrow (decode [])
          | .failed => do unread; throw .undefined : Process Message) con := by
      simp only [exchange, run]
      rfl
    rw [asks]
    refine .ask (oneLine_encoded unbroken run) rfl ?_
    rintro (buf | _ | _)
    · exact polite_orThrow _ con
    · exact polite_orThrow _ con
    · exact polite_then quiet (fun _ => polite_throw _) con

private theorem polite_complain (resp : Message) : PoliteTask (complain resp) :=
  polite_then (polite_orThrow _) fun _ => polite_update _

private theorem polite_stop (t : Process Unit) (quiet : PoliteTask t) (code : Nat) :
    PoliteTask (do t; exit code : Process α) := polite_then quiet fun _ => polite_throw _

private theorem polite_require (type : MessageType) (resp : Message) : PoliteTask (require type resp) := by
  unfold require
  split
  · exact polite_stop _ (polite_complain resp) 1
  · exact polite_pure ()

private theorem polite_guarded {body : Process Nat} (quiet : PoliteTask body) : PoliteTask (guarded body) := by
  refine polite_catch quiet ?_
  rintro (code | e | _)
  · exact polite_pure code
  · exact polite_then (polite_update _) fun _ => polite_pure 1
  · exact polite_throw _

private theorem polite_request {m : Message} (unbroken : ∀ a ∈ m.m_args, newline ∉ a) : PoliteTask (request m) :=
  polite_then (polite_exchange unbroken (polite_stop _ (polite_update _) 1)) fun _ => polite_require .OK _

private theorem polite_requests {ms : List Message} (unbroken : ∀ m ∈ ms, ∀ a ∈ m.m_args, newline ∉ a) :
    PoliteTask (requests ms) := by
  induction ms with
  | nil => exact polite_pure ()
  | cons m rest ih =>
    exact polite_then (polite_request (unbroken m List.mem_cons_self)) fun _ =>
      ih fun m' inside => unbroken m' (List.mem_cons_of_mem _ inside)

end

private theorem polite_get_value {argv : List Str} (unbroken : ∀ a ∈ argv, newline ∉ a) :
    PoliteTask (get_value argv) := by
  unfold get_value
  split
  · rename_i username table key
    have user : newline ∉ username := unbroken username (by simp)
    have cell : newline ∉ table ∧ newline ∉ key := ⟨unbroken table (by simp), unbroken key (by simp)⟩
    refine polite_guarded (polite_then (polite_exchange (by simpa using user) (polite_update _)) fun loginResp => ?_)
    have rest : PoliteTask (do
        let getResp ← exchange ⟨.GET, [table, key]⟩ (cerr failedToRead)
        require .OK getResp
        let topResp ← exchange ⟨.TOP, []⟩ (stopUnread failedToRead)
        require .DATA topResp
        let value ← orThrow topResp.get_value
        cout (value ++ lit "\n")
        let byeResp ← exchange ⟨.BYE, []⟩ (stopUnread errorFailedToRead)
        require .OK byeResp
        return 0) := by
      refine polite_then (polite_exchange (by simpa using cell) (polite_update _)) fun getResp => ?_
      refine polite_then (polite_require .OK getResp) fun _ => ?_
      refine polite_then (polite_exchange (by simp) (polite_stop _ (polite_update _) 1)) fun topResp => ?_
      refine polite_then (polite_require .DATA topResp) fun _ => ?_
      refine polite_then (polite_orThrow _) fun value => polite_then (polite_update _) fun _ => ?_
      refine polite_then (polite_exchange (by simp) (polite_stop _ (polite_update _) 1)) fun byeResp => ?_
      exact polite_then (polite_require .OK byeResp) fun _ => polite_pure 0
    split
    · exact polite_then (polite_complain loginResp) fun _ => rest
    · exact rest
  · exact polite_then (polite_update _) fun _ => polite_pure 1

private theorem polite_set_value {argv : List Str} (unbroken : ∀ a ∈ argv, newline ∉ a) :
    PoliteTask (set_value argv) := by
  unfold set_value
  split
  · rename_i username table key value
    have user : newline ∉ username := unbroken username (by simp)
    have cell : newline ∉ table ∧ newline ∉ key := ⟨unbroken table (by simp), unbroken key (by simp)⟩
    have pushed : newline ∉ value := unbroken value (by simp)
    refine polite_guarded (polite_then
      (polite_exchange (by simpa using user) (polite_stop _ (polite_update _) 1)) fun loginResp => ?_)
    refine polite_then (polite_require .OK loginResp) fun _ => ?_
    refine polite_then
      (polite_exchange (by simpa using pushed) (polite_stop _ (polite_complain loginResp) 1)) fun pushResp => ?_
    refine polite_then (polite_require .OK pushResp) fun _ => polite_then (polite_requests ?_) fun _ => polite_pure 0
    simpa using cell
  · exact polite_then (polite_update _) fun _ => polite_pure 1

/-- The requests of `incr_value` in their order. -/
def increments (useTransaction : Bool) (username table key : Str) : List Message :=
  [⟨.LOGIN, [username]⟩] ++ (if useTransaction then [⟨.BEGIN, []⟩] else []) ++
    [⟨.GET, [table, key]⟩, ⟨.PUSH, [lit "1"]⟩, ⟨.ADD, []⟩, ⟨.SET, [table, key]⟩] ++
    (if useTransaction then [⟨.COMMIT, []⟩] else []) ++ [⟨.BYE, []⟩]

theorem requests_cons {α : Type} (m : Message) (ms : List Message) (rest : Process α) :
    (do requests (m :: ms); rest) = (do request m; requests ms; rest) := by
  funext con
  show ((request m con).bind (Handler.andThen fun _ => requests ms)).bind (Handler.andThen fun _ => rest) =
    (request m con).bind (Handler.andThen fun _ => do requests ms; rest)
  rw [Prog.bind_assoc]
  congr 1
  funext r con'
  cases r <;> rfl

theorem requests_nil {α : Type} (rest : Process α) : (do requests []; rest) = rest := rfl

theorem increment_eq (useTransaction : Bool) (username table key : Str) : increment useTransaction username table key =
    guarded (do requests (increments useTransaction username table key); return 0) := by
  cases useTransaction <;>
    simp only [increment, increments, Bool.false_eq_true, if_true, if_false, List.nil_append, List.cons_append,
      requests_cons, requests_nil]

theorem polite_increment (useTransaction : Bool) {username table key : Str} (user : newline ∉ username)
    (cell : newline ∉ table ∧ newline ∉ key) : PoliteTask (increment useTransaction username table key) := by
  rw [increment_eq]
  refine polite_guarded (polite_then (polite_requests ?_) fun _ => polite_pure 0)
  intro m inside a member
  have kinds : ∀ m ∈ increments useTransaction username table key,
      m.m_args = [] ∨ m.m_args = [username] ∨ m.m_args = [table, key] ∨ m.m_args = [lit "1"] := by
    cases useTransaction <;> simp [increments]
  have one : newline ∉ lit "1" := by decide
  rcases kinds m inside with none_ | name | both | number
  · rw [none_] at member
    cases member
  · rw [name, List.mem_singleton] at member
    rwa [member]
  · rw [both, List.mem_cons, List.mem_singleton] at member
    rcases member with rfl | rfl
    · exact cell.1
    · exact cell.2
  · rw [number, List.mem_singleton] at member
    rwa [member]

private theorem polite_incr_value {argv : List Str} (unbroken : ∀ a ∈ argv, newline ∉ a) :
    PoliteTask (incr_value argv) := by
  have usage (t : Str) : PoliteTask (do cerr t; return 1) := polite_then (polite_update _) fun _ => polite_pure 1
  unfold incr_value
  split
  · rename_i flag username table key
    have user : newline ∉ username := unbroken username (by simp)
    have cell : newline ∉ table ∧ newline ∉ key := ⟨unbroken table (by simp), unbroken key (by simp)⟩
    split
    · exact polite_increment true user cell
    · exact usage _
  · rename_i username table key
    exact polite_increment false (unbroken username (by simp))
      ⟨unbroken table (by simp), unbroken key (by simp)⟩
  · exact usage _

/-- What a shell starts: one of the three programs, with arguments that are single lines. -/
inductive Started : Client → Prop
  | get_value {argv : List Str} (unbroken : ∀ a ∈ argv, newline ∉ a) (con : Console) : Started (get_value argv con)
  | set_value {argv : List Str} (unbroken : ∀ a ∈ argv, newline ∉ a) (con : Console) : Started (set_value argv con)
  | incr_value {argv : List Str} (unbroken : ∀ a ∈ argv, newline ∉ a) (con : Console) : Started (incr_value argv con)

theorem Started.polite {client : Client} (started : Started client) : Polite client := by
  cases started with
  | get_value unbroken con => exact polite_get_value unbroken con
  | set_value unbroken con => exact polite_set_value unbroken con
  | incr_value unbroken con => exact polite_incr_value unbroken con

end TableServer.Clients
