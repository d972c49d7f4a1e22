import TableServer.Login
import TableServer.Rollback

/-!
One response for each request, in order. An iteration of the loop writes once, at its
end, a response that it has set itself; so what a connection writes along a run answers
what it reads, one by one, and the session stops after an ERROR or the OK to a BYE.
-/

namespace TableServer.Dialogue
open TableServer.Bytes TableServer.Messages TableServer.Serialization TableServer.Stores TableServer.Connection
open TableServer.Server TableServer.Requests TableServer.Login TableServer.Rollback
open Resumption Interleaving

variable {memory : ConnId → Bool} {tr : ServerTrace} {s : ServerState} {input : Input} {m : Message} {l l' : Local}

def isWrite : Op → Bool
  | .write _ => true
  | _ => false

/-- The responses after which the loop is left: an ERROR, and the OK to a BYE. -/
def Closing (input : Input) (response : Message) : Prop :=
  response.m_message_type = .ERROR ∨
    (response = ⟨.OK, []⟩ ∧ ∃ m, requestOf input = some m ∧ m.m_message_type = .BYE)

/-- The program writes its response as the last thing it does, and then says whether the
    response closes the session; unless an exception leaves it, and nothing is written. -/
inductive Speaks (input : Input) : Iteration → Prop
  | failed (f : Fault) (l : Local) : Speaks input (.done (.error f) l)
  | last {l : Local} {line : Str} {k : Unit → Iteration} {keep : Bool} (own : encode l.response = .ok line)
      (ends : k () = .done (.ok keep) l) (closing : keep = false ↔ Closing input l.response) :
      Speaks input (.call l (.write line) k)
  | more {l : Local} {op : Op} {k : Res op → Iteration} (quiet : isWrite op = false) (then_ : ∀ r, Speaks input (k r)) :
      Speaks input (.call l op k)

/-- How the handling of a line ends, as far as the response goes. -/
def Tells (input : Input) (r : Except Fault Bool) (l : Local) : Prop :=
  ∀ keep, r = .ok keep → (keep = false ↔ Closing input l.response)

private theorem tells_error (f : Fault) (l : Local) : Tells input (.error f) l := by
  intro keep same
  cases same

private theorem tells_ok (asked : requestOf input = some m) (other : m.m_message_type ≠ .BYE) (l : Local) :
    Tells input (.ok true) (l.respond .OK []) := by
  intro keep same
  obtain rfl := Except.ok.inj same
  constructor
  · intro impossible
    cases impossible
  · rintro (impossible | ⟨-, m', asked', bye⟩)
    · cases impossible
    · rw [asked] at asked'
      obtain rfl := Option.some.inj asked'
      exact absurd bye other

private theorem closing_failed (what : Str) : ¬ Closing input ⟨.FAILED, [what]⟩ := by simp [Closing]

private theorem closing_error (what : Str) : Closing input ⟨.ERROR, [what]⟩ := .inl rfl

private theorem speaks_responding {keep : Bool} (closing : keep = false ↔ Closing input l.response) :
    Speaks input (responding keep l) := by
  unfold responding
  cases run : encode l.response with
  | error e => exact .failed _ l
  | ok line => exact .last run rfl closing

private theorem speaks_releasing (ending : Ending) {after : Iteration} (tables : List Addr)
    (then_ : Speaks input after) : Speaks input (releasing ending l after tables) := by
  induction tables with
  | nil => exact then_
  | cons t rest ih =>
    cases ending with
    | commit => exact .more rfl fun _ => .more rfl fun _ => ih
    | rollback => exact .more rfl fun _ => .more rfl fun _ => ih

private theorem speaks_settle {r : Except Fault Bool} (tells : Tells input r l) : Speaks input (settle r l) := by
  have failed : ∀ (l : Local) (what : Str), Speaks input (responding true (l.respond .FAILED [what])) := by
    intro l what
    apply speaks_responding
    constructor
    · intro impossible
      cases impossible
    · intro closes
      exact absurd closes (closing_failed what)
  have refused : ∀ what, Speaks input (responding false (l.respond .ERROR [what])) := by
    intro what
    apply speaks_responding
    constructor
    · intro _
      exact closing_error what
    · intro _
      rfl
  rcases r with (e | _) | keep
  · cases e with
    | OperationException what =>
      rw [settle]
      split
      · exact .failed _ l
      · exact failed l what
    | FailedTransaction what => exact speaks_releasing .rollback _ (failed l.released what)
    | InvalidMessage what => exact refused what
    | CommException what => exact refused what
    | out_of_range => exact .failed _ l
    | invalid_argument => exact .failed _ l
    | runtime_error what => exact .failed _ l
  · exact .failed _ l
  · exact speaks_responding (tells keep rfl)

/-- The handling of a line: it writes nothing, and it ends as `Tells` says. -/
def Handles (input : Input) (p : Iteration) : Prop := p.Calls (fun _ op => isWrite op = false) ∧ p.Ends (Tells input)

private theorem Handles.speaks {p : Iteration} (handles : Handles input p) : Speaks input (p.bind settle) := by
  obtain ⟨quiet, ends⟩ := handles
  induction p with
  | done r l => exact speaks_settle ends
  | call l op k ih => exact .more quiet.1 fun r => ih r (quiet.2 r) (ends r)

private theorem handles_done {r : Except Fault Bool} (tells : Tells input r l) :
    Handles input (.done r l) := ⟨trivial, tells⟩

private theorem handles_call {op : Op} {k : Res op → Iteration} (quiet : isWrite op = false)
    (then_ : ∀ r, Handles input (k r)) : Handles input (.call l op k) :=
  ⟨⟨quiet, fun r => (then_ r).1⟩, fun r => (then_ r).2⟩

private theorem handles_releasing (ending : Ending) {after : Iteration} (tables : List Addr)
    (then_ : Handles input after) : Handles input (releasing ending l after tables) := by
  induction tables with
  | nil => exact then_
  | cons t rest ih =>
    cases ending with
    | commit => exact handles_call rfl fun _ => handles_call rfl fun _ => ih
    | rollback => exact handles_call rfl fun _ => handles_call rfl fun _ => ih

private theorem handles_onTable {n : Str} {use : Addr → Local → Iteration} (uses : ∀ t l, Handles input (use t l)) :
    Handles input (onTable n l use) := by
  refine handles_call rfl fun found => ?_
  cases found with
  | none => exact handles_done (tells_error _ l)
  | some t =>
    show Handles input (locking t l (use t))
    unfold locking
    split
    · split
      · exact uses t l
      · refine handles_call rfl ?_
        rintro (_ | _)
        · exact handles_done (tells_error _ l)
        · exact uses t _
    · exact handles_call rfl fun _ => uses t l

private theorem handles_autocommitting {t : Addr} {after : Iteration} (then_ : Handles input after) :
    Handles input (autocommitting t l after) := by
  unfold autocommitting
  split
  · exact then_
  · exact handles_call rfl fun _ => handles_call rfl fun _ => then_

private theorem tells_arithmetic (asked : requestOf input = some m) (other : m.m_message_type ≠ .BYE)
    (operation : Int → Int → Option Int) (l : Local) :
    Tells input (arithmetically operation l).1 (arithmetically operation l).2 := by
  unfold arithmetically
  split
  · exact tells_error _ _
  · split
    · exact tells_error _ _
    · exact tells_ok asked other _

private theorem tells_quietly (asked : requestOf input = some m) (l : Local) :
    Tells input (quietly m l).1 (quietly m l).2 := by
  unfold quietly
  split
  case h_1 push => exact tells_ok asked (by simp [push]) _
  case h_2 pop =>
    split
    · exact tells_error _ _
    · exact tells_ok asked (by simp [pop]) _
  case h_3 top =>
    split
    · exact tells_error _ _
    · intro keep same
      obtain rfl := Except.ok.inj same
      simp [Closing, Local.respond]
  case h_4 add => exact tells_arithmetic asked (by simp [add]) _ _
  case h_5 mul => exact tells_arithmetic asked (by simp [mul]) _ _
  case h_6 sub => exact tells_arithmetic asked (by simp [sub]) _ _
  case h_7 div => exact tells_arithmetic asked (by simp [div]) _ _
  case h_8 begin_ => exact tells_ok asked (by simp [begin_]) { l with transaction_mode := true }
  case h_9 bye =>
    intro keep same
    obtain rfl := Except.ok.inj same
    exact ⟨fun _ => .inr ⟨rfl, m, asked, bye⟩, fun _ => rfl⟩
  case h_10 => exact tells_error _ _

private theorem handles_requesting (asked : requestOf input = some m) (l : Local) : Handles input (requesting m l) := by
  rcases request_forms (request_valid asked) with ⟨n, rfl⟩ | ⟨n, k, rfl⟩ | ⟨n, k, rfl⟩ | rfl | quiet
  · refine handles_call rfl ?_
    rintro (_ | t)
    · exact handles_call rfl fun _ => handles_done (tells_ok asked (by simp) l)
    · exact handles_done (tells_error _ l)
  · refine handles_onTable fun t l => handles_call rfl ?_
    rintro (e | v)
    · exact handles_done (tells_error _ l)
    · exact handles_autocommitting (handles_done (tells_ok asked (by simp) _))
  · refine handles_onTable fun t l => ?_
    unfold writing
    split
    · exact handles_done (tells_error _ l)
    · exact handles_call rfl fun _ => handles_autocommitting (handles_done (tells_ok asked (by simp) _))
  · exact handles_releasing .commit _ (handles_done (tells_ok asked (by simp) _))
  · rw [requesting_quiet quiet]
    exact handles_done (tells_quietly asked l)

/-- Every iteration writes once, at its end. -/
theorem chat_speaks (input : Input) (l : Local) : Speaks input (chat_with_client input l) := by
  rw [chat_run, iteration_eq]
  apply Handles.speaks
  cases input with
  | closed => exact handles_done (tells_error _ l)
  | line buf =>
    cases parsed : decode buf.text with
    | error e =>
      simp only [handling, parsed]
      exact handles_done (tells_error _ l)
    | ok m =>
      have asked : requestOf (.line buf) = some m := requestOf_decode parsed
      simp only [handling, parsed]
      split
      · rename_i login
        exact handles_done (tells_ok asked (by simp [login]) { l with logged_in := true })
      · split
        · exact handles_requesting asked l
        · exact handles_done (tells_error _ l)

theorem writtenLine_quiet {op : Op} (quiet : isWrite op = false) (r : Res op) : writtenLine ⟨op, r⟩ = none := by
  cases op with
  | write line => cases quiet
  | _ => rfl

/-- What is left of a program that has written nothing yet. -/
theorem speaks_path {p q : Iteration} {calls : List (Call Op Res)} (path : p.Path calls q)
    (silent : calls.filterMap writtenLine = []) (speaks : Speaks input p) : Speaks input q := by
  induction path with
  | refl p => exact speaks
  | @step l op k r calls q path ih =>
    cases speaks with
    | last => simp [writtenLine] at silent
    | more quiet then_ =>
      rw [List.filterMap_cons, writtenLine_quiet quiet] at silent
      exact ih silent (then_ r)

/-- The same members, but for the response. -/
def Restated (l l' : Local) : Prop := ∃ t args, l' = l.respond t args

/-- Two ends of one kind: where no exception is thrown the members are the same, response
    included. -/
def Matches (r : Except Fault Bool) (l : Local) (r' : Except Fault Bool) (l' : Local) : Prop :=
  r' = r ∧ Restated l l' ∧ ∀ keep, r = .ok keep → l' = l

private theorem restated_refl (l : Local) : Restated l l := ⟨l.response.m_message_type, l.response.m_args, rfl⟩

private theorem matches_refl (r : Except Fault Bool) (l : Local) :
    Matches r l r l := ⟨rfl, restated_refl l, fun _ _ => rfl⟩

private theorem matches_error (f : Fault) (restated : Restated l l') : Matches (.error f) l (.error f) l' :=
  ⟨rfl, restated, fun keep same => by cases same⟩

/-- The same calls, in members that differ in the response only. -/
abbrev Alike (p p' : Iteration) : Prop := Prog.Alike Restated Matches p p'

private theorem alike_self (p : Iteration) : Alike p p := Prog.alike_refl restated_refl matches_refl p

private theorem alike_error (f : Fault) (restated : Restated l l') : Alike (.done (.error f) l) (.done (.error f) l') :=
  .done (matches_error f restated)

private theorem alike_releasing (ending : Ending) {after after' : Iteration} (tables : List Addr)
    (restated : Restated l l')
    (then_ : Alike after after') : Alike (releasing ending l after tables) (releasing ending l' after' tables) := by
  induction tables with
  | nil => exact then_
  | cons t rest ih => exact .call restated fun _ => .call restated fun _ => ih

private theorem alike_settle {r r' : Except Fault Bool} (same : Matches r l r' l') :
    Alike (settle r l) (settle r' l') := by
  obtain ⟨rfl, restated, ended⟩ := same
  rcases r' with (e | _) | keep
  · obtain ⟨t, args, rfl⟩ := restated
    cases e with
    | OperationException what =>
      have mode : (l.respond t args).transaction_mode = l.transaction_mode := rfl
      simp only [settle, mode]
      split
      · exact alike_error _ ⟨t, args, rfl⟩
      · exact alike_self _
    | FailedTransaction what => exact alike_releasing .rollback _ ⟨t, args, rfl⟩ (alike_self _)
    | InvalidMessage what => exact alike_self _
    | CommException what => exact alike_self _
    | out_of_range => exact alike_error _ ⟨t, args, rfl⟩
    | invalid_argument => exact alike_error _ ⟨t, args, rfl⟩
    | runtime_error what => exact alike_error _ ⟨t, args, rfl⟩
  · exact alike_error _ restated
  · rw [ended keep rfl]
    exact alike_self _

section
variable (l : Local) (t : MessageType) (args : List Str)

private theorem restated : Restated l (l.respond t args) := ⟨t, args, rfl⟩

private theorem alike_onTable {n : Str} {use : Addr → Local → Iteration}
    (uses : ∀ u l, Alike (use u l) (use u (l.respond t args))) :
    Alike (onTable n l use) (onTable n (l.respond t args) use) := by
  refine .call (restated l t args) fun found => ?_
  cases found with
  | none => exact alike_error _ (restated l t args)
  | some u =>
    have mode : (l.respond t args).transaction_mode = l.transaction_mode := rfl
    have tables : (l.respond t args).locked_tables = l.locked_tables := rfl
    show Alike (locking u l (use u)) (locking u (l.respond t args) (use u))
    simp only [locking, mode, tables]
    split
    · split
      · exact uses u l
      · refine .call (restated l t args) ?_
        rintro (_ | _)
        · exact alike_error _ (restated l t args)
        · exact uses u (l.withLocked u)
    · exact .call (restated l t args) fun _ => uses u l

private theorem alike_autocommitting {u : Addr} {after : Iteration} :
    Alike (autocommitting u l after) (autocommitting u (l.respond t args) after) := by
  have mode : (l.respond t args).transaction_mode = l.transaction_mode := rfl
  simp only [autocommitting, mode]
  split
  · exact alike_self after
  · exact .call (restated l t args) fun _ => .call (restated l t args) fun _ => alike_self after

private theorem matches_arithmetic (operation : Int → Int → Option Int) :
    Matches (arithmetically operation l).1 (arithmetically operation l).2
      (arithmetically operation (l.respond t args)).1 (arithmetically operation (l.respond t args)).2 := by
  have stack : (l.respond t args).client_stack = l.client_stack := rfl
  simp only [arithmetically, stack]
  cases operands l.client_stack.stk with
  | none => exact matches_error _ ⟨t, args, rfl⟩
  | some xy =>
    obtain ⟨x, y⟩ := xy
    simp only
    cases operation x y with
    | none => exact matches_error _ ⟨t, args, rfl⟩
    | some z => exact matches_refl _ _

private theorem matches_quietly (m : Message) :
    Matches (quietly m l).1 (quietly m l).2 (quietly m (l.respond t args)).1 (quietly m (l.respond t args)).2 := by
  have stack : (l.respond t args).client_stack = l.client_stack := rfl
  simp only [quietly, stack]
  cases m.m_message_type
  case PUSH | BEGIN | BYE => exact matches_refl _ _
  case POP | TOP =>
    cases l.client_stack.stk with
    | nil => exact matches_error _ (restated l t args)
    | cons v rest => exact matches_refl _ _
  case ADD | MUL | SUB | DIV => exact matches_arithmetic l t args _
  all_goals exact matches_error _ (restated l t args)

private theorem alike_requesting {m : Message} (valid : m.is_valid = true) :
    Alike (requesting m l) (requesting m (l.respond t args)) := by
  rcases request_forms valid with ⟨n, rfl⟩ | ⟨n, k, rfl⟩ | ⟨n, k, rfl⟩ | rfl | quiet
  · refine .call (restated l t args) ?_
    rintro (_ | u)
    · exact .call (restated l t args) fun _ => alike_self _
    · exact alike_error _ (restated l t args)
  · refine alike_onTable l t args (fun u l => .call (restated l t args) ?_)
    rintro (e | v)
    · exact alike_error _ (restated l t args)
    · exact alike_autocommitting (l.withStack (v :: l.client_stack.stk)) t args
  · refine alike_onTable l t args (fun u l => ?_)
    have stack : (l.respond t args).client_stack = l.client_stack := rfl
    simp only [writing, stack]
    cases l.client_stack.stk with
    | nil => exact alike_error _ (restated l t args)
    | cons v rest =>
      exact .call (restated (l.withStack rest) t args) fun _ => alike_autocommitting (l.withStack rest) t args
  · exact alike_releasing .commit _ (restated l t args) (alike_self _)
  · rw [requesting_quiet quiet, requesting_quiet quiet]
    exact .done (matches_quietly l t args m)

/-- What an iteration calls, writes and leaves behind does not depend on the response that
    the iteration before it has left in the members. -/
theorem chat_alike (input : Input) : Alike (chat_with_client input l) (chat_with_client input (l.respond t args)) := by
  have login : (l.respond t args).logged_in = l.logged_in := rfl
  rw [chat_run, chat_run, iteration_eq, iteration_eq]
  refine Prog.alike_bind ?_ fun r l r' l' => alike_settle
  cases input with
  | closed => exact alike_error _ (restated l t args)
  | line buf =>
    cases parsed : decode buf.text with
    | error e =>
      simp only [handling, parsed]
      exact alike_error _ (restated l t args)
    | ok m =>
      simp only [handling, parsed, login]
      split
      · exact alike_self _
      · split
        · exact alike_requesting l t args (request_valid (requestOf_decode parsed))
        · exact alike_error _ (restated l t args)

end

/-- What a connection has read, the end of its input included. -/
def received (c : ConnId) (tr : ServerTrace) : List Input := tr.filterMap fun step =>
  match step with
  | (d, .recv _ input) => if d = c then some input else none
  | _ => none

/-- An input and its handling: the calls before the response, the line that is written,
    the members at both ends, and whether the loop goes on. -/
structure Exchange where
  input : Input
  before : Local
  calls : List (Call Op Res)
  line : Str
  after : Local
  keep : Bool

/-- The exchange is one iteration. It writes its own response once, whatever response it
    finds in the members, and it is the last one exactly after an ERROR or the OK to a BYE;
    a failed read is answered with an ERROR. -/
structure Exchange.Proper (x : Exchange) : Prop where
  path : (chat_with_client x.input x.before).Path (x.calls ++ [⟨.write x.line, ()⟩]) (.done (.ok x.keep) x.after)
  once : x.calls.filterMap writtenLine = []
  own : encode x.after.response = .ok x.line
  fresh : ∀ t args, (chat_with_client x.input (x.before.respond t args)).Path
    (x.calls ++ [⟨.write x.line, ()⟩]) (.done (.ok x.keep) x.after)
  closing : x.keep = false ↔ Closing x.input x.after.response
  unread : x.input = .closed → x.after.response.m_message_type = .ERROR

/-- Exchanges in a row, each from the members that the one before has left; only the last
    one may close the session. -/
inductive Talk (start : Local) : List Exchange → Local → Bool → Prop
  | start : Talk start [] start true
  | step {xs : List Exchange} {x : Exchange} (before : Talk start xs x.before true) (proper : x.Proper) :
      Talk start (xs ++ [x]) x.after x.keep

/-- The worker is handling an input and has written nothing for it yet. -/
def Handling (input : Input) (l : Local) (p : Iteration) : Prop :=
  ∃ calls, (chat_with_client input l).Path calls p ∧ calls.filterMap writtenLine = [] ∧
    ∀ r l', p = .done r l' → ∃ f, r = .error f

/-- Where a worker is that has answered the inputs `answered`, and what it has read by then:
    nothing more, once the session is closed, and otherwise at most one input more. -/
def Stage (answered : List Input) (l : Local) (keep : Bool) (inputs : List Input) :
    Thread Local Input Fault Op Res → Prop
  | .reading l' => keep = true ∧ l' = l ∧ inputs = answered
  | .exited l' => keep = false ∧ l' = l ∧ inputs = answered
  | .running input p =>
    (p = .done (.ok keep) l ∧ inputs = answered ∧ answered.getLast? = some input) ∨
      (keep = true ∧ Handling input l p ∧ inputs = answered ++ [input])

private theorem speaks_unanswered {p : Iteration} (speaks : Speaks input p) (r : Except Fault Bool) (l : Local)
    (ended : p = .done r l) : ∃ f, r = .error f := by
  subst ended
  cases speaks with
  | failed f => exact ⟨f, rfl⟩

/-- An iteration that has come to its end has answered its input. -/
theorem stage_finished {answered inputs : List Input} {keep keep' : Bool}
    (stage : Stage answered l keep inputs (.running input (.done (.ok keep') l'))) :
    keep' = keep ∧ l' = l ∧ inputs = answered := by
  rcases stage with ⟨ended, read, _⟩ | ⟨_, ⟨_, _, _, unanswered⟩, _⟩
  · obtain ⟨kept, rfl⟩ := Prog.done.inj ended
    exact ⟨Except.ok.inj kept, rfl, read⟩
  · obtain ⟨f, failed⟩ := unanswered _ _ rfl
    cases failed

private theorem closed_answer (l : Local) :
    (chat_with_client .closed l).Ends fun _ l' => l'.response.m_message_type = .ERROR := by
  rw [chat_run]
  show (responding false (l.respond .ERROR [readError])).Ends _
  exact ends_responding false rfl fun _ => rfl

/-- The write of an iteration completes an exchange. -/
theorem proper_written {line : Str} {k : Unit → Iteration} {calls : List (Call Op Res)} {keep : Bool}
    (path : (chat_with_client input l).Path calls (.call l' (.write line) k))
    (silent : calls.filterMap writtenLine = []) (own : encode l'.response = .ok line)
    (ends : k () = .done (.ok keep) l') (closing : keep = false ↔ Closing input l'.response) :
    (⟨input, l, calls, line, l', keep⟩ : Exchange).Proper := by
  have whole := path.snoc ()
  rw [ends] at whole
  refine ⟨whole, silent, own, ?_, closing, ?_⟩
  · intro t args
    obtain ⟨q, path', alike⟩ := (chat_alike l t args input).path whole
    cases alike with
    | done same =>
      obtain ⟨rfl, -, ended⟩ := same
      obtain rfl := ended keep rfl
      exact path'
  · rintro rfl
    exact whole.ends (closed_answer l)

section
variable {c d : ConnId} {e : ServerEvent}

theorem received_other (other : d ≠ c) (tr : ServerTrace) : received c (tr ++ [(d, e)]) = received c tr := by
  unfold received
  rw [List.filterMap_append]
  cases e <;> simp [other]

theorem responses_quiet {op : Op} (quiet : isWrite op = false) (tr : ServerTrace) (r : Res op) :
    responses c (tr ++ [(c, .call input l op r)]) = responses c tr := by
  refine responses_silent ?_ c
  rintro _ _ line _ ⟨⟩
  cases quiet

end

/-- In every run, what a connection has written are the responses of a row of exchanges,
    one for each input it has read, in order, but for an input that is still being handled. -/
theorem one_response_each (run : Run server anyStep (booted memory) tr s) (c : ConnId) :
    ∃ xs l keep, Talk (Local.create (memory c)) xs l keep ∧ responses c tr = xs.map Exchange.line ∧
      Stage (xs.map Exchange.input) l keep (received c tr) (s.threads c) := by
  induction run with
  | start => exact ⟨[], _, true, .start, rfl, rfl, rfl, rfl⟩
  | @step tr s s' d e earlier one _ ih =>
    obtain ⟨xs, l, keep, talk, wrote, stage⟩ := ih
    by_cases mine : d = c
    · subst mine
      have mute (input : Input) (l : Local) (r : Except Fault Bool) :
          responses d (tr ++ [(d, .finish input l r)]) = responses d tr ∧
            received d (tr ++ [(d, .finish input l r)]) = received d tr := by
        constructor
        · simp [responses]
        · simp [received]
      cases one with
      | @recv l₁ input up here =>
        rw [here] at stage
        obtain ⟨goesOn, rfl, read⟩ := stage
        refine ⟨xs, l₁, keep, talk, by simpa [responses] using wrote, ?_⟩
        simp only [Function.update_self]
        refine .inr ⟨goesOn, ⟨[], .refl _, rfl, speaks_unanswered (chat_speaks input l₁)⟩, ?_⟩
        rw [← read]
        simp [received]
      | @call input l₁ op k r after choice up here exec =>
        rw [here] at stage
        rcases stage with ⟨ended, _⟩ | ⟨goesOn, ⟨calls, path, silent, _⟩, read⟩
        · cases ended
        · have same : received d (tr ++ [(d, .call input l₁ op r)]) = received d tr := by simp [received]
          simp only [Function.update_self, same]
          cases speaks_path path silent (chat_speaks input l) with
          | @last _ line _ keep' own ends closing =>
            have proper := proper_written path silent own ends closing
            subst goesOn
            refine ⟨_, _, _, talk.step (x := ⟨input, l, calls, line, l₁, keep'⟩) proper, ?_, .inl ⟨ends, ?_, ?_⟩⟩
            · rw [List.map_append, ← wrote]
              simp [responses]
            · rw [read]
              simp
            · simp
          | more quiet then_ =>
            refine ⟨xs, l, keep, talk, by rw [responses_quiet quiet, wrote], ?_⟩
            refine .inr ⟨goesOn, ⟨calls ++ [⟨op, r⟩], path.snoc r, ?_, speaks_unanswered (then_ r)⟩, read⟩
            rw [List.filterMap_append, silent, List.filterMap_cons, writtenLine_quiet quiet]
            rfl
      | @again input l₁ up here =>
        rw [here] at stage
        obtain ⟨rfl, rfl, read⟩ := stage_finished stage
        refine ⟨xs, l₁, true, talk, by rw [(mute input l₁ _).1, wrote], ?_⟩
        simp only [(mute input l₁ _).2, Function.update_self]
        exact ⟨rfl, rfl, read⟩
      | @exit input l₁ up here =>
        rw [here] at stage
        obtain ⟨rfl, rfl, read⟩ := stage_finished stage
        refine ⟨xs, l₁, false, talk, by rw [(mute input l₁ _).1, wrote], ?_⟩
        simp only [(mute input l₁ _).2, Function.update_self]
        exact ⟨rfl, rfl, read⟩
      | @abort input l₁ f up here =>
        exact ⟨xs, l, keep, talk, by rw [(mute input l₁ _).1, wrote], by rw [(mute input l₁ _).2]; exact stage⟩
    · have others : s'.threads c = s.threads c := one.other mine
      refine ⟨xs, l, keep, talk, ?_, ?_⟩
      · rw [responses_other mine]
        exact wrote
      · rw [received_other mine, others]
        exact stage

/-- A login, a POP of the empty stack, and the end. -/
def popping : List (ConnId × Action Input Addr) :=
  turn 0 "LOGIN ann\n" 2 0 ++ turn 0 "POP\n" 2 0 ++ turn 0 "BYE\n" 2 0

theorem one_response_each_popping : ∃ xs l keep, Talk (Local.create false) xs l keep ∧
    xs.map Exchange.line = [lit "OK\n", lit "FAILED Stack is empty\n", lit "OK\n"] := by
  have shown : (execute server noCheck popping (booted fun _ => false)).any (fun r =>
      responses 0 r.1 == [lit "OK\n", lit "FAILED Stack is empty\n", lit "OK\n"]) = true := by
    decide +kernel
  obtain ⟨tr, s, run, wrote⟩ := run_of_check shown
  obtain ⟨xs, l, keep, talk, written, _⟩ := one_response_each run.any 0
  refine ⟨xs, l, keep, talk, ?_⟩
  rw [← written]
  exact beq_iff_eq.mp wrote

end TableServer.Dialogue
