import TableServer.Progress
import TableServer.Replies

/-!
What a connection has said and done so far, turn by turn. A turn is one iteration of
`chat_with_client`: the input, the members it began with, and its calls. Each turn goes on
from what the one before has left, and all calls are steps of the run.
-/

namespace TableServer.Sessions
open TableServer.Bytes TableServer.Messages TableServer.Serialization TableServer.Stores TableServer.Connection
open TableServer.Server TableServer.Requests TableServer.Login TableServer.Rollback TableServer.Dialogue
open TableServer.Values TableServer.Increment
open Resumption Interleaving

variable {tr : ServerTrace} {s : ServerState} {c d : ConnId} {input : Input} {l l' : Local} {op : Op} {r : Res op}

structure Turn where
  input : Input
  before : Local
  calls : List (Call Op Res)

def Turn.lines (t : Turn) : List Str := t.calls.filterMap writtenLine

/-- The turn has come to its end, and the other one begins with what it has left. -/
def Goes (t t' : Turn) : Prop := (chat_with_client t.input t.before).Path t.calls (.done (.ok true) t'.before)

/-- A turn that has ended has been answered once. -/
theorem speaks_once {p : Iteration} {calls : List (Call Op Res)} {keep : Bool} (speaks : Speaks input p)
    (path : p.Path calls (.done (.ok keep) l)) : ∃ line, calls.filterMap writtenLine = [line] := by
  induction speaks generalizing calls with
  | failed f l => cases path
  | @last l line k keep own ends closing =>
    cases path with
    | step path =>
      rw [ends] at path
      cases path with
      | refl => exact ⟨line, rfl⟩
  | @more l op k quiet then_ ih =>
    cases path with
    | step path =>
      obtain ⟨line, once⟩ := ih _ path
      refine ⟨line, ?_⟩
      rw [List.filterMap_cons, writtenLine_quiet quiet]
      exact once

theorem Goes.once {t t' : Turn} (goes : Goes t t') : ∃ line, t.lines = [line] := speaks_once (chat_speaks _ _) goes

/-- After a read that failed there is no further turn. -/
theorem Goes.line {t t' : Turn} (goes : Goes t t') : ∃ buf, t.input = .line buf := by
  obtain ⟨input, before, calls⟩ := t
  cases input with
  | line buf => exact ⟨buf, rfl⟩
  | closed =>
    have ends : (chat_with_client .closed before).Ends fun r _ => r ≠ .ok true := by
      have whole : chat_with_client .closed before = responding false (before.respond .ERROR [readError]) :=
        chat_run .closed before
      rw [whole]
      exact ends_responding false (by simp) (by simp)
    exact absurd rfl (Prog.Path.ends goes ends)

/-- The turns of a connection from its construction on. -/
structure Told (ts : List Turn) : Prop where
  chain : ts.IsChain Goes
  first : ∀ t ∈ ts.head?, ∃ logged_in, t.before = Local.create logged_in
  returned : ∀ t ∈ ts, ∀ call ∈ t.calls, Returns (fun _ => True) call.1 call.2

/-- The turns of a connection, as a trace has them. -/
structure Recorded (c : ConnId) (ts : List Turn) (tr : ServerTrace) : Prop where
  told : Told ts
  read : Dialogue.received c tr = ts.map Turn.input
  said : responses c tr = ts.flatMap Turn.lines
  /-- Each call is a step of the run, made in its turn. -/
  called : ∀ us t vs, ts = us ++ t :: vs → ∀ call ∈ t.calls, ∃ earlier l later,
    tr = earlier ++ (c, .call t.input l call.1 call.2) :: later ∧
      Dialogue.received c earlier = (us ++ [t]).map Turn.input

/-- The worker of a connection is at `p` in its last turn. -/
def Amid (input : Input) (ts : List Turn) (p : Iteration) : Prop :=
  ∃ us t, ts = us ++ [t] ∧ t.input = input ∧ (chat_with_client t.input t.before).Path t.calls p

/-- The worker of a connection is between two turns. -/
def Between (l : Local) (ts : List Turn) : Prop :=
  (ts = [] ∧ ∃ logged_in, l = Local.create logged_in) ∨ ∃ input, Amid input ts (.done (.ok true) l)

/-- Where a worker stands in the turns of its connection. -/
def Stands (ts : List Turn) : Thread Local Input Fault Op Res → Prop
  | .reading l => Between l ts
  | .running input p => Amid input ts p
  | .exited _ => True

private theorem Told.begin {ts : List Turn} (told : Told ts) (between : Between l ts) (input : Input) :
    Told (ts ++ [⟨input, l, []⟩]) := by
  obtain ⟨chain, first, returned⟩ := told
  rcases between with ⟨rfl, logged_in, rfl⟩ | ⟨_, us, t, rfl, _, path⟩
  · refine ⟨by simp, ?_, by simp⟩
    intro t inside
    simp only [List.nil_append, List.head?_cons, Option.mem_def, Option.some.injEq] at inside
    rw [← inside]
    exact ⟨logged_in, rfl⟩
  · refine ⟨?_, ?_, ?_⟩
    · rw [List.append_assoc, List.singleton_append, List.isChain_append_cons_cons]
      exact ⟨chain, path, .singleton _⟩
    · intro t' inside
      refine first t' ?_
      rwa [List.head?_append_of_ne_nil _ (by simp)] at inside
    · intro t' inside call member
      rcases List.mem_append.mp inside with old | new
      · exact returned t' old call member
      · rw [List.mem_singleton.mp new] at member
        cases member

private theorem Told.call {us : List Turn} {t : Turn} (told : Told (us ++ [t]))
    (returns : Returns (fun _ => True) op r) : Told (us ++ [{ t with calls := t.calls ++ [⟨op, r⟩] }]) := by
  obtain ⟨chain, first, returned⟩ := told
  refine ⟨?_, ?_, ?_⟩
  · rw [List.isChain_append] at chain ⊢
    refine ⟨chain.1, .singleton _, ?_⟩
    intro u inside t' same
    simp only [List.head?_cons, Option.mem_def, Option.some.injEq] at same
    rw [← same]
    exact chain.2.2 u inside t (by simp)
  · intro u inside
    cases us with
    | nil =>
      simp only [List.nil_append, List.head?_cons, Option.mem_def, Option.some.injEq] at inside
      rw [← inside]
      exact first t (by simp)
    | cons v us => exact first u (by simpa using inside)
  · intro u inside call member
    rcases List.mem_append.mp inside with old | new
    · exact returned u (List.mem_append_left _ old) call member
    · rw [List.mem_singleton.mp new] at member
      rcases List.mem_append.mp member with early | late
      · exact returned t (by simp) call early
      · rw [List.mem_singleton.mp late]
        exact returns

theorem received_call (tr : ServerTrace) (input : Input) (l : Local) (op : Op) (r : Res op) :
    Dialogue.received c (tr ++ [(c, .call input l op r)]) = Dialogue.received c tr := by
  simp [Dialogue.received]

/-- A step that a connection takes no notice of. -/
theorem Recorded.still {ts : List Turn} {e : ServerEvent} (recorded : Recorded c ts tr)
    (read : Dialogue.received c (tr ++ [(d, e)]) = Dialogue.received c tr)
    (said : responses c (tr ++ [(d, e)]) = responses c tr) :
    Recorded c ts (tr ++ [(d, e)]) := by
  refine ⟨recorded.told, by rw [read, recorded.read], by rw [said, recorded.said], ?_⟩
  intro us t vs whole call inside
  obtain ⟨earlier, l, later, cut, reads⟩ := recorded.called us t vs whole call inside
  exact ⟨earlier, l, later ++ [(d, e)], by rw [cut]; simp, reads⟩

private theorem Recorded.begin {ts : List Turn} (recorded : Recorded c ts tr) (between : Between l ts) :
    Recorded c (ts ++ [⟨input, l, []⟩]) (tr ++ [(c, .recv l input)]) := by
  refine ⟨recorded.told.begin between input, ?_, ?_, ?_⟩
  · simp [Dialogue.received, ← recorded.read]
  · rw [List.flatMap_append, ← recorded.said]
    simp [responses, Turn.lines]
  · intro us t vs whole call inside
    rcases List.eq_nil_or_concat vs with rfl | ⟨init, last, rfl⟩
    · obtain ⟨_, same⟩ := List.append_inj' whole rfl
      rw [← List.singleton_inj.mp same] at inside
      cases inside
    · rw [List.concat_eq_append, ← List.cons_append, ← List.append_assoc] at whole
      obtain ⟨rfl, _⟩ := List.append_inj' whole rfl
      obtain ⟨earlier, l', later, cut, reads⟩ := recorded.called us t init rfl call inside
      exact ⟨earlier, l', later ++ [(c, .recv l input)], by rw [cut]; simp, reads⟩

private theorem writtenLine_lines (op : Op) (r : Res op) (tr : ServerTrace) :
    responses c (tr ++ [(c, .call input l op r)]) = responses c tr ++ [⟨op, r⟩].filterMap writtenLine := by
  cases writes : isWrite op with
  | false => rw [responses_quiet writes, List.filterMap_cons, writtenLine_quiet writes]; simp
  | true =>
    cases op with
    | write line => simp [responses, writtenLine]
    | _ => cases writes

private theorem Recorded.call {us : List Turn} {t : Turn} (recorded : Recorded c (us ++ [t]) tr)
    (returns : Returns (fun _ => True) op r) :
    Recorded c (us ++ [{ t with calls := t.calls ++ [⟨op, r⟩] }]) (tr ++ [(c, .call t.input l op r)]) := by
  refine ⟨recorded.told.call returns, ?_, ?_, ?_⟩
  · rw [received_call, recorded.read]
    simp
  · rw [writtenLine_lines, recorded.said]
    simp [Turn.lines]
  · intro vs u ws whole call inside
    rcases List.eq_nil_or_concat ws with rfl | ⟨init, last, rfl⟩
    · obtain ⟨rfl, same⟩ := List.append_inj' whole rfl
      rw [← List.singleton_inj.mp same] at inside ⊢
      rcases List.mem_append.mp inside with early | late
      · obtain ⟨earlier, l', later, cut, reads⟩ := recorded.called us t [] rfl call early
        refine ⟨earlier, l', later ++ [(c, .call t.input l op r)], by rw [cut]; simp, ?_⟩
        simpa using reads
      · rw [List.mem_singleton.mp late]
        refine ⟨tr, l, [], by simp, ?_⟩
        rw [recorded.read]
        simp
    · rw [List.concat_eq_append, ← List.cons_append, ← List.append_assoc] at whole
      obtain ⟨rfl, _⟩ := List.append_inj' whole rfl
      obtain ⟨earlier, l', later, cut, reads⟩ := recorded.called vs u (init ++ [t]) (by simp) call inside
      exact ⟨earlier, l', later ++ [(c, .call t.input l op r)], by rw [cut]; simp, reads⟩

/-- In every run each connection has its turns. -/
theorem turns_run {sh : Shared} {memory : ConnId → Bool} {ok : ServerState → ConnId → ServerEvent → Prop}
    (run : Run server ok (opened sh memory) tr s) (c : ConnId) :
    ∃ ts, Recorded c ts tr ∧ Stands ts (s.threads c) := by
  induction run with
  | start => exact ⟨[], ⟨⟨.nil, by simp, by simp⟩, rfl, rfl, by simp⟩, .inl ⟨rfl, _, rfl⟩⟩
  | @step tr s s' d e earlier one _ ih =>
    obtain ⟨ts, recorded, stands⟩ := ih
    by_cases mine : d = c
    · subst mine
      cases one with
      | @recv l input up here =>
        rw [here] at stands
        refine ⟨_, recorded.begin stands, ?_⟩
        simp only [Function.update_self]
        exact ⟨ts, _, rfl, rfl, .refl _⟩
      | @call input l op k r after choice up here exec =>
        have exec : Server.exec d choice op s.shared = some (r, after) := exec
        have returns : Returns (fun _ => True) op r := by
          cases op with
          | get a key =>
            obtain ⟨tb, _, same, _⟩ := exec_get exec
            exact ⟨_, same, trivial⟩
          | _ => trivial
        rw [here] at stands
        obtain ⟨us, t, rfl, rfl, path⟩ := stands
        refine ⟨_, recorded.call returns, ?_⟩
        simp only [Function.update_self]
        exact ⟨us, _, rfl, rfl, path.snoc r⟩
      | @again input l up here =>
        rw [here] at stands
        refine ⟨ts, recorded.still (by simp [Dialogue.received]) (by simp [responses]), ?_⟩
        simp only [Function.update_self]
        exact .inr ⟨input, stands⟩
      | exit up here =>
        refine ⟨ts, recorded.still (by simp [Dialogue.received]) (by simp [responses]), ?_⟩
        simp only [Function.update_self]
        trivial
      | abort up here => exact ⟨ts, recorded.still (by simp [Dialogue.received]) (by simp [responses]), stands⟩
    · refine ⟨ts, recorded.still (received_other mine tr) (responses_other mine tr), ?_⟩
      rw [one.other mine]
      exact stands

section
variable {calls : List (Call Op Res)} {keep keep' : Bool} {username table key v : Str} {a : Addr}

private theorem responding_path (path : (responding keep l).Path calls (.done (.ok keep') l')) :
    ∃ line, encode l.response = .ok line ∧ calls = [⟨.write line, ()⟩] ∧ l' = l ∧ keep' = keep := by
  unfold responding at path
  split at path
  · rename_i line run
    cases path with
    | step path =>
      cases path with
      | refl => exact ⟨line, run, rfl, rfl, rfl⟩
  · cases path

theorem login_path (asked : requestOf input = some ⟨.LOGIN, [username]⟩)
    (path : (chat_with_client input l).Path calls (.done (.ok keep) l')) :
    l' = Local.respond { l with logged_in := true } .OK [] := by
  rw [login_run asked rfl] at path
  exact (responding_path path).choose_spec.2.2.1

theorem push_path (asked : requestOf input = some ⟨.PUSH, [v]⟩) (shows_ : Shows l [] false [])
    (path : (chat_with_client input l).Path calls (.done (.ok keep) l')) : Shows l' [v] false [] := by
  rw [request_run asked (by simp) shows_.login] at path
  have pushed : (responding true ((l.withStack (v :: l.client_stack.stk)).respond .OK [])).Path calls
      (.done (.ok keep) l') := path
  obtain ⟨_, _, _, rfl, _⟩ := responding_path pushed
  exact ⟨shows_.login, by rw [← shows_.stack]; rfl, shows_.mode, shows_.locked⟩

/-- A TOP is answered with the value on top. -/
theorem top_path (asked : requestOf input = some ⟨.TOP, []⟩) (shows_ : Shows l [v] false [])
    (path : (chat_with_client input l).Path calls (.done (.ok keep) l')) :
    ∃ line, encode ⟨.DATA, [v]⟩ = .ok line ∧ calls = [⟨.write line, ()⟩] := by
  have top : quietly ⟨.TOP, []⟩ l = (.ok true, l.respond .DATA [v]) := by
    simp only [quietly, shows_.stack]
  have whole : (requesting ⟨.TOP, []⟩ l).bind settle =
      settle (quietly ⟨.TOP, []⟩ l).1 (quietly ⟨.TOP, []⟩ l).2 := rfl
  rw [request_run asked (by simp) shows_.login, whole, top] at path
  obtain ⟨line, run, only, _⟩ := responding_path path
  exact ⟨line, run, only⟩

/-- A request on a table outside a transaction, up to its lock. -/
theorem onTable_run {use : Addr → Local → Iteration} (outside : l.transaction_mode = false) :
    (onTable table l use).bind settle = .call l (.find_table table) fun found =>
      match found with
      | none => responding false (l.respond .ERROR [tableMissing])
      | some a => .call l (.lock a) fun _ => (use a l).bind settle := by
  show Prog.call l _ _ = Prog.call l _ _
  congr 1
  funext found
  cases found with
  | none => rfl
  | some a =>
    show (locking a l (use a)).bind settle = _
    rw [locking, outside, if_neg (by simp)]
    rfl

private theorem autocommitting_run (outside : l.transaction_mode = false) :
    (autocommitting a l (.done (.ok true) (l.respond .OK []))).bind settle =
      .call l (.commit_changes a) fun _ => .call l (.unlock a) fun _ => responding true (l.respond .OK []) := by
  rw [autocommitting, outside, if_neg (by simp)]
  rfl

theorem get_run (asked : requestOf input = some ⟨.GET, [table, key]⟩) (shows_ : Shows l [] false []) :
    chat_with_client input l = .call l (.find_table table) fun found =>
      match found with
      | none => responding false (l.respond .ERROR [tableMissing])
      | some a => .call l (.lock a) fun _ => .call l (.get a key) fun value =>
        match value with
        | .error e => settle (.error (.thrown e)) l
        | .ok v => .call (l.withStack [v]) (.commit_changes a) fun _ => .call (l.withStack [v]) (.unlock a) fun _ =>
          responding true ((l.withStack [v]).respond .OK []) := by
  rw [request_run asked (by simp) shows_.login]
  show (onTable table l fun a => reading a key).bind settle = _
  rw [onTable_run shows_.mode]
  congr 1
  funext found
  cases found with
  | none => rfl
  | some a =>
    dsimp only
    congr 1
    funext _
    show Prog.call l _ _ = Prog.call l _ _
    congr 1
    funext value
    cases value with
    | error e => rfl
    | ok v =>
      show (autocommitting a (l.withStack (v :: l.client_stack.stk)) _).bind settle = _
      rw [shows_.stack]
      exact autocommitting_run (l := l.withStack [v]) shows_.mode

theorem set_run (asked : requestOf input = some ⟨.SET, [table, key]⟩) (shows_ : Shows l [v] false []) :
    chat_with_client input l = .call l (.find_table table) fun found =>
      match found with
      | none => responding false (l.respond .ERROR [tableMissing])
      | some a => .call l (.lock a) fun _ => .call (l.withStack []) (.set a key v) fun _ =>
        .call (l.withStack []) (.commit_changes a) fun _ => .call (l.withStack []) (.unlock a) fun _ =>
          responding true ((l.withStack []).respond .OK []) := by
  rw [request_run asked (by simp) shows_.login]
  show (onTable table l fun a => writing a key).bind settle = _
  rw [onTable_run shows_.mode]
  congr 1
  funext found
  cases found with
  | none => rfl
  | some a =>
    dsimp only
    congr 1
    funext _
    rw [writing, shows_.stack]
    show Prog.call (l.withStack []) _ _ = Prog.call (l.withStack []) _ _
    congr 1
    funext _
    exact autocommitting_run (l := l.withStack []) shows_.mode

private theorem responding_writes {k : Res op → Iteration} (path : (responding keep l).Path calls (.call l' op k)) :
    isWrite op = true := by
  unfold responding at path
  split at path
  · cases path with
    | refl => rfl
    | step path => cases path
  · cases path

/-- What has been called when a GET comes to read the table. -/
theorem get_reads {k : Res (.get a key) → Iteration} (asked : requestOf input = some ⟨.GET, [table, key]⟩)
    (shows_ : Shows l [] false []) (returned : ∀ call ∈ calls, Returns (fun _ => True) call.1 call.2)
    (path : (chat_with_client input l).Path calls (.call l' (.get a key) k)) :
    l' = l ∧ calls = [⟨.find_table table, some a⟩, ⟨.lock a, ()⟩] := by
  rw [get_run asked shows_] at path
  rcases path with _ | path
  rename_i calls found
  cases found with
  | none => cases responding_writes path
  | some u =>
    rcases path with _ | path
    rename_i calls
    rcases path with _ | path
    · exact ⟨rfl, rfl⟩
    · rename_i calls value
      rcases value with e | v
      · obtain ⟨_, same, _⟩ := returned ⟨.get u key, .error e⟩ (by simp)
        cases same
      · rcases path with _ | path
        rcases path with _ | path
        cases responding_writes path

/-- A GET that has been answered, after which the loop goes on. -/
theorem get_path (asked : requestOf input = some ⟨.GET, [table, key]⟩) (shows_ : Shows l [] false [])
    (returned : ∀ call ∈ calls, Returns (fun _ => True) call.1 call.2)
    (path : (chat_with_client input l).Path calls (.done (.ok true) l')) :
    ∃ a v, ⟨.get a key, .ok v⟩ ∈ calls ∧ Shows l' [v] false [] := by
  rw [get_run asked shows_] at path
  rcases path with _ | path
  rename_i calls found
  cases found with
  | none =>
    obtain ⟨_, _, _, _, no⟩ := responding_path path
    cases no
  | some u =>
    rcases path with _ | path
    rcases path with _ | path
    rename_i calls value
    rcases value with e | v
    · obtain ⟨_, same, _⟩ := returned ⟨.get u key, .error e⟩ (by simp)
      cases same
    · rcases path with _ | path
      rcases path with _ | path
      obtain ⟨_, _, _, rfl, _⟩ := responding_path path
      exact ⟨u, v, by simp, shows_.login, rfl, shows_.mode, shows_.locked⟩

/-- What has been called when a SET comes to write to the table, and what it calls next. -/
theorem set_writes {k : Unit → Iteration} (asked : requestOf input = some ⟨.SET, [table, key]⟩)
    (shows_ : Shows l [v] false []) (path : (chat_with_client input l).Path calls (.call l' (.set a key v) k)) :
    l'.transaction_mode = false ∧ calls = [⟨.find_table table, some a⟩, ⟨.lock a, ()⟩] ∧
      k () = .call l' (.commit_changes a) fun _ => .call l' (.unlock a) fun _ =>
        responding true (l'.respond .OK []) := by
  rw [set_run asked shows_] at path
  rcases path with _ | path
  rename_i calls found
  cases found with
  | none => cases responding_writes path
  | some u =>
    rcases path with _ | path
    rename_i calls
    rcases path with _ | path
    · exact ⟨shows_.mode, rfl, rfl⟩
    · rcases path with _ | path
      rcases path with _ | path
      cases responding_writes path

/-- A SET that has been answered, after which the loop goes on. -/
theorem set_path (asked : requestOf input = some ⟨.SET, [table, key]⟩) (shows_ : Shows l [v] false [])
    (path : (chat_with_client input l).Path calls (.done (.ok true) l')) : ∃ a, ⟨.set a key v, ()⟩ ∈ calls := by
  rw [set_run asked shows_] at path
  rcases path with _ | path
  rename_i calls found
  cases found with
  | none =>
    obtain ⟨_, _, _, _, no⟩ := responding_path path
    cases no
  | some u =>
    rcases path with _ | path
    rcases path with _ | path
    exact ⟨u, by simp⟩

end

end TableServer.Sessions
