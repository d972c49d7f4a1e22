import TableServer.Dialogue
import TableServer.Untouched
import TableServer.Arithmetic

/-!
What one request changes, whatever the other connections do meanwhile. A SET outside a
transaction that is answered OK changes one key of one table and takes one value from the
stack. A request outside a transaction that is answered FAILED should change nothing at
all; which ones do is told exactly.
-/

namespace TableServer.Footprint
open TableServer.Bytes TableServer.Messages TableServer.Serialization TableServer.Stores TableServer.Connection
open TableServer.Server TableServer.Requests TableServer.LockSafety TableServer.Dialogue TableServer.Untouched
open TableServer.Arithmetic (arithmetic operation quietly_arithmetic)
open Resumption Interleaving

variable {memory : ConnId → Bool} {ok : ServerState → ConnId → ServerEvent → Prop} {start s s' : ServerState}
  {tr : ServerTrace} {c d : ConnId} {e : ServerEvent} {sh sh' : Shared} {t : Addr} {fresh : Addr} {op : Op} {r : Res op}
  {l : Local} {input : Input}

/-- The table that an operation locks, accesses or unlocks. -/
def tableOf : Op → Option Addr
  | .lock t => some t
  | .trylock t => some t
  | op => usedTable op

def usesMutex : Op → Bool
  | .lock _ => true
  | .trylock _ => true
  | .unlock _ => true
  | _ => false

/-- What can be read in a table: its committed map and its pending map. -/
def mapsOf (sh : Shared) (t : Addr) : Option (StdMap Str × StdMap Str) :=
  (sh.heap t).map fun tb => (tb.theMap, tb.tempMap)

private theorem exec_elsewhere (run : exec c fresh op sh = some (r, sh')) (old : ∀ n, op ≠ .create_table n)
    (other : tableOf op ≠ some t) : sh'.heap t = sh.heap t := by
  have apart : ∀ {u tb}, tableOf op = some u → sh' = sh.put u tb → sh'.heap t = sh.heap t := by
    rintro u tb at_ rfl
    apply put_other
    rintro rfl
    exact other at_
  cases op with
  | find_table name => rw [(exec_find run).2]
  | create_table name => exact absurd rfl (old name)
  | lock u =>
    obtain ⟨tb, _, _, after⟩ := exec_lock run
    exact apart rfl after
  | trylock u =>
    obtain ⟨tb, _, ⟨_, _, after⟩ | ⟨_, _, rfl⟩⟩ := exec_trylock run
    · exact apart rfl after
    · rfl
  | unlock u =>
    obtain ⟨tb, _, after⟩ := exec_unlock run
    exact apart rfl after
  | get u key =>
    obtain ⟨tb, _, _, after⟩ := exec_get run
    exact apart rfl after
  | set u key value =>
    obtain ⟨tb, _, after⟩ := exec_set run
    exact apart rfl after
  | commit_changes u =>
    obtain ⟨tb, _, after⟩ := exec_commit run
    exact apart rfl after
  | rollback_changes u =>
    obtain ⟨tb, _, after⟩ := exec_rollback run
    exact apart rfl after
  | write line => rw [exec_write run]

/-- What `c` holds changes only by its own operations on mutexes. -/
theorem step_holds (run : Run server anyStep (booted memory) tr s) (one : Step server s d e s')
    (quiet : d = c → ∀ input l op r, e = .call input l op r → usesMutex op = false) :
    holder s'.shared t = some c ↔ holder s.shared t = some c := by
  cases one with
  | @call input l op k r after choice up here exec =>
    have exec : Server.exec d choice op s.shared = some (r, after) := exec
    have next : nextOp (s.threads d) = some op := by rw [here]; rfl
    constructor
    · intro held
      rcases exec_holder exec held with ⟨before, _⟩ | ⟨mine, rfl | rfl⟩
      · exact before
      · cases quiet mine _ _ _ _ rfl
      · cases quiet mine _ _ _ _ rfl
    · intro held
      apply exec_keeps held _ exec
      rintro rfl
      have byD := used_held run next rfl
      rw [held] at byD
      cases quiet (Option.some.inj byD).symm _ _ _ _ rfl
  | _ => exact Iff.rfl

private theorem run_holds (before : Run server anyStep (booted memory) tr start) {tr' : ServerTrace}
    (run : Run server ok start tr' s) (quiet : ∀ input l op r, (c, .call input l op r) ∈ tr' → usesMutex op = false) :
    holder s.shared t = some c ↔ holder start.shared t = some c := by
  induction run with
  | start => exact Iff.rfl
  | @step tr₁ s₁ s₂ d e earlier one _ ih =>
    rw [← ih fun input l op r member => quiet input l op r (List.mem_append_left _ member)]
    apply step_holds (before.append earlier.any) one
    rintro rfl input l op r rfl
    exact quiet input l op r (by simp)

/-- While `c` holds the mutex of a table, the steps of the others leave the table alone. -/
theorem others_keep (before : Run server anyStep (booted memory) tr start) {tr' : ServerTrace}
    (run : Run server ok start tr' s) (apart : ∀ step ∈ tr', step.1 ≠ c) (held : holder start.shared t = some c) :
    s.shared.heap t = start.shared.heap t := by
  induction run with
  | start => rfl
  | @step tr₁ s₁ s₂ d e earlier one _ ih =>
    have same := ih fun step member => apart step (List.mem_append_left _ member)
    have still : holder s₁.shared t = some c := by
      rw [holder, same]
      exact held
    rw [← same]
    exact step_held (before.append earlier.any) one (apart (d, e) (by simp)) still

/-- The operation uses no table but the one at `t`, and makes none. -/
structure Confined (t : Addr) (op : Op) : Prop where
  old : ∀ n, op ≠ .create_table n
  one : ∀ u, tableOf op = some u → u = t

private theorem confined_own (own : tableOf op = some t) : Confined t op := by
  constructor
  · rintro n rfl
    cases own
  · intro u at_
    rw [own] at at_
    exact (Option.some.inj at_).symm

private theorem confined_idle (idle : tableOf op = none) (old : ∀ n, op ≠ .create_table n) : Confined t op := by
  refine ⟨old, ?_⟩
  intro u at_
  rw [idle] at at_
  cases at_

/-- The step, when it is one of `c`, changes no table but the one at `t`, not the table map,
    and nothing of another connection. -/
def touchesOnly (c : ConnId) (t : Addr) (s : ServerState) (d : ConnId) (e : ServerEvent) : Prop :=
  d = c → ∀ s', Step server s d e s' → (∀ u, u ≠ t → s'.shared.heap u = s.shared.heap u) ∧
    s'.shared.server_tables = s.shared.server_tables ∧ ∀ d', d' ≠ c → s'.threads d' = s.threads d'

private theorem confined_touches (confined : ∀ input l op r, e = .call input l op r → Confined t op) :
    touchesOnly c t s d e := by
  rintro rfl s' one
  refine ⟨?_, ?_, fun d' other => one.other (Ne.symm other)⟩
  · intro u other
    cases one with
    | @call input l op k r after choice up here exec =>
      have exec : Server.exec d choice op s.shared = some (r, after) := exec
      obtain ⟨old, only⟩ := confined _ _ _ _ rfl
      apply exec_elsewhere exec old
      intro at_
      exact other (only u at_)
    | _ => rfl
  · cases one with
    | @call input l op k r after choice up here exec =>
      have exec : Server.exec d choice op s.shared = some (r, after) := exec
      exact exec_tables exec (confined _ _ _ _ rfl).old
    | _ => rfl

private theorem step_executes (one : Step server s c (.call input l op r) s') :
    ∃ fresh, exec c fresh op s.shared = some (r, s'.shared) := one.executes

/-- A step of `c` that does `f` to a table. -/
theorem step_does {f : Table → Table} {tb : Table}
    (executes : ∀ {fresh sh r sh'}, exec c fresh op sh = some (r, sh') →
      ∃ tb, sh.heap t = some tb ∧ sh' = sh.put t (f tb))
    (one : Step server s c (.call input l op r) s') (here : s.shared.heap t = some tb) :
    s'.shared.heap t = some (f tb) := by
  obtain ⟨fresh, run⟩ := step_executes one
  obtain ⟨tb', here', after⟩ := executes run
  rw [here] at here'
  obtain rfl := Option.some.inj here'
  rw [after, put_self]

section
variable {k : Res op → Iteration} {tr' : ServerTrace} {tb : Table}

/-- A table that `c` has locked is the same when `c` comes to its next call. -/
theorem locked_until (before : Run server anyStep (booted memory) tr start)
    (C : Calling server ok start s tr' c input l op k)
    (here : start.shared.heap t = some tb) (mine : tb.m_mutex = some c) : C.asked.shared.heap t = some tb := by
  rw [others_keep before C.opens C.apart (holder_eq.mpr ⟨tb, here, mine⟩), here]

private theorem reached_after (before : Run server anyStep (booted memory) tr start)
    (C : Calling server ok start s tr' c input l op k) : ∃ tr, Run server anyStep (booted memory) tr C.answered :=
  ⟨_, (before.append C.opens.any).step C.calls trivial⟩

end

/-! ## One request in a run -/

variable (memory c) in
/-- A request of `c` in a run of the server: the line is read in `start`, and `within` are
    the steps from there on, those of the others among them, in which `c` reads no further
    line. -/
structure Handled where
  (start read final : ServerState)
  (before within : ServerTrace)
  input : Input
  l : Local
  reached : Run server anyStep (booted memory) before start
  reads : Step server start c (.recv l input) read
  handles : Run server (unread c) read within final

namespace Handled

/-- The request has been answered with a response of the given type. -/
def Answered (H : Handled memory c) (type : MessageType) : Prop :=
  ∃ input l' line, (c, .call input l' (.write line) ()) ∈ H.within ∧ l'.response.m_message_type = type

private theorem started (H : Handled memory c) : H.start.threads c = .reading H.l ∧ H.read.shared = H.start.shared ∧
    H.read.threads c = .running H.input (chat_with_client H.input H.l) := by
  obtain ⟨start, read, final, before, within, input, l, reached, reads, handles⟩ := H
  cases reads with
  | recv up here => exact ⟨here, rfl, Function.update_self ..⟩

private theorem reachedRead (H : Handled memory c) :
    Run server anyStep (booted memory) (H.before ++ [(c, .recv H.l H.input)]) H.read := H.reached.step H.reads trivial

end Handled

/-- The type of the response that the `catch` clauses leave. -/
def answerType (r : Except Fault Bool) (l : Local) : MessageType :=
  match r with
  | .ok _ => l.response.m_message_type
  | .error (.thrown (.OperationException _)) => .FAILED
  | .error (.thrown (.FailedTransaction _)) => .FAILED
  | .error _ => .ERROR

/-- All that is written is a response of the type. -/
def AnswersAs (type : MessageType) (l : Local) (op : Op) : Prop := isWrite op = true → l.response.m_message_type = type

private theorem answers_quiet {type : MessageType} (quiet : isWrite op = false) : AnswersAs type l op := by
  intro write
  rw [quiet] at write
  cases write

private theorem answers_responding (keep : Bool) (l : Local) :
    (responding keep l).Calls (AnswersAs l.response.m_message_type) := calls_responding keep fun _ _ => rfl

private theorem answers_releasing (ending : Ending) {type : MessageType} {after : Iteration}
    (then_ : after.Calls (AnswersAs type)) (tables : List Addr) :
    (releasing ending l after tables).Calls (AnswersAs type) := by
  apply calls_releasing ending _ _ tables then_
  · intro t
    apply answers_quiet
    cases ending <;> rfl
  · intro t
    exact answers_quiet rfl

private theorem answers_settle (r : Except Fault Bool) (l : Local) :
    (settle r l).Calls (AnswersAs (answerType r l)) := by
  rcases r with (e | _) | keep
  · cases e with
    | OperationException what =>
      rw [settle]
      split
      · trivial
      · exact answers_responding true (l.respond .FAILED [what])
    | FailedTransaction what =>
      exact answers_releasing .rollback (answers_responding true (l.released.respond .FAILED [what])) _
    | InvalidMessage what => exact answers_responding false (l.respond .ERROR [what])
    | CommException what => exact answers_responding false (l.respond .ERROR [what])
    | out_of_range => trivial
    | invalid_argument => trivial
    | runtime_error what => trivial
  · trivial
  · exact answers_responding keep l

def isRecv : ServerEvent → Bool
  | .recv _ _ => true
  | _ => false

def isAnswer (c : ConnId) (type : MessageType) : ConnId × ServerEvent → Bool
  | (d, .call _ l (.write _) _) => d == c && l.response.m_message_type == type
  | _ => false

/-- Executes the schedule `before`, lets `c` read the input, executes the schedule `within`
    and checks the result: the members before, the steps, and the states around them. -/
def checkHandled (memory : ConnId → Bool) (c : ConnId) (before : List (ConnId × Action Input Addr)) (input : Input)
    (within : List (ConnId × Action Input Addr)) (type : MessageType)
    (check : Local → ServerState → ServerState → Bool) : Bool :=
  (execute server noCheck before (booted memory)).any fun started =>
    (step? server started.2 c (.recv input)).any fun read =>
      (execute server (fun _ d e => !(d == c && isRecv e)) within read.2).any fun final =>
        final.1.any (isAnswer c type) && check (members (started.2.threads c)) started.2 final.2

private theorem handled_of_check {before within : List (ConnId × Action Input Addr)} {type : MessageType}
    {check : Local → ServerState → ServerState → Bool}
    (checked : checkHandled memory c before input within type check = true) :
    ∃ H : Handled memory c, H.input = input ∧ H.Answered type ∧ check H.l H.start H.final = true := by
  simp only [checkHandled, Option.any_eq_true, Bool.and_eq_true, List.any_eq_true] at checked
  obtain ⟨⟨tr, start⟩, first, ⟨e, read⟩, recv, ⟨steps, final⟩, second, ⟨⟨d, answer⟩, inside, answers⟩, holds⟩ := checked
  have one := step_of_step? recv
  obtain ⟨l, rfl, here⟩ := recv_of_step? recv
  have run := run_of_execute .start second
  rw [here] at holds
  refine ⟨⟨start, read, final, tr, steps, input, l, (run_of_execute .start first).any, one, ?_⟩, rfl, ?_, holds⟩
  · refine run.mono fun s s' d e _ _ passed => ?_
    rintro rfl l input rfl
    simp [isRecv] at passed
  · unfold isAnswer at answers
    split at answers
    · rename_i same
      cases same
      obtain ⟨mine, typed⟩ := Bool.and_eq_true_iff.mp answers
      rw [beq_iff_eq.mp mine] at inside
      exact ⟨_, _, _, inside, beq_iff_eq.mp typed⟩
    · cases answers

namespace Handled

/-- The request finds the table `n` at `t` and locks it. -/
structure Locks (H : Handled memory c) (n : Str) (t : Addr) where
  (opening after : ServerTrace)
  (free locked : ServerState)
  whole : H.within = opening ++ (c, .call H.input H.l (.lock t) ()) :: after
  finds : (c, .call H.input H.l (.find_table n) (some t)) ∈ opening
  before : ∀ input l op r, (c, .call input l op r) ∈ opening → op = .find_table n
  opens : Run server (unread c) H.read opening free
  locks : Step server free c (.call H.input H.l (.lock t) ()) locked
  closes : Run server (unread c) locked after H.final

/-- The request locks the table, uses it and unlocks it again. -/
structure Critical (H : Handled memory c) (n : Str) (t : Addr) extends Locks H n t where
  (used rest : ServerTrace)
  frees : Local
  (last unlocked : ServerState)
  split : after = used ++ (c, .call H.input frees (.unlock t) ()) :: rest
  kept : ∀ input l r, (c, .call input l (.unlock t) r) ∉ used
  uses : Run server (unread c) locked used last
  unlocks : Step server last c (.call H.input frees (.unlock t) ()) unlocked
  ends : Run server (unread c) unlocked rest H.final

/-- A request on a cell outside a transaction that is not answered ERROR locks its table,
    before it does anything else to it, and has its answer still to come. -/
theorem locksTable (H : Handled memory c) {n : Str} {use : Addr → Local → Iteration} {type : MessageType}
    (program : chat_with_client H.input H.l = (onTable n H.l use).bind settle)
    (outside : H.l.transaction_mode = false) (answered : H.Answered type) (other : type ≠ .ERROR) :
    ∃ (t : Addr) (L : H.Locks n t), L.locked.threads c = .running H.input ((use t H.l).bind settle) ∧
      ∃ input l' line, (c, .call input l' (.write line) ()) ∈ L.after ∧ l'.response.m_message_type = type := by
  obtain ⟨input, l', line, writes, answer⟩ := answered
  have here := H.started.2.2
  rw [program] at here
  obtain ⟨F⟩ := H.handles.calling here writes
  have later := (F.moves writes).resolve_left (by rintro ⟨⟩)
  have found := F.here
  cases at_ : F.r with
  | none =>
    rw [at_] at found
    have error : l'.response.m_message_type = .ERROR := F.closes.only found (answers_settle _ _) later rfl
    rw [answer] at error
    exact absurd error other
  | some t =>
    rw [at_] at found
    have locking : F.answered.threads c =
        .running H.input (.call H.l (.lock t) fun _ => (use t H.l).bind settle) := by
      rw [found]
      simp only [Requests.locking, outside]
      rfl
    obtain ⟨L⟩ := F.closes.calling locking later
    refine ⟨t, ?_, ?_⟩
    · exact {
        opening := F.before ++ (c, .call H.input H.l (.find_table n) F.r) :: L.before
        after := L.after
        free := L.asked
        locked := L.answered
        whole := by
          have more := congrArg (fun rest => F.before ++ (c, .call H.input H.l (.find_table n) F.r) :: rest) L.whole
          simpa using F.whole.trans more
        finds := by simp [at_]
        before := by
          intro input l op r inside
          rcases List.mem_append.mp inside with early | late
          · exact absurd rfl (F.apart _ early)
          · rcases List.mem_cons.mp late with now | waiting
            · cases now
              rfl
            · exact absurd rfl (L.apart _ waiting)
        opens := by
          have whole := (F.opens.step F.calls F.allowed).append L.opens
          simpa using whole
        locks := L.calls
        closes := L.closes }
    · exact ⟨L.here, input, l', line, (L.moves later).resolve_left (by rintro ⟨⟩), answer⟩

end Handled

/-! ## A SET outside a transaction -/

/-- A SET of the key `k` to the value `v` has changed one cell between the lock and the
    unlock of its table, which was `tb` and is `tb'`, and has popped the value; its own
    steps have touched nothing else. -/
structure OneCell (H : Handled memory c) {n : Str} {t : Addr} (S : H.Critical n t) (k v : Str) (rest : List Str)
    (tb tb' : Table) : Prop where
  stack : H.l.client_stack.stk = v :: rest
  locked : S.free.shared.heap t = some tb
  unlocked : S.unlocked.shared.heap t = some tb'
  cells : ∀ j, tb'.theMap[j]? = if k = j then some v else tb.theMap[j]?
  clean : tb'.tempMap = ∅
  popped : S.frees.client_stack.stk = rest ∧ (members (H.final.threads c)).client_stack.stk = rest
  frame : Run server (touchesOnly c t) H.read H.within H.final

private theorem writing_full {v k : Str} {rest : List Str} (stack : l.client_stack.stk = v :: rest)
    (outside : l.transaction_mode = false) : (writing t k l).bind settle =
      .call (l.withStack rest) (.set t k v) fun _ => .call (l.withStack rest) (.commit_changes t) fun _ =>
        .call (l.withStack rest) (.unlock t) fun _ => responding true ((l.withStack rest).respond .OK []) := by
  have mode : (l.withStack rest).transaction_mode = false := outside
  simp only [writing, stack, autocommitting, mode]
  rfl

private theorem writing_empty {k : Str} (stack : l.client_stack.stk = []) (outside : l.transaction_mode = false) :
    (writing t k l).bind settle = responding true (l.respond .FAILED [emptyStack]) := by
  simp only [writing, stack, Prog.bind_done, settle, outside]
  rfl

private theorem writes_responding (keep : Bool) (l : Local) : (responding keep l).Calls fun _ op => isWrite op = true :=
  calls_responding keep fun _ => rfl

private theorem isWrite_eq (write : isWrite op = true) : ∃ line, op = .write line := by
  cases op with
  | write line => exact ⟨line, rfl⟩
  | _ => cases write

private theorem confined_responding (keep : Bool) (l : Local) : (responding keep l).Calls fun _ op => Confined t op :=
  calls_responding keep fun _ => confined_idle rfl (by simp)

private theorem members_within {P : Local → Prop} {thread : Thread Local Input Fault Op Res}
    (within : Within (fun l _ => P l) (fun _ => P) thread) : P (members thread) := by
  cases thread with
  | reading l =>
    obtain ⟨_, holds⟩ := within
    exact holds
  | exited l =>
    obtain ⟨_, holds⟩ := within
    exact holds
  | running input p =>
    cases p with
    | done r l => exact within.2
    | call l op k => exact within.1.1

/-- What holds of the members when a request is answered holds of them until the next line
    is read. -/
theorem members_responding {P : Local → Prop} {keep : Bool} (run : Run server (unread c) start tr s)
    (here : start.threads c = .running input (responding keep l)) (holds : P l) : P (members (s.threads c)) := by
  have within : Within (fun l _ => P l) (fun _ => P) (start.threads c) := by
    rw [here]
    exact ⟨calls_responding keep fun _ => holds, ends_responding keep holds fun _ => holds⟩
  exact members_within (run.stays within).2

namespace Handled

/-- Who is not logged in is answered ERROR. -/
theorem loggedIn (H : Handled memory c) {m : Message} {type : MessageType} (asked : requestOf H.input = some m)
    (login : m.m_message_type ≠ .LOGIN) (answered : H.Answered type) (other : type ≠ .ERROR) :
    H.l.logged_in = true := by
  cases out : H.l.logged_in with
  | true => rfl
  | false =>
    obtain ⟨input, l', line, writes, answer⟩ := answered
    have here := H.started.2.2
    rw [stranger_run asked login out] at here
    have error : l'.response.m_message_type = .ERROR := H.handles.only here (answers_settle _ _) writes rfl
    rw [answer] at error
    exact absurd error other

private theorem reachedLocked (H : Handled memory c) {n : Str} (L : H.Locks n t) :
    (∃ tr, Run server anyStep (booted memory) tr L.free) ∧ ∃ tr, Run server anyStep (booted memory) tr L.locked := by
  have free := H.reachedRead.append L.opens.any
  exact ⟨⟨_, free⟩, ⟨_, free.step L.locks trivial⟩⟩

end Handled

section
variable {H : Handled memory c} {n k v line : Str} {after : Iteration} {l' : Local}

/-- From the lock of its table on, a SET writes, commits and unlocks. -/
theorem critical_section (L : H.Locks n t) {tb : Table} (atFree : L.free.shared.heap t = some tb)
    (here : L.locked.threads c = .running H.input (.call l (.set t k v) fun _ => .call l (.commit_changes t) fun _ =>
      .call l (.unlock t) fun _ => after))
    (writes : (c, .call input l' (.write line) ()) ∈ L.after) :
    ∃ S : H.Critical n t, S.toLocks = L ∧ S.frees = l ∧ S.unlocked.threads c = .running H.input after ∧
      ∃ tb', S.unlocked.shared.heap t = some tb' ∧ (∀ j, tb'.theMap[j]? = if k = j then some v else tb.theMap[j]?) ∧
        tb'.tempMap = ∅ := by
  obtain ⟨W⟩ := L.closes.calling here writes
  have writesW := (W.moves writes).resolve_left (by rintro ⟨⟩)
  obtain ⟨M⟩ := W.closes.calling W.here writesW
  have writesM := (M.moves writesW).resolve_left (by rintro ⟨⟩)
  obtain ⟨U⟩ := M.closes.calling M.here writesM
  let written : ConnId × ServerEvent := (c, .call H.input l (.set t k v) W.r)
  let committed : ConnId × ServerEvent := (c, .call H.input l (.commit_changes t) M.r)
  refine ⟨{
    toLocks := L, used := W.before ++ written :: (M.before ++ committed :: U.before), rest := U.after, frees := l
    last := U.asked, unlocked := U.answered, split := ?_, kept := ?_, uses := ?_, unlocks := U.calls,
      ends := U.closes },
    rfl, rfl, U.here, ?_⟩
  · have second := congrArg (fun after => W.before ++ written :: after) M.whole
    have third := congrArg (fun after => W.before ++ written :: (M.before ++ committed :: after)) U.whole
    simpa [written, committed] using (W.whole.trans second).trans third
  · intro input l r inside
    simp only [List.mem_append, List.mem_cons] at inside
    rcases inside with early | now | early | now | early
    · exact W.apart _ early rfl
    · exact absurd now (by simp [written])
    · exact M.apart _ early rfl
    · exact absurd now (by simp [committed])
    · exact U.apart _ early rfl
  · have uses := (W.opens.step W.calls W.allowed).append ((M.opens.step M.calls M.allowed).append U.opens)
    simpa [written, committed] using uses
  -- The table at the lock, and at each call of the section.
  · obtain ⟨⟨_, free⟩, ⟨_, locked⟩⟩ := H.reachedLocked L
    obtain ⟨_, wrote⟩ := reached_after locked W
    obtain ⟨_, commits⟩ := reached_after wrote M
    obtain ⟨fresh, exec⟩ := step_executes L.locks
    obtain ⟨tb₁, here₁, unheld, taken⟩ := exec_lock exec
    rw [atFree] at here₁
    obtain rfl := Option.some.inj here₁
    have clean : tb.tempMap = ∅ := (pending_owned free).1 t tb atFree unheld
    have atLocked : L.locked.shared.heap t = some { tb with m_mutex := some c } := by rw [taken, put_self]
    have atWrite := step_does (f := fun tb => tb.set k v) exec_set W.calls (locked_until locked W atLocked rfl)
    have atCommit := step_does (f := Table.commit_changes) exec_commit M.calls (locked_until wrote M atWrite rfl)
    have atUnlock := step_does (f := fun tb => { tb with m_mutex := none }) exec_unlock U.calls
      (locked_until commits U atCommit rfl)
    refine ⟨_, atUnlock, ?_, rfl⟩
    exact Table.set_commit_getElem? (t := { tb with m_mutex := some c }) clean k v

/-- A request that uses no table but the one that it locks touches no other one. -/
theorem locks_frame (L : H.Locks n t) {p : Iteration} (here : L.locked.threads c = .running H.input p)
    (calls : p.Calls fun _ op => Confined t op) : Run server (touchesOnly c t) H.read H.within H.final := by
  refine H.handles.mono fun s₁ s₂ d e inside _ _ => ?_
  rintro rfl
  apply confined_touches (c := d) _ rfl
  rintro input l op r rfl
  rw [L.whole] at inside
  rcases List.mem_append.mp inside with early | late
  · rw [L.before input l op r early]
    exact confined_idle rfl (by simp)
  · rcases List.mem_cons.mp late with now | later
    · cases now
      exact confined_own rfl
    · exact L.closes.only here calls later

end

/-- A SET outside a transaction that is answered OK changes one cell. -/
theorem set_one_cell (H : Handled memory c) {n k : Str} (asked : requestOf H.input = some ⟨.SET, [n, k]⟩)
    (outside : H.l.transaction_mode = false) (answered : H.Answered .OK) :
    ∃ (t : Addr) (S : H.Critical n t) (v : Str) (rest : List Str) (tb tb' : Table), OneCell H S k v rest tb tb' := by
  have login := H.loggedIn asked (by simp) answered (by decide)
  have program : chat_with_client H.input H.l = (onTable n H.l fun t => writing t k).bind settle :=
    request_run asked (by simp) login
  obtain ⟨t, L, here, input, l', line, writes, answer⟩ := H.locksTable program outside answered (by decide)
  cases stack : H.l.client_stack.stk with
  | nil =>
    rw [writing_empty stack outside] at here
    have failed : l'.response.m_message_type = .FAILED := L.closes.only here (answers_responding true _) writes rfl
    rw [answer] at failed
    cases failed
  | cons v rest =>
    rw [writing_full stack outside] at here
    obtain ⟨fresh, exec⟩ := step_executes L.locks
    obtain ⟨tb, atFree, _, _⟩ := exec_lock exec
    obtain ⟨S, rfl, frees, gone, tb', atUnlock, cells, clean⟩ := critical_section L atFree here writes
    refine ⟨t, S, v, rest, tb, tb', stack, atFree, atUnlock, cells, clean, ⟨?_, ?_⟩, ?_⟩
    · rw [frees]
      rfl
    · exact members_responding (P := fun l => l.client_stack.stk = rest) S.ends gone rfl
    · apply locks_frame S.toLocks here
      have writes_ := confined_responding (t := t) true ((H.l.withStack rest).respond .OK [])
      exact ⟨confined_own rfl, fun _ => ⟨confined_own rfl, fun _ => ⟨confined_own rfl, fun _ => writes_⟩⟩⟩

/-- A client puts 7 on its stack, while another one has locked the table `b` in a transaction. -/
def storing : List (ConnId × Action Input Addr) :=
  turn 0 "LOGIN ann\n" 2 0 ++ turn 0 "CREATE a\n" 4 0 ++ turn 0 "CREATE b\n" 4 1 ++ turn 0 "PUSH 7\n" 2 0 ++
    turn 1 "LOGIN bob\n" 2 0 ++ turn 1 "BEGIN\n" 2 0 ++ turn 1 "GET b k\n" 5 0

theorem set_one_cell_storing : ∃ (H : Handled (fun _ => false) 0) (t : Addr) (S : H.Critical (lit "a") t) (v : Str)
    (rest : List Str) (tb tb' : Table), OneCell H S (lit "k") v rest tb tb' ∧ v = lit "7" := by
  have shown : checkHandled (fun _ => false) 0 storing (rio_readlineb (lit "SET a k\n"))
      (List.replicate 7 (0, .advance 0)) .OK
      (fun l _ _ => !l.transaction_mode && l.client_stack.stk == [lit "7"]) = true := by
    decide +kernel
  obtain ⟨H, same, answered, holds⟩ := handled_of_check shown
  obtain ⟨outside, stack⟩ := Bool.and_eq_true_iff.mp holds
  have asked : requestOf H.input = some ⟨.SET, [lit "a", lit "k"]⟩ := by rw [same]; decide +kernel
  obtain ⟨t, S, v, rest, tb, tb', cell⟩ := set_one_cell H asked (by simpa using outside) answered
  have value := cell.stack
  rw [beq_iff_eq.mp stack] at value
  exact ⟨H, t, S, v, rest, tb, tb', cell, (List.cons.inj value).1.symm⟩

/-! ## Requests outside a transaction that fail -/

/-- The step, when it is one of `c`, leaves both maps of every table as they were. -/
def leavesMaps (c : ConnId) (s : ServerState) (d : ConnId) (e : ServerEvent) : Prop :=
  d = c → ∀ s', Step server s d e s' → mapsOf s'.shared = mapsOf s.shared

/-- The request has changed nothing: the stack is what it was, its steps have left the maps
    of all tables alone, and `c` holds the mutexes that it held. -/
structure Handled.Unchanged (H : Handled memory c) : Prop where
  stack : (members (H.final.threads c)).client_stack.stk = H.l.client_stack.stk
  tables : Run server (leavesMaps c) H.read H.within H.final
  mutexes : ∀ t, holder H.final.shared t = some c ↔ holder H.start.shared t = some c

/-- The request is no SET, and an arithmetic one only with nothing on the stack. -/
structure Harmless (m : Message) (l : Local) : Prop where
  unlocked : m.m_message_type ≠ .SET
  unpopped : m.m_message_type ∈ arithmetic → l.client_stack.stk = []

/-- The program writes no FAILED. -/
def Spares (l : Local) (op : Op) : Prop := isWrite op = true → l.response.m_message_type ≠ .FAILED

private theorem spares_quiet (quiet : isWrite op = false) : Spares l op := by
  intro write
  rw [quiet] at write
  cases write

private theorem spares_other {type : MessageType} {p : Iteration} (answers : p.Calls (AnswersAs type))
    (other : type ≠ .FAILED) : p.Calls Spares := by
  apply Prog.calls_mono answers
  intro l op answer write
  rw [answer write]
  exact other

private theorem spares_settle {result : Except Fault Bool} (other : answerType result l ≠ .FAILED) :
    (settle result l).Calls Spares := spares_other (answers_settle result l) other

private theorem spares_responding (keep : Bool) (l : Local) : (responding keep (l.respond .OK [])).Calls Spares :=
  spares_other (answers_responding keep _) (by simp [Local.respond])

namespace Handled

/-- A request whose program writes no FAILED is not answered FAILED. -/
theorem spared (H : Handled memory c) {p : Iteration} (program : chat_with_client H.input H.l = p)
    (spares : p.Calls Spares) : ¬ H.Answered .FAILED := by
  rintro ⟨input, l', line, writes, failed⟩
  have here := H.started.2.2
  rw [program] at here
  exact H.handles.only here spares writes rfl failed

end Handled

/-- Without a request there is only an ERROR. -/
theorem unread_spares (none_ : requestOf input = none) (l : Local) : (chat_with_client input l).Calls Spares := by
  rw [chat_run]
  cases input with
  | closed =>
    show (settle (.error (.thrown (.CommException readError))) l).Calls Spares
    exact spares_settle (by simp [answerType])
  | line buf =>
    simp only [iteration]
    rcases line_cases buf with ⟨failed, _⟩ | ⟨failed, _⟩ | ⟨failed, _⟩ | ⟨m, parsed, _⟩
    · rw [failed]
      exact spares_settle (by simp [answerType])
    · rw [failed]
      exact spares_settle (by simp [answerType, notTerminated])
    · rw [failed]
      exact spares_settle (by simp [answerType, invalidArguments])
    · rw [requestOf_decode parsed] at none_
      cases none_

private theorem arithmetically_failed {f : Int → Int → Option Int}
    (failed : answerType (arithmetically f l).1 (arithmetically f l).2 = .FAILED) :
    arithmetically f l = (.error (.thrown (.OperationException badOperands)),
      l.withStack (l.client_stack.stk.drop 2)) := by
  unfold arithmetically at failed ⊢
  cases pair : operands l.client_stack.stk with
  | none => rfl
  | some xy =>
    obtain ⟨x, y⟩ := xy
    rw [pair] at failed
    simp only at failed
    cases result : f x y with
    | none =>
      rw [result] at failed
      cases failed
    | some z =>
      rw [result] at failed
      cases failed

private theorem drop_two_self {stk : List Str} : stk.drop 2 = stk ↔ stk = [] := by
  constructor
  · intro same
    have lengths := congrArg List.length same
    rw [List.length_drop] at lengths
    apply List.eq_nil_of_length_eq_zero
    omega
  · rintro rfl
    rfl

/-- A request that needs no table and fails leaves the members, but for the operands that
    it has popped. -/
theorem quietly_failed {m : Message} (failed : answerType (quietly m l).1 (quietly m l).2 = .FAILED) :
    ∃ what stk, quietly m l = (.error (.thrown (.OperationException what)), l.withStack stk) ∧
      (stk = l.client_stack.stk ↔ (m.m_message_type ∈ arithmetic → l.client_stack.stk = [])) := by
  by_cases arith : m.m_message_type ∈ arithmetic
  · have same : quietly m l = arithmetically (operation m.m_message_type) l := quietly_arithmetic arith m.m_args l
    rw [same] at failed
    refine ⟨badOperands, l.client_stack.stk.drop 2, ?_, ?_⟩
    · rw [same]
      exact arithmetically_failed failed
    · rw [drop_two_self]
      exact ⟨fun empty _ => empty, fun empty => empty arith⟩
  · refine ⟨emptyStack, l.client_stack.stk, ?_, ⟨fun _ inside => absurd inside arith, fun _ => rfl⟩⟩
    rw [Local.withStack_self]
    cases type : m.m_message_type
    case POP | TOP =>
      simp only [quietly, type] at failed ⊢
      cases stack : l.client_stack.stk with
      | nil => rfl
      | cons v rest =>
        rw [stack] at failed
        cases failed
    case ADD | MUL | SUB | DIV => exact absurd (by simp [type, arithmetic]) arith
    all_goals
      simp only [quietly, type] at failed
      cases failed

namespace Handled

/-- A GET outside a transaction does not fail. -/
theorem get_spared (H : Handled memory c) {n k : Str} (asked : requestOf H.input = some ⟨.GET, [n, k]⟩)
    (outside : H.l.transaction_mode = false) : ¬ H.Answered .FAILED := by
  intro answered
  have login := H.loggedIn asked (by simp) answered (by decide)
  have program : chat_with_client H.input H.l = (onTable n H.l fun t => reading t k).bind settle :=
    request_run asked (by simp) login
  obtain ⟨t, L, here, input, l', line, writes, failed⟩ := H.locksTable program outside answered (by decide)
  obtain ⟨G⟩ := L.closes.calling here writes
  have later := (G.moves writes).resolve_left (by rintro ⟨⟩)
  obtain ⟨fresh, exec⟩ := step_executes G.calls
  obtain ⟨tb, _, value, _⟩ := exec_get exec
  have rests := G.here
  rw [value] at rests
  have mode (stk : List Str) : (H.l.withStack stk).transaction_mode = false := outside
  simp only [autocommitting, mode] at rests
  have spares : Spares l' (.write line) :=
    G.closes.only rests ⟨spares_quiet rfl, fun _ => ⟨spares_quiet rfl, fun _ => spares_responding true _⟩⟩ later
  exact spares rfl failed

/-- What fails outside a transaction is a SET or a request that needs no table. -/
theorem failed_request (H : Handled memory c) (outside : H.l.transaction_mode = false) (failed : H.Answered .FAILED) :
    ∃ m, requestOf H.input = some m ∧ m.m_message_type ≠ .LOGIN ∧
      ((∃ n k, m = ⟨.SET, [n, k]⟩) ∨ usesTables m.m_message_type = false) := by
  cases asked : requestOf H.input with
  | none => exact absurd failed (H.spared rfl (unread_spares asked H.l))
  | some m =>
    refine ⟨m, rfl, ?_⟩
    by_cases login : m.m_message_type = .LOGIN
    · exact absurd failed (H.spared (login_run asked login) (spares_responding true _))
    · have program := request_run asked login (H.loggedIn asked login failed (by decide))
      refine ⟨login, ?_⟩
      rcases request_forms (request_valid asked) with ⟨n, rfl⟩ | ⟨n, k, rfl⟩ | set | rfl | quiet
      · refine absurd failed (H.spared program ⟨spares_quiet rfl, ?_⟩)
        rintro (_ | u)
        · exact ⟨spares_quiet rfl, fun _ => spares_responding true _⟩
        · exact spares_settle (by simp [answerType])
      · exact absurd failed (H.get_spared asked outside)
      · exact .inl set
      · refine absurd failed (H.spared program ?_)
        rw [requesting, releasing_bind]
        have answers := answers_responding true (H.l.released.respond .OK [])
        exact spares_other (answers_releasing .commit answers _) (by simp [Local.respond])
      · exact .inr quiet

/-- A SET that fails has locked its table and has not unlocked it. -/
theorem set_forgets (H : Handled memory c) {n k : Str} (asked : requestOf H.input = some ⟨.SET, [n, k]⟩)
    (outside : H.l.transaction_mode = false) (answered : H.Answered .FAILED) : ¬ H.Unchanged := by
  intro unchanged
  have login := H.loggedIn asked (by simp) answered (by decide)
  have program : chat_with_client H.input H.l = (onTable n H.l fun t => writing t k).bind settle :=
    request_run asked (by simp) login
  obtain ⟨t, L, here, input, l', line, writes, failed⟩ := H.locksTable program outside answered (by decide)
  obtain ⟨⟨_, free⟩, ⟨_, locked⟩⟩ := H.reachedLocked L
  obtain ⟨fresh, exec⟩ := step_executes L.locks
  obtain ⟨tb, atFree, unheld, taken⟩ := exec_lock exec
  cases stack : H.l.client_stack.stk with
  | cons v rest =>
    rw [writing_full stack outside] at here
    have answers := spares_responding true (H.l.withStack rest)
    have spares : Spares l' (.write line) := L.closes.only here
      ⟨spares_quiet rfl, fun _ => ⟨spares_quiet rfl, fun _ => ⟨spares_quiet rfl, fun _ => answers⟩⟩⟩ writes
    exact spares rfl failed
  | nil =>
    rw [writing_empty stack outside] at here
    have atLock : holder L.locked.shared t = some c := by rw [taken, holder_put, if_pos rfl]
    have atEnd : holder H.final.shared t = some c := by
      rw [run_holds locked L.closes]
      · exact atLock
      · intro input l op r inside
        obtain ⟨line, rfl⟩ := isWrite_eq (L.closes.only here (writes_responding true _) inside)
        rfl
    have atFirst := (unchanged.mutexes t).mp atEnd
    rw [← H.started.2.1] at atFirst
    have still : holder L.free.shared t = some c := by
      rw [run_holds H.reachedRead L.opens]
      · exact atFirst
      · intro input l op r inside
        rw [L.before input l op r inside]
        rfl
    obtain ⟨tb', here', byC⟩ := holder_eq.mp still
    rw [atFree] at here'
    obtain rfl := Option.some.inj here'
    rw [unheld] at byC
    cases byC

/-- A failing request that needs no table has changed nothing but the operands it has popped. -/
theorem quiet_unchanged (H : Handled memory c) {m : Message} (asked : requestOf H.input = some m)
    (login : m.m_message_type ≠ .LOGIN) (quiet : usesTables m.m_message_type = false)
    (outside : H.l.transaction_mode = false) (answered : H.Answered .FAILED) :
    H.Unchanged ↔ (m.m_message_type ∈ arithmetic → H.l.client_stack.stk = []) := by
  have here := H.started.2.2
  rw [request_run asked login (H.loggedIn asked login answered (by decide)), requesting_quiet quiet] at here
  have failed : answerType (quietly m H.l).1 (quietly m H.l).2 = .FAILED := by
    obtain ⟨input, l', line, writes, failed⟩ := answered
    rw [← H.handles.only here (answers_settle _ _) writes rfl]
    exact failed
  obtain ⟨what, stk, same, iff⟩ := quietly_failed failed
  rw [same] at here
  have mode : (H.l.withStack stk).transaction_mode = false := outside
  simp only [Prog.bind_done, settle, mode] at here
  have left : (members (H.final.threads c)).client_stack.stk = stk :=
    members_responding (P := fun l => l.client_stack.stk = stk) H.handles here rfl
  have writes : ∀ input l op r, (c, .call input l op r) ∈ H.within → isWrite op = true := fun input l op r inside =>
    H.handles.only here (writes_responding true _) inside
  rw [← iff]
  constructor
  · intro unchanged
    rw [← left, unchanged.stack]
  · rintro rfl
    refine ⟨left, ?_, ?_⟩
    · refine H.handles.mono fun s₁ s₂ d e inside _ _ => ?_
      rintro rfl s' one
      cases one with
      | @call input l op k r after choice up at_ exec =>
        obtain ⟨line, rfl⟩ := isWrite_eq (writes _ _ _ _ inside)
        have exec : Server.exec d choice (.write line) s₁.shared = some (r, after) := exec
        rw [exec_write exec]
      | _ => rfl
    · intro t
      rw [run_holds H.reachedRead H.handles, H.started.2.1]
      intro input l op r inside
      obtain ⟨line, rfl⟩ := isWrite_eq (writes _ _ _ _ inside)
      rfl

end Handled

/-- A request outside a transaction that is answered FAILED has changed nothing if and only
    if it is harmless. -/
theorem failed_unchanged_iff (H : Handled memory c) (outside : H.l.transaction_mode = false)
    (failed : H.Answered .FAILED) : ∃ m, requestOf H.input = some m ∧ (H.Unchanged ↔ Harmless m H.l) := by
  obtain ⟨m, asked, login, ⟨n, k, rfl⟩ | quiet⟩ := H.failed_request outside failed
  · refine ⟨_, asked, ?_⟩
    constructor
    · intro unchanged
      exact absurd unchanged (H.set_forgets asked outside failed)
    · intro harmless
      exact absurd rfl harmless.unlocked
  · refine ⟨m, asked, ?_⟩
    rw [H.quiet_unchanged asked login quiet outside failed]
    constructor
    · intro unpopped
      refine ⟨?_, unpopped⟩
      intro set
      rw [set] at quiet
      cases quiet
    · exact Harmless.unpopped

/-- A client logs in and makes a table. -/
def preparing : List (ConnId × Action Input Addr) := turn 0 "LOGIN ann\n" 2 0 ++ turn 0 "CREATE a\n" 4 0

theorem failed_unchanged_iff_pop : ∃ H : Handled (fun _ => false) 0, requestOf H.input = some ⟨.POP, []⟩ ∧
    H.Answered .FAILED ∧ H.Unchanged := by
  have shown : checkHandled (fun _ => false) 0 preparing (rio_readlineb (lit "POP\n"))
      (List.replicate 2 (0, .advance 0)) .FAILED (fun l _ _ => !l.transaction_mode) = true := by
    decide +kernel
  obtain ⟨H, same, failed, outside⟩ := handled_of_check shown
  obtain ⟨m, asked, iff⟩ := failed_unchanged_iff H (by simpa using outside) failed
  have pop : requestOf H.input = some ⟨.POP, []⟩ := by rw [same]; decide +kernel
  rw [pop] at asked
  obtain rfl := Option.some.inj asked
  exact ⟨H, pop, failed, iff.mpr ⟨by simp, by simp [arithmetic]⟩⟩

/-- A SET with nothing on the stack keeps the table locked, and an ADD with one value on the
    stack takes it away. -/
theorem failed_changes :
    (¬ ∀ H : Handled (fun _ => false) 0, requestOf H.input = some ⟨.SET, [lit "a", lit "k"]⟩ →
      H.l.transaction_mode = false → H.Answered .FAILED → H.Unchanged) ∧
    ¬ ∀ H : Handled (fun _ => false) 0, requestOf H.input = some ⟨.ADD, []⟩ →
      H.l.transaction_mode = false → H.Answered .FAILED → H.Unchanged := by
  constructor
  · intro always
    have shown : checkHandled (fun _ => false) 0 preparing (rio_readlineb (lit "SET a k\n"))
        (List.replicate 3 (0, .advance 0)) .FAILED (fun l start final => !l.transaction_mode &&
          (holder start.shared 0 == none && holder final.shared 0 == some 0)) = true := by
      decide +kernel
    obtain ⟨H, same, failed, holds⟩ := handled_of_check shown
    simp only [Bool.and_eq_true, Bool.not_eq_true', beq_iff_eq] at holds
    obtain ⟨outside, free, locked⟩ := holds
    have unchanged := always H (by rw [same]; decide +kernel) outside failed
    have before := (unchanged.mutexes 0).mp locked
    rw [free] at before
    cases before
  · intro always
    have shown : checkHandled (fun _ => false) 0 (preparing ++ turn 0 "PUSH 1\n" 2 0) (rio_readlineb (lit "ADD\n"))
        (List.replicate 2 (0, .advance 0)) .FAILED (fun l _ final => !l.transaction_mode &&
          (l.client_stack.stk == [lit "1"] && (members (final.threads 0)).client_stack.stk == [])) = true := by
      decide +kernel
    obtain ⟨H, same, failed, holds⟩ := handled_of_check shown
    simp only [Bool.and_eq_true, Bool.not_eq_true', beq_iff_eq] at holds
    obtain ⟨outside, one, none_⟩ := holds
    have unchanged := always H (by rw [same]; decide +kernel) outside failed
    have left := unchanged.stack
    rw [one, none_] at left
    cases left

end TableServer.Footprint
