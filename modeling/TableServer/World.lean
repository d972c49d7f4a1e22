import TableServer.Replies

/-!
The server and its clients together. Each connection has a client process at one end and
a worker at the other, with the bytes on their way between them; all of them move one
step at a time, in any order.

The two ends of a connection keep in step: at most one line is on its way, each line that
the worker reads is a line that the client has sent, and each line that the client reads
is the response to it. What the invariant needs of the worker is that an iteration writes
once, at its end, and of the client that it reads once after each line it writes.
-/

namespace TableServer.World
open TableServer.Bytes TableServer.Messages TableServer.Serialization TableServer.Stores TableServer.Connection
open TableServer.Server TableServer.Requests TableServer.Login TableServer.Dialogue TableServer.Values
open TableServer.Clients TableServer.Replies
open Resumption Interleaving

/-! ## The processes and the network -/

/-- All processes, and the bytes on their way between the two ends of each connection. -/
structure Processes where
  server : ServerState
  clients : ConnId → Client
  /-- Sent by the client and not read by the worker. -/
  up : ConnId → Str
  /-- Written by the worker and not read by the client. -/
  down : ConnId → Str

/-- The process has ended, and with it its end of the connection. -/
def stopped : Client → Bool
  | .done _ _ => true
  | .call _ _ _ => false

def gone : Thread Local Input Fault Op Res → Bool
  | .exited _ => true
  | _ => false

/-- The server has closed its end: the worker has destroyed its `ClientConnection`, or the
    whole process is down. -/
def hungUp (s : ServerState) (c : ConnId) : Bool := s.aborted.isSome || gone (s.threads c)

/-- A read of a line returns: there is a whole line, or a buffer full, or the other end is closed. -/
def Ready (stream : Str) (closed : Bool) : Prop := closed = true ∨ newline ∈ stream ∨ MAX_ENCODED_LEN ≤ stream.length

/-- What a client reads; on a stream that has ended a read may also fail. -/
def Gets (stream : Str) (r : Receipt) : Prop :=
  match Connection.rio_readlineb stream with
  | .line buf => r = .line buf
  | .closed => r = .ended ∨ r = .failed

/-- What is left of a stream after the read of a line. -/
def leftOf (stream : Str) : Str := (readBytes MAX_ENCODED_LEN stream).2

/-- What happens on a connection. -/
inductive Happening where
  | served (e : ServerEvent)
  | sent (line : Str)
  | got (r : Receipt)

/-- The event is neither a read from the client nor a write to it. -/
def inward : ServerEvent → Bool
  | .recv _ _ => false
  | .call _ _ op _ => !isWrite op
  | .finish _ _ _ => true

inductive Step (w : Processes) (c : ConnId) : Happening → Processes → Prop where
  | hear {l : Local} {s' : ServerState} (ready : Ready (w.up c) (stopped (w.clients c)))
      (step : Interleaving.Step server w.server c (.recv l (Connection.rio_readlineb (w.up c))) s') :
      Step w c (.served (.recv l (Connection.rio_readlineb (w.up c))))
        { w with server := s', up := Function.update w.up c (leftOf (w.up c)) }
  | answer {input : Input} {l : Local} {line : Str} {r : Unit} {s' : ServerState}
      (step : Interleaving.Step server w.server c (.call input l (.write line) r) s') :
      Step w c (.served (.call input l (.write line) r))
        { w with server := s', down := Function.update w.down c (w.down c ++ line) }
  | work {e : ServerEvent} {s' : ServerState} (inward : inward e = true)
    (step : Interleaving.Step server w.server c e s') :
      Step w c (.served e) { w with server := s' }
  | send {con : Console} {line : Str} {k : Unit → Client} (here : w.clients c = .call con (.write line) k) :
      Step w c (.sent line)
        { w with clients := Function.update w.clients c (k ()), up := Function.update w.up c (w.up c ++ line) }
  | get {con : Console} {k : Receipt → Client} {r : Receipt} (here : w.clients c = .call con .read k)
      (ready : Ready (w.down c) (hungUp w.server c)) (gets : Gets (w.down c) r) :
      Step w c (.got r)
        { w with clients := Function.update w.clients c (k r), down := Function.update w.down c (leftOf (w.down c)) }

/-- What has happened, in order. -/
abbrev History := List (ConnId × Happening)

inductive Run (start : Processes) : History → Processes → Prop where
  | start : Run start [] start
  | step {h : History} {w w' : Processes} {c : ConnId} {e : Happening} (run : Run start h w) (step : Step w c e w') :
      Run start (h ++ [(c, e)]) w'

/-- Every connection open, nothing sent, and each client about to run its program. -/
def opening (sh : Shared) (memory : ConnId → Bool) (programs : ConnId → Client) : Processes :=
  ⟨opened sh memory, programs, fun _ => [], fun _ => []⟩

/-- What the server has done. -/
def served (h : History) : ServerTrace := h.filterMap fun step =>
  match step with
  | (c, .served e) => some (c, e)
  | _ => none

theorem served_step (h : History) (c : ConnId) (e : ServerEvent) :
    served (h ++ [(c, .served e)]) = served h ++ [(c, e)] := by
  simp [served]

theorem served_sent (h : History) (c : ConnId) (line : Str) : served (h ++ [(c, .sent line)]) = served h := by
  simp [served]

theorem served_got (h : History) (c : ConnId) (r : Receipt) : served (h ++ [(c, .got r)]) = served h := by
  simp [served]

variable {start w w' : Processes} {h : History} {c d : ConnId} {e : Happening}

/-- The server's part of a run is a run of the server. -/
theorem Run.server (run : Run start h w) : Interleaving.Run server anyStep start.server (served h) w.server := by
  induction run with
  | start => exact .start
  | @step h w w' c e _ one ih =>
    cases one with
    | hear ready step => rw [served_step]; exact ih.step step trivial
    | answer step => rw [served_step]; exact ih.step step trivial
    | work quiet step => rw [served_step]; exact ih.step step trivial
    | send here => rw [served_sent]; exact ih
    | get here ready gets => rw [served_got]; exact ih

instance (stream : Str) (closed : Bool) : Decidable (Ready stream closed) :=
  inferInstanceAs (Decidable (_ ∨ _ ∨ _))

/-- Who moves on a connection: the client, the worker with its next read, or the worker with an
    operation or the end of its loop body. -/
inductive Move where
  | talk
  | hear
  | advance (fresh : Addr)

/-- The next step of a client, if it can take one; a stream that has ended reads as 0. -/
def talk? (w : Processes) (c : ConnId) : Option (Happening × Processes) :=
  match w.clients c with
  | .done _ _ => none
  | .call _ (.write line) k => some (.sent line,
      { w with clients := Function.update w.clients c (k ()), up := Function.update w.up c (w.up c ++ line) })
  | .call _ .read k =>
    let r : Receipt := match Connection.rio_readlineb (w.down c) with | .line buf => .line buf | .closed => .ended
    if Ready (w.down c) (hungUp w.server c) then some (.got r,
      { w with clients := Function.update w.clients c (k r), down := Function.update w.down c (leftOf (w.down c)) })
    else none

/-- The world after the worker of a connection has moved. -/
def after (w : Processes) (c : ConnId) (e : ServerEvent) (s' : ServerState) : Processes :=
  match e with
  | .recv _ _ => { w with server := s', up := Function.update w.up c (leftOf (w.up c)) }
  | .call _ _ (.write line) _ => { w with server := s', down := Function.update w.down c (w.down c ++ line) }
  | _ => { w with server := s' }

def step? (w : Processes) (c : ConnId) (m : Move) : Option (Happening × Processes) :=
  match m with
  | .talk => talk? w c
  | .hear =>
    if Ready (w.up c) (stopped (w.clients c)) then
      (Interleaving.step? server w.server c (.recv (Connection.rio_readlineb (w.up c)))).map fun r =>
        (.served r.1, after w c r.1 r.2)
    else none
  | .advance fresh =>
    (Interleaving.step? server w.server c (.advance fresh)).map fun r => (.served r.1, after w c r.1 r.2)

def execute : List (ConnId × Move) → Processes → Option (History × Processes)
  | [], w => some ([], w)
  | (c, m) :: more, w =>
    match step? w c m with
    | some (e, w') => (execute more w').map fun r => ((c, e) :: r.1, r.2)
    | none => none

/-- Exchanges of a client with its worker, one after another: the client sends a request, the
    worker reads it and takes so many steps, and the client reads the response. -/
def exchanges (c : ConnId) (lengths : List Nat) : List (ConnId × Move) :=
  lengths.flatMap fun n => [(c, .talk), (c, .hear)] ++ List.replicate n (c, .advance 0) ++ [(c, .talk)]

private theorem step_of_talk (taken : talk? w c = some (e, w')) : Step w c e w' := by
  unfold talk? at taken
  split at taken
  · cases taken
  · rename_i here
    cases taken
    exact .send here
  · rename_i con k here
    dsimp only at taken
    split at taken
    · rename_i ready
      cases taken
      refine .get here ready ?_
      unfold Gets
      cases Connection.rio_readlineb (w.down c) with
      | line buf => rfl
      | closed => exact .inl rfl
    · cases taken

private theorem step_of_served {event : ServerEvent} {s' : ServerState}
    (one : Interleaving.Step server w.server c event s')
    (unread : ∀ l input, event ≠ .recv l input) : Step w c (.served event) (after w c event s') := by
  cases event with
  | recv l input => exact absurd rfl (unread l input)
  | finish input l r => exact .work rfl one
  | call input l op r =>
    cases op with
    | write line => exact .answer one
    | _ => exact .work rfl one

private theorem advance_unread {s s' : ServerState} {fresh : Addr} {event : ServerEvent}
    (taken : Interleaving.step? server s c (.advance fresh) = some (event, s')) (l : Local) (input : Input) :
    event ≠ .recv l input := by
  rintro rfl
  unfold Interleaving.step? at taken
  split at taken
  case h_1 advanced _ => cases advanced
  case h_2 =>
    split at taken
    · cases taken
    · cases taken
  all_goals cases taken

private theorem step_of_step? {m : Move} (taken : step? w c m = some (e, w')) : Step w c e w' := by
  cases m with
  | talk => exact step_of_talk taken
  | hear =>
    simp only [step?] at taken
    split at taken
    · rename_i ready
      obtain ⟨⟨event, s'⟩, one, same⟩ := Option.map_eq_some_iff.mp taken
      cases same
      obtain ⟨l, rfl, _⟩ := recv_of_step? one
      exact .hear ready (Interleaving.step_of_step? one)
    · cases taken
  | advance fresh =>
    obtain ⟨⟨event, s'⟩, one, same⟩ := Option.map_eq_some_iff.mp taken
    cases same
    exact step_of_served (Interleaving.step_of_step? one) (advance_unread one)

private theorem run_of_execute {schedule : List (ConnId × Move)} {before : History} (run : Run start before w)
    (taken : execute schedule w = some (h, w')) : Run start (before ++ h) w' := by
  induction schedule generalizing before w h with
  | nil =>
    simp only [execute, Option.some.injEq, Prod.mk.injEq] at taken
    obtain ⟨rfl, rfl⟩ := taken
    simpa using run
  | cons head more ih =>
    obtain ⟨c, m⟩ := head
    rw [execute] at taken
    split at taken
    · rename_i e middle one
      obtain ⟨⟨rest, last⟩, later, same⟩ := Option.map_eq_some_iff.mp taken
      cases same
      have tail := ih (run.step (step_of_step? one)) later
      simpa using tail
    · cases taken

/-- A schedule that can be executed is a run, and what it checks at its end holds there. -/
theorem run_of_check {schedule : List (ConnId × Move)} {check : History × Processes → Bool}
    (checked : (execute schedule start).any check = true) : ∃ h w, Run start h w ∧ check (h, w) = true := by
  cases taken : execute schedule start with
  | none => rw [taken] at checked; cases checked
  | some r =>
    rw [taken] at checked
    exact ⟨r.1, r.2, by simpa using run_of_execute .start taken, checked⟩

theorem not_ready {closed : Bool} (open_ : closed = false) : ¬ Ready [] closed := by
  simp [Ready, open_, MAX_ENCODED_LEN]

private theorem ready_line {line : Str} (whole : OneLine line) (closed : Bool) : Ready line closed := by
  obtain ⟨body, rfl, _⟩ := whole.ended
  exact .inr (.inl (by simp))

theorem read_line {line : Str} (whole : OneLine line) :
    leftOf line = [] ∧ ∃ buf, Connection.rio_readlineb line = .line buf ∧ buf.bytes = line := by
  obtain ⟨body, rfl, unbroken⟩ := whole.ended
  have short : body.length < MAX_ENCODED_LEN := by
    have fits := whole.short
    simp only [List.length_append, List.length_singleton] at fits
    omega
  have goes : ∀ c ∈ body, Rio.isNewline c = false := by
    intro c inside
    simp only [Rio.isNewline, beq_eq_false_iff_ne]
    rintro rfl
    exact unbroken inside
  have taken := Feeds.takeLine_line goes (show Rio.isNewline newline = true by decide) short []
  have marks : body.map some ++ [some newline] = (body ++ [newline]).map some := by simp
  rw [marks, Rio.readBytes_takeLine] at taken
  obtain ⟨line, _, rest⟩ := Feeds.Taken.mk.inj taken
  refine ⟨List.map_eq_nil_iff.mp rest, ?_⟩
  have line : (readBytes 1024 (body ++ [newline])).1 = body ++ [newline] := line
  unfold Connection.rio_readlineb
  rw [dif_pos (by rw [line]; simp)]
  exact ⟨_, rfl, line⟩

/-! ## Both ends of a connection -/

/-- The lines that a client has written. -/
def askedOf (calls : List (Call ClientOp ClientRes)) : List Str := calls.filterMap fun call =>
  match call with
  | ⟨.write line, _⟩ => some line
  | ⟨.read, _⟩ => none

/-- What a client has read, `none` where there was no line. -/
def heardOf (calls : List (Call ClientOp ClientRes)) : List (Option Str) := calls.filterMap fun call =>
  match call with
  | ⟨.write _, _⟩ => none
  | ⟨.read, .line buf⟩ => some (some buf.bytes)
  | ⟨.read, _⟩ => some none

/-- A program that is polite from here on, before a request or waiting for a response. -/
inductive Courteous : Bool → Client → Prop where
  | rests {client : Client} (polite : Polite client) : Courteous false client
  | waits {con : Console} {k : Receipt → Client} (polite : ∀ r, Polite (k r)) : Courteous true (.call con .read k)

private theorem Courteous.send {waiting : Bool} {con : Console} {line : Str} {k : Unit → Client}
    (courteous : Courteous waiting (.call con (.write line) k)) : Courteous true (k ()) := by
  cases courteous with
  | rests polite =>
    cases polite with
    | ask whole then_ after =>
      rw [then_]
      exact .waits after

private theorem Courteous.get {waiting : Bool} {con : Console} {k : Receipt → Client}
    (courteous : Courteous waiting (.call con .read k)) (r : Receipt) : Courteous false (k r) := by
  cases courteous with
  | rests polite => cases polite
  | waits polite => exact .rests (polite r)

/-- A polite program has read as often as it has written, but for the response it waits for. -/
theorem courteous_path {p q : Client} {calls : List (Call ClientOp ClientRes)} (path : p.Path calls q) {waiting : Bool}
    (courteous : Courteous waiting p) : ∃ waiting', Courteous waiting' q ∧
      (askedOf calls).length + waiting.toNat = (heardOf calls).length + waiting'.toNat := by
  induction path generalizing waiting with
  | refl p => exact ⟨waiting, courteous, rfl⟩
  | @step con op k r calls q path ih =>
    cases op with
    | write line =>
      obtain ⟨waiting', later, count⟩ := ih courteous.send
      cases courteous with
      | rests polite =>
        refine ⟨waiting', later, ?_⟩
        simp only [askedOf, heardOf, List.filterMap_cons, List.length_cons, Bool.toNat_false,
          Bool.toNat_true] at count ⊢
        omega
    | read =>
      obtain ⟨waiting', later, count⟩ := ih (courteous.get r)
      cases courteous with
      | rests polite => cases polite
      | waits polite =>
        refine ⟨waiting', later, ?_⟩
        cases r <;>
          simp only [askedOf, heardOf, List.filterMap_cons, List.length_cons, Bool.toNat_false, Bool.toNat_true]
            at count ⊢ <;> omega

/-- The line that an input brings. -/
def lineOf : Input → List Str
  | .line buf => [buf.bytes]
  | .closed => []

/-- The lines that a worker has read. -/
def readBy (c : ConnId) (tr : ServerTrace) : List Str := (Dialogue.received c tr).flatMap lineOf

/-- The last line that was read has been given a response that ends the session. -/
def Parted (read said : List Str) : Prop :=
  ∃ buf response line, read.getLast? = some buf.bytes ∧ said.getLast? = some line ∧ Reply response ∧
    encode response = .ok line ∧ Closing (.line buf) response

/-- The worker has answered all that it has read. -/
inductive Rests (read said : List Str) : Thread Local Input Fault Op Res → Prop where
  | reading (l : Local) : Rests read said (.reading l)
  | again (input : Input) (l : Local) : Rests read said (.running input (.done (.ok true) l))
  | parting (parted : Parted read said) (input : Input) (l : Local) :
      Rests read said (.running input (.done (.ok false) l))
  | exited (parted : Parted read said) (l : Local) : Rests read said (.exited l)

/-- The states in which a connection can be, from the program of its client and what the client
    has done, the lines that the worker has read and written, and whether its end is closed: the
    client, the bytes up and down, and the worker. -/
inductive Linked (program : Client) (calls : List (Call ClientOp ClientRes)) (read said : List Str) (hung : Bool) :
    Client → Str → Str → Thread Local Input Fault Op Res → Prop where
  /-- All that was asked is answered. -/
  | calm {client : Client} {thread : Thread Local Input Fault Op Res} (path : program.Path calls client)
      (polite : Polite client) (asked : askedOf calls = read) (heard : heardOf calls = said.map some)
      (rests : Rests read said thread) : Linked program calls read said hung client [] [] thread
  /-- A request is on its way. -/
  | asked {con : Console} {k : Receipt → Client} {line : Str} {thread : Thread Local Input Fault Op Res}
      (path : program.Path calls (.call con .read k)) (polite : ∀ r, Polite (k r)) (whole : OneLine line)
      (asked : askedOf calls = read ++ [line]) (heard : heardOf calls = said.map some)
      (rests : Rests read said thread) :
      Linked program calls read said hung (.call con .read k) line [] thread
  /-- The worker is at the request. -/
  | working {con : Console} {k : Receipt → Client} {buf : Line} {p : Iteration}
      (path : program.Path calls (.call con .read k)) (polite : ∀ r, Polite (k r)) (asked : askedOf calls = read)
      (last : read.getLast? = some buf.bytes) (heard : heardOf calls = said.map some) (speaks : Speaks (.line buf) p) :
      Linked program calls read said hung (.call con .read k) [] [] (.running (.line buf) p)
  /-- The response is on its way. -/
  | answered {con : Console} {k : Receipt → Client} {line : Str} {before : List Str}
      {thread : Thread Local Input Fault Op Res} (path : program.Path calls (.call con .read k))
      (polite : ∀ r, Polite (k r)) (whole : OneLine line) (asked : askedOf calls = read)
      (heard : heardOf calls = before.map some) (last : said = before ++ [line]) (rests : Rests read said thread) :
      Linked program calls read said hung (.call con .read k) [] line thread
  /-- The client has found the server's end closed. -/
  | severed {client : Client} {up : Str} {thread : Thread Local Input Fault Op Res} {before : List Str} {n : Nat}
      (closed : hung = true) (path : program.Path calls client)
      (courteous : ∃ waiting, Courteous waiting client) (asked : read <+: askedOf calls)
      (heard : heardOf calls = before.map some ++ List.replicate (n + 1) none)
      (earlier : before <+: said) : Linked program calls read said hung client up [] thread
  /-- The client has stopped, and the worker knows. -/
  | left {r : Except Halt Nat} {con : Console} {down : Str} {before : List Str}
      {thread : Thread Local Input Fault Op Res} (path : program.Path calls (.done r con))
      (asked : askedOf calls = read)
      (heard : heardOf calls = before.map some) (earlier : before <+: said) :
      Linked program calls read said hung (.done r con) [] down thread

section
variable {program client : Client} {read said : List Str} {hung : Bool} {up down : Str} {input : Input} {l : Local}
  {thread : Thread Local Input Fault Op Res} {calls : List (Call ClientOp ClientRes)} {line : Str}

@[simp] theorem askedOf_write (calls : List (Call ClientOp ClientRes)) (line : Str) :
    askedOf (calls ++ [⟨.write line, ()⟩]) = askedOf calls ++ [line] := by simp [askedOf]

@[simp] theorem heardOf_write (calls : List (Call ClientOp ClientRes)) (line : Str) :
    heardOf (calls ++ [⟨.write line, ()⟩]) = heardOf calls := by simp [heardOf]

@[simp] theorem askedOf_read (calls : List (Call ClientOp ClientRes)) (r : Receipt) :
    askedOf (calls ++ [⟨.read, r⟩]) = askedOf calls := by simp [askedOf]

theorem heardOf_line (calls : List (Call ClientOp ClientRes)) (buf : Line) :
    heardOf (calls ++ [⟨.read, .line buf⟩]) = heardOf calls ++ [some buf.bytes] := by simp [heardOf]

private theorem heardOf_end (calls : List (Call ClientOp ClientRes)) {r : Receipt} (ended : r = .ended ∨ r = .failed) :
    heardOf (calls ++ [⟨.read, r⟩]) = heardOf calls ++ [none] := by
  rcases ended with rfl | rfl <;> simp [heardOf]

/-- Only a connection whose server end is closed can be severed, so closing it keeps the rest. -/
theorem Linked.hang (linked : Linked program calls read said hung client up down thread) {hung' : Bool}
    (later : hung = true → hung' = true) : Linked program calls read said hung' client up down thread := by
  cases linked with
  | calm path polite asked heard rests => exact .calm path polite asked heard rests
  | asked path polite whole asked heard rests => exact .asked path polite whole asked heard rests
  | working path polite asked last heard speaks => exact .working path polite asked last heard speaks
  | answered path polite whole asked heard last rests => exact .answered path polite whole asked heard last rests
  | severed closed path polite asked heard earlier => exact .severed (later closed) path polite asked heard earlier
  | left path asked heard earlier => exact .left path asked heard earlier

/-- The worker reads: the request that is on its way, or the end. -/
theorem linked_hear (linked : Linked program calls read said hung client up down (.reading l)) (open_ : hung = false)
    (ready : Ready up (stopped client)) :
    Linked program calls (read ++ lineOf (Connection.rio_readlineb up)) said hung client (leftOf up) down
      (.running (Connection.rio_readlineb up) (chat_with_client (Connection.rio_readlineb up) l)) := by
  have nothing : lineOf (Connection.rio_readlineb []) = [] := rfl
  cases linked with
  | @calm _ _ path polite asked heard rests =>
    cases client with
    | call con op k => exact absurd ready (not_ready rfl)
    | done r con =>
      rw [nothing, List.append_nil]
      exact .left path asked heard (List.prefix_refl said)
  | @asked con k line _ path polite whole asked heard rests =>
    obtain ⟨empty, buf, input, bytes⟩ := read_line whole
    rw [empty, input]
    have last : (read ++ lineOf (.line buf)).getLast? = some buf.bytes := by simp [lineOf]
    refine .working path polite ?_ last heard (chat_speaks _ l)
    rw [asked, lineOf, bytes]
  | @answered con k line before _ path polite whole asked heard last rests => exact absurd ready (not_ready rfl)
  | severed closed => rw [open_] at closed; cases closed
  | @left r con _ before _ path asked heard earlier =>
    rw [nothing, List.append_nil]
    exact .left path asked heard earlier

theorem not_resting {op : Op} {k : Res op → Iteration} :
    ¬ Rests read said (.running input (.call l op k)) := by
  intro rests
  cases rests

/-- The worker writes its response. -/
theorem linked_answer {k : Unit → Iteration}
    (linked : Linked program calls read said hung client up down (.running input (.call l (.write line) k)))
    (open_ : hung = false) (reply : Reply l.response) (run : encode l.response = .ok line) :
    Linked program calls read (said ++ [line]) hung client up (down ++ line) (.running input (k ())) := by
  cases linked with
  | calm path polite asked heard rests => exact absurd rests not_resting
  | asked path polite whole asked heard rests => exact absurd rests not_resting
  | answered path polite whole asked heard last rests => exact absurd rests not_resting
  | severed closed => rw [open_] at closed; cases closed
  | @left r con _ before _ path asked heard earlier =>
    exact .left path asked heard (earlier.trans (List.prefix_append _ _))
  | @working con k' buf _ path polite asked last heard speaks =>
    cases speaks with
    | more quiet => cases quiet
    | @last _ _ _ keep own ends closing =>
      rw [ends, List.nil_append]
      refine .answered path polite (oneLine_encoded reply.unbroken run) asked heard rfl ?_
      cases keep with
      | true => exact .again _ l
      | false =>
        have closes := closing.mp rfl
        exact .parting ⟨buf, l.response, line, last, by simp, reply, run, closes⟩ _ l

/-- The worker goes on with its request. -/
theorem linked_work {op : Op} {k : Res op → Iteration}
    (linked : Linked program calls read said hung client up down (.running input (.call l op k))) (open_ : hung = false)
    (quiet : isWrite op = false) (r : Res op) :
    Linked program calls read said hung client up down (.running input (k r)) := by
  cases linked with
  | calm path polite asked heard rests => exact absurd rests not_resting
  | asked path polite whole asked heard rests => exact absurd rests not_resting
  | answered path polite whole asked heard last rests => exact absurd rests not_resting
  | severed closed => rw [open_] at closed; cases closed
  | left path asked heard earlier => exact .left path asked heard earlier
  | working path polite asked last heard speaks =>
    cases speaks with
    | last own ends closing => cases quiet
    | more quiet then_ => exact .working path polite asked last heard (then_ r)

private theorem rests_finish {keep : Bool} (rests : Rests read said (.running input (.done (.ok keep) l))) :
    Rests read said (if keep then .reading l else .exited l) := by
  cases rests with
  | again => exact .reading l
  | parting parted => exact .exited parted l

/-- The worker starts again or closes the connection. -/
theorem linked_finish {keep : Bool}
    (linked : Linked program calls read said hung client up down (.running input (.done (.ok keep) l)))
    (open_ : hung = false) :
    Linked program calls read said hung client up down (if keep then .reading l else .exited l) := by
  cases linked with
  | calm path polite asked heard rests => exact .calm path polite asked heard (rests_finish rests)
  | asked path polite whole asked heard rests => exact .asked path polite whole asked heard (rests_finish rests)
  | answered path polite whole asked heard last rests =>
    exact .answered path polite whole asked heard last (rests_finish rests)
  | severed closed => rw [open_] at closed; cases closed
  | left path asked heard earlier => exact .left path asked heard earlier
  | working path polite asked last heard speaks => cases speaks

/-- The client sends a request. -/
theorem linked_send {con : Console} {k : Unit → Client}
    (linked : Linked program calls read said hung (.call con (.write line) k) up down thread) :
    Linked program (calls ++ [⟨.write line, ()⟩]) read said hung (k ()) (up ++ line) down thread := by
  cases linked with
  | @calm _ _ path polite asked heard rests =>
    cases polite with
    | @ask _ con' _ _ k' whole then_ after =>
      have further := path.snoc ()
      rw [then_] at further ⊢
      exact .asked further after whole (by rw [askedOf_write, asked, List.nil_append]) (by rw [heardOf_write, heard])
        rests
  | @severed _ _ _ before n closed path courteous asked heard earlier =>
    have more : read <+: askedOf (calls ++ [⟨.write line, ()⟩]) := by
      rw [askedOf_write]
      exact asked.trans (List.prefix_append _ _)
    obtain ⟨waiting, courteous⟩ := courteous
    exact .severed closed (path.snoc ()) ⟨true, courteous.send⟩ more (by rw [heardOf_write]; exact heard) earlier

/-- The client reads: the response that is on its way, or the end. -/
theorem linked_get {con : Console} {k : Receipt → Client} {r : Receipt}
    (linked : Linked program calls read said hung (.call con .read k) up down thread) (ready : Ready down hung)
    (gets : Gets down r) : Linked program (calls ++ [⟨.read, r⟩]) read said hung (k r) up (leftOf down) thread := by
  have closed_ : down = [] → hung = true ∧ (r = .ended ∨ r = .failed) := by
    rintro rfl
    refine ⟨?_, gets⟩
    cases hung with
    | true => rfl
    | false => exact absurd ready (not_ready rfl)
  cases linked with
  | calm path polite => cases polite
  | @asked _ _ line _ path polite whole asked heard rests =>
    obtain ⟨closed, ended⟩ := closed_ rfl
    refine .severed (n := 0) closed (path.snoc r) ⟨false, .rests (polite r)⟩ ?_
      (by rw [heardOf_end _ ended, heard]; rfl)
      (List.prefix_refl said)
    rw [askedOf_read, asked]
    exact List.prefix_append _ _
  | @working _ _ buf p path polite asked last heard speaks =>
    obtain ⟨closed, ended⟩ := closed_ rfl
    refine .severed (n := 0) closed (path.snoc r) ⟨false, .rests (polite r)⟩ ?_
      (by rw [heardOf_end _ ended, heard]; rfl)
      (List.prefix_refl said)
    rw [askedOf_read, asked]
  | @answered _ _ line before _ path polite whole asked heard last rests =>
    obtain ⟨empty, buf, input, bytes⟩ := read_line whole
    unfold Gets at gets
    rw [input] at gets
    obtain rfl : r = .line buf := gets
    rw [empty]
    refine .calm (path.snoc _) (polite _) (by rw [askedOf_read, asked]) ?_ rests
    rw [heardOf_line, heard, last, bytes, List.map_append]
    rfl
  | @severed _ _ _ before n closed path courteous asked heard earlier =>
    obtain ⟨_, ended⟩ := closed_ rfl
    have more : heardOf (calls ++ [⟨.read, r⟩]) = before.map some ++ List.replicate (n + 1 + 1) none := by
      rw [heardOf_end _ ended, heard, List.append_assoc, ← List.replicate_succ']
    obtain ⟨waiting, courteous⟩ := courteous
    exact .severed closed (path.snoc r) ⟨false, courteous.get r⟩ (by rw [askedOf_read]; exact asked) more earlier

end

/-! ## Every run -/

theorem hungUp_false {s : ServerState} (up : s.aborted = none) (here : gone (s.threads c) = false) :
    hungUp s c = false := by
  simp [hungUp, up, here]

/-- What is closed stays closed. -/
theorem hungUp_step {s s' : ServerState} {e : ServerEvent} (one : Interleaving.Step server s d e s') (other : d ≠ c) :
    hungUp s c = true → hungUp s' c = true := by
  have same : s'.threads c = s.threads c := one.other other
  have up : s.aborted = none := by cases one <;> assumption
  simp only [hungUp, same, up, Option.isSome_none, Bool.false_or, Bool.or_eq_true]
  exact .inr

private theorem readBy_other {tr : ServerTrace} {e : ServerEvent} (other : d ≠ c) :
    readBy c (tr ++ [(d, e)]) = readBy c tr := by
  rw [readBy, received_other other, readBy]

private theorem readBy_recv (c : ConnId) (tr : ServerTrace) (l : Local) (input : Input) :
    readBy c (tr ++ [(c, .recv l input)]) = readBy c tr ++ lineOf input := by
  simp [readBy, Dialogue.received]

private theorem readBy_same {tr : ServerTrace} {e : ServerEvent} (quiet : ∀ l input, e ≠ .recv l input) :
    readBy c (tr ++ [(c, e)]) = readBy c tr := by
  cases e with
  | recv l input => exact absurd rfl (quiet l input)
  | call input l op r => simp [readBy, Dialogue.received]
  | finish input l r => simp [readBy, Dialogue.received]

theorem responses_inward {tr : ServerTrace} {e : ServerEvent} (quiet : inward e = true) :
    responses c (tr ++ [(c, e)]) = responses c tr := by
  cases e with
  | recv l input => cases quiet
  | call input l op r => exact responses_quiet (by simpa [inward] using quiet) tr r
  | finish input l r => simp [responses]

/-- What the client of a connection has done. -/
def transcript (c : ConnId) (h : History) : List (Call ClientOp ClientRes) := h.filterMap fun step =>
  match step with
  | (d, .sent line) => if d = c then some ⟨.write line, ()⟩ else none
  | (d, .got r) => if d = c then some ⟨.read, r⟩ else none
  | _ => none

theorem transcript_other (other : d ≠ c) : transcript c (h ++ [(d, e)]) = transcript c h := by
  unfold transcript
  rw [List.filterMap_append]
  cases e <;> simp [other]

theorem transcript_served (c : ConnId) (h : History) (e : ServerEvent) :
    transcript c (h ++ [(c, .served e)]) = transcript c h := by
  simp [transcript]

theorem transcript_sent (c : ConnId) (h : History) (line : Str) :
    transcript c (h ++ [(c, .sent line)]) = transcript c h ++ [⟨.write line, ()⟩] := by
  simp [transcript]

theorem transcript_got (c : ConnId) (h : History) (r : Receipt) :
    transcript c (h ++ [(c, .got r)]) = transcript c h ++ [⟨.read, r⟩] := by
  simp [transcript]

/-- The state of one connection after a run. -/
def Linkage (programs : ConnId → Client) (h : History) (w : Processes) (c : ConnId) : Prop :=
  Linked (programs c) (transcript c h) (readBy c (served h)) (responses c (served h)) (hungUp w.server c)
    (w.clients c) (w.up c) (w.down c)
    (w.server.threads c)

variable {programs : ConnId → Client}

/-- A connection does not notice what happens on another one, but for the end of the server. -/
theorem linkage_other (one : Step w d e w') (other : d ≠ c) (linked : Linkage programs h w c) :
    Linkage programs (h ++ [(d, e)]) w' c := by
  have apart : c ≠ d := Ne.symm other
  unfold Linkage at linked ⊢
  rw [transcript_other other]
  cases one with
  | hear ready step =>
    rw [served_step, readBy_other other, responses_other other, step.other other]
    simp only [Function.update_of_ne apart]
    exact linked.hang (hungUp_step step other)
  | answer step =>
    rw [served_step, readBy_other other, responses_other other, step.other other]
    simp only [Function.update_of_ne apart]
    exact linked.hang (hungUp_step step other)
  | work inward step =>
    rw [served_step, readBy_other other, responses_other other, step.other other]
    exact linked.hang (hungUp_step step other)
  | send here =>
    rw [served_sent]
    simp only [Function.update_of_ne apart]
    exact linked
  | get here ready gets =>
    rw [served_got]
    simp only [Function.update_of_ne apart]
    exact linked

/-- One step on the connection itself. -/
theorem linkage_step (one : Step w c e w') (fits : replying.Fits (w.server.threads c) ())
    (linked : Linkage programs h w c) : Linkage programs (h ++ [(c, e)]) w' c := by
  unfold Linkage at linked ⊢
  cases one with
  | @hear l s' ready step =>
    have said : responses c (served h ++ [(c, .recv l (Connection.rio_readlineb (w.up c)))]) =
      responses c (served h) := by
      simp [responses]
    rw [served_step, transcript_served, readBy_recv, said]
    cases step with
    | recv up here =>
      rw [here] at linked
      simp only [Function.update_self]
      have open_ := hungUp_false up (c := c) (by rw [here]; rfl)
      refine (linked_hear linked open_ ready).hang ?_
      rw [open_]
      simp
  | @answer input l line r s' step =>
    rw [served_step, transcript_served, responses_write, readBy_same (by simp)]
    cases step with
    | call choice up here exec =>
      rw [here] at linked fits
      simp only [Function.update_self]
      obtain ⟨reply, run⟩ := fits.1.2 line rfl
      have open_ := hungUp_false up (c := c) (by rw [here]; rfl)
      refine (linked_answer linked open_ reply run).hang ?_
      rw [open_]
      simp
  | @work e s' quiet step =>
    rw [served_step, transcript_served, responses_inward quiet, readBy_same (by rintro l input rfl; cases quiet)]
    cases step with
    | recv up here => cases quiet
    | @call input l op k r after choice up here exec =>
      rw [here] at linked
      simp only [Function.update_self]
      have open_ := hungUp_false up (c := c) (by rw [here]; rfl)
      refine (linked_work linked open_ (by simpa [inward] using quiet) r).hang ?_
      rw [open_]
      simp
    | again up here =>
      rw [here] at linked
      simp only [Function.update_self]
      have open_ := hungUp_false up (c := c) (by rw [here]; rfl)
      refine Linked.hang (linked_finish linked open_) ?_
      rw [open_]
      simp
    | exit up here =>
      rw [here] at linked
      simp only [Function.update_self]
      have open_ := hungUp_false up (c := c) (by rw [here]; rfl)
      refine Linked.hang (linked_finish linked open_) ?_
      rw [open_]
      simp
    | abort up here =>
      refine Linked.hang linked ?_
      simp [hungUp]
  | @send con line k here =>
    rw [served_sent, transcript_sent]
    rw [here] at linked
    simp only [Function.update_self]
    exact linked_send linked
  | @get con k r here ready gets =>
    rw [served_got, transcript_got]
    rw [here] at linked
    simp only [Function.update_self]
    exact linked_get linked ready gets

/-- The store that the server starts with holds only values that do not break a line. -/
theorem linkage_run {sh : Shared} {memory : ConnId → Bool} (unbroken : StoreHolds Unbroken sh)
    (polite : ∀ c, Polite (programs c)) (run : Run (opening sh memory programs) h w) (c : ConnId) :
    Linkage programs h w c := by
  induction run with
  | start => exact .calm (.refl _) (polite c) rfl rfl (.reading _)
  | @step h w w' d e earlier one ih =>
    by_cases mine : d = c
    · subst mine
      exact linkage_step one (replying_run unbroken earlier.server d) ih
    · exact linkage_other one mine ih

/-! ## The two ends keep in step -/

/-- What holds of a connection at every moment. -/
structure InStep (w : Processes) (c : ConnId) : Prop where
  /-- While both ends are open, at most one line is on its way. -/
  one : stopped (w.clients c) = false → hungUp w.server c = false →
    (w.up c = [] ∧ w.down c = []) ∨ (OneLine (w.up c) ∧ w.down c = []) ∨ (w.up c = [] ∧ OneLine (w.down c))
  /-- The two ends never wait for each other. -/
  moves : ∀ con k, w.clients c = .call con .read k → Ready (w.down c) (hungUp w.server c) ∨
    (∃ input p, w.server.threads c = .running input p) ∨
    ∃ l, w.server.threads c = .reading l ∧ Ready (w.up c) (stopped (w.clients c))
  /-- A response is written to a client that waits for it, or to one that has stopped. -/
  awaited : ∀ input l line k, w.server.aborted = none →
    w.server.threads c = .running input (.call l (.write line) k) →
    (∃ con k, w.clients c = .call con .read k ∧ w.down c = []) ∨ stopped (w.clients c) = true

/-- In every run of the three client programs against the server, in any number and with any
    arguments that are single lines, the two ends of each connection keep in step. -/
theorem in_step {sh : Shared} {memory : ConnId → Bool} (unbroken : StoreHolds Unbroken sh)
    (clients : ∀ c, Started (programs c)) (run : Run (opening sh memory programs) h w) (c : ConnId) : InStep w c := by
  have linked := linkage_run unbroken (fun c => (clients c).polite) run c
  unfold Linkage at linked
  constructor
  · intro going open_
    generalize w.clients c = client, w.up c = up, w.down c = down, w.server.threads c = thread at linked going
    cases linked with
    | calm => exact .inl ⟨rfl, rfl⟩
    | asked path polite whole => exact .inr (.inl ⟨whole, rfl⟩)
    | working => exact .inl ⟨rfl, rfl⟩
    | answered path polite whole => exact .inr (.inr ⟨rfl, whole⟩)
    | severed closed => rw [open_] at closed; cases closed
    | left => cases going
  · intro con k waits
    rw [waits] at linked ⊢
    generalize w.up c = up, w.down c = down, at_ : w.server.threads c = thread at linked
    cases linked with
    | calm path polite => cases polite
    | asked path polite whole asked heard rests =>
      cases rests with
      | reading l => exact .inr (.inr ⟨l, rfl, ready_line whole _⟩)
      | again | parting => exact .inr (.inl ⟨_, _, rfl⟩)
      | exited => exact .inl (.inl (by simp [hungUp, at_, gone]))
    | working => exact .inr (.inl ⟨_, _, rfl⟩)
    | answered path polite whole => exact .inl (ready_line whole _)
    | severed closed => exact .inl (.inl closed)
  · intro input l line k up here
    rw [here] at linked
    have open_ := hungUp_false up (c := c) (by rw [here]; rfl)
    generalize w.clients c = client, w.up c = up, w.down c = down at linked
    cases linked with
    | calm path polite asked heard rests => exact absurd rests not_resting
    | asked path polite whole asked heard rests => exact absurd rests not_resting
    | answered path polite whole asked heard last rests => exact absurd rests not_resting
    | working => exact .inl ⟨_, _, rfl, rfl⟩
    | severed closed => rw [open_] at closed; cases closed
    | left => exact .inr rfl

/-- The arguments of a `set_value`. -/
def setting : List Str := [lit "localhost", lit "8080", lit "ann", lit "a", lit "k", lit "7"]

/-- Every connection with the same client, on a store with one table. -/
def settling : Processes := opening Increment.counterStore (fun _ => false) fun _ => set_value setting ⟨[], []⟩

theorem settling_started (_ : ConnId) : Started (set_value setting ⟨[], []⟩) := .set_value (by decide) _

theorem in_step_settling : ∃ w : Processes, w.up 0 = lit "LOGIN ann\n" ∧ InStep w 0 := by
  have shown : (execute [(1, .talk), (0, .talk), (1, .hear)] settling).any
      (fun r => decide (r.2.up 0 = lit "LOGIN ann\n")) = true := by
    decide +kernel
  obtain ⟨h, w, run, sent⟩ := run_of_check shown
  refine ⟨w, of_decide_eq_true sent, ?_⟩
  exact in_step counterStore_unbroken (settling_started) run 0

/-- A line that is on its way, if there is one. -/
def onItsWay (bytes : Str) : List Str := if bytes = [] then [] else [bytes]

theorem onItsWay_nil : onItsWay [] = [] := rfl

private theorem onItsWay_line {line : Str} (whole : OneLine line) : onItsWay line = [line] := by
  obtain ⟨body, rfl, _⟩ := whole.ended
  simp [onItsWay]

section
variable {program client : Client} {calls : List (Call ClientOp ClientRes)} {read said : List Str} {hung : Bool}
  {up down : Str} {thread : Thread Local Input Fault Op Res}

theorem Linked.path (linked : Linked program calls read said hung client up down thread) :
    program.Path calls client := by
  cases linked <;> assumption

theorem Linked.reads (linked : Linked program calls read said hung client up down thread) : read <+: askedOf calls := by
  cases linked with
  | calm path polite asked | answered path polite whole asked | working path polite asked | left path asked =>
    rw [asked]
  | asked path polite whole asked =>
    rw [asked]
    exact List.prefix_append _ _
  | severed closed path courteous asked => exact asked

theorem Linked.hears (linked : Linked program calls read said hung client up down thread) :
    ∃ heard n, heardOf calls = heard.map some ++ List.replicate n none ∧ heard <+: said := by
  cases linked with
  | calm _ _ _ heard | asked _ _ _ _ heard | working _ _ _ _ heard =>
    exact ⟨said, 0, by simpa using heard, List.prefix_refl said⟩
  | answered _ _ _ _ heard last => exact ⟨_, 0, by simpa using heard, last ▸ List.prefix_append _ _⟩
  | severed _ _ _ _ heard earlier => exact ⟨_, _, heard, earlier⟩
  | left _ _ heard earlier => exact ⟨_, 0, by simpa using heard, earlier⟩

end

/-- What the two ends of a connection have done, line by line. -/
structure InOrder (calls : List (Call ClientOp ClientRes)) (read said : List Str) (w : Processes)
    (c : ConnId) : Prop where
  /-- The worker reads the lines that were sent, in order. -/
  reads : read <+: askedOf calls
  /-- The client reads the lines that were written, in order, before it finds the connection closed. -/
  hears : ∃ heard n, heardOf calls = heard.map some ++ List.replicate n none ∧ heard <+: said
  /-- While both ends are open, no line is missing. -/
  complete : stopped (w.clients c) = false → hungUp w.server c = false →
    askedOf calls = read ++ onItsWay (w.up c) ∧ said.map some = heardOf calls ++ (onItsWay (w.down c)).map some
  /-- Requests and responses alternate. -/
  alternate : (heardOf calls).length ≤ (askedOf calls).length ∧ (askedOf calls).length ≤ (heardOf calls).length + 1

/-- In every run of the three client programs against the server, whatever the interleaving, the
    worker of a connection reads the client's lines and the client the worker's, all of them,
    in order, one for one. -/
theorem in_order {sh : Shared} {memory : ConnId → Bool} (unbroken : StoreHolds Unbroken sh)
    (clients : ∀ c, Started (programs c)) (run : Run (opening sh memory programs) h w) (c : ConnId) :
    InOrder (transcript c h) (readBy c (served h)) (responses c (served h)) w c := by
  have linked := linkage_run unbroken (fun c => (clients c).polite) run c
  have start : Courteous false (programs c) := .rests (clients c).polite
  unfold Linkage at linked
  constructor
  · exact linked.reads
  · exact linked.hears
  · intro going open_
    generalize w.clients c = client, w.up c = up, w.down c = down, w.server.threads c = thread at linked going
    cases linked with
    | calm path polite asked heard => simp [asked, heard, onItsWay_nil]
    | asked path polite whole asked heard => simp [asked, heard, onItsWay_line whole, onItsWay_nil]
    | working path polite asked last heard => simp [asked, heard, onItsWay_nil]
    | answered path polite whole asked heard last => simp [asked, heard, last, onItsWay_line whole, onItsWay_nil]
    | severed closed => rw [open_] at closed; cases closed
    | left => cases going
  · obtain ⟨waiting, _, count⟩ := courteous_path linked.path start
    cases waiting with
    | false => simp only [Bool.toNat_false] at count; omega
    | true => simp only [Bool.toNat_false, Bool.toNat_true] at count; omega

theorem in_order_settling : ∃ (h : History) (w : Processes),
    heardOf (transcript 0 h) = [some (lit "OK\n"), some (lit "OK\n")] ∧
    InOrder (transcript 0 h) (readBy 0 (served h)) (responses 0 (served h)) w 0 := by
  have shown : (execute (exchanges 0 [2] ++ exchanges 1 [2] ++ exchanges 0 [2]) settling).any
      (fun r => decide (heardOf (transcript 0 r.1) = [some (lit "OK\n"), some (lit "OK\n")])) = true := by
    decide +kernel
  obtain ⟨h, w, run, heard⟩ := run_of_check shown
  refine ⟨h, w, of_decide_eq_true heard, ?_⟩
  exact in_order counterStore_unbroken (settling_started) run 0

end TableServer.World
