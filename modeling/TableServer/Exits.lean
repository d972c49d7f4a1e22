import TableServer.World

/-!
What the exit code of a client says. A client that goes on only after an OK exits with 0
when every one of its requests has been read and answered with an OK, and with 1 when
one of them has not.
-/

namespace TableServer.Exits
open TableServer.Bytes TableServer.Messages TableServer.Serialization TableServer.Stores TableServer.Connection
open TableServer.Server TableServer.Requests TableServer.Login TableServer.Dialogue TableServer.Values
open TableServer.Increment TableServer.Rio TableServer.Clients TableServer.Replies TableServer.World
open Resumption Interleaving
open Resumption.Handler (update perform)

/-- The client has read the line of an OK. -/
def heeds : Receipt → Bool
  | .line buf => (decode buf.text).toOption.any fun m => m.m_message_type == .OK
  | .ended | .failed => false

/-- A client that sends the messages in order, the next one only after an OK: it exits with 0
    at the end, and with 1 at any other response. -/
inductive Insists : List Message → Client → Prop
  | ends (con : Console) : Insists [] (.done (.ok 0) con)
  | ask {m : Message} {ms : List Message} {line : Str} {con con' : Console} {k : Unit → Client} {k' : Receipt → Client}
      (run : encode m = .ok line) (then_ : k () = .call con' .read k') (on : ∀ r, heeds r = true → Insists ms (k' r))
      (off : ∀ r, heeds r = false → ∃ con'', k' r = .done (.ok 1) con'') : Insists (m :: ms) (.call con (.write line) k)

/-- What the `catch` clause turns into an exit code of 1. -/
def Fails (h : Halt) : Prop :=
  match h with
  | .returned code => code = 1
  | .thrown _ => True
  | .undefined => False

/-- The statements stop the program with an error. -/
def GivesUp {α : Type} (t : Process α) : Prop := ∀ con, ∃ h con', t con = .done (.error h) con' ∧ Fails h

section
variable {α β : Type} {t : Process α} {f : α → Process β} {con : Console}

private theorem givesUp_then (gives : GivesUp t) : GivesUp (t >>= f) := by
  intro con
  obtain ⟨h, con', run, fails⟩ := gives con
  refine ⟨h, con', ?_, fails⟩
  show (t con).bind _ = _
  rw [run]
  rfl

private theorem givesUp_throw (e : Exn) : GivesUp (throw (.thrown e) : Process α) := fun con => ⟨_, con, rfl, trivial⟩

private theorem givesUp_stopUnread (text : Str) : GivesUp (stopUnread text) := fun _ => ⟨_, _, rfl, rfl⟩

theorem givesUp_complain (resp : Message) : GivesUp (do complain resp; exit 1 : Process α) := by
  intro con
  unfold complain
  cases resp.get_quoted_text with
  | error e => exact ⟨_, _, rfl, trivial⟩
  | ok text => exact ⟨_, _, rfl, rfl⟩

private theorem guarded_givesUp {body : Process Nat} (gives : GivesUp body) (con : Console) :
    ∃ con', guarded body con = .done (.ok 1) con' := by
  obtain ⟨h, con', run, fails⟩ := gives con
  have caught : guarded body con = (body con).bind _ := rfl
  rw [caught, run]
  cases h with
  | returned code =>
    obtain rfl : code = 1 := fails
    exact ⟨_, rfl⟩
  | thrown e => exact ⟨_, rfl⟩
  | undefined => exact fails.elim

end

/-- A request after which only an OK lets the program go on, whatever it does when the read
    fails, as long as it gives up. -/
theorem insists_request {m : Message} {ms : List Message} {line : Str} {unread : Process Unit}
    {rest : Message → Process Nat} (run : encode m = .ok line) (gives : GivesUp unread)
    (then_ : ∀ resp con, Insists ms (guarded (rest resp) con)) (con : Console) :
    Insists (m :: ms) (guarded (do let resp ← exchange m unread; require .OK resp; rest resp) con) := by
  have asks : guarded (do let resp ← exchange m unread; require .OK resp; rest resp) con =
      .call con (.write line) fun _ => .call con .read fun r =>
        guarded (do
          let resp ← (match r with
            | .line buf => orThrow (decode buf.text)
            | .ended => orThrow (decode [])
            | .failed => do unread; throw .undefined : Process Message)
          require .OK resp
          rest resp) con := by
    simp only [exchange, run]
    rfl
  have refused : ∀ resp : Message, resp.m_message_type ≠ .OK → GivesUp (require .OK resp) := by
    intro resp other
    rw [require, if_pos other]
    exact givesUp_complain resp
  rw [asks]
  refine .ask run rfl ?_ ?_
  · rintro (buf | _ | _) heeded
    · cases read : decode buf.text with
      | error e => simp [heeds, read, Except.toOption] at heeded
      | ok resp =>
        have ok : resp.m_message_type = .OK := by simpa [heeds, read, Except.toOption] using heeded
        have goes : guarded (do let resp ← orThrow (.ok resp); require .OK resp; rest resp) con =
            guarded (rest resp) con := by
          show guarded (do require .OK resp; rest resp) con = _
          rw [require, if_neg (by simpa using ok)]
          rfl
        simp only [read]
        rw [goes]
        exact then_ resp con
    · cases heeded
    · cases heeded
  · rintro (buf | _ | _) ignored
    · cases read : decode buf.text with
      | error e =>
        simp only [read]
        exact guarded_givesUp (givesUp_throw e) con
      | ok resp =>
        have other : resp.m_message_type ≠ .OK := by simpa [heeds, read, Except.toOption] using ignored
        simp only [read]
        exact guarded_givesUp (givesUp_then (refused resp other)) con
    · exact guarded_givesUp (givesUp_then (t := orThrow (decode [])) fun _ => ⟨_, _, rfl, trivial⟩) con
    · exact guarded_givesUp (givesUp_then (givesUp_then gives)) con

theorem request_then {α : Type} (m : Message) (rest : Process α) : (do request m; rest) =
    (do let resp ← exchange m (stopUnread errorFailedToRead); require .OK resp; rest) := by
  funext con
  show ((exchange m (stopUnread errorFailedToRead) con).bind (Handler.andThen fun resp => require .OK resp)).bind
      (Handler.andThen fun _ => rest) =
    (exchange m (stopUnread errorFailedToRead) con).bind (Handler.andThen fun resp => do require .OK resp; rest)
  rw [Prog.bind_assoc]
  congr 1
  funext r con'
  cases r <;> rfl

private theorem insists_requests {ms : List Message} (encodes : ∀ m ∈ ms, ∃ line, encode m = .ok line) (con : Console) :
    Insists ms (guarded (do requests ms; return 0) con) := by
  induction ms generalizing con with
  | nil => exact .ends con
  | cons m rest ih =>
    obtain ⟨line, run⟩ := encodes m List.mem_cons_self
    rw [requests_cons, request_then]
    have later := ih fun m' inside => encodes m' (List.mem_cons_of_mem _ inside)
    exact @insists_request m rest line _ (fun _ => do requests rest; return 0) run (givesUp_stopUnread _)
      (fun _ => later) con

theorem insists_increment (useTransaction : Bool) {username table key : Str}
    (encodes : ∀ m ∈ increments useTransaction username table key, ∃ line, encode m = .ok line) (con : Console) :
    Insists (increments useTransaction username table key) (increment useTransaction username table key con) := by
  rw [increment_eq]
  exact insists_requests encodes con

/-- The requests of `set_value` in their order. -/
def settings (username table key value : Str) : List Message :=
  [⟨.LOGIN, [username]⟩, ⟨.PUSH, [value]⟩, ⟨.SET, [table, key]⟩, ⟨.BYE, []⟩]

private theorem insists_set_value {hostname port username table key value : Str}
    (encodes : ∀ m ∈ settings username table key value, ∃ line, encode m = .ok line) (con : Console) :
    Insists (settings username table key value) (set_value [hostname, port, username, table, key, value] con) := by
  obtain ⟨login, first⟩ := encodes ⟨.LOGIN, [username]⟩ (by simp [settings])
  obtain ⟨push, second⟩ := encodes ⟨.PUSH, [value]⟩ (by simp [settings])
  refine insists_request first (givesUp_stopUnread _) (fun loginResp => ?_) con
  refine insists_request second (givesUp_complain loginResp) (fun _ => ?_)
  exact insists_requests fun m inside => encodes m (by
    simp only [settings, List.mem_cons] at inside ⊢
    exact .inr (.inr inside))

/-- The client goes on after what it has read, `none` where there was no line. -/
def heeded : Option Str → Bool
  | some bytes => isOK (bytes.takeWhile (· != NUL))
  | none => false

/-- How far a client is that goes on only after an OK, from what it has done. -/
inductive Doing (ms : List Message) (calls : List (Call ClientOp ClientRes)) : Client → Prop
  | between {client : Client} (n : Nat) (short : n ≤ ms.length) (insists : Insists (ms.drop n) client)
      (asked : askedOf calls = (ms.take n).map encodedLine) (heard : (heardOf calls).length = n)
      (all : (heardOf calls).all heeded = true) : Doing ms calls client
  | waiting {con : Console} {k : Receipt → Client} (n : Nat) (short : n < ms.length)
      (asked : askedOf calls = (ms.take (n + 1)).map encodedLine) (heard : (heardOf calls).length = n)
      (all : (heardOf calls).all heeded = true) : Doing ms calls (.call con .read k)
  | stopped (con : Console) (n : Nat) (short : n < ms.length)
    (asked : askedOf calls = (ms.take (n + 1)).map encodedLine)
      (heard : (heardOf calls).length = n + 1) (before : ((heardOf calls).take n).all heeded = true)
      (refused : (heardOf calls).getLast?.any heeded = false) : Doing ms calls (.done (.ok 1) con)

section
variable {ms : List Message} {p client : Client} {calls : List (Call ClientOp ClientRes)} {m : Message} {r : Receipt}

/-- What a read gives, as `heardOf` has it. -/
def took : Receipt → Option Str
  | .line buf => some buf.bytes
  | .ended | .failed => none

private theorem heeded_took (r : Receipt) : heeded (took r) = heeds r := by
  cases r <;> rfl

theorem heardOf_exchange (line : Str) (r : Receipt) (calls : List (Call ClientOp ClientRes)) :
    heardOf (⟨.write line, ()⟩ :: ⟨.read, r⟩ :: calls) = took r :: heardOf calls := by
  cases r <;> rfl

theorem askedOf_exchange (line : Str) (r : Receipt) (calls : List (Call ClientOp ClientRes)) :
    askedOf (⟨.write line, ()⟩ :: ⟨.read, r⟩ :: calls) = line :: askedOf calls := by
  cases r <;> rfl

/-- One more exchange at the front. -/
theorem Doing.cons (doing : Doing ms calls client) (heeded_ : heeds r = true) :
    Doing (m :: ms) (⟨.write (encodedLine m), ()⟩ :: ⟨.read, r⟩ :: calls) client := by
  have first : heeded (took r) = true := by rw [heeded_took, heeded_]
  cases doing with
  | between n short insists asked heard all =>
    refine .between (n + 1) (by simpa using short) insists ?_ ?_ ?_
    · rw [askedOf_exchange, asked]
      rfl
    · rw [heardOf_exchange, List.length_cons, heard]
    · rw [heardOf_exchange, List.all_cons, first, all]
      rfl
  | waiting n short asked heard all =>
    refine .waiting (n + 1) (by simpa using short) ?_ ?_ ?_
    · rw [askedOf_exchange, asked]
      rfl
    · rw [heardOf_exchange, List.length_cons, heard]
    · rw [heardOf_exchange, List.all_cons, first, all]
      rfl
  | stopped con n short asked heard before refused =>
    refine .stopped con (n + 1) (by simpa using short) ?_ ?_ ?_ ?_
    · rw [askedOf_exchange, asked]
      rfl
    · rw [heardOf_exchange, List.length_cons, heard]
    · rw [heardOf_exchange, List.take_succ_cons, List.all_cons, first, before]
      rfl
    · rw [heardOf_exchange]
      cases more : heardOf calls with
      | nil => simp [more] at heard
      | cons o rest =>
        rw [more] at refused
        rwa [List.getLast?_cons_cons]

theorem insists_path (insists : Insists ms p) (path : p.Path calls client) : Doing ms calls client := by
  induction insists generalizing calls with
  | ends con =>
    cases path with
    | refl => exact .between 0 (Nat.le_refl 0) (.ends con) rfl rfl rfl
  | @ask m ms line con con' k k' run then_ on off ih =>
    cases path with
    | refl => exact .between 0 (Nat.zero_le _) (.ask run then_ on off) rfl rfl rfl
    | step path =>
      obtain rfl := (encode_ok run).1
      rw [then_] at path
      cases path with
      | refl => exact .waiting 0 (Nat.succ_pos _) rfl rfl rfl
      | @step _ _ _ r calls _ path =>
        cases heeded_ : heeds r with
        | true => exact (ih r heeded_ path).cons heeded_
        | false =>
          obtain ⟨con'', ends⟩ := off r heeded_
          rw [ends] at path
          cases path with
          | refl =>
            refine .stopped con'' 0 (Nat.succ_pos _) rfl ?_ rfl ?_
            · rw [heardOf_exchange]
              rfl
            · rw [heardOf_exchange]
              simpa [heardOf] using (heeded_took r).trans heeded_

end

section
variable {ms : List Message} {program client : Client} {calls : List (Call ClientOp ClientRes)} {read said : List Str}
  {hung : Bool} {up down : Str} {thread : Thread Local Input Fault Op Res}

/-- Every line is that of a reply. -/
def AllReplies (said : List Str) : Prop := ∀ line ∈ said, ∃ m, Reply m ∧ encode m = .ok line

private theorem AllReplies.heeded (replies : AllReplies said) {line : Str} (inside : line ∈ said) :
    heeded (some line) = isOK line := by
  obtain ⟨m, reply, run⟩ := replies line inside
  obtain ⟨whole, cut⟩ := reply_verdict reply run
  exact cut.trans whole.symm

/-- A client that has found no closed connection has heard what the worker has said. -/
theorem all_heeded {heard : List Str} (replies : AllReplies said) (earlier : heard <+: said) :
    (heard.map some).all heeded = heard.all isOK := by
  rw [List.all_map, List.all_eq, List.all_eq]
  refine decide_eq_decide.mpr (forall₂_congr fun line inside => ?_)
  rw [Function.comp_apply, replies.heeded (earlier.subset inside)]

/-- A client that has stopped without finding the connection closed. -/
theorem linked_over {r : Except Halt Nat} {con : Console}
    (linked : Linked program calls read said hung (.done r con) up down thread) (open_ : none ∉ heardOf calls) :
    askedOf calls = read ∧ ∃ heard, heardOf calls = heard.map some ∧ heard <+: said := by
  generalize at_ : (.done r con : Client) = client at linked
  cases linked with
  | calm path polite asked heard rests => exact ⟨asked, said, heard, List.prefix_refl said⟩
  | severed closed path courteous asked heard earlier =>
    refine absurd ?_ open_
    rw [heard]
    simp
  | left path asked heard earlier => exact ⟨asked, _, heard, earlier⟩
  | _ => cases at_

/-- How a client that goes on only after an OK exits, by what its worker has read and said. -/
inductive Exit (ms : List Message) (calls : List (Call ClientOp ClientRes)) (read said : List Str) :
    Except Halt Nat → Prop
  /-- All requests have been read, and answered with an OK. -/
  | success (reads : read = ms.map encodedLine) (answers : ms.length ≤ said.length)
      (ok : (said.take ms.length).all isOK = true) : Exit ms calls read said (.ok 0)
  /-- The first answer that is no OK. -/
  | refused (n : Nat) (short : n < ms.length) (reads : read = (ms.take (n + 1)).map encodedLine)
      (ok : (said.take n).all isOK = true) (line : Str) (answer : said[n]? = some line) (no : isOK line = false) :
      Exit ms calls read said (.ok 1)
  /-- The server has closed the connection before the answer. -/
  | closed (n : Nat) (short : n < ms.length) (reads : read <+: (ms.take (n + 1)).map encodedLine)
      (ok : (said.take n).all isOK = true) (answers : n ≤ said.length)
      (heard : heardOf calls = (said.take n).map some ++ [none]) : Exit ms calls read said (.ok 1)

theorem exit_of {r : Except Halt Nat} {con : Console}
    (linked : Linked program calls read said hung (.done r con) up down thread)
    (doing : Doing ms calls (.done r con)) (replies : AllReplies said) : Exit ms calls read said r := by
  generalize at_ : (.done r con : Client) = client at doing
  cases doing with
  | waiting => cases at_
  | between n short insists asked heard all =>
    have open_ : none ∉ heardOf calls := by
      intro inside
      exact absurd (List.all_eq_true.mp all none inside) (by simp [heeded])
    obtain ⟨reads, lines, same, earlier⟩ := linked_over linked open_
    subst at_
    generalize rest : ms.drop n = left at insists
    cases insists with
    | ends =>
      obtain rfl : n = ms.length := Nat.le_antisymm short (List.drop_eq_nil_iff.mp rest)
      rw [same, List.length_map] at heard
      rw [same, all_heeded replies earlier] at all
      obtain ⟨more, rfl⟩ := earlier
      rw [List.take_length] at asked
      refine .success (reads.symm.trans asked) (by simp [heard]) ?_
      rw [← heard, List.take_left]
      exact all
  | stopped con' n short asked heard before refused =>
    cases at_
    obtain ⟨lines, k, same, earlier⟩ := linked.hears
    have length : lines.length + k = n + 1 := by simpa [same] using heard
    have enough : n ≤ lines.length := by
      by_contra few
      have missing : none ∈ (heardOf calls).take n := by
        rw [same, List.take_append, List.mem_append]
        right
        simp
        omega
      exact absurd (List.all_eq_true.mp before none missing) (by simp [heeded])
    have first : (heardOf calls).take n = (said.take n).map some := by
      obtain ⟨more, rfl⟩ := earlier
      rw [same, List.take_append_of_le_length (by simpa using enough), List.take_append_of_le_length enough,
        List.map_take]
    have ok : (said.take n).all isOK = true := by
      rw [← all_heeded replies (List.take_prefix n said), ← first]
      exact before
    obtain ⟨more, rfl⟩ := earlier
    cases k with
    | zero =>
      rcases List.eq_nil_or_concat lines with rfl | ⟨init, line, rfl⟩
      · simp at length
      · obtain rfl : init.length = n := by simpa using length
        have heardAll : heardOf calls = init.map some ++ [some line] := by simpa using same
        have open_ : none ∉ heardOf calls := by simp [heardAll]
        have inside : line ∈ init.concat line ++ more := by simp
        refine .refused init.length short ((linked_over linked open_).1.symm.trans asked) ok line (by simp) ?_
        rw [← replies.heeded inside]
        simpa [heardAll] using refused
    | succ k =>
      obtain rfl : k = 0 := by omega
      have all : lines.length = n := by omega
      refine .closed n short (linked.reads.trans (by rw [asked])) ok ?_ ?_
      · simp [all]
      · rw [same, ← all, List.take_left]
        rfl

end

section
variable {sh : Shared} {memory : ConnId → Bool} {programs : ConnId → Client} {h : History} {w : Processes} {c : ConnId}
  {ms : List Message}

/-- All that is written in a run of the server are replies. -/
theorem allReplies_run {ok : ServerState → ConnId → ServerEvent → Prop} {tr : ServerTrace} {s : ServerState}
    (unbroken : StoreHolds Unbroken sh) (run : Interleaving.Run server ok (opened sh memory) tr s) (c : ConnId) :
    AllReplies (responses c tr) := by
  induction run with
  | start => simp [AllReplies, responses]
  | @step tr s s' d e earlier one allowed ih =>
    by_cases mine : d = c
    · subst mine
      cases one with
      | @call input l op k r after choice up here exec =>
        have fits := replying_run unbroken earlier d
        rw [here] at fits
        cases op with
        | write line =>
          rw [responses_write]
          intro line' inside
          rcases List.mem_append.mp inside with before | last
          · exact ih line' before
          · obtain rfl := List.mem_singleton.mp last
            exact ⟨l.response, fits.1.2 line' rfl⟩
        | _ => rwa [responses_quiet rfl]
      | recv up here => simpa [responses] using ih
      | again up here => rwa [responses_inward rfl]
      | exit up here => rwa [responses_inward rfl]
      | abort up here => rwa [responses_inward rfl]
    · rwa [responses_other mine]

/-- The clients that go on only after an OK, with the requests that they send. -/
inductive Insistent : List Message → Client → Prop
  | set_value (hostname port username table key value : Str) (con : Console) :
      Insistent (settings username table key value) (set_value [hostname, port, username, table, key, value] con)
  | incr_value (hostname port username table key : Str) (con : Console) :
      Insistent (increments false username table key) (incr_value [hostname, port, username, table, key] con)
  | transaction (hostname port username table key : Str) (con : Console) :
      Insistent (increments true username table key) (incr_value [lit "-t", hostname, port, username, table, key] con)

private theorem Insistent.insists {client : Client} (insistent : Insistent ms client)
    (encodes : ∀ m ∈ ms, ∃ line, encode m = .ok line) : Insists ms client := by
  cases insistent with
  | set_value => exact insists_set_value encodes _
  | incr_value => exact insists_increment false encodes _
  | transaction => exact insists_increment true encodes _

/-- In every run of the client programs against the server, a `set_value` or an `incr_value`
    exits with 0 only when its worker has read all its requests and has answered each with an
    OK, and otherwise with 1, at the first request that was not. -/
theorem exit_codes (unbroken : StoreHolds Unbroken sh) (clients : ∀ c, Started (programs c))
    (insistent : Insistent ms (programs c)) (encodes : ∀ m ∈ ms, ∃ line, encode m = .ok line)
    (run : World.Run (opening sh memory programs) h w) {r : Except Halt Nat} {con : Console}
    (exited : w.clients c = .done r con) :
    Exit ms (transcript c h) (readBy c (served h)) (responses c (served h)) r := by
  have linked := linkage_run unbroken (fun c => (clients c).polite) run c
  have replies := allReplies_run unbroken run.server c
  unfold Linkage at linked
  have doing := insists_path (insistent.insists encodes) linked.path
  rw [exited] at linked doing
  exact exit_of linked doing replies

/-- The client of a connection has exited with a code. -/
def exitedWith (c : ConnId) (code : Nat) (w : Processes) : Bool :=
  match w.clients c with
  | .done (.ok n) _ => n == code
  | _ => false

theorem exitedWith_done {code : Nat} (yes : exitedWith c code w = true) :
    ∃ con, w.clients c = .done (.ok code) con := by
  unfold exitedWith at yes
  split at yes
  · rename_i n con here
    obtain rfl : n = code := by simpa using yes
    exact ⟨con, here⟩
  · cases yes

end

theorem exit_codes_settling : ∃ (h : History) (w : Processes) (con : Console), w.clients 0 = .done (.ok 0) con ∧
    Exit (settings (lit "ann") (lit "a") (lit "k") (lit "7")) (transcript 0 h) (readBy 0 (served h))
      (responses 0 (served h)) (.ok 0) := by
  have shown : (World.execute (exchanges 0 [2, 2, 7, 2]) settling).any
      (fun r => exitedWith 0 0 r.2) = true := by
    decide +kernel
  obtain ⟨h, w, run, exited⟩ := World.run_of_check shown
  obtain ⟨con, here⟩ := exitedWith_done (w := w) exited
  refine ⟨h, w, con, here, ?_⟩
  refine exit_codes counterStore_unbroken settling_started (.set_value ..) ?_ run here
  intro m inside
  refine ⟨encodedLine m, if_neg ?_⟩
  revert m
  decide

end TableServer.Exits
