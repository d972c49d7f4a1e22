import TableServer.Exits
import TableServer.Sessions

/-!
What a client that exits with 0 has done to the tables. A `get_value` has printed a value
that the key has had, and a `set_value` has stored its value, each of them at a moment at
which it was waiting for the response to its GET or SET and its worker had locked the table.
-/

namespace TableServer.Cells
open TableServer.Bytes TableServer.Messages TableServer.Serialization TableServer.Stores TableServer.Connection
open TableServer.Server TableServer.Requests TableServer.Locking TableServer.Exclusion TableServer.LockSafety
open TableServer.Login TableServer.Dialogue TableServer.Untouched TableServer.Tokens TableServer.Values
open TableServer.Validity TableServer.Increment TableServer.Rio TableServer.Clients TableServer.Replies
open TableServer.World TableServer.Exits TableServer.Progress TableServer.Sessions
open Resumption Interleaving

variable {start w w' : Processes} {h : History} {c d : ConnId} {e : ServerEvent} {tr : ServerTrace}
  {s s' : ServerState} {sh : Shared} {memory : ConnId → Bool} {programs : ConnId → Client} {input : Input} {l : Local}

private theorem served_append (h h' : History) : served (h ++ h') = served h ++ served h' := List.filterMap_append

/-- The run up to a step of the server, the step, and the run from there. -/
theorem served_cut {before after : ServerTrace} (run : World.Run start h w)
    (whole : served h = before ++ (c, e) :: after) : ∃ h₁ h₂ w₁ w₂, h = h₁ ++ (c, .served e) :: h₂ ∧
      served h₁ = before ∧ served h₂ = after ∧ World.Run start h₁ w₁ ∧ World.Step w₁ c (.served e) w₂ ∧
      World.Run w₂ h₂ w := by
  induction run generalizing after with
  | start => exact absurd whole.symm (by simp [served])
  | @step h w w' d happened earlier one ih =>
    have later {after' : ServerTrace} (whole' : served h = before ++ (c, e) :: after')
        (rest : served [(d, happened)] = [] ∧ after = after' ∨
          ∃ last, served [(d, happened)] = [last] ∧ after = after' ++ [last]) :
        ∃ h₁ h₂ w₁ w₂, h ++ [(d, happened)] = h₁ ++ (c, .served e) :: h₂ ∧ served h₁ = before ∧ served h₂ = after ∧
          World.Run start h₁ w₁ ∧ World.Step w₁ c (.served e) w₂ ∧ World.Run w₂ h₂ w' := by
      obtain ⟨h₁, h₂, w₁, w₂, cut, first, second, opens, here, closes⟩ := ih whole'
      refine ⟨h₁, h₂ ++ [(d, happened)], w₁, w₂, by rw [cut]; simp, first, ?_, opens, here, closes.step one⟩
      rw [served_append, second]
      rcases rest with ⟨none_, rfl⟩ | ⟨last, once, rfl⟩
      · rw [none_, List.append_nil]
      · rw [once]
    rw [served_append] at whole
    cases happened with
    | sent line => exact later (by simpa [served] using whole) (.inl ⟨rfl, rfl⟩)
    | got r => exact later (by simpa [served] using whole) (.inl ⟨rfl, rfl⟩)
    | served e' =>
      have last : served [(d, Happening.served e')] = [(d, e')] := rfl
      rw [last] at whole
      rcases List.eq_nil_or_concat after with rfl | ⟨init, final, rfl⟩
      · obtain ⟨same, now⟩ := List.append_inj' whole rfl
        cases List.singleton_inj.mp now
        exact ⟨h, [], w, w', rfl, same, rfl, earlier, one, .start⟩
      · rw [List.concat_eq_append, ← List.cons_append, ← List.append_assoc] at whole
        obtain ⟨same, now⟩ := List.append_inj' whole rfl
        refine later same (.inr ⟨(d, e'), last, ?_⟩)
        rw [List.concat_eq_append, List.singleton_inj.mp now]

private theorem run_append {h' : History} (first : World.Run start h w) (second : World.Run w h' w') :
    World.Run start (h ++ h') w' := by
  induction second with
  | start => simpa using first
  | step _ one ih =>
    rw [← List.append_assoc]
    exact ih.step one

/-- A step of a worker is one of the server, and no client moves. -/
theorem step_served (one : World.Step w c (.served e) w') :
    Interleaving.Step server w.server c e w'.server ∧ w'.clients = w.clients := by
  cases one with
  | hear ready step => exact ⟨step, rfl⟩
  | answer step => exact ⟨step, rfl⟩
  | work inward step => exact ⟨step, rfl⟩

/-- A worker before and after a call. -/
theorem step_call {op : Op} {r : Res op} (one : Interleaving.Step server s c (.call input l op r) s') :
    ∃ k choice, s.aborted = none ∧ s.threads c = .running input (.call l op k) ∧
      Server.exec c choice op s.shared = some (r, s'.shared) ∧ s'.aborted = none ∧
      s'.threads c = .running input (k r) := by
  cases one with
  | @call _ _ _ k _ after choice up here exec =>
    exact ⟨k, choice, up, here, exec, up, Function.update_self ..⟩

/-! ## The moment -/

/-- The table of that name has the value under the key. The connection has it locked, and
    nothing is pending in it. -/
def Shown (s : ServerState) (c : ConnId) (table key v : Str) : Prop :=
  ∃ a tb, s.shared.heap a = some tb ∧ tb.m_name = table ∧ tb.m_mutex = some c ∧ tb.tempMap = ∅ ∧
    tb.theMap[key]? = some v

/-- The client of the connection has sent the requests and is waiting for the response to the
    last one, and the table has the value under the key. -/
structure Moment (ms : List Message) (table key v : Str) (h : History) (w : Processes) (c : ConnId) : Prop where
  asked : askedOf (transcript c h) = ms.map encodedLine
  waits : ∃ con k, w.clients c = .call con .read k
  shown : Shown w.server c table key v

/-- While its worker is at a request and has not answered all, the client waits. -/
theorem waits_now {op : Op} {k : Res op → Iteration} (linked : Linkage programs h w c) (polite : Polite (programs c))
    (up : w.server.aborted = none) (here : w.server.threads c = .running input (.call l op k))
    (behind : (responses c (served h)).length < (readBy c (served h)).length) :
    askedOf (transcript c h) = readBy c (served h) ∧ ∃ con k, w.clients c = .call con .read k := by
  have open_ := hungUp_false up (c := c) (by rw [here]; rfl)
  unfold Linkage at linked
  rw [here] at linked
  generalize w.clients c = client, w.up c = sent, w.down c = down at linked ⊢
  cases linked with
  | calm path polite asked heard rests => exact absurd rests not_resting
  | asked path polite whole asked heard rests => exact absurd rests not_resting
  | answered path polite whole asked heard last rests => exact absurd rests not_resting
  | severed closed => rw [open_] at closed; cases closed
  | working path polite asked last heard speaks => exact ⟨asked, _, _, rfl⟩
  | @left r con _ before _ path asked heard earlier =>
    -- A client that has stopped has heard a response to each of its requests.
    obtain ⟨waiting, courteous, count⟩ := courteous_path path (.rests polite)
    cases courteous with
    | rests =>
      have few := earlier.length_le
      simp only [Bool.toNat_false, asked, heard, List.length_map] at count
      omega

section
variable {m : Message} {con con' con'' : Console} {calls : List (Call ClientOp ClientRes)} {body : Process Nat}
  {unread : Process Unit}

/-- The exit code of the client is 0. -/
abbrev Succeeds (p : Client) (calls : List (Call ClientOp ClientRes)) (con : Console) : Prop :=
  p.Path calls (.done (.ok 0) con)

/-- An exception and another exit code are the end. -/
theorem guarded_stops (halt : Halt) (con' : Console) (run : body con = .done (.error halt) con')
    (other : halt ≠ .returned 0) :
    ¬ Succeeds (guarded body con) calls con'' := by
  have caught : guarded body con = (body con).bind _ := rfl
  intro path
  rw [caught, run] at path
  cases halt with
  | returned code =>
    cases path with
    | refl => exact other rfl
  | thrown e => cases path
  | undefined => cases path

/-- After a failed read the program does not exit with 0. -/
def Quits (unread : Process Unit) : Prop :=
  ∀ con, ∃ halt con', (do unread; throw .undefined : Process Message) con = .done (.error halt) con' ∧
    halt ≠ .returned 0

private theorem quits_cerr (t : Str) : Quits (cerr t) := fun _ => ⟨_, _, rfl, by simp⟩

private theorem quits_stopUnread (t : Str) : Quits (stopUnread t) := fun _ => ⟨_, _, rfl, by simp⟩

private theorem quits_complain (resp : Message) : Quits (do complain resp; exit 1) := by
  intro con
  unfold complain
  cases resp.get_quoted_text with
  | error e => exact ⟨_, _, rfl, by simp⟩
  | ok text => exact ⟨_, _, rfl, by simp⟩

/-- What a client makes of what it has read. -/
def answer (unread : Process Unit) : Receipt → Process Message
  | .line buf => orThrow (decode buf.text)
  | .ended => orThrow (decode [])
  | .failed => do unread; throw .undefined

/-- Such a client has read a line that it can decode after each of its requests. -/
theorem exchange_path {rest : Message → Process Nat} (quits : Quits unread)
    (path : Succeeds (guarded (do let resp ← exchange m unread; rest resp) con) calls con') :
    ∃ buf resp calls', decode buf.text = .ok resp ∧
      calls = ⟨.write (encodedLine m), ()⟩ :: ⟨.read, .line buf⟩ :: calls' ∧
      Succeeds (guarded (rest resp) con) calls' con' := by
  cases run : encode m with
  | error e =>
    refine absurd path (guarded_stops (.thrown e) con ?_ (by simp))
    simp only [exchange, run]
    rfl
  | ok line =>
    obtain ⟨rfl, _⟩ := encode_ok run
    have asks : guarded (do let resp ← exchange m unread; rest resp) con =
        .call con (.write (encodedLine m)) fun _ => .call con .read fun r =>
          guarded (do let resp ← answer unread r; rest resp) con := by
      simp only [exchange, run]
      rfl
    rw [asks] at path
    cases path with
    | step path =>
      cases path with
      | @step _ _ _ r calls _ path =>
        cases r with
        | line buf =>
          cases parsed : decode buf.text with
          | error e =>
            simp only [answer, parsed] at path
            exact absurd path (guarded_stops (.thrown e) _ rfl (by simp))
          | ok resp =>
            simp only [answer, parsed] at path
            exact ⟨buf, resp, calls, parsed, rfl, path⟩
        | ended =>
          obtain ⟨e, failed⟩ : ∃ e, decode [] = .error e := ⟨_, rfl⟩
          simp only [answer, failed] at path
          exact absurd path (guarded_stops (.thrown e) _ rfl (by simp))
        | failed =>
          obtain ⟨halt, con₁, stops, other⟩ := quits con
          refine absurd path (guarded_stops halt con₁ ?_ other)
          show ((do unread; throw .undefined : Process Message) con).bind _ = _
          rw [stops]
          rfl

private theorem require_path {type : MessageType} {resp : Message}
    (path : Succeeds (guarded (do require type resp; body) con) calls con') :
    resp.m_message_type = type ∧ Succeeds (guarded body con) calls con' := by
  by_cases other : resp.m_message_type = type
  · rw [require, if_neg (by simpa using other)] at path
    exact ⟨other, path⟩
  · rw [require, if_pos other] at path
    obtain ⟨halt, con₁, run, fails⟩ := givesUp_complain (α := Unit) resp con
    refine absurd path (guarded_stops halt con₁ ?_ ?_)
    · show ((do complain resp; exit 1 : Process Unit) con).bind _ = _
      rw [run]
      rfl
    · rintro rfl
      cases fails

/-- A complaint goes to `cerr`. -/
theorem complain_path {resp : Message} (path : Succeeds (guarded (do complain resp; body) con) calls con') :
    ∃ con₁, con₁.cout = con.cout ∧ Succeeds (guarded body con₁) calls con' := by
  unfold complain at path
  cases quoted : resp.get_quoted_text with
  | error e =>
    rw [quoted] at path
    exact absurd path (guarded_stops (.thrown e) _ rfl (by simp))
  | ok text =>
    rw [quoted] at path
    refine ⟨{ con with cerr := con.cerr ++ [.text (lit "Error: " ++ text)] }, rfl, path⟩

/-- What a client has done that has had an answer to each of its messages. -/
structure Exchanged (ms : List Message) (bufs : List Line) (calls : List (Call ClientOp ClientRes)) : Prop where
  asked : askedOf calls = ms.map encodedLine
  heard : heardOf calls = bufs.map fun buf => some buf.bytes

private theorem exchanged_nil : Exchanged [] [] [] := ⟨rfl, rfl⟩

private theorem Exchanged.cons {ms : List Message} {bufs : List Line} (exchanged : Exchanged ms bufs calls)
    (m : Message) (buf : Line) :
    Exchanged (m :: ms) (buf :: bufs) (⟨.write (encodedLine m), ()⟩ :: ⟨.read, .line buf⟩ :: calls) := by
  constructor
  · rw [askedOf_exchange, exchanged.asked]
    rfl
  · rw [heardOf_exchange, exchanged.heard]
    rfl

variable {hostname port username table key value : Str}

/-- The requests of `get_value` in their order. -/
def gettings (username table key : Str) : List Message :=
  [⟨.LOGIN, [username]⟩, ⟨.GET, [table, key]⟩, ⟨.TOP, []⟩, ⟨.BYE, []⟩]

/-- The third answer is the one to the TOP, and its value is what is printed. -/
theorem get_value_path (path : Succeeds (get_value [hostname, port, username, table, key] con) calls con') :
    ∃ b₁ b₂ b₃ b₄ resp v, Exchanged (gettings username table key) [b₁, b₂, b₃, b₄] calls ∧
      decode b₃.text = .ok resp ∧ resp.m_message_type = .DATA ∧ resp.get_value = .ok v ∧
      con'.cout = con.cout ++ [v ++ lit "\n"] := by
  obtain ⟨b₁, loginResp, calls₁, _, rfl, path₁⟩ := exchange_path (quits_cerr _) path
  obtain ⟨con₁, quiet, path₁⟩ : ∃ con₁, con₁.cout = con.cout ∧ Succeeds (guarded (do
      let getResp ← exchange ⟨.GET, [table, key]⟩ (cerr failedToRead)
      require .OK getResp
      let topResp ← exchange ⟨.TOP, []⟩ (stopUnread failedToRead)
      require .DATA topResp
      let value ← orThrow topResp.get_value
      cout (value ++ lit "\n")
      let byeResp ← exchange ⟨.BYE, []⟩ (stopUnread errorFailedToRead)
      require .OK byeResp
      return 0) con₁) calls₁ con' := by
    by_cases refused : loginResp.m_message_type ≠ .OK
    · simp only [if_pos refused] at path₁
      exact complain_path path₁
    · simp only [if_neg refused] at path₁
      exact ⟨con, rfl, path₁⟩
  obtain ⟨b₂, getResp, calls₂, _, rfl, path₂⟩ := exchange_path (quits_cerr _) path₁
  obtain ⟨_, path₂⟩ := require_path path₂
  obtain ⟨b₃, topResp, calls₃, parsed, rfl, path₃⟩ := exchange_path (quits_stopUnread _) path₂
  obtain ⟨data, path₃⟩ := require_path path₃
  cases taken : topResp.get_value with
  | error e =>
    rw [taken] at path₃
    exact absurd path₃ (guarded_stops (.thrown e) _ rfl (by simp))
  | ok v =>
    rw [taken] at path₃
    have path₃ : Succeeds (guarded (do
        let byeResp ← exchange ⟨.BYE, []⟩ (stopUnread errorFailedToRead)
        require .OK byeResp
        return 0) { con₁ with cout := con₁.cout ++ [v ++ lit "\n"] }) calls₃ con' := path₃
    obtain ⟨b₄, byeResp, calls₄, _, rfl, path₄⟩ := exchange_path (quits_stopUnread _) path₃
    obtain ⟨_, path₄⟩ := require_path path₄
    cases path₄ with
    | refl =>
      refine ⟨b₁, b₂, b₃, b₄, topResp, v, ?_, parsed, data, taken, by rw [quiet]⟩
      exact (((exchanged_nil.cons _ b₄).cons _ b₃).cons _ b₂).cons _ b₁

private theorem set_value_path
    (path : Succeeds (set_value [hostname, port, username, table, key, value] con) calls con') :
    ∃ b₁ b₂ b₃ b₄, Exchanged (settings username table key value) [b₁, b₂, b₃, b₄] calls := by
  obtain ⟨b₁, loginResp, calls₁, _, rfl, path₁⟩ := exchange_path (quits_stopUnread _) path
  obtain ⟨_, path₁⟩ := require_path path₁
  obtain ⟨b₂, _, calls₂, _, rfl, path₂⟩ := exchange_path (quits_complain loginResp) path₁
  obtain ⟨_, path₂⟩ := require_path path₂
  rw [requests_cons, request_then, requests_cons, requests_nil, request_then] at path₂
  obtain ⟨b₃, _, calls₃, _, rfl, path₃⟩ := exchange_path (quits_stopUnread _) path₂
  obtain ⟨_, path₃⟩ := require_path path₃
  obtain ⟨b₄, _, calls₄, _, rfl, path₄⟩ := exchange_path (quits_stopUnread _) path₃
  obtain ⟨_, path₄⟩ := require_path path₄
  cases path₄ with
  | refl => exact ⟨b₁, b₂, b₃, b₄, (((exchanged_nil.cons _ b₄).cons _ b₃).cons _ b₂).cons _ b₁⟩

end

/-! ## The tables -/

/-- A store that nobody is using, with the names of its tables and with values that a client
    can have pushed. -/
structure Settled (sh : Shared) : Prop where
  quiescent : Quiescent sh
  registered : Registered sh
  fine : StoreHolds Fine sh

section
variable {ok : ServerState → ConnId → ServerEvent → Prop} {a : Addr} {table key v : Str}

private theorem fine_run (fine : StoreHolds Fine sh) (run : Interleaving.Run server ok (opened sh memory) tr s) :
    StoreHolds Fine s.shared :=
  (store_run (D := holding Fine) (fun _ _ => holding_iteration (fun _ _ => fine_pushed) (fun _ => fine_to_string))
    (fun _ _ _ node => node.2) (fun _ _ => trivial) (fun _ _ _ _ => id) (fun _ _ _ _ _ _ _ => .inr fine_empty)
    stack_create fine run).1

/-- The others leave a table alone that `c` has locked. -/
theorem locked_stays {tr' : ServerTrace} (quiescent : Quiescent sh)
    (before : Interleaving.Run server anyStep (opened sh memory) tr s)
    (run : Interleaving.Run server anyStep s tr' s') (apart : ∀ step ∈ tr', step.1 ≠ c)
    (held : holder s.shared a = some c) : s'.shared.heap a = s.shared.heap a := by
  induction run with
  | start => rfl
  | @step tr' s₁ s₂ d e earlier one _ ih =>
    have same := ih fun step inside => apart step (List.mem_append_left _ inside)
    have other : d ≠ c := apart (d, e) (by simp)
    have still : holder s₁.shared a = some c := by rw [holder, same]; exact held
    rw [← same]
    cases one with
    | @call input l op k r after choice up reads exec =>
      have exec : Server.exec d choice op s₁.shared = some (r, after) := exec
      refine exec_locked still ?_ exec
      intro uses
      obtain ⟨gs, inv, fits⟩ := locks_run quiescent (fun _ _ _ _ => False.elim) (before.append earlier)
      have next : nextOp (s₁.threads d) = some op := by rw [reads]; rfl
      have byD := holder_eq.mpr (inv.held d a (allowed_used (fits_allowed (fits d) next) uses))
      rw [still] at byD
      exact other (Option.some.inj byD).symm
    | _ => rfl

/-- Outside a transaction nothing is pending in the table that a worker has just locked. -/
theorem locked_clean {op : Op} {k : Res op → Iteration} (quiescent : Quiescent sh)
    (run : Interleaving.Run server anyStep (opened sh memory) tr s)
    (here : s.threads c = .running input (.call l op k)) (uses : (∃ key, op = .get a key) ∨ ∃ key v, op = .set a key v)
    (outside : l.transaction_mode = false) :
    ∃ tb, s.shared.heap a = some tb ∧ tb.m_mutex = some c ∧ tb.tempMap = ∅ := by
  obtain ⟨gs, inv, fits⟩ := locks_run quiescent (fun _ _ _ _ => False.elim) run
  have fit := fits c
  rw [here] at fit
  obtain ⟨empty, phase⟩ : ∃ empty, gs c = .locked a empty := by
    have none_ := fit.1.1.outside outside
    have phases : (∃ empty, gs c = .locked a empty) ∨ ∃ L, gs c = .holding L ∧ a ∈ L := by
      rcases uses with ⟨key, rfl⟩ | ⟨key, v, rfl⟩ <;> exact fit.1.2
    rcases phases with locked | ⟨L, holds, inside⟩
    · exact locked
    · have tables : L = l.locked_tables.addrs := by
        have consistent := fit.1.1
        rw [holds] at consistent
        exact consistent.tables
      rw [tables, none_] at inside
      cases inside
  have mine : a ∈ (gs c).tables := by rw [phase]; simp
  obtain ⟨tb, at_, held⟩ := inv.held c a mine
  refine ⟨tb, at_, held, ?_⟩
  rw [inv.pending a tb at_, inv.clean_phase mine (by rw [phase]; simp)]
  rfl

end

section
variable {ts : List Turn} {m : Message} {ms : List Message} {username table key value v : Str} {a : Addr}

private theorem turns_cons {x : Str} {rest : List Str} (chain : ts.IsChain Goes)
    (lines : (ts.map Turn.input).flatMap lineOf = x :: rest) : ∃ buf t ts', ts = t :: ts' ∧ t.input = .line buf ∧
      buf.bytes = x ∧ (ts'.map Turn.input).flatMap lineOf = rest := by
  cases ts with
  | nil => cases lines
  | cons t ts =>
    rw [List.map_cons, List.flatMap_cons] at lines
    cases input : t.input with
    | line buf =>
      rw [input] at lines
      obtain ⟨first, others⟩ := List.cons.inj lines
      exact ⟨buf, t, ts, rfl, input, first, others⟩
    | closed =>
      cases ts with
      | nil => rw [input] at lines; cases lines
      | cons t' ts =>
        obtain ⟨buf, line⟩ := (List.isChain_cons_cons.mp chain).1.line
        rw [input] at line
        cases line

private theorem request_read {buf : Line} (wireable : Wireable m) (bytes : buf.bytes = encodedLine m) :
    requestOf (.line buf) = some m := requestOf_decode (wireable.decodes bytes)

/-- The turns that begin with the lines of messages have them for their requests. -/
theorem turns_of (chain : ts.IsChain Goes) (wireable : ∀ m ∈ ms, Wireable m)
    (lines : (ts.map Turn.input).flatMap lineOf = ms.map encodedLine) :
    ∃ us vs, ts = us ++ vs ∧ List.Forall₂ (fun (t : Turn) m => requestOf t.input = some m ∧
      lineOf t.input = [encodedLine m]) us ms := by
  induction ms generalizing ts with
  | nil => exact ⟨[], ts, rfl, .nil⟩
  | cons m ms ih =>
    obtain ⟨buf, t, ts, rfl, input, bytes, others⟩ := turns_cons chain lines
    obtain ⟨us, vs, rfl, all⟩ := ih chain.of_cons (fun m' inside => wireable m' (List.mem_cons_of_mem _ inside)) others
    refine ⟨t :: us, vs, rfl, .cons ⟨?_, ?_⟩ all⟩
    · rw [input]
      exact request_read (wireable m List.mem_cons_self) bytes
    · rw [input, ← bytes]
      rfl

private theorem login_shows {t t' : Turn} (asked : requestOf t.input = some ⟨.LOGIN, [username]⟩) (goes : Goes t t')
    (fresh : ∃ logged_in, t.before = Local.create logged_in) : Shows t'.before [] false [] := by
  obtain ⟨logged_in, same⟩ := fresh
  rw [login_path asked goes, same]
  exact ⟨rfl, rfl, rfl, rfl⟩

/-- The turns of a worker that is at a request, from what it has read. -/
theorem turns_now {p : Iteration} (before : List Input) (run : Interleaving.Run server anyStep (opened sh memory) tr s)
    (here : s.threads c = .running input p) (inputs : Dialogue.received c tr = before ++ [input]) :
    ∃ us t, Recorded c (us ++ [t]) tr ∧ us.map Turn.input = before ∧ t.input = input ∧
      (chat_with_client input t.before).Path t.calls p := by
  obtain ⟨ts, recorded, stands⟩ := turns_run run c
  rw [here] at stands
  obtain ⟨us, t, rfl, same, path⟩ := stands
  have read := recorded.read
  rw [inputs, List.map_append] at read
  exact ⟨us, t, recorded, (List.append_inj' read rfl).1.symm, same, same ▸ path⟩

/-- What a look-up of a turn has found is a table of that name. -/
theorem found_named {us : List Turn} {t : Turn} (registered : Registered sh)
    (run : Interleaving.Run server anyStep (opened sh memory) tr s) (recorded : Recorded c (us ++ [t]) tr)
    (inside : ⟨.find_table table, some a⟩ ∈ t.calls) : Named s.shared a table := by
  obtain ⟨earlier, l, later, cut, _⟩ := recorded.called us t [] rfl _ inside
  obtain ⟨_, found, _⟩ := found_run registered run
  exact found.looked c t.input l table a (by rw [cut]; simp)

/-- The table that a GET is about to read. -/
theorem get_locked {k : Except Exn Str → Iteration} {i : Input} (settled : Settled sh)
    (run : Interleaving.Run server anyStep (opened sh memory) tr s)
    (here : s.threads c = .running input (.call l (.get a key) k)) (inputs : Dialogue.received c tr = [i, input])
    (login : requestOf i = some ⟨.LOGIN, [username]⟩) (get : requestOf input = some ⟨.GET, [table, key]⟩) :
    (responses c tr).length = 1 ∧ ∃ tb, s.shared.heap a = some tb ∧ tb.m_name = table ∧ tb.m_mutex = some c ∧
      tb.tempMap = ∅ := by
  obtain ⟨us, t, recorded, earlier, same, path⟩ := turns_now [i] run here inputs
  obtain ⟨t₁, rfl, rfl⟩ := List.map_eq_singleton_iff.mp earlier
  have goes := (List.isChain_cons_cons.mp recorded.told.chain).1
  have shows_ := login_shows login goes (recorded.told.first t₁ (by simp))
  obtain ⟨rfl, called⟩ := get_reads get shows_ (recorded.told.returned t (by simp)) path
  constructor
  · obtain ⟨line, once⟩ := goes.once
    have silent : t.lines = [] := by rw [Turn.lines, called]; rfl
    rw [recorded.said]
    simp [once, silent]
  · obtain ⟨tb, at_, held, clean⟩ := locked_clean settled.quiescent run here (.inl ⟨key, rfl⟩) shows_.mode
    have looked : ⟨.find_table table, some a⟩ ∈ t.calls := by rw [called]; simp
    obtain ⟨tb', there, name⟩ := found_named settled.registered run recorded looked
    obtain rfl : tb = tb' := Option.some.inj (at_.symm.trans there)
    exact ⟨tb, at_, name, held, clean⟩

/-- The table that a SET is about to write to, and what it calls next. -/
theorem set_locked {k : Unit → Iteration} {i j : Input} (settled : Settled sh)
    (run : Interleaving.Run server anyStep (opened sh memory) tr s)
    (here : s.threads c = .running input (.call l (.set a key v) k)) (inputs : Dialogue.received c tr = [i, j, input])
    (login : requestOf i = some ⟨.LOGIN, [username]⟩) (push : requestOf j = some ⟨.PUSH, [v]⟩)
    (set_ : requestOf input = some ⟨.SET, [table, key]⟩) :
    (responses c tr).length = 2 ∧ (∃ tb, s.shared.heap a = some tb ∧ tb.m_name = table ∧ tb.m_mutex = some c ∧
      tb.tempMap = ∅) ∧ k () = .call l (.commit_changes a) fun _ => .call l (.unlock a) fun _ =>
        responding true (l.respond .OK []) := by
  obtain ⟨us, t, recorded, earlier, same, path⟩ := turns_now [i, j] run here inputs
  obtain ⟨t₁, rest, rfl, rfl, second⟩ := List.map_eq_cons_iff.mp earlier
  obtain ⟨t₂, rfl, rfl⟩ := List.map_eq_singleton_iff.mp second
  obtain ⟨goes, chain⟩ := List.isChain_cons_cons.mp recorded.told.chain
  have goes' := (List.isChain_cons_cons.mp chain).1
  have shows_ := push_path push (login_shows login goes (recorded.told.first t₁ (by simp))) goes'
  obtain ⟨outside, called, next⟩ := set_writes set_ shows_ path
  refine ⟨?_, ?_, next⟩
  · obtain ⟨line, once⟩ := goes.once
    obtain ⟨line', once'⟩ := goes'.once
    have silent : t.lines = [] := by rw [Turn.lines, called]; rfl
    rw [recorded.said]
    simp [once, once', silent]
  · obtain ⟨tb, at_, held, clean⟩ := locked_clean settled.quiescent run here (.inr ⟨key, v, rfl⟩) outside
    have looked : ⟨.find_table table, some a⟩ ∈ t.calls := by rw [called]; simp
    obtain ⟨tb', there, name⟩ := found_named settled.registered run recorded looked
    obtain rfl : tb = tb' := Option.some.inj (at_.symm.trans there)
    exact ⟨tb, at_, name, held, clean⟩

end

/-! ## What the client prints -/

private theorem read_present {tb : Table} {key : Str} (clean : tb.tempMap = ∅) (some_ : tb.read key ≠ []) :
    tb.theMap[key]? = some (tb.read key) := by
  rw [Table.read_of_clean clean, Table.committed] at some_ ⊢
  cases stored : tb.theMap[key]? with
  | none => rw [stored] at some_; exact absurd rfl some_
  | some v => rfl

/-- A value that a client takes from a DATA is the one that was sent. -/
theorem data_read {v v' line : Str} {buf : Line} {resp : Message} (fine : Fine v)
    (run : encode ⟨.DATA, [v]⟩ = .ok line) (bytes : buf.bytes = line) (parsed : decode buf.text = .ok resp)
    (taken : resp.get_value = .ok v') : v' = v ∧ v ≠ [] := by
  have unbroken : ∀ a ∈ [v], newline ∉ a := by
    intro a inside
    rw [List.mem_singleton.mp inside]
    exact unbroken_fine fine
  obtain ⟨body, whole, plain⟩ := (oneLine_encoded (m := ⟨.DATA, [v]⟩) unbroken run).ended
  have text : buf.text = line.takeWhile (· != NUL) := by rw [Line.text, bytes]
  by_cases cut : NUL ∈ body
  · -- What is left of a line with a `NUL` in it does not end as a line.
    have short : buf.text = body.takeWhile (· != NUL) := by
      have stops : ¬ ∀ x ∈ body, (x != NUL) = true := fun all => absurd (all NUL cut) (by decide)
      rw [text, whole, List.takeWhile_append, if_neg]
      intro all
      exact stops (List.takeWhile_eq_self_iff.mp ((List.takeWhile_prefix _).eq_of_length all))
    have last := (decode_accepted parsed).2.1
    rw [short] at last
    exact absurd ((List.takeWhile_prefix _).subset (List.mem_of_getLast? last)) plain
  · have all : ∀ x ∈ line, (x != NUL) = true := by
      intro x inside
      rw [whole] at inside
      rcases List.mem_append.mp inside with early | late
      · simp only [bne_iff_ne]
        rintro rfl
        exact cut early
      · rw [List.mem_singleton.mp late]
        decide
    rw [text, List.takeWhile_eq_self_iff.mpr all] at parsed
    obtain ⟨line', run', arrives⟩ := data_arrives fine
    obtain rfl : line' = line := Except.ok.inj (run'.symm.trans run)
    by_cases empty : v = []
    · subst empty
      have bare : encode ⟨.DATA, [[]]⟩ = .ok (lit "DATA \n") := by decide
      obtain rfl : lit "DATA \n" = line' := Except.ok.inj (bare.symm.trans run)
      have refused : (decode (lit "DATA \n")).toOption = none := by decide
      rw [parsed] at refused
      cases refused
    · have sent := arrives.mpr empty
      rw [parsed] at sent
      obtain rfl := Except.ok.inj sent
      exact ⟨(Except.ok.inj taken).symm, empty⟩

/-! ## Every run -/

section
variable {ms : List Message} {hostname port username table key value v : Str} {con con' : Console}

private theorem Settled.linked (settled : Settled sh) (clients : ∀ c, Started (programs c))
    (run : World.Run (opening sh memory programs) h w) (c : ConnId) : Linkage programs h w c :=
  linkage_run (fun t tb here => ⟨fun k v at_ => unbroken_fine ((settled.fine t tb here).stored k v at_),
    fun k v at_ => unbroken_fine ((settled.fine t tb here).pending k v at_)⟩) (fun c => (clients c).polite) run c

/-- The turns of the worker of a client that has had all its answers, and what they have said. -/
theorem turns_exchanged {r : Except Halt Nat} {bufs : List Line} (settled : Settled sh)
    (clients : ∀ c, Started (programs c)) (wireable : ∀ m ∈ ms, Wireable m)
    (run : World.Run (opening sh memory programs) h w) (exited : w.clients c = .done r con')
    (exchanged : Exchanged ms bufs (transcript c h)) :
    ∃ us vs, Recorded c (us ++ vs) (served h) ∧
      List.Forall₂ (fun (t : Turn) m => requestOf t.input = some m ∧ lineOf t.input = [encodedLine m]) us ms ∧
      bufs.map Line.bytes <+: responses c (served h) := by
  have linked := settled.linked clients run c
  unfold Linkage at linked
  rw [exited] at linked
  have open_ : none ∉ heardOf (transcript c h) := by simp [exchanged.heard]
  obtain ⟨asked, lines, heard, earlier⟩ := linked_over linked open_
  obtain ⟨ts, recorded, _⟩ := turns_run run.server c
  have read : (ts.map Turn.input).flatMap lineOf = ms.map encodedLine := by
    rw [← recorded.read, ← exchanged.asked, asked]
    rfl
  obtain ⟨us, vs, rfl, all⟩ := turns_of recorded.told.chain wireable read
  refine ⟨us, vs, recorded, all, ?_⟩
  have same : lines = bufs.map Line.bytes := by
    have both := heard.symm.trans exchanged.heard
    refine List.map_injective_iff.mpr (Option.some_injective Str) ?_
    rw [List.map_map]
    exact both
  rwa [← same]

/-- A worker that has not answered the last of the requests yet. -/
theorem moment_now {op : Op} {k : Res op → Iteration} (settled : Settled sh) (clients : ∀ c, Started (programs c))
    (run : World.Run (opening sh memory programs) h w) (up : w.server.aborted = none)
    (here : w.server.threads c = .running input (.call l op k))
    (read : readBy c (served h) = ms.map encodedLine) (behind : (responses c (served h)).length < ms.length)
    (shown : Shown w.server c table key v) : Moment ms table key v h w c := by
  obtain ⟨asked, waits⟩ := waits_now (settled.linked clients run c) (clients c).polite up here
    (by rw [read, List.length_map]; exact behind)
  exact ⟨asked.trans read, waits, shown⟩

/-- In every run of the client programs against the server, a `get_value` that exits with 0 has
    printed one value. At some moment at which it was waiting for the response to its GET the
    table had that value under the key, locked by the worker and with nothing pending. -/
theorem printed (settled : Settled sh) (clients : ∀ c, Started (programs c))
    (mine : programs c = get_value [hostname, port, username, table, key] con)
    (wireable : ∀ m ∈ gettings username table key, Wireable m)
    (run : World.Run (opening sh memory programs) h w) (exited : w.clients c = .done (.ok 0) con') :
    ∃ v before after w₁, con'.cout = con.cout ++ [v ++ lit "\n"] ∧ h = before ++ after ∧
      World.Run (opening sh memory programs) before w₁ ∧ World.Run w₁ after w ∧
      Moment [⟨.LOGIN, [username]⟩, ⟨.GET, [table, key]⟩] table key v before w₁ c := by
  have path := (settled.linked clients run c).path
  rw [exited, mine] at path
  obtain ⟨b₁, b₂, b₃, b₄, resp, v', exchanged, parsed, data, taken, out⟩ := get_value_path path
  obtain ⟨us, vs, recorded, all, heard⟩ := turns_exchanged settled clients wireable run exited exchanged
  obtain ⟨t₁, us₁, ⟨login, line₁⟩, all₁, rfl⟩ := List.forall₂_cons_right_iff.mp all
  obtain ⟨t₂, us₂, ⟨get, line₂⟩, all₂, rfl⟩ := List.forall₂_cons_right_iff.mp all₁
  obtain ⟨t₃, us₃, ⟨top, _⟩, all₃, rfl⟩ := List.forall₂_cons_right_iff.mp all₂
  obtain ⟨t₄, us₄, _, _, rfl⟩ := List.forall₂_cons_right_iff.mp all₃
  obtain ⟨goes₁, chain⟩ := List.isChain_cons_cons.mp recorded.told.chain
  obtain ⟨goes₂, chain⟩ := List.isChain_cons_cons.mp chain
  have goes₃ := (List.isChain_cons_cons.mp chain).1
  have shows_ := login_shows login goes₁ (recorded.told.first t₁ (by simp))
  obtain ⟨a, v, called, shows'⟩ := get_path get shows_ (recorded.told.returned t₂ (by simp)) goes₂
  obtain ⟨line, run₃, calls₃⟩ := top_path top shows' goes₃
  -- The moment is the one before the worker reads the key.
  obtain ⟨earlier, l, later, cut, inputs⟩ := recorded.called [t₁] t₂ (t₃ :: t₄ :: (us₄ ++ vs)) rfl _ called
  obtain ⟨h₁, h₂, w₁, w₂, whole, rfl, _, opens, one, closes⟩ := served_cut run cut
  obtain ⟨k, choice, up, here, exec, _, _⟩ := step_call (step_served one).1
  obtain ⟨said, tb, at_, name, held, clean⟩ := get_locked settled opens.server here inputs login get
  obtain ⟨tb', there, value, _⟩ := exec_get exec
  obtain rfl : tb = tb' := Option.some.inj (at_.symm.trans there)
  obtain rfl : v = tb.read key := Except.ok.inj value
  have fine : Fine (tb.read key) := ((fine_run settled.fine opens.server) a tb at_).read (.inr fine_empty)
  have bytes : b₃.bytes = line := by
    obtain ⟨x₁, once₁⟩ := goes₁.once
    obtain ⟨x₂, once₂⟩ := goes₂.once
    have once₃ : t₃.lines = [line] := by rw [Turn.lines, calls₃]; rfl
    rw [recorded.said] at heard
    simp only [List.cons_append, List.flatMap_cons, once₁, once₂, once₃, List.map_cons, List.nil_append,
      List.cons_prefix_cons] at heard
    exact heard.2.2.1
  obtain ⟨rfl, some_⟩ := data_read fine run₃ bytes parsed taken
  have there : Shown w₁.server c table key (tb.read key) :=
    ⟨a, tb, at_, name, held, clean, read_present clean some_⟩
  have read : readBy c (served h₁) = [encodedLine ⟨.LOGIN, [username]⟩, encodedLine ⟨.GET, [table, key]⟩] := by
    rw [readBy, inputs]
    simp [line₁, line₂]
  refine ⟨tb.read key, h₁, _, w₁, out, whole, opens, run_append (.step .start one) closes, ?_⟩
  exact moment_now settled clients opens up here read (by rw [said]; simp) there

/-- The store with one number in it. -/
theorem counterStore_settled : Settled counterStore where
  quiescent := (initial_quiescent.create rfl).put rfl rfl
  registered := by
    refine ⟨?_, 1, ?_⟩
    · intro name t found
      have entry : ((∅ : StdMap Addr).insert (lit "a") 0)[name]? = some t := found
      rw [getElem?_insert] at entry
      split at entry
      · rename_i same
        cases entry
        exact ⟨counterTable, put_self .., same⟩
      · simp at entry
    · intro t beyond
      have other : t ≠ 0 := Nat.ne_of_gt beyond
      rw [counterStore, put_other _ other, create_other other]
      rfl
  fine := counterStore_holds ⟨by decide, by decide +kernel, by decide⟩

/-- The arguments of a `get_value`. -/
def getting : List Str := [lit "localhost", lit "8080", lit "ann", lit "a", lit "k"]

/-- One client reads a key, and all others set it. -/
def gettingSet (c : ConnId) : Client := if c = 0 then get_value getting ⟨[], []⟩ else set_value setting ⟨[], []⟩

private theorem gettingSet_started (c : ConnId) : Started (gettingSet c) := by
  unfold gettingSet
  split
  · exact .get_value (by decide) _
  · exact .set_value (by decide) _

/-- The client of a connection has exited with 0 and has printed the lines. -/
def hasPrinted (c : ConnId) (out : List Str) (w : Processes) : Bool :=
  match w.clients c with
  | .done (.ok n) con => n == 0 && con.cout == out
  | _ => false

/-- The client that reads is the second one to come to the table. -/
theorem printed_set : ∃ (w : Processes) (h : History) (w₁ : Processes),
    Moment [⟨.LOGIN, [lit "ann"]⟩, ⟨.GET, [lit "a", lit "k"]⟩] (lit "a") (lit "k") (lit "7") h w₁ 0 ∧
      hasPrinted 0 [lit "7\n"] w = true := by
  have shown : (World.execute (exchanges 0 [2] ++ exchanges 1 [2, 2, 7] ++ exchanges 0 [7, 2, 2])
      (opening counterStore (fun _ => false) gettingSet)).any (fun r => hasPrinted 0 [lit "7\n"] r.2) = true := by
    decide +kernel
  obtain ⟨h, w, run, holds⟩ := World.run_of_check shown
  have done : ∃ con, w.clients 0 = .done (.ok 0) con ∧ con.cout = [lit "7\n"] := by
    unfold hasPrinted at holds
    split at holds
    · rename_i n con here
      simp only [Bool.and_eq_true, beq_iff_eq] at holds
      exact ⟨con, by rw [here, holds.1], holds.2⟩
    · cases holds
  obtain ⟨con, exited, out⟩ := done
  have mine : gettingSet 0 = get_value [lit "localhost", lit "8080", lit "ann", lit "a", lit "k"] ⟨[], []⟩ := rfl
  have wireable : ∀ m ∈ gettings (lit "ann") (lit "a") (lit "k"), Wireable m := by decide +kernel
  obtain ⟨v, before, after, w₁, same, _, _, _, moment⟩ :=
    printed counterStore_settled gettingSet_started mine wireable run exited
  obtain rfl : v = lit "7" := by
    have line : v ++ lit "\n" = lit "7" ++ lit "\n" := by
      rw [out] at same
      exact (List.singleton_inj.mp same).symm
    exact List.append_cancel_right line
  exact ⟨w, before, w₁, moment, holds⟩

private theorem received_moves {input : Input} (inside : input ∈ Dialogue.received c tr) :
    ∃ l, (c, .recv l input) ∈ tr := by
  obtain ⟨⟨d, e⟩, member, here⟩ := List.mem_filterMap.mp inside
  cases e with
  | recv l input' =>
    dsimp only at here
    split at here
    · rename_i mine
      subst mine
      cases here
      exact ⟨l, member⟩
    · cases here
  | _ => cases here

private theorem received_append (tr tr' : ServerTrace) :
    Dialogue.received c (tr ++ tr') = Dialogue.received c tr ++ Dialogue.received c tr' := List.filterMap_append

private theorem received_apart (apart : ∀ step ∈ tr, step.1 ≠ c) : Dialogue.received c tr = [] := by
  rw [List.eq_nil_iff_forall_not_mem]
  intro input inside
  obtain ⟨l, member⟩ := received_moves inside
  exact apart _ member rfl

/-- In every run of the client programs against the server, a `set_value` that exits with 0 has
    stored its value: at some moment at which it was waiting for the response to its SET the
    table had that value under the key, still locked by the worker and with nothing pending. -/
theorem stored (settled : Settled sh) (clients : ∀ c, Started (programs c))
    (mine : programs c = set_value [hostname, port, username, table, key, value] con)
    (wireable : ∀ m ∈ settings username table key value, Wireable m)
    (run : World.Run (opening sh memory programs) h w) (exited : w.clients c = .done (.ok 0) con') :
    ∃ before after w₁, h = before ++ after ∧ World.Run (opening sh memory programs) before w₁ ∧
      World.Run w₁ after w ∧
      Moment [⟨.LOGIN, [username]⟩, ⟨.PUSH, [value]⟩, ⟨.SET, [table, key]⟩] table key value before w₁ c := by
  have path := (settled.linked clients run c).path
  rw [exited, mine] at path
  obtain ⟨b₁, b₂, b₃, b₄, exchanged⟩ := set_value_path path
  obtain ⟨us, vs, recorded, all, _⟩ := turns_exchanged settled clients wireable run exited exchanged
  obtain ⟨t₁, us₁, ⟨login, line₁⟩, all₁, rfl⟩ := List.forall₂_cons_right_iff.mp all
  obtain ⟨t₂, us₂, ⟨push, line₂⟩, all₂, rfl⟩ := List.forall₂_cons_right_iff.mp all₁
  obtain ⟨t₃, us₃, ⟨set_, line₃⟩, all₃, rfl⟩ := List.forall₂_cons_right_iff.mp all₂
  obtain ⟨t₄, us₄, _, _, rfl⟩ := List.forall₂_cons_right_iff.mp all₃
  obtain ⟨goes₁, chain⟩ := List.isChain_cons_cons.mp recorded.told.chain
  obtain ⟨goes₂, chain⟩ := List.isChain_cons_cons.mp chain
  have goes₃ := (List.isChain_cons_cons.mp chain).1
  have shows_ := push_path push (login_shows login goes₁ (recorded.told.first t₁ (by simp))) goes₂
  obtain ⟨a, called⟩ := set_path set_ shows_ goes₃
  obtain ⟨earlier, l, later, cut, inputs⟩ := recorded.called [t₁, t₂] t₃ (t₄ :: (us₄ ++ vs)) rfl _ called
  -- The worker writes to the table, and has one more line to read.
  obtain ⟨l', member⟩ : ∃ l', (c, .recv l' t₄.input) ∈ later := by
    refine received_moves (c := c) ?_
    have whole := recorded.read
    rw [cut, received_append, inputs] at whole
    have rest : Dialogue.received c later = t₄.input :: (us₄ ++ vs).map Turn.input :=
      (List.append_right_inj [t₁.input, t₂.input, t₃.input]).mp whole
    rw [rest]
    exact List.mem_cons_self
  obtain ⟨h₁, h₂, w₁, w₂, whole, rfl, rfl, opens, one, closes⟩ := served_cut run cut
  obtain ⟨k, _, _, here, exec, _, next⟩ := step_call (step_served one).1
  obtain ⟨said, ⟨tb, at_, name, held, clean⟩, goesOn⟩ := set_locked settled opens.server here inputs login push set_
  obtain ⟨tb', there, after⟩ := exec_set exec
  obtain rfl : tb = tb' := Option.some.inj (at_.symm.trans there)
  -- The next thing it does is the commit, and nobody else touches the table before.
  rw [goesOn] at next
  obtain ⟨⟨others, rest, r, _, _, cut', apart, _⟩⟩ := closes.server.calling next member
  obtain ⟨h₃, h₄, w₃, w₄, whole', rfl, _, opens', one', closes'⟩ := served_cut closes cut'
  obtain ⟨k', _, _, here', exec', up', next'⟩ := step_call (step_served one').1
  rw [opens'.server.others apart, next] at here'
  cases here'
  have same : w₂.server.shared.heap a = some (tb.set key value) := by rw [after, put_self]
  have still : w₃.server.shared.heap a = some (tb.set key value) := by
    rw [locked_stays settled.quiescent (opens.step one).server opens'.server apart (holder_eq.mpr ⟨_, same, held⟩)]
    exact same
  obtain ⟨tb', there', after'⟩ := exec_commit exec'
  obtain rfl : tb.set key value = tb' := Option.some.inj (still.symm.trans there')
  have shown : Shown w₄.server c table key value := by
    refine ⟨a, (tb.set key value).commit_changes, by rw [after', put_self], name, held, rfl, ?_⟩
    rw [Table.set_commit_getElem? clean, if_pos rfl]
  have upTo := (run_append (opens.step one) opens').step one'
  refine ⟨_, h₄, w₄, ?_, upTo, closes', ?_⟩
  · rw [whole, whole']
    simp
  · refine moment_now settled clients upTo up' next' ?_ ?_ shown
    · rw [served_step, served_append, served_step, readBy, received_call, received_append, received_call,
        received_apart apart, List.append_nil, inputs]
      simp [line₁, line₂, line₃]
    · rw [served_step, served_append, served_step, responses_quiet rfl, responses_append, responses_quiet rfl,
        responses_apart apart, List.append_nil, said]
      simp

/-- A client sets the key while another one has logged in. -/
theorem stored_settling : ∃ (w : Processes) (h : History) (w₁ : Processes), exitedWith 0 0 w = true ∧
    Moment [⟨.LOGIN, [lit "ann"]⟩, ⟨.PUSH, [lit "7"]⟩, ⟨.SET, [lit "a", lit "k"]⟩] (lit "a") (lit "k") (lit "7") h
      w₁ 0 := by
  have shown : (World.execute (exchanges 0 [2, 2] ++ exchanges 1 [2] ++ exchanges 0 [7, 2]) settling).any
      (fun r => exitedWith 0 0 r.2) = true := by
    decide +kernel
  obtain ⟨h, w, run, holds⟩ := World.run_of_check shown
  obtain ⟨con, exited⟩ := exitedWith_done (w := w) holds
  have mine : (fun _ => set_value setting ⟨[], []⟩ : ConnId → Client) 0 =
      set_value [lit "localhost", lit "8080", lit "ann", lit "a", lit "k", lit "7"] ⟨[], []⟩ := rfl
  have wireable : ∀ m ∈ settings (lit "ann") (lit "a") (lit "k") (lit "7"), Wireable m := by decide +kernel
  obtain ⟨before, after, w₁, _, _, _, moment⟩ := stored counterStore_settled settling_started mine wireable run exited
  exact ⟨w, before, w₁, holds, moment⟩

end

end TableServer.Cells
