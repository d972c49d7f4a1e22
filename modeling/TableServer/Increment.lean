import TableServer.Login

/-!
Clients that each add one to the same key, each in a transaction. Whoever gets the
table keeps it from its GET to its COMMIT, so that what it has read stays the committed
value until it writes; whoever is refused stops. No increment is lost.
-/

namespace TableServer.Increment
open TableServer.Bytes TableServer.Messages TableServer.Serialization TableServer.Stores TableServer.Numbers
open TableServer.Connection TableServer.Server TableServer.Requests TableServer.Tokens TableServer.Login
open Resumption Interleaving

variable {memory : ConnId → Bool} {tr : ServerTrace} {s : ServerState} {l : Local} {input : Input}
  {username : ConnId → Str} {table key : Str} {a : Addr} {c : ConnId} {x : Int}

/-- The requests of `incr_value -t`. -/
def script (username table key : Str) : List Message :=
  [⟨.LOGIN, [username]⟩, ⟨.BEGIN, []⟩, ⟨.GET, [table, key]⟩, ⟨.PUSH, [lit "1"]⟩, ⟨.ADD, []⟩, ⟨.SET, [table, key]⟩,
    ⟨.COMMIT, []⟩, ⟨.BYE, []⟩]

/-- The client takes the response for an OK. -/
def isOK (line : Str) : Bool := (decode line).toOption.any fun m => m.m_message_type == .OK

/-- What arrives from the client of a connection after a trace: its next request, as long
    as all responses were OK, and otherwise it has stopped. -/
def Sends (username table key : Str) (c : ConnId) (tr : ServerTrace) (input : Input) : Prop :=
  if (responses c tr).all isOK then requestOf input = (script username table key)[(responses c tr).length]?
  else input = .closed

/-- All that the connections read is what their clients send. -/
def Follows (username : ConnId → Str) (table key : Str) (tr : ServerTrace) : Prop :=
  ∀ before c l input after, tr = before ++ (c, .recv l input) :: after → Sends (username c) table key c before input

theorem Follows.shorter {step : ConnId × ServerEvent} (follows : Follows username table key (tr ++ [step])) :
    Follows username table key tr := by
  intro before c l input after cut
  exact follows before c l input (after ++ [step]) (by rw [cut]; simp)

theorem Follows.last (follows : Follows username table key (tr ++ [(c, .recv l input)])) :
    Sends (username c) table key c tr input := follows tr c l input [] rfl

def isCommit (a : Addr) : ServerEvent → Bool
  | .call _ _ (.commit_changes t) _ => t == a
  | _ => false

/-- How many transactions have executed `commit_changes` on the table. -/
def commits (a : Addr) (tr : ServerTrace) : Nat := tr.countP fun step => isCommit a step.2

/-! ## How far a connection is -/

/-- How far a connection is with the table, with the number that it has read. -/
inductive Stage where
  | outside
  | locked
  | read (x : Int)
  | written (x : Int)
  | committed
  | unlocked
  /-- The lock was refused, and the client does not know it yet. -/
  | refused
  | failed

namespace Stage

/-- The connection has locked the table. -/
def holds : Stage → Bool
  | locked | read _ | written _ | committed => true
  | _ => false

/-- The connection has committed. -/
def counted : Stage → Bool
  | committed | unlocked => true
  | _ => false

/-- All responses so far have been OK. -/
def live : Stage → Bool
  | failed => false
  | _ => true

end Stage

/-- How many requests have been answered OK, and how far the connection is with the table. -/
structure Ghost where
  answered : Nat
  stage : Stage

/-- After a response. -/
def Ghost.replied (g : Ghost) : Ghost :=
  match g.stage with
  | .refused => ⟨g.answered, .failed⟩
  | .failed => g
  | _ => ⟨g.answered + 1, g.stage⟩

/-- A number that can be read and incremented as an `int`. -/
def InRange (x : Int) : Prop := -2147483648 ≤ x ∧ x + 1 < 2147483648

/-- The members of a connection that is logged in. -/
structure Shows (l : Local) (stk : List Str) (mode : Bool) (tables : List Addr) : Prop where
  login : l.logged_in = true
  stack : l.client_stack.stk = stk
  mode : l.transaction_mode = mode
  locked : l.locked_tables.addrs = tables

/-- Where a connection can be between requests, and its members there. -/
inductive Standing (a : Addr) (l : Local) : Ghost → Prop
  | start (untouched : Untouched l) : Standing a l ⟨0, .outside⟩
  | entered (shows_ : Shows l [] false []) : Standing a l ⟨1, .outside⟩
  | begun (shows_ : Shows l [] true []) : Standing a l ⟨2, .outside⟩
  | got {x : Int} (range : InRange x) (shows_ : Shows l [to_string x] true [a]) : Standing a l ⟨3, .read x⟩
  | pushed {x : Int} (range : InRange x) (shows_ : Shows l [lit "1", to_string x] true [a]) : Standing a l ⟨4, .read x⟩
  | added {x : Int} (shows_ : Shows l [to_string (x + 1)] true [a]) : Standing a l ⟨5, .read x⟩
  | changed {x : Int} (shows_ : Shows l [] true [a]) : Standing a l ⟨6, .written x⟩
  | committed (shows_ : Shows l [] false []) : Standing a l ⟨7, .unlocked⟩
  | failed (n : Nat) : Standing a l ⟨n, .failed⟩

/-- What a connection reads next. -/
def Expects (table key : Str) (g : Ghost) (input : Input) : Prop :=
  match g.stage with
  | .failed => input = .closed
  | _ => ∃ username, requestOf input = (script username table key)[g.answered]?

/-- The responses in each stage. -/
def Answers (g : Ghost) (line : Str) : Prop :=
  match g.stage with
  | .refused => isOK line = false
  | .failed => True
  | _ => isOK line = true

/-- The operations in each stage. -/
def Allowed (table key : Str) (a : Addr) (g : Ghost) : Op → Prop
  | .find_table name => name = table
  | .trylock t => t = a ∧ g.stage = .outside
  | .get t k => t = a ∧ k = key ∧ g.stage = .locked
  | .set t k value => t = a ∧ k = key ∧ ∃ x, g.stage = .read x ∧ value = to_string (x + 1)
  | .commit_changes t => t = a ∧ ∃ x, g.stage = .written x
  | .unlock t => t = a ∧ g.stage = .committed
  | .write line => Answers g line
  | _ => False

/-- What an operation returns, and the stage after it. -/
def Moves (a : Addr) (g : Ghost) (op : Op) (r : Res op) (g' : Ghost) : Prop :=
  match op, r with
  | .find_table _, found => found = some a ∧ g' = g
  | .trylock _, got => g' = ⟨g.answered, if got then .locked else .refused⟩
  | .get _ _, value => ∃ x, value = .ok (to_string x) ∧ InRange x ∧ g' = ⟨g.answered, .read x⟩
  | .set _ _ _, _ => ∃ x, g.stage = .read x ∧ g' = ⟨g.answered, .written x⟩
  | .commit_changes _, _ => g' = ⟨g.answered, .committed⟩
  | .unlock _, _ => g' = ⟨g.answered, .unlocked⟩
  | .write _, _ => g' = g.replied
  | _, _ => g' = g

/-- The discipline of the clients. -/
def adding (table key : Str) (a : Addr) : Discipline Ghost Local Input Fault Op Res where
  rest l g := Standing a l g
  gone _ _ := True
  failed _ _ _ := True
  node _ g _ op := Allowed table key a g op
  take g _ input g' := g' = g ∧ Expects table key g input
  next _ g _ op r g' := Moves a g op r g'

/-! ## One request -/

/-- A response of OK, after which the connection goes on. -/
theorem adding_ok {n : Nat} {stage : Stage} (live : Answers ⟨n, stage⟩ (lit "OK\n")) (said : l.response = ⟨.OK, []⟩)
    (standing : Standing a l (Ghost.replied ⟨n, stage⟩)) :
    (adding table key a).Ensures input (adding table key a).outcome (responding true l) ⟨n, stage⟩ := by
  unfold responding
  rw [said, ok_encoded]
  refine ⟨live, ?_⟩
  rintro _ g' rfl
  exact standing

theorem ok_isOK : isOK (lit "OK\n") = true := by decide

private theorem adding_login {username : Str} (asked : requestOf input = some ⟨.LOGIN, [username]⟩)
    (untouched : Untouched l) :
    (adding table key a).Ensures input (adding table key a).outcome (chat_with_client input l) ⟨0, .outside⟩ := by
  rw [login_run asked rfl]
  exact adding_ok ok_isOK rfl (.entered ⟨rfl, untouched.stack, untouched.mode, untouched.locked⟩)

private theorem adding_begin (asked : requestOf input = some ⟨.BEGIN, []⟩) (shows_ : Shows l [] false []) :
    (adding table key a).Ensures input (adding table key a).outcome (chat_with_client input l) ⟨1, .outside⟩ := by
  rw [request_run asked (by simp) shows_.login]
  exact adding_ok (l := { l.respond .OK [] with transaction_mode := true }) ok_isOK rfl
    (.begun ⟨shows_.login, shows_.stack, rfl, shows_.locked⟩)

private theorem adding_push (asked : requestOf input = some ⟨.PUSH, [lit "1"]⟩) (range : InRange x)
    (shows_ : Shows l [to_string x] true [a]) :
    (adding table key a).Ensures input (adding table key a).outcome (chat_with_client input l) ⟨3, .read x⟩ := by
  rw [request_run asked (by simp) shows_.login]
  refine adding_ok (l := (l.withStack (lit "1" :: l.client_stack.stk)).respond .OK []) ok_isOK rfl ?_
  exact .pushed range ⟨shows_.login, by rw [← shows_.stack]; rfl, shows_.mode, shows_.locked⟩

/-- The ADD finds the one on top and the number under it. -/
theorem adding_add (asked : requestOf input = some ⟨.ADD, []⟩) (range : InRange x)
    (shows_ : Shows l [lit "1", to_string x] true [a]) :
    (adding table key a).Ensures input (adding table key a).outcome (chat_with_client input l) ⟨4, .read x⟩ := by
  have small : -2147483648 ≤ x ∧ x < 2147483648 := by
    unfold InRange at range
    omega
  have one : stoi (lit "1") = .ok 1 := by decide
  have pair : operands l.client_stack.stk = some (1, x) := by
    rw [shows_.stack, operands, one, stoi_to_string small]
  have sum : arithmetically add l =
      (.ok true, (l.withStack (to_string (1 + x) :: l.client_stack.stk.drop 2)).respond .OK []) := by
    simp only [arithmetically, pair, add_defined (a := 1) (by omega) small]
  have whole : (requesting ⟨.ADD, []⟩ l).bind settle = settle (arithmetically add l).1 (arithmetically add l).2 := rfl
  rw [request_run asked (by simp) shows_.login, whole, sum]
  refine adding_ok (l := (l.withStack (to_string (1 + x) :: l.client_stack.stk.drop 2)).respond .OK []) ok_isOK rfl ?_
  have stack : to_string (1 + x) :: l.client_stack.stk.drop 2 = [to_string (x + 1)] := by
    rw [shows_.stack, Int.add_comm]
    rfl
  exact .added ⟨shows_.login, stack, shows_.mode, shows_.locked⟩

private theorem adding_bye (asked : requestOf input = some ⟨.BYE, []⟩) (shows_ : Shows l [] false []) :
    (adding table key a).Ensures input (adding table key a).outcome (chat_with_client input l) ⟨7, .unlocked⟩ := by
  rw [request_run asked (by simp) shows_.login]
  have whole : (requesting ⟨.BYE, []⟩ l).bind settle = responding false (l.respond .OK []) := rfl
  rw [whole, responding]
  split
  · rename_i line run
    obtain rfl : lit "OK\n" = line := Except.ok.inj (ok_encoded.symm.trans run)
    exact ⟨ok_isOK, fun _ _ _ => trivial⟩
  · trivial

/-- A client that has stopped is told so, and nothing else happens. -/
theorem adding_closed (n : Nat) :
    (adding table key a).Ensures .closed (adding table key a).outcome (chat_with_client .closed l) ⟨n, .failed⟩ := by
  have whole : chat_with_client .closed l = responding false (l.respond .ERROR [readError]) := chat_run .closed l
  rw [whole, responding]
  split
  · exact ⟨trivial, fun _ _ _ => trivial⟩
  · trivial

/-- A COMMIT of the one table. -/
theorem adding_commit (asked : requestOf input = some ⟨.COMMIT, []⟩) (shows_ : Shows l [] true [a]) :
    (adding table key a).Ensures input (adding table key a).outcome (chat_with_client input l) ⟨6, .written x⟩ := by
  rw [request_run asked (by simp) shows_.login, requesting, releasing_bind, shows_.locked]
  refine ⟨⟨rfl, x, rfl⟩, ?_⟩
  rintro _ _ rfl
  refine ⟨⟨rfl, rfl⟩, ?_⟩
  rintro _ _ rfl
  exact adding_ok (l := l.released.respond .OK []) ok_isOK rfl (.committed ⟨shows_.login, shows_.stack, rfl, rfl⟩)

/-- A GET that is refused the table is answered FAILED. -/
theorem adding_refused {n : Nat} (unlocked : l.locked_tables.addrs = []) :
    (adding table key a).Ensures input (adding table key a).outcome
      (settle (.error (.thrown (.FailedTransaction lockRefused))) l) ⟨n, .refused⟩ := by
  have refusal_ : encode ⟨.FAILED, [lockRefused]⟩ = .ok (lit "FAILED Failed to acquire lock\n") := by decide +kernel
  rw [settle, unlocked]
  show (adding table key a).Ensures input _ (responding true (l.released.respond .FAILED [lockRefused])) _
  unfold responding
  have said : (l.released.respond .FAILED [lockRefused]).response = ⟨.FAILED, [lockRefused]⟩ := rfl
  rw [said, refusal_]
  refine ⟨?_, ?_⟩
  · show isOK _ = false
    decide +kernel
  · rintro _ _ rfl
    exact .failed n

private theorem adding_get (asked : requestOf input = some ⟨.GET, [table, key]⟩) (shows_ : Shows l [] true []) :
    (adding table key a).Ensures input (adding table key a).outcome (chat_with_client input l) ⟨2, .outside⟩ := by
  rw [request_run asked (by simp) shows_.login]
  refine ⟨rfl, ?_⟩
  rintro _ _ ⟨rfl, rfl⟩
  have unlocked : l.locked_tables.contains a = false := by simp [TableSet.contains, shows_.locked]
  have whole : (locking a l (reading a key)).bind settle = .call l (.trylock a) fun got =>
      (if got then reading a key (l.withLocked a) else .done (.error (.thrown (.FailedTransaction lockRefused))) l).bind
        settle := by
    rw [locking, shows_.mode, if_pos rfl, unlocked, if_neg (by decide)]
    rfl
  show (adding table key a).Ensures input _ ((locking a l (reading a key)).bind settle) _
  rw [whole]
  refine ⟨⟨rfl, rfl⟩, ?_⟩
  rintro got _ rfl
  cases got with
  | false => exact adding_refused shows_.locked
  | true =>
    refine ⟨⟨rfl, rfl, rfl⟩, ?_⟩
    rintro _ _ ⟨x, rfl, range, rfl⟩
    have stack : (l.withLocked a).client_stack.stk = [] := shows_.stack
    have locked : (l.withLocked a).locked_tables.addrs = [a] := by
      show TableSet.insertAddr a l.locked_tables.addrs = [a]
      rw [shows_.locked]
      rfl
    have inside : ((l.withLocked a).withStack [to_string x]).transaction_mode = true := shows_.mode
    dsimp only
    rw [stack, autocommitting, if_pos inside]
    exact adding_ok (l := ((l.withLocked a).withStack [to_string x]).respond .OK []) ok_isOK rfl
      (.got range ⟨shows_.login, rfl, inside, locked⟩)

private theorem adding_set (asked : requestOf input = some ⟨.SET, [table, key]⟩)
    (shows_ : Shows l [to_string (x + 1)] true [a]) :
    (adding table key a).Ensures input (adding table key a).outcome (chat_with_client input l) ⟨5, .read x⟩ := by
  rw [request_run asked (by simp) shows_.login]
  refine ⟨rfl, ?_⟩
  rintro _ _ ⟨rfl, rfl⟩
  have locked : l.locked_tables.contains a = true := by simp [TableSet.contains, shows_.locked]
  have whole : (locking a l (writing a key)).bind settle =
      .call (l.withStack []) (.set a key (to_string (x + 1))) fun _ =>
        (autocommitting a (l.withStack []) (.done (.ok true) ((l.withStack []).respond .OK []))).bind settle := by
    rw [locking, shows_.mode, if_pos rfl, if_pos locked, writing, shows_.stack]
    rfl
  show (adding table key a).Ensures input _ ((locking a l (writing a key)).bind settle) _
  rw [whole]
  refine ⟨⟨rfl, rfl, x, rfl, rfl⟩, ?_⟩
  rintro _ _ ⟨y, same, rfl⟩
  have inside : (l.withStack []).transaction_mode = true := shows_.mode
  rw [autocommitting, if_pos inside]
  exact adding_ok (l := (l.withStack []).respond .OK []) ok_isOK rfl
    (.changed ⟨shows_.login, rfl, inside, shows_.locked⟩)

/-- Every request of the sequence follows the discipline. -/
theorem adding_iteration {g : Ghost} (standing : Standing a l g) (expects : Expects table key g input) :
    (adding table key a).Ensures input (adding table key a).outcome (chat_with_client input l) g := by
  cases standing with
  | start untouched =>
    obtain ⟨username, asked⟩ := expects
    exact adding_login asked untouched
  | entered shows_ =>
    obtain ⟨username, asked⟩ := expects
    exact adding_begin asked shows_
  | begun shows_ =>
    obtain ⟨username, asked⟩ := expects
    exact adding_get asked shows_
  | got range shows_ =>
    obtain ⟨username, asked⟩ := expects
    exact adding_push asked range shows_
  | pushed range shows_ =>
    obtain ⟨username, asked⟩ := expects
    exact adding_add asked range shows_
  | added shows_ =>
    obtain ⟨username, asked⟩ := expects
    exact adding_set asked shows_
  | changed shows_ =>
    obtain ⟨username, asked⟩ := expects
    exact adding_commit asked shows_
  | committed shows_ =>
    obtain ⟨username, asked⟩ := expects
    exact adding_bye asked shows_
  | failed n =>
    obtain rfl : input = .closed := expects
    exact adding_closed n

/-! ## What holds of all connections together -/

section
variable {gs : ConnId → Ghost} {g' : Ghost} {tb tb' : Table} {v : Int} {n n' : Nat}

/-- What the stage of the connection that has locked the table says of the number `v` that
    is committed and of what is pending. -/
def Pending (v : Int) (pending : Option Str) : Stage → Prop
  | .read x => x = v ∧ pending = none
  | .written x => x = v ∧ pending = some (to_string (x + 1))
  | _ => pending = none

/-- The table, after `n` increments of `v`. -/
structure Holds (key : Str) (v : Int) (gs : ConnId → Ghost) (n : Nat) (tb : Table) : Prop where
  stored : tb.theMap[key]? = some (to_string (v + n))
  held : ∀ c, (gs c).stage.holds = true ↔ tb.m_mutex = some c
  pending : ∀ c, tb.m_mutex = some c → Pending (v + n) tb.tempMap[key]? (gs c).stage
  clean : tb.m_mutex = none → tb.tempMap[key]? = none

/-- Nobody else has locked a table that is free or that `c` has locked. -/
theorem Holds.alone (holds : Holds key v gs n tb) (mine : tb.m_mutex = none ∨ tb.m_mutex = some c) {d : ConnId}
    (other : d ≠ c) : (gs d).stage.holds = false := by
  by_contra yes
  have byD := (holds.held d).mp (Bool.eq_true_of_not_eq_false yes)
  rcases mine with free | byC
  · rw [free] at byD
    cases byD
  · rw [byC] at byD
    exact other (Option.some.inj byD).symm

/-- A connection in a stage that has locked the table: the pending number is its own. -/
theorem Holds.locked {stage : Stage} (holds : Holds key v gs n tb) (at_ : (gs c).stage = stage)
    (inside : stage.holds = true) : tb.m_mutex = some c ∧ Pending (v + n) tb.tempMap[key]? stage := by
  subst at_
  have byC := (holds.held c).mp inside
  exact ⟨byC, holds.pending c byC⟩

/-- The table after a step of a connection that has locked it before or locks it then. -/
theorem Holds.move (holds : Holds key v gs n tb) (mine : tb.m_mutex = none ∨ tb.m_mutex = some c)
    (stored : tb'.theMap[key]? = some (to_string (v + n')))
    (mutex : tb'.m_mutex = if g'.stage.holds then some c else none)
    (pending : Pending (v + n') tb'.tempMap[key]? g'.stage)
    (clean : g'.stage.holds = false → tb'.tempMap[key]? = none) :
    Holds key v (Function.update gs c g') n' tb' := by
  refine ⟨stored, ?_, ?_, ?_⟩
  · intro d
    by_cases same : d = c
    · rw [same, Function.update_self, mutex]
      by_cases locked : g'.stage.holds = true
      · simp [locked]
      · simp [locked]
    · rw [Function.update_of_ne same, holds.alone mine same, mutex]
      constructor
      · intro no
        cases no
      · intro byD
        split at byD
        · exact absurd (Option.some.inj byD).symm same
        · cases byD
  · intro d byD
    rw [mutex] at byD
    split at byD
    · obtain rfl := Option.some.inj byD
      rw [Function.update_self]
      exact pending
    · cases byD
  · intro free
    refine clean ?_
    by_contra locked
    rw [mutex, if_pos (Bool.eq_true_of_not_eq_false locked)] at free
    cases free

/-- The table when a connection moves on without it. -/
theorem Holds.still (holds : Holds key v gs n tb)
    (same : g'.stage = (gs c).stage ∨ (g'.stage.holds = false ∧ (gs c).stage.holds = false)) :
    Holds key v (Function.update gs c g') n tb := by
  have locked : ∀ d, (Function.update gs c g' d).stage.holds = (gs d).stage.holds := by
    refine (Function.forall_update_iff gs fun d g => g.stage.holds = (gs d).stage.holds).mpr ⟨?_, fun _ _ => rfl⟩
    rcases same with equal | ⟨after, before⟩
    · rw [equal]
    · rw [after, before]
  refine ⟨holds.stored, ?_, ?_, holds.clean⟩
  · intro d
    rw [locked d]
    exact holds.held d
  · refine (Function.forall_update_iff gs fun d g => tb.m_mutex = some d → Pending (v + n) tb.tempMap[key]? g.stage).mpr
      ⟨?_, fun d _ => holds.pending d⟩
    intro byC
    rcases same with equal | ⟨_, no⟩
    · rw [equal]
      exact holds.pending c byC
    · have yes := (holds.held c).mpr byC
      rw [no] at yes
      cases yes

/-- The connections that have committed. -/
def counted (clients : Finset ConnId) (gs : ConnId → Ghost) : Finset ConnId :=
  clients.filter fun c => (gs c).stage.counted = true

private theorem counted_same {clients : Finset ConnId} (same : g'.stage.counted = (gs c).stage.counted) :
    counted clients (Function.update gs c g') = counted clients gs := by
  have stays : ∀ d, (Function.update gs c g' d).stage.counted = (gs d).stage.counted :=
    (Function.forall_update_iff gs fun d g => g.stage.counted = (gs d).stage.counted).mpr ⟨same, fun _ _ => rfl⟩
  refine Finset.filter_congr ?_
  intro d _
  rw [stays]

private theorem counted_more {clients : Finset ConnId} (inside : c ∈ clients) (before : (gs c).stage.counted = false)
    (after : g'.stage.counted = true) :
    (counted clients (Function.update gs c g')).card = (counted clients gs).card + 1 := by
  have new : c ∉ counted clients gs := by simp [counted, before]
  have grown : counted clients (Function.update gs c g') = insert c (counted clients gs) := by
    ext d
    by_cases mine : d = c
    · simp [counted, mine, inside, after]
    · simp [counted, mine]
  rw [grown, Finset.card_insert_of_notMem new]

/-- One that has not committed is missing from those that have. -/
theorem counted_less {clients : Finset ConnId} (inside : c ∈ clients) (before : (gs c).stage.counted = false) :
    (counted clients gs).card < clients.card := by
  refine Finset.card_lt_card ((Finset.ssubset_iff_of_subset (Finset.filter_subset _ _)).mpr ⟨c, inside, ?_⟩)
  simp [before]

/-- What a connection has been told, by its stage. -/
def Heard (g : Ghost) (lines : List Str) : Prop :=
  match g.stage with
  | .failed => lines.all isOK = false
  | _ => lines.all isOK = true ∧ lines.length = g.answered

theorem heard_live {g : Ghost} {lines : List Str} (live : g.stage.live = true) :
    Heard g lines ↔ lines.all isOK = true ∧ lines.length = g.answered := by
  obtain ⟨answered, stage⟩ := g
  cases stage with
  | failed => cases live
  | _ => exact Iff.rfl

end

/-! ## The invariant -/

/-- The store and the trace after any steps of the clients. -/
structure Adding (table key : Str) (a : Addr) (v : Int) (clients : Finset ConnId) (gs : ConnId → Ghost)
    (tr : ServerTrace) (sh : Shared) : Prop where
  named : sh.server_tables[table]? = some a
  holds : ∃ tb, sh.heap a = some tb ∧ Holds key v gs (commits a tr) tb
  counts : commits a tr = (counted clients gs).card
  heard : ∀ c, Heard (gs c) (responses c tr)

section
variable {gs : ConnId → Ghost} {g' : Ghost} {v : Int} {clients : Finset ConnId} {sh sh' : Shared} {e : ServerEvent}
  {tb tb' : Table} {fresh : Addr} {op : Op} {r : Res op}

private theorem commits_snoc (a : Addr) (tr : ServerTrace) (c : ConnId) (e : ServerEvent) :
    commits a (tr ++ [(c, e)]) = commits a tr + if isCommit a e then 1 else 0 := by
  simp [commits, List.countP_append, List.countP_cons]

/-- What the connections have been told, when one of them moves. -/
theorem heard_move (heard : ∀ d, Heard (gs d) (responses d tr)) (mine : Heard g' (responses c (tr ++ [(c, e)]))) :
    ∀ d, Heard (Function.update gs c g' d) (responses d (tr ++ [(c, e)])) := by
  refine (Function.forall_update_iff gs fun d g => Heard g (responses d (tr ++ [(c, e)]))).mpr ⟨mine, ?_⟩
  intro d other
  rw [responses_other (Ne.symm other)]
  exact heard d

private theorem Adding.there (inv : Adding table key a v clients gs tr sh) (here : sh.heap a = some tb) :
    Holds key v gs (commits a tr) tb := by
  obtain ⟨tb', here', holds⟩ := inv.holds
  obtain rfl : tb' = tb := Option.some.inj (here'.symm.trans here)
  exact holds

/-- A step on the table, or past it, of a connection that has only been told OK. -/
theorem Adding.use (inv : Adding table key a v clients gs tr sh) (tables : sh'.server_tables = sh.server_tables)
    (there : sh'.heap a = some tb') (silent : ∀ input l line r, e ≠ .call input l (.write line) r)
    (live : (gs c).stage.live = true) (live' : g'.stage.live = true) (same : g'.answered = (gs c).answered)
    (counts : commits a (tr ++ [(c, e)]) = (counted clients (Function.update gs c g')).card)
    (holds : Holds key v (Function.update gs c g') (commits a (tr ++ [(c, e)])) tb') :
    Adding table key a v clients (Function.update gs c g') (tr ++ [(c, e)]) sh' := by
  refine ⟨by rw [tables]; exact inv.named, ⟨tb', there, holds⟩, counts, heard_move inv.heard ?_⟩
  rw [responses_silent silent, heard_live live', same, ← heard_live live]
  exact inv.heard c

/-- A step that commits nothing and tells the client nothing, and leaves its connection and
    the store as they are. -/
theorem Adding.quiet (inv : Adding table key a v clients gs tr sh)
    (silent : ∀ input l line r, e ≠ .call input l (.write line) r) (plain : isCommit a e = false) :
    Adding table key a v clients gs (tr ++ [(c, e)]) sh := by
  have same : commits a (tr ++ [(c, e)]) = commits a tr := by rw [commits_snoc, plain]; rfl
  refine ⟨inv.named, ?_, by rw [same]; exact inv.counts, ?_⟩
  · rw [same]
    exact inv.holds
  · intro d
    rw [responses_silent silent]
    exact inv.heard d

/-- The same number of commits, by as many connections. -/
theorem Adding.unchanged (inv : Adding table key a v clients gs tr sh) (e : ServerEvent) (g' : Ghost)
    (plain : isCommit a e = false) (same : g'.stage.counted = (gs c).stage.counted) :
    commits a (tr ++ [(c, e)]) = commits a tr ∧
      commits a (tr ++ [(c, e)]) = (counted clients (Function.update gs c g')).card := by
  have total : commits a (tr ++ [(c, e)]) = commits a tr := by rw [commits_snoc, plain]; rfl
  exact ⟨total, by rw [total, counted_same same]; exact inv.counts⟩

theorem silent_call {op : Op} {r : Res op} (other : ∀ line, op ≠ .write line) (input' : Input) (l' : Local) (line : Str)
    (r' : Unit) : (.call input l op r : ServerEvent) ≠ .call input' l' (.write line) r' := by
  intro same
  cases same
  exact other line rfl

/-- A step on the table, or past it, that is no COMMIT. -/
theorem Adding.work {stage stage' : Stage} (inv : Adding table key a v clients gs tr sh) (at_ : (gs c).stage = stage)
    (tables : sh'.server_tables = sh.server_tables) (there : sh'.heap a = some tb') (other : ∀ line, op ≠ .write line)
    (plain : isCommit a (.call input l op r) = false) (live : stage.live = true) (live' : stage'.live = true)
    (same : stage'.counted = stage.counted)
    (holds : Holds key v (Function.update gs c ⟨(gs c).answered, stage'⟩) (commits a tr) tb') :
    Adding table key a v clients (Function.update gs c ⟨(gs c).answered, stage'⟩) (tr ++ [(c, .call input l op r)])
      sh' := by
  subst at_
  obtain ⟨total, counts⟩ := inv.unchanged (.call input l op r) ⟨(gs c).answered, stage'⟩ plain same
  refine inv.use tables there (silent_call other) live live' rfl counts ?_
  rw [total]
  exact holds

private theorem adding_trylock {got : Bool} (inv : Adding table key a v clients gs tr sh)
    (at_ : (gs c).stage = .outside) (run : exec c fresh (.trylock a) sh = some (got, sh')) :
    ∃ g', Moves a (gs c) (.trylock a) got g' ∧
      Adding table key a v clients (Function.update gs c g') (tr ++ [(c, .call input l (.trylock a) got)]) sh' := by
  refine ⟨_, rfl, ?_⟩
  obtain ⟨tb, here, taken⟩ := exec_trylock run
  have holds := inv.there here
  rcases taken with ⟨rfl, free, rfl⟩ | ⟨rfl, busy, rfl⟩
  · refine inv.work at_ rfl (put_self ..) (by simp) rfl rfl rfl rfl ?_
    refine holds.move (.inl free) holds.stored rfl (holds.clean free) ?_
    intro no
    cases no
  · refine inv.work at_ rfl here (by simp) rfl rfl rfl rfl ?_
    exact holds.still (.inr ⟨rfl, by rw [at_]; rfl⟩)

/-- The connection reads the number that is committed. -/
theorem adding_read {value : Except Exn Str} (inv : Adding table key a v clients gs tr sh) (member : c ∈ clients)
    (low : -2147483648 ≤ v) (high : v + clients.card < 2147483648) (at_ : (gs c).stage = .locked)
    (run : exec c fresh (.get a key) sh = some (value, sh')) :
    ∃ g', Moves a (gs c) (.get a key) value g' ∧
      Adding table key a v clients (Function.update gs c g') (tr ++ [(c, .call input l (.get a key) value)]) sh' := by
  obtain ⟨tb, here, rfl, rfl⟩ := exec_get run
  have holds := inv.there here
  obtain ⟨byC, none_⟩ := holds.locked at_ rfl
  have nothing : tb.tempMap[key]? = none := none_
  have number : tb.read key = to_string (v + commits a tr) := by
    rw [Table.read, Table.committed, nothing, holds.stored]
    rfl
  have kept : tb.touch key = tb := by
    refine if_neg ?_
    rintro ⟨_, absent⟩
    rw [holds.stored] at absent
    cases absent
  have range : InRange (v + commits a tr) := by
    have fewer : commits a tr < clients.card := by
      rw [inv.counts]
      exact counted_less member (by rw [at_]; rfl)
    constructor
    · omega
    · omega
  refine ⟨_, ⟨_, by rw [number], range, rfl⟩, ?_⟩
  refine inv.work at_ rfl (put_self ..) (by simp) rfl rfl rfl rfl ?_
  rw [kept]
  refine holds.move (.inr byC) holds.stored byC ⟨rfl, nothing⟩ ?_
  intro no
  cases no

private theorem adding_write (inv : Adding table key a v clients gs tr sh) (at_ : (gs c).stage = .read x)
    (run : exec c fresh (.set a key (to_string (x + 1))) sh = some ((), sh')) :
    ∃ g', Moves a (gs c) (.set a key (to_string (x + 1))) () g' ∧
      Adding table key a v clients (Function.update gs c g')
        (tr ++ [(c, .call input l (.set a key (to_string (x + 1))) ())]) sh' := by
  refine ⟨_, ⟨x, at_, rfl⟩, ?_⟩
  obtain ⟨tb, here, rfl⟩ := exec_set run
  have holds := inv.there here
  obtain ⟨byC, latest, _⟩ := holds.locked at_ rfl
  refine inv.work at_ rfl (put_self ..) (by simp) rfl rfl rfl rfl ?_
  refine holds.move (.inr byC) holds.stored byC ⟨latest, ?_⟩ ?_
  · rw [Table.set, getElem?_insert, if_pos rfl]
  · intro no
    cases no

/-- The number that is committed is the one that was read, plus one. -/
theorem adding_committed (inv : Adding table key a v clients gs tr sh) (member : c ∈ clients)
    (at_ : (gs c).stage = .written x) (run : exec c fresh (.commit_changes a) sh = some ((), sh')) :
    ∃ g', Moves a (gs c) (.commit_changes a) () g' ∧
      Adding table key a v clients (Function.update gs c g') (tr ++ [(c, .call input l (.commit_changes a) ())])
        sh' := by
  refine ⟨_, rfl, ?_⟩
  obtain ⟨tb, here, rfl⟩ := exec_commit run
  have holds := inv.there here
  obtain ⟨byC, latest, written⟩ := holds.locked at_ rfl
  have total : commits a (tr ++ [(c, .call input l (.commit_changes a) ())]) = commits a tr + 1 := by
    rw [commits_snoc]
    simp [isCommit]
  refine inv.use rfl (put_self ..) (silent_call (by simp)) (by rw [at_]; rfl) rfl rfl ?_ ?_
  · rw [total, inv.counts, counted_more member (by rw [at_]; rfl) rfl]
  · rw [total]
    have next : v + ((commits a tr + 1 : Nat) : Int) = x + 1 := by omega
    refine holds.move (.inr byC) ?_ byC (by simp [Pending]) ?_
    · rw [Table.commit_getElem?, written, next]
      rfl
    · intro no
      cases no

private theorem adding_unlock (inv : Adding table key a v clients gs tr sh) (at_ : (gs c).stage = .committed)
    (run : exec c fresh (.unlock a) sh = some ((), sh')) : ∃ g', Moves a (gs c) (.unlock a) () g' ∧
      Adding table key a v clients (Function.update gs c g') (tr ++ [(c, .call input l (.unlock a) ())]) sh' := by
  refine ⟨_, rfl, ?_⟩
  obtain ⟨tb, here, rfl⟩ := exec_unlock run
  have holds := inv.there here
  obtain ⟨byC, none_⟩ := holds.locked at_ rfl
  refine inv.work at_ rfl (put_self ..) (by simp) rfl rfl rfl rfl ?_
  exact holds.move (.inr byC) holds.stored rfl none_ (fun _ => none_)

private theorem adding_answer {line : Str} (inv : Adding table key a v clients gs tr sh)
    (answers : Answers (gs c) line) : Adding table key a v clients (Function.update gs c (gs c).replied)
      (tr ++ [(c, .call input l (.write line) ())]) sh := by
  obtain ⟨tb, here, holds⟩ := inv.holds
  have heard := inv.heard c
  obtain ⟨same, counts, told⟩ : ((gs c).replied.stage = (gs c).stage ∨
      ((gs c).replied.stage.holds = false ∧ (gs c).stage.holds = false)) ∧
      (gs c).replied.stage.counted = (gs c).stage.counted ∧ Heard (gs c).replied (responses c tr ++ [line]) := by
    generalize responses c tr = lines at heard
    generalize gs c = g at heard answers
    obtain ⟨answered, stage⟩ := g
    cases stage with
    | refused =>
      have no : isOK line = false := answers
      exact ⟨.inr ⟨rfl, rfl⟩, rfl, by simp [Heard, Ghost.replied, no]⟩
    | failed =>
      have before : lines.all isOK = false := heard
      refine ⟨.inl rfl, rfl, ?_⟩
      show (lines ++ [line]).all isOK = false
      rw [List.all_append, before]
      rfl
    | _ =>
      obtain ⟨all, count⟩ := heard
      have yes : isOK line = true := answers
      refine ⟨.inl rfl, rfl, ?_, ?_⟩
      · rw [List.all_append, all]
        simp [yes]
      · rw [List.length_append, count]
        rfl
  obtain ⟨total, counts⟩ := inv.unchanged (.call input l (.write line) ()) (gs c).replied rfl counts
  refine ⟨inv.named, ⟨tb, here, ?_⟩, counts, heard_move inv.heard ?_⟩
  · rw [total]
    exact holds.still same
  · rw [responses_write]
    exact told

theorem adding_call (inv : Adding table key a v clients gs tr sh) (member : c ∈ clients) (low : -2147483648 ≤ v)
    (high : v + clients.card < 2147483648) (allowed : Allowed table key a (gs c) op)
    (run : exec c fresh op sh = some (r, sh')) :
    ∃ g', Moves a (gs c) op r g' ∧
      Adding table key a v clients (Function.update gs c g') (tr ++ [(c, .call input l op r)]) sh' := by
  cases op with
  | find_table name =>
    obtain rfl : name = table := allowed
    obtain ⟨rfl, rfl⟩ := exec_find run
    refine ⟨gs c, ⟨inv.named, rfl⟩, ?_⟩
    rw [Function.update_eq_self]
    exact inv.quiet (silent_call (by simp)) rfl
  | trylock t =>
    obtain ⟨rfl, at_⟩ := allowed
    exact adding_trylock inv at_ run
  | get t k =>
    obtain ⟨rfl, rfl, at_⟩ := allowed
    exact adding_read inv member low high at_ run
  | set t k value =>
    obtain ⟨rfl, rfl, x, at_, rfl⟩ := allowed
    exact adding_write inv at_ run
  | commit_changes t =>
    obtain ⟨rfl, x, at_⟩ := allowed
    exact adding_committed inv member at_ run
  | unlock t =>
    obtain ⟨rfl, at_⟩ := allowed
    exact adding_unlock inv at_ run
  | write line =>
    obtain rfl := exec_write run
    exact ⟨_, rfl, adding_answer inv allowed⟩
  | create_table name => exact allowed.elim
  | lock t => exact allowed.elim
  | rollback_changes t => exact allowed.elim

end

/-! ## Every run -/

/-- What a client sends is what its connection expects. -/
theorem expects_sent {g : Ghost} {username : Str} (heard : Heard g (responses c tr))
    (sends : Sends username table key c tr input) : Expects table key g input := by
  unfold Sends at sends
  by_cases live : g.stage.live = true
  · obtain ⟨all, count⟩ := (heard_live live).mp heard
    rw [if_pos all, count] at sends
    obtain ⟨answered, stage⟩ := g
    cases stage with
    | failed => cases live
    | _ => exact ⟨username, sends⟩
  · obtain ⟨answered, stage⟩ := g
    cases stage with
    | failed =>
      have no : (responses c tr).all isOK = false := heard
      rw [no, if_neg (by decide)] at sends
      exact sends
    | _ => exact absurd rfl live

section
variable {v : Int} {clients : Finset ConnId} {sh : Shared} {tb : Table}

theorem adding_run (quiescent : Quiescent sh) (named : sh.server_tables[table]? = some a) (here : sh.heap a = some tb)
    (stored : tb.theMap[key]? = some (to_string v)) (low : -2147483648 ≤ v) (high : v + clients.card < 2147483648)
    (run : Run server (fun _ c _ => c ∈ clients) (opened sh memory) tr s) (follows : Follows username table key tr) :
    ∃ gs, Adding table key a v clients gs tr s.shared ∧ ∀ c, (adding table key a).Fits (s.threads c) (gs c) := by
  refine Discipline.sound_along (fun _ _ => Follows.shorter) ?_ ?_ ?_ ?_ ?_ run follows
  · rintro input l g _ standing ⟨rfl, expects⟩
    exact adding_iteration standing expects
  · intro gs tr s c l input follows inv member standing
    refine ⟨_, ⟨rfl, expects_sent (inv.heard c) follows.last⟩, ?_⟩
    rw [Function.update_eq_self]
    refine inv.quiet ?_ rfl
    intro _ _ _ _ same
    cases same
  · intro gs tr s c choice input l op r after follows inv member allowed exec
    have exec : Server.exec c choice op s.shared = some (r, after) := exec
    exact adding_call inv member low high allowed exec
  · intro gs tr s c input l r follows inv member ended
    refine inv.quiet ?_ rfl
    intro _ _ _ _ same
    cases same
  · refine ⟨fun _ => ⟨0, .outside⟩, ⟨named, ⟨tb, here, ?_, ?_, ?_, ?_⟩, ?_, ?_⟩, ?_⟩
    · have none_ : commits a [] = 0 := rfl
      rw [none_, stored]
      simp
    · intro c
      have free := quiescent.free a tb here
      simp [free, Stage.holds]
    · intro c byC
      rw [quiescent.free a tb here] at byC
      cases byC
    · intro _
      rw [quiescent.clean a tb here]
      rfl
    · simp [commits, counted, Stage.counted]
    · intro c
      exact ⟨rfl, rfl⟩
    · intro c
      exact .start ⟨rfl, rfl, rfl⟩

/-- Whatever the order of their steps, clients that each increment a key in a transaction
    lose no increment: the committed value is the first one plus the number of commits. -/
theorem no_lost_increment (quiescent : Quiescent sh) (named : sh.server_tables[table]? = some a)
    (here : sh.heap a = some tb) (stored : tb.theMap[key]? = some (to_string v)) (low : -2147483648 ≤ v)
    (high : v + clients.card < 2147483648)
    (run : Run server (fun _ c _ => c ∈ clients) (opened sh memory) tr s) (follows : Follows username table key tr) :
    ∃ tb', s.shared.heap a = some tb' ∧ tb'.theMap[key]? = some (to_string (v + commits a tr)) := by
  obtain ⟨gs, inv, _⟩ := adding_run quiescent named here stored low high run follows
  obtain ⟨tb', there, holds⟩ := inv.holds
  exact ⟨tb', there, holds.stored⟩

end

/-- A table with the number 41 under `k`. -/
def counterTable : Table := ((Table.create (lit "a")).set (lit "k") (lit "41")).commit_changes

def counterStore : Shared := (Shared.initial.create (lit "a") 0).put 0 counterTable

/-- Two clients meet at the table, and the one that is refused stops; a third one comes later. -/
def crowding : List (ConnId × Action Input Addr) :=
  turn 0 "LOGIN ann\n" 2 0 ++ turn 0 "BEGIN\n" 2 0 ++ turn 1 "LOGIN bob\n" 2 0 ++ turn 1 "BEGIN\n" 2 0 ++
    turn 0 "GET a k\n" 5 0 ++ turn 1 "GET a k\n" 4 0 ++ turn 0 "PUSH 1\n" 2 0 ++ [(1, .recv .closed)] ++
    turn 0 "ADD\n" 2 0 ++ turn 0 "SET a k\n" 4 0 ++ turn 0 "COMMIT\n" 4 0 ++ turn 0 "BYE\n" 2 0 ++
    turn 2 "LOGIN cyd\n" 2 0 ++ turn 2 "BEGIN\n" 2 0 ++ turn 2 "GET a k\n" 5 0 ++ turn 2 "PUSH 1\n" 2 0 ++
    turn 2 "ADD\n" 2 0 ++ turn 2 "SET a k\n" 4 0 ++ turn 2 "COMMIT\n" 4 0

def crowd (c : ConnId) : Str := if c = 0 then lit "ann" else if c = 1 then lit "bob" else lit "cyd"

instance (input : Input) : Decidable (input = .closed) :=
  match input with
  | .closed => isTrue rfl
  | .line _ => isFalse (by intro same; cases same)

instance (username table key : Str) (c : ConnId) (tr : ServerTrace) (input : Input) :
    Decidable (Sends username table key c tr input) := inferInstanceAs (Decidable (ite _ _ _))

/-- The reads of a trace that comes after `before` are what the clients send. -/
def following (username : ConnId → Str) (table key : Str) (before : ServerTrace) : ServerTrace → Bool
  | [] => true
  | (c, .recv l input) :: rest =>
    decide (Sends (username c) table key c before input) &&
      following username table key (before ++ [(c, .recv l input)]) rest
  | step :: rest => following username table key (before ++ [step]) rest

private theorem following_sends {before : ServerTrace} (yes : following username table key before tr = true) :
    ∀ middle c l input after, tr = middle ++ (c, .recv l input) :: after →
      Sends (username c) table key c (before ++ middle) input := by
  induction tr generalizing before with
  | nil => simp
  | cons step rest ih =>
    intro middle c l input after cut
    cases middle with
    | nil =>
      obtain ⟨rfl, rfl⟩ := List.cons.inj cut
      rw [following, Bool.and_eq_true] at yes
      rw [List.append_nil]
      exact of_decide_eq_true yes.1
    | cons first middle =>
      obtain ⟨rfl, rfl⟩ := List.cons.inj cut
      have later : following username table key (before ++ [step]) (middle ++ (c, .recv l input) :: after) = true := by
        obtain ⟨d, e⟩ := step
        cases e with
        | recv l input =>
          rw [following, Bool.and_eq_true] at yes
          exact yes.2
        | call input l op r => exact yes
        | finish input l r => exact yes
      have sends := ih later middle c l input after rfl
      rwa [List.append_assoc] at sends

theorem no_lost_increment_crowding : ∃ s : ServerState, ∃ tb, s.shared.heap 0 = some tb ∧
    tb.theMap[lit "k"]? = some (lit "43") := by
  have shown : (execute server (fun _ c _ => decide (c < 3)) crowding (opened counterStore fun _ => false)).any
      (fun r => following crowd (lit "a") (lit "k") [] r.1 && commits 0 r.1 == 2) = true := by
    decide +kernel
  obtain ⟨tr, s, run, holds⟩ := run_of_check shown
  simp only [Bool.and_eq_true, beq_iff_eq] at holds
  obtain ⟨sends, twice⟩ := holds
  have among : Run server (fun _ c _ => c ∈ Finset.range 3) (opened counterStore fun _ => false) tr s :=
    run.mono fun _ _ _ _ _ _ few => Finset.mem_range.mpr (of_decide_eq_true few)
  have quiescent : Quiescent counterStore := (initial_quiescent.create rfl).put rfl rfl
  obtain ⟨tb, there, value⟩ := no_lost_increment (v := 41) quiescent (by decide +kernel) (put_self ..)
    (by decide +kernel)
    (by decide) (by simp) among (following_sends sends)
  have number : to_string (41 + ((commits 0 tr : Nat) : Int)) = lit "43" := by
    rw [twice]
    decide +kernel
  rw [number] at value
  exact ⟨s, tb, there, value⟩

end TableServer.Increment
