import TableServer.Responses

/-!
What circulates stays within bounds: every response fits in a line, so that the
encoder never throws, and as long as no absent key is read, every value on a stack
or in a table is one that a response can carry to a client.
-/

namespace TableServer.Validity
open TableServer.Bytes TableServer.Messages TableServer.Serialization TableServer.Stores TableServer.Numbers
open TableServer.Connection TableServer.Server TableServer.Requests TableServer.Tokens TableServer.Values
open TableServer.Outcomes TableServer.Responses
open Resumption Interleaving

variable {memory : ConnId → Bool} {tr : ServerTrace} {s : ServerState} {l : Local} {input : Input}

/-- The exception of the encoder does not leave an iteration. -/
def Encodes (result : Except Fault Bool) (_ : Local) : Prop := ∀ what, result ≠ .error (.thrown (.InvalidMessage what))

private theorem encodes_responding {keep : Bool} {line : Str} (run : encode l.response = .ok line) :
    (responding keep l).Ends Encodes := by
  unfold responding
  rw [run]
  intro _ what same
  cases same

/-- However the handling of a line ends, the response to it encodes. -/
theorem ends_settle {result : Except Fault Bool} {r : Request} (handled : Handled result l r) :
    (settle result l).Ends Encodes := by
  rcases result with (e | _) | keep
  · cases e with
    | OperationException what =>
      obtain ⟨_, plain, _⟩ := handled
      rw [settle]
      split
      · intro what same
        cases same
      · obtain ⟨line, run, _⟩ := plain_lost plain (t := .FAILED) (.inl rfl)
        exact encodes_responding run
    | FailedTransaction what =>
      obtain ⟨rfl, _⟩ := handled
      obtain ⟨line, run, _⟩ := plain_lost (w := lockRefused) (t := .FAILED) (by decide) (.inl rfl)
      exact ends_releasing .rollback _ (encodes_responding run)
    | InvalidMessage what =>
      obtain ⟨_, _, line, run, _⟩ := handled
      exact encodes_responding run
    | CommException what =>
      obtain ⟨_, _, line, run, _⟩ := handled
      exact encodes_responding run
    | out_of_range => intro what same; cases same
    | invalid_argument => exact handled.elim
    | runtime_error what => exact handled.elim
  · intro what same
    cases same
  · obtain ⟨_, _, _, line, run, _⟩ := handled
    exact encodes_responding run

/-- The discipline of the outcomes, where moreover no exception that leaves an iteration is
    the encoder's. -/
def encoding : Discipline Request Local Input Fault Op Res :=
  { discipline with failed := fun f l r => discipline.failed f l r ∧ Encodes (.error f) l }

private theorem ensures_encoding (sound : Sound l) :
    encoding.Ensures input encoding.outcome (chat_with_client input l) ⟨input, l, []⟩ := by
  have both : discipline.Ensures input (fun result l r => discipline.outcome result l r ∧ Encodes result l)
      (chat_with_client input l) ⟨input, l, []⟩ := by
    rw [chat_run, iteration_eq]
    refine Discipline.ensures_bind (ensures_input rfl (ensures_handling sound)) ?_
    rintro result l' r' ⟨at_, handled⟩
    exact Discipline.ensures_ends (ensures_settle at_ handled) (ends_settle handled)
  refine Discipline.ensures_mono (D := encoding) (Discipline.ensures_failing _ both) ?_
  rintro (f | keep) l' r' ⟨outcome, encodes⟩
  · exact ⟨outcome, encodes⟩
  · cases keep
    · exact outcome
    · exact outcome

/-- Every response that is sent fits in a line, and the encoder's exception, which nothing
    would catch, never leaves an iteration. -/
theorem responses_fit (run : Run server anyStep (booted memory) tr s) :
    (∀ c input l line k, s.threads c = .running input (.call l (.write line) k) →
      encode l.response = .ok line ∧ line.length ≤ MAX_ENCODED_LEN) ∧
    (∀ c input l what, s.threads c ≠ .running input (.done (.error (.thrown (.InvalidMessage what))) l)) ∧
    ∀ c what, s.aborted ≠ some (c, .thrown (.InvalidMessage what)) := by
  obtain ⟨gs, _, fits⟩ := underway_run (D := encoding) rfl (fun _ _ sound => ensures_encoding sound) run
  have caught : ∀ c input l what, s.threads c ≠ .running input (.done (.error (.thrown (.InvalidMessage what))) l) := by
    intro c input l what here
    have mine := fits c
    rw [here] at mine
    exact mine.2 what rfl
  refine ⟨?_, caught, ?_⟩
  · intro c input l line k here
    obtain ⟨_, _, _, encoded, _⟩ := responses_arrive run here
    obtain ⟨rfl, fits⟩ := encode_ok encoded
    exact ⟨encoded, fits⟩
  · intro c what down
    obtain ⟨input, l, here⟩ := aborted_at run down
    exact caught c input l what here

theorem responses_fit_top : ∃ (s : ServerState) (line : Str),
    nextOp (s.threads 0) = some (.write line) ∧ line.length ≤ MAX_ENCODED_LEN := by
  have shown : (execute server noCheck topping (booted fun _ => false)).any (fun r =>
      answering (r.2.threads 0) == some (⟨.DATA, [lit "7"]⟩, lit "DATA 7\n")) = true := by
    decide +kernel
  obtain ⟨tr, s, run, holds⟩ := run_of_check shown
  obtain ⟨input, l, k, here, _⟩ := answering_eq (beq_iff_eq.mp holds)
  have fits := (responses_fit run.any).1 0 input l _ k here
  exact ⟨s, _, by rw [here]; rfl, fits.2⟩

section
variable {P : Str → Prop}

def StackHolds (P : Str → Prop) (l : Local) : Prop := ∀ v ∈ l.client_stack.stk, P v

/-- The values on the stack have the property at every point of an iteration, and so have
    those that it writes. -/
def holding (P : Str → Prop) : Discipline Unit Local Input Fault Op Res where
  rest l _ := StackHolds P l
  gone l _ := StackHolds P l
  failed _ l _ := StackHolds P l
  node _ _ l op := StackHolds P l ∧ Writes P op
  take _ _ _ _ := True
  next _ _ _ op r _ := Returns P op r

/-- What every end of a program must establish. -/
def KeepsStack (P : Str → Prop) (_ : Except Fault Bool) (l : Local) (_ : Unit) : Prop := StackHolds P l

private theorem holding_outcome {result : Except Fault Bool} (stack : StackHolds P l) :
    (holding P).outcome result l () := by
  rcases result with f | keep
  · exact stack
  · cases keep
    · exact stack
    · exact stack

private theorem holding_call {α : Type} {post : Except Fault α → Local → Unit → Prop} {op : Op} {k : Res op → Program α}
    (stack : StackHolds P l) (writes : Writes P op)
    (then_ : ∀ r, Returns P op r → (holding P).Ensures input post (k r) ()) :
    (holding P).Ensures input post (.call l op k) () := by
  refine ⟨⟨stack, writes⟩, ?_⟩
  rintro r ⟨⟩ returned
  exact then_ r returned

private theorem holding_responding {keep : Bool} (stack : StackHolds P l) :
    (holding P).Ensures input (holding P).outcome (responding keep l) () := by
  unfold responding
  split
  · exact holding_call stack trivial (fun _ _ => holding_outcome stack)
  · exact holding_outcome stack

private theorem holding_releasing {α : Type} {post : Except Fault α → Local → Unit → Prop} (ending : Ending)
    {after : Program α} (tables : List Addr) (stack : StackHolds P l)
    (then_ : (holding P).Ensures input post after ()) :
    (holding P).Ensures input post (releasing ending l after tables) () := by
  induction tables with
  | nil => exact then_
  | cons t rest ih =>
    have writes : Writes P (ending.op t) := by cases ending <;> trivial
    exact holding_call stack writes (fun _ _ => holding_call stack trivial (fun _ _ => ih))

private theorem holding_settle {result : Except Fault Bool} (stack : StackHolds P l) :
    (holding P).Ensures input (holding P).outcome (settle result l) () := by
  apply settle_cases (motive := fun p => (holding P).Ensures input (holding P).outcome p ())
  · intro f
    exact holding_outcome stack
  · intro keep t args
    exact holding_responding stack
  · intro what
    exact holding_releasing .rollback _ stack (holding_responding stack)

private theorem holding_autocommitting {t : Addr} {after : Iteration} (stack : StackHolds P l)
    (then_ : (holding P).Ensures input (KeepsStack P) after ()) :
    (holding P).Ensures input (KeepsStack P) (autocommitting t l after) () := by
  unfold autocommitting
  split
  · exact then_
  · exact holding_call stack trivial (fun _ _ => holding_call stack trivial (fun _ _ => then_))

private theorem holding_onTable {n : Str} {use : Addr → Local → Iteration} (stack : StackHolds P l)
    (then_ : ∀ t l', l'.client_stack = l.client_stack → (holding P).Ensures input (KeepsStack P) (use t l') ()) :
    (holding P).Ensures input (KeepsStack P) (onTable n l use) () := by
  refine holding_call stack trivial ?_
  intro found _
  cases found with
  | none => exact stack
  | some t =>
    simp only [locking]
    split
    · split
      · exact then_ t l rfl
      · refine holding_call stack trivial ?_
        intro got _
        cases got with
        | true => exact then_ t (l.withLocked t) rfl
        | false => exact stack
    · exact holding_call stack trivial (fun _ _ => then_ t l rfl)

private theorem holding_reading {t : Addr} {k : Str} (stack : StackHolds P l) :
    (holding P).Ensures input (KeepsStack P) (reading t k l) () := by
  refine holding_call stack trivial ?_
  rintro _ ⟨v, rfl, holds⟩
  have pushed : StackHolds P (l.withStack (v :: l.client_stack.stk)) := by
    intro w inside
    rcases List.mem_cons.mp inside with rfl | before
    · exact holds
    · exact stack w before
  exact holding_autocommitting pushed pushed

private theorem holding_writing {t : Addr} {k : Str} (stack : StackHolds P l) :
    (holding P).Ensures input (KeepsStack P) (writing t k l) () := by
  unfold writing
  cases values : l.client_stack.stk with
  | nil => exact stack
  | cons v rest =>
    have popped : StackHolds P (l.withStack rest) := by
      intro w inside
      exact stack w (by rw [values]; exact List.mem_cons_of_mem _ inside)
    have top : P v := stack v (by rw [values]; exact List.mem_cons_self)
    exact holding_call popped top (fun _ _ => holding_autocommitting popped popped)

private theorem arithmetically_stack {operation : Int → Int → Option Int} (stack : StackHolds P l)
    (numbers : ∀ x y z, operation x y = some z → P (to_string z)) : StackHolds P (arithmetically operation l).2 := by
  have dropped : StackHolds P (l.withStack (l.client_stack.stk.drop 2)) :=
    fun v inside => stack v (List.mem_of_mem_drop inside)
  unfold arithmetically
  cases operands l.client_stack.stk with
  | none => exact dropped
  | some xy =>
    obtain ⟨x, y⟩ := xy
    dsimp only
    cases result : operation x y with
    | none => exact dropped
    | some z =>
      intro v inside
      rcases List.mem_cons.mp inside with rfl | before
      · exact numbers x y z result
      · exact dropped v before

/-- A request that uses no table: it pushes what the client sent or what arithmetic gives. -/
theorem quietly_stack {m : Message} (stack : StackHolds P l)
    (pushed : m.m_message_type = .PUSH → P (m.m_args.headD []))
    (numbers : ∀ n, -9223372036854775808 ≤ n ∧ n < 9223372036854775808 → P (to_string n)) :
    StackHolds P (quietly m l).2 := by
  obtain ⟨type, args⟩ := m
  cases type with
  | ADD => exact arithmetically_stack stack (fun _ _ z result => numbers z (int64_range result))
  | MUL => exact arithmetically_stack stack (fun _ _ z result => numbers z (int64_range result))
  | SUB => exact arithmetically_stack stack (fun _ _ z result => numbers z (int64_range result))
  | DIV =>
    refine arithmetically_stack stack ?_
    intro x y z result
    unfold div at result
    split at result
    · cases result
    · exact numbers z (int64_range result)
  | PUSH =>
    intro v inside
    rcases List.mem_cons.mp inside with rfl | before
    · exact pushed rfl
    · exact stack v before
  | POP =>
    unfold quietly
    cases values : l.client_stack.stk with
    | nil => exact stack
    | cons v rest =>
      intro w inside
      exact stack w (by rw [values]; exact List.mem_cons_of_mem _ inside)
  | TOP =>
    unfold quietly
    cases values : l.client_stack.stk with
    | nil => exact stack
    | cons v rest => exact stack
  | BEGIN | BYE | LOGIN | CREATE | SET | GET | COMMIT | NONE | OK | FAILED | ERROR | DATA => exact stack

/-- Every iteration keeps the property, when what clients push and what numbers print as
    has it. -/
theorem holding_iteration (pushed : ∀ s v, decode s = .ok ⟨.PUSH, [v]⟩ → P v)
    (numbers : ∀ n, -9223372036854775808 ≤ n ∧ n < 9223372036854775808 → P (to_string n)) (stack : StackHolds P l) :
    (holding P).Ensures input (holding P).outcome (chat_with_client input l) () := by
  have handled : (holding P).Ensures input (KeepsStack P) (handling input l) () := by
    cases input with
    | closed => exact stack
    | line buf =>
      simp only [handling]
      cases parsed : decode buf.text with
      | error e => exact stack
      | ok m =>
        have valid := (decode_accepted parsed).2.2
        dsimp only
        split
        · exact stack
        · split
          · rcases request_forms valid with ⟨n, rfl⟩ | ⟨n, k, rfl⟩ | ⟨n, k, rfl⟩ | rfl | quiet
            · refine holding_call stack trivial ?_
              intro found _
              cases found with
              | some t => exact stack
              | none => exact holding_call stack trivial (fun _ _ => stack)
            · refine holding_onTable stack (fun t l' same => holding_reading ?_)
              unfold StackHolds
              rw [same]
              exact stack
            · refine holding_onTable stack (fun t l' same => holding_writing ?_)
              unfold StackHolds
              rw [same]
              exact stack
            · exact holding_releasing .commit _ stack stack
            · rw [requesting_quiet quiet]
              refine quietly_stack stack ?_ numbers
              intro push
              obtain ⟨v, rfl⟩ := push_form valid push
              exact pushed _ _ parsed
          · exact stack
  rw [chat_run, iteration_eq]
  exact Discipline.ensures_bind handled (fun _ _ _ stack => holding_settle stack)
end

/-- A value that a client can decode: not empty, without white space and quotes, and back
    unchanged from the line that carries it. -/
structure Valid (v : Str) : Prop where
  nonempty : v ≠ []
  unspaced : ∀ c ∈ v, isspace c = false
  unquoted : quote ∉ v
  carried : ∃ line, encode ⟨.DATA, [v]⟩ = .ok line ∧ decode line = .ok ⟨.DATA, [v]⟩

private theorem valid_fine {v : Str} (fine : Fine v) (nonempty : v ≠ []) : Valid v := by
  obtain ⟨line, run, iff⟩ := data_arrives fine
  exact ⟨nonempty, fine.unspaced, fine.unquoted, line, run, iff.mpr nonempty⟩

private theorem valid_pushed {s v : Str} (run : decode s = .ok ⟨.PUSH, [v]⟩) : Valid v := by
  refine valid_fine (fine_pushed run) (value_nonempty ?_)
  simpa [Message.is_valid, Message.valid_number_of_args] using (decode_accepted run).2.2

private theorem valid_to_string {n : Int} (range : -9223372036854775808 ≤ n ∧ n < 9223372036854775808) :
    Valid (to_string n) :=
  valid_fine (fine_to_string range) (to_string_nonempty n)

/-- The step is no `Table::get` of a key that neither map of the table has. -/
def findsKey (s : ServerState) (_ : ConnId) : ServerEvent → Bool
  | .call _ _ op _ => keyed s.shared op
  | _ => true

/-- A discipline whose workers write only values with the property `P`, as long as they read
    only such values, keeps the values in the tables so in every run. -/
theorem store_run {P : Str → Prop} {D : Discipline Unit Local Input Fault Op Res} {sh : Shared}
    {ok : ServerState → ConnId → ServerEvent → Prop}
    (body : ∀ input l, D.rest l () → D.Ensures input D.outcome (chat_with_client input l) ())
    (writes : ∀ input l op, D.node input () l op → Writes P op) (take : ∀ l input, D.take () l input ())
    (next : ∀ input l op r, Returns P op r → D.next input () l op r ())
    (present : ∀ s c input l op r, ok s c (.call input l op r) → keyed s.shared op = true ∨ P [])
    (fresh : ∀ unset, D.rest (Local.create unset) ()) (holds : StoreHolds P sh)
    (run : Run server ok (opened sh memory) tr s) : StoreHolds P s.shared ∧ ∀ c, D.Fits (s.threads c) () := by
  have sound : ∃ gs : ConnId → Unit, StoreHolds P s.shared ∧ ∀ c, D.Fits (s.threads c) (gs c) := by
    refine Discipline.sound (J := fun _ _ sh => StoreHolds P sh) ?_ ?_ ?_ ?_ ?_ run
    · intro input l _ _ rest _
      exact body input l rest
    · intro gs tr s c l input holds _ _
      exact ⟨(), take l input, holds⟩
    · intro gs tr s c choice input l op r after holds allowed node exec
      have exec : Server.exec c choice op s.shared = some (r, after) := exec
      obtain ⟨kept, returned⟩ := exec_holds holds (writes input l op node) (present s c input l op r allowed) exec
      exact ⟨(), next input l op r returned, kept⟩
    · intro gs tr s c input l r holds _ _
      exact holds
    · exact ⟨fun _ => (), holds, fun c => fresh _⟩
  obtain ⟨_, holds, fits⟩ := sound
  exact ⟨holds, fits⟩

/-- Nothing is on the stack of a new connection. -/
theorem stack_create {P : Str → Prop} (unset : Bool) : StackHolds P (Local.create unset) := by
  intro v inside
  cases inside

/-- The discipline of the values holds in every run whose reads find their keys. -/
theorem holding_run (run : Run server (fun s c e => findsKey s c e = true) (booted memory) tr s) :
    StoreHolds Valid s.shared ∧ ∀ c, (holding Valid).Fits (s.threads c) () := by
  refine store_run (D := holding Valid) ?_ (fun _ _ _ node => node.2) (fun _ _ => trivial) (fun _ _ _ _ => id)
    (fun _ _ _ _ _ _ => .inl) stack_create ?_ run
  · intro input l stack
    exact holding_iteration (fun _ _ => valid_pushed) (fun _ => valid_to_string) stack
  · intro t tb here
    cases here

private theorem fits_stack {thread : Thread Local Input Fault Op Res} (fits : (holding Valid).Fits thread ()) :
    StackHolds Valid (members thread) := by
  cases thread with
  | reading l => exact fits
  | exited l => exact fits
  | running input p =>
    cases p with
    | call l op k => exact fits.1.1
    | done r l =>
      rcases r with f | keep
      · exact fits
      · cases keep
        · exact fits
        · exact fits

/-- In every run whose reads find their keys, all values on stacks and in tables can be
    carried to a client. -/
theorem values_valid (run : Run server (fun s c e => findsKey s c e = true) (booted memory) tr s) :
    (∀ c, ∀ v ∈ (members (s.threads c)).client_stack.stk, Valid v) ∧
    ∀ t tb, s.shared.heap t = some tb → ∀ k v : Str, tb.theMap[k]? = some v ∨ tb.tempMap[k]? = some v → Valid v := by
  obtain ⟨holds, fits⟩ := holding_run run
  refine ⟨fun c => fits_stack (fits c), ?_⟩
  rintro t tb here k v (stored | pending)
  · exact (holds t tb here).stored k v stored
  · exact (holds t tb here).pending k v pending

/-- A client stores a value and reads it back. -/
def storing : List (ConnId × Action Input Addr) :=
  turn 0 "LOGIN ann\n" 2 0 ++ turn 0 "CREATE a\n" 4 0 ++ turn 0 "PUSH 7\n" 2 0 ++ turn 0 "SET a k\n" 7 0 ++
    turn 0 "GET a k\n" 7 0

theorem values_valid_stored : ∃ s : ServerState, (members (s.threads 0)).client_stack.stk = [lit "7"] ∧
    ∀ v ∈ [lit "7"], Valid v := by
  have shown : (execute server findsKey storing (booted fun _ => false)).any (fun r =>
      (members (r.2.threads 0)).client_stack.stk == [lit "7"]) = true := by
    decide +kernel
  obtain ⟨tr, s, run, holds⟩ := run_of_check shown
  have stack := beq_iff_eq.mp holds
  have valid := (values_valid run).1 0
  rw [stack] at valid
  exact ⟨s, stack, valid⟩

/-- A client reads a key that was never set. -/
def absent : List (ConnId × Action Input Addr) :=
  turn 0 "LOGIN ann\n" 2 0 ++ turn 0 "CREATE a\n" 4 0 ++ turn 0 "GET a k\n" 7 0

/-- The empty string gets onto the stack. -/
theorem values_absent : ¬ ∀ tr s, Run server anyStep (booted fun _ => false) tr s →
    ∀ c, ∀ v ∈ (members (s.threads c)).client_stack.stk, Valid v := by
  intro always
  have shown : (execute server noCheck absent (booted fun _ => false)).any (fun r =>
      (members (r.2.threads 0)).client_stack.stk == [[]]) = true := by
    decide +kernel
  obtain ⟨tr, s, run, holds⟩ := run_of_check shown
  have stack := beq_iff_eq.mp holds
  have valid := always tr s run.any 0 [] (by rw [stack]; exact List.mem_cons_self)
  exact valid.nonempty rfl

end TableServer.Validity
