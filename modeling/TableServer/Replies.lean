import TableServer.Clients
import TableServer.Increment
import TableServer.Validity
import TableServer.Dialogue
import TableServer.Rio

/-!
What a client hears. Every line that the server writes is one line of text, with the
name of one of the four response types in front, and only the line of an OK is taken
for an OK, whatever the client cuts off at a `NUL`.
-/

namespace TableServer.Replies
open TableServer.Bytes TableServer.Messages TableServer.Serialization TableServer.Stores TableServer.Numbers
open TableServer.Connection TableServer.Server TableServer.Requests TableServer.Tokens TableServer.Values
open TableServer.Validity TableServer.Dialogue TableServer.Clients TableServer.Increment TableServer.RoundTrip
open Resumption Interleaving

variable {l : Local} {input : Input} {m : Message}

/-- A response as the handlers set it. -/
structure Reply (m : Message) : Prop where
  kind : m.m_message_type ∈ [.OK, .DATA, .FAILED, .ERROR]
  bare : m.m_message_type = .OK → m.m_args = []
  unbroken : ∀ a ∈ m.m_args, newline ∉ a

private theorem reply_ok : Reply ⟨.OK, []⟩ := ⟨by simp, fun _ => rfl, by simp⟩

private theorem reply_text {t : MessageType} {what : Str} (kind : t ∈ [.DATA, .FAILED, .ERROR])
    (unbroken : newline ∉ what) : Reply ⟨t, [what]⟩ := by
  refine ⟨List.mem_cons_of_mem _ kind, ?_, by simpa using unbroken⟩
  rintro rfl
  simp at kind

/-- The type of a decoded line is the one that its first word names. -/
theorem decoded_type {word rest : Str} {c : UInt8} (unbroken : ∀ d ∈ word, d ≠ space ∧ d ≠ newline) (some_ : word ≠ [])
    (ends : c = space ∨ c = newline) (run : decode (word ++ c :: rest) = .ok m) :
    m.m_message_type = stringToMessageType word := by
  obtain ⟨fits, last, _⟩ := decode_accepted run
  let split : Split (word ++ c :: rest) :=
    ⟨0, word, c, rest, unbroken, ends, fun empty => absurd empty some_, by simp⟩
  rw [decode_split split last fits] at run
  exact (decodeRest_ok run).1

/-- A line with the name of another type in front is no OK. -/
theorem other_not_ok {t : MessageType} {rest : Str} {c : UInt8} (named : t ≠ .NONE) (other : t ≠ .OK)
    (ends : c = space ∨ c = newline) : isOK (messageTypeToString t ++ c :: rest) = false := by
  have unbroken : ∀ d ∈ messageTypeToString t, d ≠ space ∧ d ≠ newline :=
    fun d inside => ⟨(name_chars t d inside).1, (name_chars t d inside).2.1⟩
  unfold isOK
  cases run : decode (messageTypeToString t ++ c :: rest) with
  | error e => rfl
  | ok m =>
    have type := decoded_type unbroken (fun empty => named (name_nonempty empty)) ends run
    rw [type_of_name] at type
    simpa [Except.toOption, type] using other

/-- The client takes exactly the line of an OK for an OK, also when it cuts the line at a `NUL`. -/
theorem reply_verdict {line : Str} (reply : Reply m) (run : encode m = .ok line) :
    isOK line = (m.m_message_type == .OK) ∧ isOK (line.takeWhile (· != NUL)) = (m.m_message_type == .OK) := by
  obtain ⟨t, args⟩ := m
  obtain ⟨rfl, _⟩ := encode_ok run
  by_cases ok : t = .OK
  · subst ok
    obtain rfl := reply.bare rfl
    decide
  · have named : t ≠ .NONE := by
      rintro rfl
      exact absurd reply.kind (by simp)
    obtain ⟨c, rest, ends, _, line⟩ := encodedLine_cut ⟨t, args⟩
    have name : ∀ d ∈ messageTypeToString t, (d != NUL) = true := by
      intro d inside
      simp only [bne_iff_ne]
      rintro rfl
      exact Rio.name_plain t inside
    have visible : (c != NUL) = true := by rcases ends with rfl | rfl <;> rfl
    have cut : (encodedLine ⟨t, args⟩).takeWhile (· != NUL) =
        messageTypeToString t ++ c :: rest.takeWhile (· != NUL) := by
      rw [line, List.takeWhile_append_of_pos name, List.takeWhile_cons, if_pos visible]
    have no : (t == MessageType.OK) = false := beq_eq_false_iff_ne.mpr ok
    rw [cut, line]
    exact ⟨(other_not_ok named ok ends).trans no.symm, (other_not_ok named ok ends).trans no.symm⟩

/-- The text of an exception. -/
def what : Exn → Str
  | .InvalidMessage t | .CommException t | .OperationException t | .FailedTransaction t | .runtime_error t => t
  | .out_of_range | .invalid_argument => []

/-- How the handling of a line ends: with a reply, or an exception that becomes one. -/
def Answerable (r : Except Fault Bool) (l : Local) : Prop :=
  match r with
  | .ok _ => Reply l.response
  | .error (.thrown e) => newline ∉ what e
  | .error .undefined => True

/-- A value that does not break a line. -/
def Unbroken (v : Str) : Prop := newline ∉ v

/-- An iteration that writes has a reply for its response. -/
def Replied (r : Except Fault Bool) (l : Local) : Prop := ∀ keep, r = .ok keep → Reply l.response

private theorem replied_error (f : Fault) (l : Local) : Replied (.error f) l := by
  intro keep same
  cases same

private theorem replied_settle {r : Except Fault Bool} (answerable : Answerable r l) : (settle r l).Ends Replied := by
  have said : ∀ (keep : Bool) {l : Local}, Reply l.response → (responding keep l).Ends Replied :=
    fun keep l reply => ends_responding keep (fun _ _ => reply) (fun e => replied_error _ l)
  rcases r with (e | _) | keep
  · cases e with
    | OperationException t =>
      rw [settle]
      split
      · exact replied_error _ l
      · exact said true (reply_text (by simp) answerable)
    | FailedTransaction t => exact ends_releasing .rollback _ (said true (reply_text (by simp) answerable))
    | InvalidMessage t => exact said false (reply_text (by simp) answerable)
    | CommException t => exact said false (reply_text (by simp) answerable)
    | out_of_range => exact replied_error _ l
    | invalid_argument => exact replied_error _ l
    | runtime_error t => exact replied_error _ l
  · exact replied_error _ l
  · exact said keep answerable

private theorem answerable_arithmetic (operation : Int → Int → Option Int) (l : Local) :
    Answerable (arithmetically operation l).1 (arithmetically operation l).2 := by
  unfold arithmetically
  split
  · show newline ∉ badOperands
    decide
  · split
    · trivial
    · exact reply_ok

private theorem answerable_quietly (stack : StackHolds Unbroken l) : Answerable (quietly m l).1 (quietly m l).2 := by
  unfold quietly
  split
  case h_1 => exact reply_ok
  case h_2 =>
    split
    · show newline ∉ emptyStack
      decide
    · exact reply_ok
  case h_3 =>
    split
    · show newline ∉ emptyStack
      decide
    · rename_i v rest values
      exact reply_text (by simp) (stack v (by rw [values]; exact List.mem_cons_self))
  case h_4 | h_5 | h_6 | h_7 => exact answerable_arithmetic _ l
  case h_8 | h_9 => exact reply_ok
  case h_10 =>
    show newline ∉ lit "Invalid message sent"
    decide

/-- The discipline that knows of the calls only that `Table::get` does not throw. -/
def returning : Discipline Unit Local Input Fault Op Res where
  rest _ _ := True
  gone _ _ := True
  failed _ _ _ := True
  node _ _ _ _ := True
  take _ _ _ _ := True
  next _ _ _ op r _ := Returns (fun _ => True) op r

/-- Under the discipline the handling of a line ends as `Q` says. -/
abbrev Leads (input : Input) (Q : Except Fault Bool → Local → Prop) (p : Iteration) : Prop :=
  returning.Ensures input (fun r l _ => Q r l) p ()

private theorem leads_ends {Q : Except Fault Bool → Local → Prop} {p : Iteration} (ends : p.Ends Q) :
    Leads input Q p := by
  induction p with
  | done r l => exact ends
  | call l op k ih => exact ⟨trivial, fun r _ _ => ih r (ends r)⟩

private theorem answerable_autocommitting {t : Addr} {after : Iteration} (then_ : after.Ends Answerable) :
    (autocommitting t l after).Ends Answerable := by
  unfold autocommitting
  split
  · exact then_
  · exact fun _ _ => then_

private theorem answerable_onTable {n : Str} {use : Addr → Local → Iteration}
    (uses : ∀ t l, Leads input Answerable (use t l)) : Leads input Answerable (onTable n l use) := by
  refine ⟨trivial, ?_⟩
  rintro (_ | t) _ _
  · show newline ∉ tableMissing
    decide
  · show Leads input Answerable (locking t l (use t))
    unfold locking
    split
    · split
      · exact uses t l
      · refine ⟨trivial, ?_⟩
        rintro (_ | _) _ _
        · show newline ∉ lockRefused
          decide
        · exact uses t _
    · exact ⟨trivial, fun _ _ _ => uses t l⟩

private theorem answerable_requesting (asked : requestOf input = some m) (stack : StackHolds Unbroken l) :
    Leads input Answerable (requesting m l) := by
  rcases request_forms (request_valid asked) with ⟨n, rfl⟩ | ⟨n, k, rfl⟩ | ⟨n, k, rfl⟩ | rfl | quiet
  · refine leads_ends ?_
    rintro (_ | t)
    · exact fun _ => reply_ok
    · show newline ∉ tableExists
      decide
  · refine answerable_onTable fun t l => ⟨trivial, ?_⟩
    rintro _ _ ⟨v, rfl, _⟩
    exact leads_ends (answerable_autocommitting reply_ok)
  · refine answerable_onTable fun t l => leads_ends ?_
    unfold writing
    split
    · show newline ∉ emptyStack
      decide
    · exact fun _ => answerable_autocommitting reply_ok
  · exact leads_ends (ends_releasing .commit _ reply_ok)
  · rw [requesting_quiet quiet]
    exact answerable_quietly stack

private theorem answerable_handling (stack : StackHolds Unbroken l) : Leads input Answerable (handling input l) := by
  cases input with
  | closed =>
    show newline ∉ readError
    decide
  | line buf =>
    rcases line_cases buf with ⟨failed, _⟩ | ⟨failed, _⟩ | ⟨failed, _⟩ | ⟨m, parsed, _⟩
    · simp only [handling, failed]
      show newline ∉ ([] : Str)
      decide
    · simp only [handling, failed]
      show newline ∉ lit "Message not terminated with new line char"
      decide
    · simp only [handling, failed]
      show newline ∉ quotedText
      decide
    · simp only [handling, parsed]
      split
      · exact reply_ok
      · split
        · exact answerable_requesting (requestOf_decode parsed) stack
        · show newline ∉ notLoggedIn
          decide

private theorem chat_replies (stack : StackHolds Unbroken l) : Leads input Replied (chat_with_client input l) := by
  rw [chat_run, iteration_eq]
  exact Discipline.ensures_bind (answerable_handling stack) fun _ _ _ answerable =>
    leads_ends (replied_settle answerable)

/-- Values never break a line, and what is written is a reply. -/
def replying : Discipline Unit Local Input Fault Op Res where
  rest l _ := StackHolds Unbroken l
  gone _ _ := True
  failed _ _ _ := True
  node _ _ l op := Writes Unbroken op ∧ ∀ line, op = .write line → Reply l.response ∧ encode l.response = .ok line
  take _ _ _ _ := True
  next _ _ _ op r _ := Returns Unbroken op r

/-- A program that writes once, at its end, writes what its end says. -/
theorem replying_ensures {p : Iteration} (values : (holding Unbroken).Ensures input (holding Unbroken).outcome p ())
    (speaks : Speaks input p) (leads : Leads input Replied p) : replying.Ensures input replying.outcome p () := by
  induction speaks with
  | failed f l => trivial
  | @last l line k keep own ends closing =>
    have finishes := leads.2 () () trivial
    have stack := values.2 () () trivial
    rw [ends] at finishes stack
    refine ⟨⟨trivial, ?_⟩, ?_⟩
    · rintro _ ⟨⟩
      exact ⟨finishes keep rfl, own⟩
    · intro r _ _
      rw [ends]
      cases keep with
      | true => exact stack
      | false => trivial
  | @more l op k quiet then_ ih =>
    refine ⟨⟨values.1.2, ?_⟩, ?_⟩
    · rintro line rfl
      cases quiet
    · intro r _ returned
      refine ih r (values.2 r () returned) (leads.2 r () ?_)
      cases op with
      | get t key =>
        obtain ⟨v, same, _⟩ := returned
        exact ⟨v, same, trivial⟩
      | _ => trivial

theorem unbroken_fine {v : Str} (fine : Fine v) : Unbroken v := by
  intro inside
  exact absurd (fine.unspaced newline inside) (by decide)

private theorem replying_iteration (stack : StackHolds Unbroken l) :
    replying.Ensures input replying.outcome (chat_with_client input l) () := by
  refine replying_ensures (holding_iteration ?_ ?_ stack) (chat_speaks input l) (chat_replies stack)
  · intro s v run
    exact unbroken_fine (fine_pushed run)
  · intro n range
    exact unbroken_fine (fine_to_string range)

/-- In every run from a store of unbroken values, all that is written are replies. -/
theorem replying_run {memory : ConnId → Bool} {sh : Shared} {ok : ServerState → ConnId → ServerEvent → Prop}
    {tr : ServerTrace} {s : ServerState} (unbroken : StoreHolds Unbroken sh)
    (run : Run server ok (opened sh memory) tr s) : ∀ c, replying.Fits (s.threads c) () := by
  have harmless : Unbroken [] := by simp [Unbroken]
  exact (store_run (D := replying) (fun _ _ => replying_iteration) (fun _ _ _ node => node.1) (fun _ _ => trivial)
    (fun _ _ _ _ => id) (fun _ _ _ _ _ _ _ => .inr harmless) stack_create unbroken run).2

/-- The store with one number in it. -/
theorem counterStore_holds {P : Str → Prop} (number : P (lit "41")) : StoreHolds P counterStore := by
  have empty : StoreHolds P Shared.initial := by
    intro t tb here
    cases here
  refine StoreHolds.put ?_ 0 (((TableHolds.create _).set _ number).commit)
  have same : Shared.initial.create (lit "a") 0 =
      { Shared.initial.put 0 (Table.create (lit "a")) with server_tables :=
        (Shared.initial.create (lit "a") 0).server_tables } := rfl
  rw [same]
  exact empty.put 0 (TableHolds.create _)

theorem counterStore_unbroken : StoreHolds Unbroken counterStore := by
  refine counterStore_holds ?_
  show newline ∉ lit "41"
  decide

end TableServer.Replies
