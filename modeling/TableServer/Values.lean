import TableServer.Requests
import TableServer.RoundTrip

/-!
The values that circulate: what a client can push, what arithmetic produces and
what tables hold are short strings without white space and quotes, possibly empty.
The responses made of them fit in a line, and which ones a client can decode.
-/

namespace TableServer.Values
open TableServer.Bytes TableServer.Messages TableServer.Serialization TableServer.Stores TableServer.Numbers
open TableServer.Connection TableServer.Server TableServer.Requests TableServer.Tokens TableServer.RoundTrip

/-- A value that a client can have pushed, or the empty string of an absent key. -/
structure Fine (v : Str) : Prop where
  short : v.length ≤ 1018
  unspaced : ∀ c ∈ v, isspace c = false
  unquoted : quote ∉ v

theorem fine_empty : Fine [] := ⟨by simp, by simp, by simp⟩

theorem fine_pushed {s v : Str} (run : decode s = .ok ⟨.PUSH, [v]⟩) : Fine v := by
  obtain ⟨fits, last, valid⟩ := decode_accepted run
  have unquoted := decode_unquoted run v (by simp)
  obtain ⟨p⟩ := split_exists (newline_mem last)
  have size := p.length
  rw [decode_split p last fits] at run
  obtain ⟨type, scanned, _⟩ := decodeRest_ok run
  have word : p.word = lit "PUSH" := push_word type.symm
  have word_length : p.word.length = 4 := by rw [word]; rfl
  split at scanned
  · have args := scanArgs_length scanned
    rw [show encodedArgs [v] = space :: v from by simp [encodedArgs]] at args
    simp only [List.length_cons] at args
    have checked : value_is_valid v = true := by simpa [Message.is_valid, Message.valid_number_of_args] using valid
    exact ⟨by omega, value_unspaced checked, unquoted⟩
  · cases scanned

private theorem digit_plain {c : UInt8} (digit : c = 45 ∨ isdigit c = true) : isspace c = false ∧ c ≠ quote := by
  rcases digit with rfl | digit
  · decide
  · refine ⟨(digit_not_space digit).1, ?_⟩
    rintro rfl
    exact absurd digit (by decide)

theorem fine_to_string {n : Int} (range : -9223372036854775808 ≤ n ∧ n < 9223372036854775808) : Fine (to_string n) := by
  refine ⟨?_, ?_, ?_⟩
  · have := to_string_length range
    omega
  · intro c inside
    exact (digit_plain (to_string_chars n c inside)).1
  · intro inside
    exact (digit_plain (to_string_chars n quote inside)).2 rfl

section
variable {P : Str → Prop}

/-- The values in the two maps of a table have the property `P`. -/
structure TableHolds (P : Str → Prop) (tb : Table) : Prop where
  stored : ∀ (k v : Str), tb.theMap[k]? = some v → P v
  pending : ∀ (k v : Str), tb.tempMap[k]? = some v → P v

def StoreHolds (P : Str → Prop) (sh : Shared) : Prop := ∀ t tb, sh.heap t = some tb → TableHolds P tb

theorem has_key_iff (tb : Table) (k : Str) :
    tb.has_key k = true ↔ ¬ (tb.tempMap[k]? = none ∧ tb.theMap[k]? = none) := by
  simp [Table.has_key, Table.find_finish, and_comm, or_iff_not_imp_left]

/-- A key that is there, or whose absence does no harm, reads as a value with the property. -/
theorem TableHolds.read {tb : Table} (holds : TableHolds P tb) {k : Str} (present : tb.has_key k = true ∨ P []) :
    P (tb.read k) := by
  unfold Table.read Table.committed
  cases pending : tb.tempMap[k]? with
  | some v => exact holds.pending k v pending
  | none =>
    cases stored : tb.theMap[k]? with
    | some v => exact holds.stored k v stored
    | none =>
      rcases present with there | harmless
      · exact absurd ⟨pending, stored⟩ ((has_key_iff tb k).mp there)
      · exact harmless

private theorem insert_holds {m : StdMap Str} {k v : Str} (old : ∀ (k v : Str), m[k]? = some v → P v) (new : P v) :
    ∀ (j w : Str), (m.insert k v)[j]? = some w → P w := by
  intro j w here
  rw [getElem?_insert] at here
  split at here
  · obtain rfl := Option.some.inj here
    exact new
  · exact old j w here

private theorem TableHolds.touch {tb : Table} (holds : TableHolds P tb) {k : Str}
    (present : tb.has_key k = true ∨ P []) : TableHolds P (tb.touch k) := by
  refine ⟨?_, by rw [Table.touch_temp]; exact holds.pending⟩
  unfold Table.touch
  split
  · rename_i absent
    rcases present with there | harmless
    · exact absurd absent ((has_key_iff tb k).mp there)
    · exact insert_holds holds.stored harmless
  · exact holds.stored

theorem TableHolds.set {tb : Table} (holds : TableHolds P tb) (k : Str) {v : Str} (new : P v) :
    TableHolds P (tb.set k v) :=
  ⟨holds.stored, insert_holds holds.pending new⟩

theorem TableHolds.commit {tb : Table} (holds : TableHolds P tb) : TableHolds P tb.commit_changes := by
  refine ⟨?_, by intro k v here; simp at here⟩
  intro k v here
  rw [Table.commit_getElem?] at here
  cases pending : tb.tempMap[k]? with
  | some w =>
    rw [pending] at here
    obtain rfl : w = v := by simpa using here
    exact holds.pending k w pending
  | none =>
    rw [pending] at here
    exact holds.stored k v (by simpa using here)

private theorem TableHolds.rollback {tb : Table} (holds : TableHolds P tb) : TableHolds P tb.rollback_changes :=
  ⟨holds.stored, by intro k v here; simp at here⟩

theorem TableHolds.create (name : Str) : TableHolds P (Table.create name) :=
  ⟨by intro k v here; simp [Table.create] at here, by intro k v here; simp at here⟩

theorem StoreHolds.put {sh : Shared} (holds : StoreHolds P sh) (t : Addr) {tb : Table} (new : TableHolds P tb) :
    StoreHolds P (sh.put t tb) := by
  intro u tb' here
  by_cases same : u = t
  · subst same
    rw [put_self] at here
    obtain rfl := Option.some.inj here
    exact new
  · rw [put_other sh same] at here
    exact holds u tb' here

/-- What an operation gives back when the values it writes have the property. -/
def Returns (P : Str → Prop) (op : Op) (r : Res op) : Prop :=
  match op, r with
  | .get _ _, r => ∃ v, r = .ok v ∧ P v
  | _, _ => True

def Writes (P : Str → Prop) : Op → Prop
  | .set _ _ v => P v
  | _ => True

/-- The operation is no `Table::get`, or its key is in one of the two maps of the table. -/
def keyed (sh : Shared) : Op → Bool
  | .get t key => (sh.heap t).all (fun tb => tb.has_key key)
  | _ => true

/-- What is written spreads, and nothing else, as long as reading an absent key does no harm. -/
theorem exec_holds {c : ConnId} {fresh : Addr} {op : Op} {r : Res op} {sh sh' : Shared} (holds : StoreHolds P sh)
    (writes : Writes P op) (present : keyed sh op = true ∨ P []) (run : exec c fresh op sh = some (r, sh')) :
    StoreHolds P sh' ∧ Returns P op r := by
  cases op with
  | find_table name => rw [(exec_find run).2]; exact ⟨holds, trivial⟩
  | create_table name =>
    obtain ⟨free, rfl⟩ := exec_create run
    refine ⟨?_, trivial⟩
    intro u tb here
    by_cases same : u = fresh
    · subst same
      obtain rfl : Table.create name = tb := by simpa [Shared.create] using here
      exact .create name
    · rw [create_other same] at here
      exact holds u tb here
  | lock t =>
    obtain ⟨tb, here, _, rfl⟩ := exec_lock run
    exact ⟨holds.put t ⟨(holds t tb here).stored, (holds t tb here).pending⟩, trivial⟩
  | trylock t =>
    obtain ⟨tb, here, ⟨_, _, rfl⟩ | ⟨_, _, rfl⟩⟩ := exec_trylock run
    · exact ⟨holds.put t ⟨(holds t tb here).stored, (holds t tb here).pending⟩, trivial⟩
    · exact ⟨holds, trivial⟩
  | unlock t =>
    obtain ⟨tb, here, rfl⟩ := exec_unlock run
    exact ⟨holds.put t ⟨(holds t tb here).stored, (holds t tb here).pending⟩, trivial⟩
  | get t key =>
    obtain ⟨tb, here, rfl, rfl⟩ := exec_get run
    have present : tb.has_key key = true ∨ P [] := by simpa [keyed, here] using present
    exact ⟨holds.put t ((holds t tb here).touch present), _, rfl, (holds t tb here).read present⟩
  | set t key value =>
    obtain ⟨tb, here, rfl⟩ := exec_set run
    exact ⟨holds.put t ((holds t tb here).set key writes), trivial⟩
  | commit_changes t =>
    obtain ⟨tb, here, rfl⟩ := exec_commit run
    exact ⟨holds.put t (holds t tb here).commit, trivial⟩
  | rollback_changes t =>
    obtain ⟨tb, here, rfl⟩ := exec_rollback run
    exact ⟨holds.put t (holds t tb here).rollback, trivial⟩
  | write line => rw [exec_write run]; exact ⟨holds, trivial⟩
end

/-- A text without its surrounding quotes. -/
def unquoted (text : Str) : Str :=
  if text.head? = some quote ∧ text.getLast? = some quote ∧ 2 ≤ text.length then (text.drop 1).dropLast else text

/-- The message that a response stands for. -/
def meant (m : Message) : Message :=
  if m.m_message_type = .FAILED ∨ m.m_message_type = .ERROR then ⟨m.m_message_type, m.m_args.map unquoted⟩ else m

/-- The texts of the exceptions that reach a response without quotes around them. -/
def plainTexts : List Str :=
  [emptyStack, badOperands, lockRefused, tableExists, tableMissing, notLoggedIn, readError,
    lit "Invalid message sent", lit "Message not terminated with new line char"]

def quotedText : Str := lit "\"Invalid arguments (number and/or format)\""

/-- The response reaches the client as it was meant. -/
def Arrives (m : Message) (arrives : Prop) : Prop :=
  ∃ line, encode m = .ok line ∧ (decode line = .ok (meant m) ↔ arrives)

theorem ok_arrives : Arrives ⟨.OK, []⟩ True := ⟨lit "OK\n", by decide, by decide⟩

theorem quoted_arrives : Arrives ⟨.ERROR, [quotedText]⟩ True :=
  ⟨lit "ERROR \"Invalid arguments (number and/or format)\"\n", by decide +kernel, by decide +kernel⟩

theorem data_arrives {v : Str} (fine : Fine v) : Arrives ⟨.DATA, [v]⟩ (v ≠ []) := by
  have size : (encodedLine ⟨.DATA, [v]⟩).length = v.length + 6 := by
    simp [encodedLine, encodedArgs, show (messageTypeToString .DATA).length = 4 from rfl]
    omega
  have fits : (encodedLine ⟨.DATA, [v]⟩).length ≤ 1024 := by have := fine.short; omega
  refine ⟨_, encode_fits fits, ?_⟩
  have same : meant ⟨.DATA, [v]⟩ = ⟨.DATA, [v]⟩ := rfl
  rw [same]
  constructor
  · rintro run rfl
    exact absurd run (by decide)
  · intro some_
    have valid : value_is_valid v = true := by
      simp only [value_is_valid, Bool.and_eq_true, decide_eq_true_eq, List.all_eq_true, Bool.not_eq_true']
      exact ⟨List.length_pos_iff.mpr some_, fine.unspaced⟩
    refine decode_encodedLine (by simpa [Message.is_valid, Message.valid_number_of_args] using valid) ?_ fits
    intro a inside
    obtain rfl := List.mem_singleton.mp inside
    exact value_bare valid fine.unquoted

/-- Every text that is sent without quotes has spaces, and the client's decoder refuses it. -/
theorem plain_lost {w : Str} (plain : w ∈ plainTexts) {t : MessageType} (failure : t = .FAILED ∨ t = .ERROR) :
    Arrives ⟨t, [w]⟩ False := by
  have all : ∀ w ∈ plainTexts, ∀ t ∈ [MessageType.FAILED, MessageType.ERROR],
      encode ⟨t, [w]⟩ = .ok (encodedLine ⟨t, [w]⟩) ∧ decode (encodedLine ⟨t, [w]⟩) ≠ .ok (meant ⟨t, [w]⟩) := by
    decide +kernel
  obtain ⟨run, lost⟩ := all w plain t (by simpa using failure)
  exact ⟨_, run, by simpa using lost⟩

end TableServer.Values
