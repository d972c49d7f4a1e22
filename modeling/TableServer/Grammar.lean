import TableServer.Reference

/-!
What the validators of identifiers and of quoted texts let through, against the two
grammars stated by themselves. The letters of the first validator begin one character
too early, at the `@` before the `A`; the loop of the second leaves out the first and
the last position, where the quotes of a text are no longer.
-/

namespace TableServer.Grammar
open TableServer.Bytes TableServer.Messages TableServer.Serialization TableServer.Tokens TableServer.RoundTrip
  TableServer.Lines TableServer.Reference

/-- The positions of a loop `for (int i = 1; i < stop; i++)`. -/
def Looped (stop : Int) (i : Nat) : Prop := 1 ≤ i ∧ (i : Int) < stop

private theorem loop_all {s : Str} {stop : Int} {p : UInt8 → Bool} :
    ((s.take stop.toNat).drop 1).all p = true ↔ ∀ i c, s[i]? = some c → Looped stop i → p c = true := by
  rw [List.all_eq_true]
  constructor
  · intro all i c found inside
    obtain ⟨first, below⟩ := inside
    apply all c
    apply List.mem_iff_getElem?.mpr
    refine ⟨i - 1, ?_⟩
    rw [List.getElem?_drop, show 1 + (i - 1) = i from by omega, List.getElem?_take, if_pos (by omega)]
    exact found
  · intro all c member
    obtain ⟨i, found⟩ := List.mem_iff_getElem?.mp member
    rw [List.getElem?_drop, List.getElem?_take] at found
    split at found
    · rename_i below
      exact all (1 + i) c found ⟨by omega, by omega⟩
    · cases found

abbrev underscore : UInt8 := 95
abbrev atSign : UInt8 := 64

/-- An ASCII letter. -/
def Letter (c : UInt8) : Prop := (Char.ofNat c.toNat).isAlpha = true

/-- An ASCII letter, a digit or an underscore. -/
def NameChar (c : UInt8) : Prop := (Char.ofNat c.toNat).isAlphanum = true ∨ c = underscore

instance (c : UInt8) : Decidable (Letter c) := inferInstanceAs (Decidable (_ = _))

instance (c : UInt8) : Decidable (NameChar c) := inferInstanceAs (Decidable (_ ∨ _))

/-- One letter, followed by any number of letters, digits and underscores. -/
def Identifier (s : Str) : Prop := ∃ first tail, s = first :: tail ∧ Letter first ∧ ∀ c ∈ tail, NameChar c

/-- What the grammar allows at a position. -/
def Allowed (i : Nat) (c : UInt8) : Prop := if i = 0 then Letter c else NameChar c

private theorem every_byte {P : UInt8 → Prop} (all : ∀ n : Fin 256, P (UInt8.ofFin n)) (c : UInt8) : P c := by
  have here := all c.toFin
  rwa [UInt8.ofFin_toFin] at here

/-- The ranges of the source are the letters and the character before the first of them. -/
theorem letterRange_iff (c : UInt8) : letterRange c = true ↔ Letter c ∨ c = atSign := by
  apply every_byte (P := fun c => letterRange c = true ↔ Letter c ∨ c = atSign)
  decide +kernel

private theorem identifierRange_iff (c : UInt8) : identifierRange c = true ↔ NameChar c ∨ c = atSign := by
  apply every_byte (P := fun c => identifierRange c = true ↔ NameChar c ∨ c = atSign)
  decide +kernel

private theorem atSign_illegal (i : Nat) : ¬ Allowed i atSign := by
  unfold Allowed
  split
  · decide
  · decide

private theorem identifier_iff (s : Str) : Identifier s ↔ s ≠ [] ∧ ∀ i c, s[i]? = some c → Allowed i c := by
  constructor
  · rintro ⟨first, tail, rfl, head, others⟩
    refine ⟨by simp, ?_⟩
    intro i c found
    cases i with
    | zero =>
      rw [List.getElem?_cons_zero, Option.some.injEq] at found
      simpa [Allowed, ← found] using head
    | succ i =>
      rw [List.getElem?_cons_succ] at found
      simpa [Allowed] using others c (List.mem_of_getElem? found)
  · rintro ⟨some_, allowed⟩
    obtain ⟨first, tail, rfl⟩ := List.exists_cons_of_ne_nil some_
    refine ⟨first, tail, rfl, ?_, ?_⟩
    · simpa [Allowed] using allowed 0 first (by simp)
    · intro c member
      obtain ⟨i, found⟩ := List.mem_iff_getElem?.mp member
      simpa [Allowed] using allowed (i + 1) c (by simpa using found)

/-- The positions at which `identifier_is_valid` looks: below `2 ^ 31` characters, all. -/
def Examined (s : Str) (i : Nat) : Prop := i = 0 ∨ Looped (intCast s.length) i

private theorem examined_short {s : Str} (short : s.length < 2147483648) {i : Nat} {c : UInt8}
    (found : s[i]? = some c) : Examined s i := by
  have inside : i < s.length := (List.getElem?_eq_some_iff.mp found).1
  unfold Examined Looped
  rw [intCast_small short]
  omega

private theorem identifier_is_valid_iff (s : Str) : identifier_is_valid s = true ↔
    s ≠ [] ∧ ∀ i c, s[i]? = some c → Examined s i → Allowed i c ∨ c = atSign := by
  cases s with
  | nil => simp [identifier_is_valid]
  | cons first tail =>
    simp only [identifier_is_valid, Bool.and_eq_true, loop_all, letterRange_iff, identifierRange_iff]
    constructor
    · rintro ⟨head, others⟩
      refine ⟨by simp, ?_⟩
      intro i c found examined
      by_cases start : i = 0
      · subst start
        rw [List.getElem?_cons_zero, Option.some.injEq] at found
        simpa [Allowed, ← found] using head
      · simpa [Allowed, start] using others i c found (examined.resolve_left start)
    · rintro ⟨_, legal⟩
      refine ⟨?_, ?_⟩
      · simpa [Allowed] using legal 0 first (by simp) (.inl rfl)
      · intro i c found inside
        have start : i ≠ 0 := by have := inside.1; omega
        simpa [Allowed, start] using legal i c found (.inr inside)

/-- Where the check decides rightly: no `@` stands where it looks and nothing illegal where
    it does not; or the text is illegal by something else that it sees. -/
def RightlyJudged (s : Str) : Prop :=
  (∀ i c, s[i]? = some c → (Examined s i → c ≠ atSign) ∧ (¬ Examined s i → Allowed i c)) ∨
    s = [] ∨ ∃ i c, s[i]? = some c ∧ Examined s i ∧ c ≠ atSign ∧ ¬ Allowed i c

private theorem identifier_is_valid_right (s : Str) : (identifier_is_valid s = true ↔ Identifier s) ↔
    RightlyJudged s := by
  rw [identifier_iff, identifier_is_valid_iff]
  constructor
  · intro agree
    by_cases empty : s = []
    · exact .inr (.inl empty)
    by_cases seen : ∃ i c, s[i]? = some c ∧ Examined s i ∧ c ≠ atSign ∧ ¬ Allowed i c
    · exact .inr (.inr seen)
    · have legal : ∀ i c, s[i]? = some c → Examined s i → Allowed i c ∨ c = atSign := by
        intro i c found examined
        by_contra illegal
        rw [not_or] at illegal
        exact seen ⟨i, c, found, examined, illegal.2, illegal.1⟩
      obtain ⟨_, allowed⟩ := agree.mp ⟨empty, legal⟩
      refine .inl ?_
      intro i c found
      refine ⟨?_, fun _ => allowed i c found⟩
      rintro _ rfl
      exact atSign_illegal i (allowed i atSign found)
  · intro right
    constructor
    · rintro ⟨some_, legal⟩
      refine ⟨some_, ?_⟩
      rcases right with clean | empty | ⟨i, c, found, examined, other, illegal⟩
      · intro i c found
        by_cases examined : Examined s i
        · exact (legal i c found examined).resolve_right ((clean i c found).1 examined)
        · exact (clean i c found).2 examined
      · exact absurd empty some_
      · exact absurd ((legal i c found examined).resolve_right other) illegal
    · rintro ⟨some_, allowed⟩
      exact ⟨some_, fun i c found _ => .inl (allowed i c found)⟩

/-- A name of a length that a line can have, once it has passed the check. -/
theorem identifier_of_valid {a : Str} (ok : identifier_is_valid a = true) (short : a.length < 2147483648) :
    Identifier a ↔ atSign ∉ a := by
  obtain ⟨some_, legal⟩ := (identifier_is_valid_iff a).mp ok
  rw [identifier_iff]
  constructor
  · rintro ⟨_, allowed⟩ member
    obtain ⟨i, found⟩ := List.mem_iff_getElem?.mp member
    exact atSign_illegal i (allowed i atSign found)
  · intro absent
    refine ⟨some_, ?_⟩
    intro i c found
    apply (legal i c found (examined_short short found)).resolve_right
    rintro rfl
    exact absent (List.mem_of_getElem? found)

/-- No `@` before the first newline of a line is read: each stands in a text that is never
    closed, that is, behind an odd number of quotes and with no quote after it. -/
def NoAtSignRead (line : Str) : Prop :=
  ∀ before after, line.takeWhile (· != newline) = before ++ atSign :: after →
    before.count quote % 2 = 1 ∧ quote ∉ after

/-- The types whose arguments are names of users, tables and keys. -/
def named : List MessageType := [.LOGIN, .CREATE, .GET, .SET]

private theorem named_args {m : Message} (valid : m.is_valid = true) (names : m.m_message_type ∈ named) :
    ∀ a ∈ m.m_args, identifier_is_valid a = true := by
  have shape := shape_of_valid valid
  generalize m.m_message_type = t at names shape
  intro a member
  generalize m.m_args = args at shape member
  cases shape with
  | plain bare => simp at member
  | named one ok =>
    rw [List.mem_singleton.mp member]
    exact ok
  | value one => rcases (by simpa using one : t = .PUSH ∨ t = .DATA) with rfl | rfl <;> simp [named] at names
  | text one => rcases (by simpa using one : t = .FAILED ∨ t = .ERROR) with rfl | rfl <;> simp [named] at names
  | cell two table key =>
    rcases List.mem_cons.mp member with rfl | member
    · exact table
    · rw [List.mem_singleton.mp member]
      exact key

private theorem takeWhile_front {front : Str} (unbroken : newline ∉ front) (tail : Str) :
    (front ++ tail).takeWhile (· != newline) = front ++ tail.takeWhile (· != newline) := by
  apply List.takeWhile_append_of_pos
  intro c member
  rw [bne_iff_ne]
  rintro rfl
  exact unbroken member

/-- The scanner reads the front of the line and nothing of what it leaves. -/
theorem noAtSignRead_iff {front tail : Str} {closed : Bool} (unbroken : newline ∉ front)
    (even : front.count quote % 2 = 0) (unread : Unread closed tail) :
    NoAtSignRead (front ++ tail) ↔ atSign ∉ front := by
  unfold NoAtSignRead
  rw [takeWhile_front unbroken]
  constructor
  · intro outside member
    obtain ⟨before, after, rfl⟩ := List.append_of_mem member
    obtain ⟨odd, unquoted⟩ := outside before (after ++ tail.takeWhile (· != newline)) (by simp)
    have after_ : quote ∉ after := fun inside => unquoted (List.mem_append_left _ inside)
    rw [List.count_append, List.count_cons_of_ne (by decide), List.count_eq_zero_of_not_mem after_] at even
    omega
  · intro absent before after cut
    cases unread with
    | rest ignored =>
      rw [List.takeWhile_cons_of_neg (by simp), List.append_nil] at cut
      exact absurd (by rw [cut]; simp) absent
    | @text text unquoted =>
      rw [List.takeWhile_cons_of_pos (by decide)] at cut
      have plain : quote ∉ text.takeWhile (· != newline) := fun inside =>
        unquoted ((List.takeWhile_sublist _).mem inside)
      rcases List.append_eq_append_iff.mp cut with ⟨opened, whole, later⟩ | ⟨more, whole, later⟩
      · cases opened with
        | nil => exact absurd (List.cons.inj later).1 (by decide)
        | cons c opened =>
          obtain ⟨rfl, _⟩ := List.cons.inj later
          have rest : text.takeWhile (· != newline) = opened ++ atSign :: after := (List.cons.inj later).2
          rw [rest, List.mem_append, not_or, List.mem_cons, not_or] at plain
          refine ⟨?_, plain.2.2⟩
          rw [whole, List.count_append, List.count_cons_self, List.count_eq_zero_of_not_mem plain.1]
          omega
      · cases more with
        | nil => exact absurd (List.cons.inj later).1 (by decide)
        | cons c more =>
          obtain ⟨rfl, _⟩ := List.cons.inj later
          exact absurd (by rw [whole]; simp) absent

/-- An `@` in a name is an `@` that the scanner has read. -/
theorem names_atSign {line : Str} {m : Message} (run : decode line = .ok m) (names : m.m_message_type ∈ named) :
    (∀ a ∈ m.m_args, atSign ∉ a) ↔ NoAtSignRead line := by
  obtain ⟨indent, word, body, tail, whole, wordChars, type, _, items, stop⟩ := decode_parts run
  have bare : ∀ a ∈ m.m_args, Bare a := by
    apply decoded_bare run
    · intro failed; simp [failed, named] at names
    · intro error; simp [error, named] at names
  have name : word = messageTypeToString m.m_message_type := by
    rcases name_or_none type (decode_accepted run).2.2 with ⟨_, name⟩ | ⟨none_, _⟩
    · exact name
    · simp [none_, named] at names
  have indented : ∀ c, c ≠ space → c ∉ List.replicate indent space := fun c other member =>
    other (List.eq_of_mem_replicate member)
  have unbroken : newline ∉ List.replicate indent space ++ (word ++ body) := by
    rw [List.mem_append, List.mem_append, items.mem_iff (by decide) (by decide)]
    rintro (inside | inside | ⟨a, member, inside⟩)
    · exact indented newline (by decide) inside
    · exact (wordChars newline inside).2 rfl
    · exact ((bare a member).2 newline inside).2.1 rfl
  have even : (List.replicate indent space ++ (word ++ body)).count quote % 2 = 0 := by
    have noQuote : quote ∉ word := by
      rw [name]
      intro inside
      exact (name_chars _ quote inside).2.2 rfl
    rw [List.count_append, List.count_append, List.count_eq_zero_of_not_mem (indented quote (by decide)),
      List.count_eq_zero_of_not_mem noQuote]
    have := items.even
    omega
  have read : NoAtSignRead line ↔ atSign ∉ List.replicate indent space ++ (word ++ body) := by
    rw [whole, ← List.append_assoc word, ← List.append_assoc]
    rcases stop with unread | ⟨_, _, unread⟩
    · exact noAtSignRead_iff unbroken even unread
    · exact noAtSignRead_iff unbroken even unread
  have noAt : atSign ∉ word := by
    rw [name]
    generalize m.m_message_type = t
    cases t <;> decide
  rw [read, List.mem_append, List.mem_append, items.mem_iff (by decide) (by decide)]
  simp [indented atSign (by decide), noAt]

/-- The check of identifiers is right about a text exactly when no `@` is to blame; and the
    names in a line that decodes are identifiers exactly when no `@` of the line is read. -/
theorem identifier_grammar (s line : Str) :
    ((identifier_is_valid s = true ↔ Identifier s) ↔ RightlyJudged s) ∧
    ∀ m, decode line = .ok m → m.m_message_type ∈ named → ((∀ a ∈ m.m_args, Identifier a) ↔ NoAtSignRead line) := by
  refine ⟨identifier_is_valid_right s, ?_⟩
  intro m run names
  rw [← names_atSign run names]
  have valid := named_args (decode_accepted run).2.2 names
  constructor
  · intro all a member
    exact (identifier_of_valid (valid a member) (decoded_short run a member)).mp (all a member)
  · intro absent a member
    exact (identifier_of_valid (valid a member) (decoded_short run a member)).mpr (absent a member)

theorem identifier_grammar_set :
    ((identifier_is_valid (lit "acct123") = true ↔ Identifier (lit "acct123")) ↔ RightlyJudged (lit "acct123")) ∧
    ((∀ a ∈ [lit "accounts", lit "acct123"], Identifier a) ↔ NoAtSignRead (lit "SET accounts \"acct123\"\n@\n")) :=
  ⟨(identifier_grammar (lit "acct123") []).1,
    (identifier_grammar [] (lit "SET accounts \"acct123\"\n@\n")).2 ⟨.SET, [lit "accounts", lit "acct123"]⟩
      (by decide) (by decide)⟩

/-- The character before `A` is taken for a letter. -/
theorem identifier_at : identifier_is_valid (lit "@") = true ∧ ¬ Identifier (lit "@") ∧
    decode (lit "CREATE @\n") = .ok ⟨.CREATE, [lit "@"]⟩ ∧
    (¬ ∀ s : Str, identifier_is_valid s = true ↔ Identifier s) ∧
    ¬ ∀ (line : Str) (m : Message), decode line = .ok m → m.m_message_type ∈ named → ∀ a ∈ m.m_args, Identifier a := by
  have illegal : ¬ Identifier (lit "@") := by
    rw [identifier_iff]
    rintro ⟨_, allowed⟩
    exact atSign_illegal 0 (allowed 0 atSign (by decide))
  have run : decode (lit "CREATE @\n") = .ok ⟨.CREATE, [lit "@"]⟩ := by decide
  refine ⟨by decide, illegal, run, ?_, ?_⟩
  · intro always
    exact illegal ((always (lit "@")).mp (by decide))
  · intro always
    exact illegal (always _ _ run (by decide) (lit "@") (by simp))

private theorem quoted_text_is_valid_iff (t : Str) :
    quoted_text_is_valid t = true ↔ ∀ i, t[i]? = some quote → ¬ Looped (intCast t.length - 1) i := by
  rw [quoted_text_is_valid, loop_all]
  constructor
  · intro plain i found inside
    have other := plain i quote found inside
    simp at other
  · intro outside i c found inside
    rw [bne_iff_ne]
    rintro rfl
    exact outside i found inside

private theorem response_valid {type : MessageType} (response : type ∈ [.FAILED, .ERROR]) (t : Str) :
    (⟨type, [t]⟩ : Message).is_valid = quoted_text_is_valid t := by
  rcases (by simpa using response : type = .FAILED ∨ type = .ERROR) with rfl | rfl
  · simp [Message.is_valid, Message.valid_number_of_args]
  · simp [Message.is_valid, Message.valid_number_of_args]

private theorem unquoted_valid {t : Str} (unquoted : quote ∉ t) : quoted_text_is_valid t = true := by
  apply (quoted_text_is_valid_iff t).mpr
  intro i found
  exact absurd (List.mem_of_getElem? found) unquoted

/-- Where a text still has its quotes, the loop looks at all that is between them. -/
theorem quotes_kept {t : Str} (unquoted : quote ∉ t) (short : t.length + 2 < 2147483648) :
    quoted_text_is_valid (quote :: t ++ [quote]) = true := by
  have length : (quote :: t ++ [quote]).length = t.length + 2 := by simp
  apply (quoted_text_is_valid_iff _).mpr
  intro i found inside
  obtain ⟨first, below⟩ := inside
  rw [length, intCast_small short] at below
  apply unquoted
  apply List.mem_of_getElem? (i := i - 1)
  rw [show i = i - 1 + 1 from by omega, List.cons_append, List.getElem?_cons_succ,
    List.getElem?_append_left (by omega)] at found
  exact found

/-- The scanner takes what is between two quotes for one argument. -/
theorem scanArgs_quoted (i : Nat) (args : List Str) {text : Str} (unquoted : quote ∉ text)
    (room : i + text.length + 2 < 1024) :
    scanArgs false i args [] (quote :: text ++ [quote] ++ [newline]) = .ok (args ++ [text]) := by
  have opening : i < 1024 := by omega
  have closing : i + 1 + text.length < 1024 := by omega
  have ending : i + 1 + text.length + 1 < 1024 := by omega
  have keep : pushed args [] = args := if_neg (by simp)
  have keep' : pushed (args ++ [text]) [] = args ++ [text] := if_neg (by simp)
  rw [List.append_assoc, List.cons_append, scanArgs, if_pos opening, if_neg (by simp), if_pos (by decide), if_pos rfl,
    keep, scanArgs_text _ _ _ _ _ unquoted (by omega), List.nil_append, List.singleton_append]
  rw [scanArgs, if_pos closing, if_pos rfl, if_pos rfl]
  rw [scanArgs, if_pos ending, if_neg (by simp), if_neg (by simp), if_pos rfl, keep']

/-- A text without quotes, put between two of them, is read back from its line. -/
theorem decode_quoted {type : MessageType} (response : type ∈ [.FAILED, .ERROR]) {t line : Str}
    (unquoted : quote ∉ t) (run : encode ⟨type, [quote :: t ++ [quote]]⟩ = .ok line) :
    decode line = .ok ⟨type, [t]⟩ := by
  obtain ⟨rfl, fits⟩ := encode_ok run
  have room : (messageTypeToString type).length + t.length + 4 ≤ 1024 := by
    simp only [encodedLine, encodedArgs_cons, List.length_append, List.length_cons] at fits
    omega
  have valid : (⟨type, [quote :: t ++ [quote]]⟩ : Message).is_valid = true := by
    rw [response_valid response]
    exact quotes_kept unquoted (by omega)
  have scanned : scanArgs false (0 + (messageTypeToString type).length + 1) [] []
      (quote :: t ++ [quote] ++ encodedArgs [] ++ [newline]) = .ok [t] := by
    rw [encodedArgs, List.flatMap_nil, List.append_nil]
    exact scanArgs_quoted _ _ unquoted (by omega)
  have back : (⟨type, [t]⟩ : Message).is_valid = true := by
    rw [response_valid response]
    exact unquoted_valid unquoted
  rw [decode_split (splitEncoded _ valid) (encodedLine_last _) fits]
  simp only [splitEncoded, decodeRest, scanned, type_of_name, back, ne_eq, show space ≠ newline from by decide,
    not_false_eq_true, if_true]

/-- Where the check decides rightly: a quote stands at no position that the loop leaves out,
    or at one that it looks at. Below `2 ^ 31` characters it leaves out the first and the last. -/
def QuotesSeen (t : Str) : Prop :=
  (∀ i, t[i]? = some quote → Looped (intCast t.length - 1) i) ∨
    ∃ i, t[i]? = some quote ∧ Looped (intCast t.length - 1) i

private theorem quotesSeen_iff (t : Str) : QuotesSeen t ↔ (quoted_text_is_valid t = true → quote ∉ t) := by
  rw [quoted_text_is_valid_iff]
  constructor
  · rintro (inside | ⟨i, found, inside⟩) outside member
    · obtain ⟨i, found⟩ := List.mem_iff_getElem?.mp member
      exact outside i found (inside i found)
    · exact outside i found inside
  · intro right
    by_cases seen : ∃ i, t[i]? = some quote ∧ Looped (intCast t.length - 1) i
    · exact .inr seen
    · have none_ : quote ∉ t := by
        apply right
        intro i found inside
        exact seen ⟨i, found, inside⟩
      refine .inl ?_
      intro i found
      exact absurd (List.mem_of_getElem? found) none_

/-- The check of a FAILED or ERROR message says whether its text has a quote, and promises a
    line from which the text is read back, exactly when the text has no quote at its ends or
    another one between them. -/
theorem quoted_text_grammar {type : MessageType} (response : type ∈ [.FAILED, .ERROR]) (t : Str) :
    (((⟨type, [t]⟩ : Message).is_valid = true ↔ quote ∉ t) ↔ QuotesSeen t) ∧
    ∀ line, encode ⟨type, [quote :: t ++ [quote]]⟩ = .ok line →
      (((⟨type, [t]⟩ : Message).is_valid = true → decode line = .ok ⟨type, [t]⟩) ↔ QuotesSeen t) := by
  rw [quotesSeen_iff, response_valid response]
  refine ⟨⟨fun agree => agree.mp, fun right => ⟨right, unquoted_valid⟩⟩, ?_⟩
  intro line run
  have back : decode line = .ok ⟨type, [t]⟩ ↔ quote ∉ t := by
    constructor
    · intro decoded
      exact decode_unquoted decoded t (by simp)
    · intro unquoted
      exact decode_quoted response unquoted run
  rw [back]

theorem quoted_text_grammar_failed :
    (((⟨.FAILED, [lit "The operation failed"]⟩ : Message).is_valid = true ↔ quote ∉ lit "The operation failed") ↔
      QuotesSeen (lit "The operation failed")) ∧
    (((⟨.FAILED, [lit "The operation failed"]⟩ : Message).is_valid = true →
      decode (lit "FAILED \"The operation failed\"\n") = .ok ⟨.FAILED, [lit "The operation failed"]⟩) ↔
        QuotesSeen (lit "The operation failed")) :=
  ⟨(quoted_text_grammar (by decide) _).1,
    (quoted_text_grammar (by decide) _).2 (lit "FAILED \"The operation failed\"\n") (by decide)⟩

/-- A text that begins with a quote passes, and its line cannot be read. -/
theorem quoted_text_at_end : (⟨.FAILED, [lit "\"oops"]⟩ : Message).is_valid = true ∧ quote ∈ lit "\"oops" ∧
    encode ⟨.FAILED, [quote :: lit "\"oops" ++ [quote]]⟩ = .ok (lit "FAILED \"\"oops\"\n") ∧
    decode (lit "FAILED \"\"oops\"\n") = .error .out_of_range ∧
    (¬ ∀ (type : MessageType) (t : Str), type ∈ [.FAILED, .ERROR] →
      ((⟨type, [t]⟩ : Message).is_valid = true ↔ quote ∉ t)) ∧
    ¬ ∀ (type : MessageType) (t line : Str), type ∈ [.FAILED, .ERROR] →
      encode ⟨type, [quote :: t ++ [quote]]⟩ = .ok line → (⟨type, [t]⟩ : Message).is_valid = true →
        decode line = .ok ⟨type, [t]⟩ := by
  have passes : (⟨.FAILED, [lit "\"oops"]⟩ : Message).is_valid = true := by decide
  have fails : decode (lit "FAILED \"\"oops\"\n") = .error .out_of_range := by decide
  refine ⟨passes, by decide, by decide, fails, ?_, ?_⟩
  · intro always
    exact (always .FAILED (lit "\"oops") (by decide)).mp passes (by decide)
  · intro always
    have decoded := always .FAILED (lit "\"oops") (lit "FAILED \"\"oops\"\n") (by decide) (by decide) passes
    rw [fails] at decoded
    cases decoded

end TableServer.Grammar
