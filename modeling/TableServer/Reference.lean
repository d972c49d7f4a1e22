import Mathlib.Data.List.TakeWhile
import TableServer.Lines

/-!
A reference tokenizer, stated by maximal runs instead of positions, and what
decoding is on the lines it is meant for: the reference, followed by the validity
check. What decoding returns is canonical: it encodes to a line no longer than the
one it came from, which decodes to the same message.
-/

namespace TableServer.Reference
open TableServer.Bytes TableServer.Messages TableServer.Serialization TableServer.Tokens TableServer.RoundTrip
  TableServer.Lines

/-- The command word of a line: the maximal run without spaces after the leading spaces. -/
def command (line : Str) : Str := (line.dropWhile (· == space)).takeWhile (· != space)

/-- What follows the command word. -/
def remainder (line : Str) : Str := (line.dropWhile (· == space)).dropWhile (· != space)

/-- A character of a bare run. -/
def plain (c : UInt8) : Bool := c != space && c != quote

/-- Reading the arguments from left to right: a space is dropped, a quote begins a text
    that goes on to the next quote, and anything else begins a bare run. -/
def tokens : Str → List Str
  | [] => []
  | c :: rest =>
    if c = space then tokens rest
    else if c = quote then rest.takeWhile (· != quote) :: tokens ((rest.dropWhile (· != quote)).drop 1)
    else (c :: rest.takeWhile plain) :: tokens (rest.dropWhile plain)
termination_by s => s.length
decreasing_by
  · simp
  · have := List.length_dropWhile_le (· != quote) rest
    simp only [List.length_drop, List.length_cons]; omega
  · have := List.length_dropWhile_le plain rest
    simp only [List.length_cons]; omega

example : tokens (lit " a\"b c\"d  \"\"") = [lit "a", lit "b c", lit "d", lit ""] := by
  simp [tokens, lit, plain, space, quote]

/-- The grammar leaves no choice: its arguments are those of the reference. -/
theorem tokens_of_items {body : Str} {args : List Str} (items : Items body args) : tokens body = args := by
  induction items with
  | nil => rw [tokens]
  | blank later ih => rw [tokens, if_pos rfl, ih]
  | @quoted text body args unquoted later ih =>
    have inside : ∀ c ∈ text, (c != quote) = true := by
      intro c member
      rw [bne_iff_ne]
      rintro rfl
      exact unquoted member
    rw [List.cons_append, tokens, if_neg (by decide), if_pos rfl, List.takeWhile_append_of_pos inside,
      List.dropWhile_append_of_pos inside, List.takeWhile_cons_of_neg (by simp), List.dropWhile_cons_of_neg (by simp),
      List.append_nil, List.drop_one, List.tail_cons, ih]
  | @bare word body args whole stops later ih =>
    obtain ⟨some_, chars⟩ := whole
    obtain ⟨c, tail, rfl⟩ := List.exists_cons_of_ne_nil some_
    have head := chars c (by simp)
    have run : ∀ d ∈ tail, plain d = true := by
      intro d member
      obtain ⟨noSpace, _, noQuote⟩ := chars d (by simp [member])
      simp [plain, noSpace, noQuote]
    have ends : body.takeWhile plain = [] ∧ body.dropWhile plain = body := by
      cases body with
      | nil => exact ⟨rfl, rfl⟩
      | cons d body =>
        have stop : ¬ plain d = true := by rcases stops d (by simp) with rfl | rfl <;> decide
        exact ⟨List.takeWhile_cons_of_neg stop, List.dropWhile_cons_of_neg stop⟩
    rw [List.cons_append, tokens, if_neg head.1, if_neg head.2.2, List.takeWhile_append_of_pos run,
      List.dropWhile_append_of_pos run, ends.1, ends.2, List.append_nil, ih]

private theorem takeWhile_space (line : Str) :
    line.takeWhile (· == space) = List.replicate (line.takeWhile (· == space)).length space := by
  refine List.eq_replicate_iff.mpr ⟨rfl, ?_⟩
  intro c member
  have holds := List.mem_takeWhile_imp member
  simpa using holds

private theorem dropWhile_head {p : UInt8 → Bool} {s rest : Str} {c : UInt8} (cut : s.dropWhile p = c :: rest) :
    p c = false := by
  have stop := List.head?_dropWhile_not p s
  rwa [cut] at stop

/-- The cut at the command word, by the reference. -/
theorem split_reference {line : Str} (unbroken : newline ∉ line) :
    ∃ p : Split (line ++ [newline]), p.word = command line ∧ p.after :: p.rest = remainder line ++ [newline] := by
  have whole :
      List.replicate (line.takeWhile (· == space)).length space ++ (command line ++ remainder line) = line := by
    rw [← takeWhile_space, command, remainder, List.takeWhile_append_dropWhile, List.takeWhile_append_dropWhile]
  have chars : ∀ c ∈ command line, c ≠ space ∧ c ≠ newline := by
    intro c member
    have holds := List.mem_takeWhile_imp member
    refine ⟨by simpa using holds, ?_⟩
    rintro rfl
    apply unbroken
    rw [← whole]
    simp [member]
  cases cut : remainder line with
  | nil =>
    refine ⟨⟨(line.takeWhile (· == space)).length, command line, newline, [], chars, .inr rfl, fun _ => rfl, ?_⟩,
      rfl, rfl⟩
    conv_lhs => rw [← whole, cut, List.append_nil, List.append_assoc]
  | cons c tail =>
    have blank : c = space := by
      have stop := dropWhile_head cut
      simpa using stop
    refine ⟨⟨(line.takeWhile (· == space)).length, command line, c, tail ++ [newline], chars, .inl blank, ?_, ?_⟩,
      rfl, rfl⟩
    · intro empty
      -- without a command word nothing is left behind the leading spaces
      have start : line.dropWhile (· == space) = c :: tail := by
        rw [← List.takeWhile_append_dropWhile (p := (· != space)) (l := line.dropWhile (· == space))]
        rw [command] at empty
        rw [remainder] at cut
        rw [empty, cut, List.nil_append]
      have stop := dropWhile_head start
      rw [blank] at stop
      simp at stop
    · conv_lhs => rw [← whole, cut, List.append_assoc, List.append_assoc, List.cons_append]

/-- On a line of at most 1024 characters whose only newline is the last one, with an even
    number of quotes after the command word, decoding is the reference and the validity
    check. -/
theorem decode_reference {line : Str} (unbroken : newline ∉ line) (fits : (line ++ [newline]).length ≤ MAX_ENCODED_LEN)
    (even : (remainder line).count quote % 2 = 0) :
    decode (line ++ [newline]) =
      if (Message.mk (stringToMessageType (command line)) (tokens (remainder line))).is_valid
      then .ok ⟨stringToMessageType (command line), tokens (remainder line)⟩
      else .error invalidArguments := by
  obtain ⟨p, word, cut⟩ := split_reference unbroken
  have length := p.length
  have short : (line ++ [newline]).length ≤ 1024 := fits
  have scanned : (if p.after ≠ newline then scanArgs false (p.indent + p.word.length + 1) [] [] p.rest else .ok []) =
      .ok (tokens (remainder line)) := by
    cases start : remainder line with
    | nil =>
      rw [start, List.nil_append, List.cons.injEq] at cut
      rw [if_neg (by simp [cut.1]), tokens]
    | cons c tail =>
      rw [start, List.cons_append, List.cons.injEq] at cut
      have blank : c = space := by simpa using dropWhile_head start
      have rest : newline ∉ tail := by
        intro inside
        apply unbroken
        have member : newline ∈ remainder line := by rw [start]; simp [inside]
        exact ((List.dropWhile_suffix _).trans (List.dropWhile_suffix _)).mem member
      have quotes : tail.count quote % 2 = 0 := by
        rw [start, blank, List.count_cons_of_ne (by decide)] at even
        exact even
      have reached : reaches false p.rest = true := by
        rw [cut.2, reaches_last false rest]
        simpa using quotes
      obtain ⟨out, run⟩ : ∃ out, scanArgs false (p.indent + p.word.length + 1) [] [] p.rest = .ok out := by
        have outcome := scanArgs_outcome false (p.indent + p.word.length + 1) [] [] p.rest (by omega)
        rwa [if_neg (by simp [reached])] at outcome
      have items : Items tail out := by
        have size : p.rest.length = tail.length + 1 := by rw [cut.2, List.length_append, List.length_singleton]
        rw [cut.2] at run
        exact scanArgs_whole (reaches_unbroken false rest) quotes (by omega) run
      rw [if_pos (by rw [cut.1, blank]; decide), run, tokens, if_pos blank, tokens_of_items items]
  rw [decode_split p List.getLast?_concat short]
  unfold decodeRest
  rw [scanned, word]

theorem decode_reference_set : decode (lit " SET \"accounts\"acct123 " ++ [newline]) =
    if (Message.mk (stringToMessageType (command (lit " SET \"accounts\"acct123 ")))
      (tokens (remainder (lit " SET \"accounts\"acct123 ")))).is_valid
    then .ok ⟨stringToMessageType (command (lit " SET \"accounts\"acct123 ")),
      tokens (remainder (lit " SET \"accounts\"acct123 "))⟩
    else .error invalidArguments :=
  decode_reference (by decide) (by decide) (by decide)

/-- Whatever the spacing of a line and the way its arguments are separated, the decoded
    message is no longer when it is encoded. -/
theorem encodedLine_length {s : Str} {m : Message} (run : decode s = .ok m) : (encodedLine m).length ≤ s.length := by
  obtain ⟨fits, last, _⟩ := decode_accepted run
  obtain ⟨p⟩ := split_exists (newline_mem last)
  have length := p.length
  rw [decode_split p last fits] at run
  obtain ⟨type, scanned, _⟩ := decodeRest_ok run
  have name : (messageTypeToString m.m_message_type).length ≤ p.word.length := by
    by_cases real : stringToMessageType p.word = .NONE
    · rw [type, real]
      exact Nat.zero_le _
    · rw [type, word_of_type real]
  have args : (encodedArgs m.m_args).length ≤ p.rest.length := by
    split at scanned
    · exact scanArgs_length scanned
    · rw [← Except.ok.inj scanned]
      exact Nat.zero_le _
  simp only [encodedLine, List.length_append, List.length_singleton]
  omega

/-- Every argument of a decoded line is shorter than the loop counter can count. -/
theorem decoded_short {line : Str} {m : Message} (run : decode line = .ok m) : ∀ a ∈ m.m_args,
    a.length < 2147483648 := by
  intro a member
  have fits := (decode_accepted run).1
  have shorter := encodedLine_length run
  have argument := arg_length_le member
  simp only [encodedLine, List.length_append] at shorter
  omega

/-- A decoded argument that the validator of its type checks is a bare word; only the texts
    of FAILED and ERROR can be anything else. -/
theorem decoded_bare {s : Str} {m : Message} (run : decode s = .ok m) (failed : m.m_message_type ≠ .FAILED)
    (error : m.m_message_type ≠ .ERROR) : ∀ a ∈ m.m_args, Bare a := by
  intro a member
  have shape := shape_of_valid (decode_accepted run).2.2
  have unquoted := decode_unquoted run a member
  have short := decoded_short run a member
  generalize m.m_args = args at shape member
  cases shape with
  | plain => simp at member
  | named one ok =>
    rw [List.mem_singleton.mp member] at short ⊢
    exact identifier_bare ok short
  | value one ok =>
    rw [List.mem_singleton.mp member] at unquoted ⊢
    exact value_bare ok unquoted
  | text one => simp [failed, error] at one
  | cell two table key =>
    rcases List.mem_cons.mp member with rfl | member
    · exact identifier_bare table short
    · rw [List.mem_singleton.mp member] at short ⊢
      exact identifier_bare key short

/-- Decoding is idempotent: the message that it returns always encodes, to a line no longer
    than the one decoded, and unless it is a FAILED or ERROR message that line decodes to
    the message itself. -/
theorem decode_canonical {s : Str} {m : Message} (run : decode s = .ok m) :
    ∃ line, encode m = .ok line ∧ line.length ≤ s.length ∧
      (m.m_message_type ≠ .FAILED → m.m_message_type ≠ .ERROR → decode line = .ok m) := by
  obtain ⟨fits, _, valid⟩ := decode_accepted run
  have shorter := encodedLine_length run
  refine ⟨encodedLine m, encode_fits (by omega), shorter, ?_⟩
  intro failed error
  exact decode_encodedLine valid (decoded_bare run failed error) (by omega)

theorem decode_canonical_create : ∃ line, encode ⟨.CREATE, [lit "invoices"]⟩ = .ok line ∧
    line.length ≤ (lit "     CREATE   \"invoices\"  \nPOP\n").length ∧
      (MessageType.CREATE ≠ .FAILED → MessageType.CREATE ≠ .ERROR → decode line = .ok ⟨.CREATE, [lit "invoices"]⟩) :=
  decode_canonical (s := lit "     CREATE   \"invoices\"  \nPOP\n") (m := ⟨.CREATE, [lit "invoices"]⟩) (by decide)

end TableServer.Reference
