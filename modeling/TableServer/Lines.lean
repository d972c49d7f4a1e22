import TableServer.RoundTrip

/-!
The lines that the decoder accepts, for any string whatsoever. The scanner stops at
the first newline outside quotes, and what stands between it and the command word
is read by a grammar of its own: blanks, quoted texts and bare words.
-/

namespace TableServer.Lines
open TableServer.Bytes TableServer.Messages TableServer.Serialization TableServer.Tokens TableServer.RoundTrip

/-- The arguments in a text: spaces separate them, and so do the quotes themselves. A
    bare word goes on until a space, a quote or the end. -/
inductive Items : Str → List Str → Prop
  | nil : Items [] []
  | blank {body : Str} {args : List Str} (later : Items body args) : Items (space :: body) args
  | quoted {text body : Str} {args : List Str} (plain : quote ∉ text) (later : Items body args) :
      Items (quote :: text ++ quote :: body) (text :: args)
  | bare {word body : Str} {args : List Str} (whole : Bare word)
      (stops : ∀ c ∈ body.head?, c = space ∨ c = quote) (later : Items body args) :
      Items (word ++ body) (word :: args)

/-- A bare word that is still open belongs to the arguments, unless it is empty. -/
theorem Items.collected {arg body : Str} {args : List Str} (chars : ∀ c ∈ arg, c ≠ space ∧ c ≠ newline ∧ c ≠ quote)
    (stops : ∀ c ∈ body.head?, c = space ∨ c = quote) (later : Items body args) :
    Items (arg ++ body) (pushed [] arg ++ args) := by
  unfold pushed
  by_cases empty : arg = []
  · rw [if_neg (by simp [empty]), empty]
    exact later
  · rw [if_pos empty]
    exact .bare ⟨empty, chars⟩ stops later

private theorem pushed_append (args : List Str) (arg : Str) : pushed args arg = args ++ pushed [] arg := by
  unfold pushed
  split <;> simp

/-- Every newline in the arguments is inside quotes. -/
theorem Items.unbroken {body : Str} {args : List Str} (items : Items body args) : reaches false body = false := by
  have text : ∀ (t rest : Str), quote ∉ t → reaches true (t ++ quote :: rest) = reaches false rest := by
    intro t rest plain
    induction t with
    | nil => simp [reaches]
    | cons c t ih =>
      rw [List.mem_cons, not_or] at plain
      rw [List.cons_append, reaches, if_neg (Ne.symm plain.1), if_neg (by simp)]
      exact ih plain.2
  have word : ∀ (w rest : Str), (∀ c ∈ w, c ≠ space ∧ c ≠ newline ∧ c ≠ quote) →
      reaches false (w ++ rest) = reaches false rest := by
    intro w rest chars
    induction w with
    | nil => rfl
    | cons c w ih =>
      have head := chars c (by simp)
      rw [List.cons_append, reaches, if_neg head.2.2, if_neg (by simp [head.2.1])]
      exact ih (fun d member => chars d (by simp [member]))
  induction items with
  | nil => rfl
  | blank later ih => simpa [reaches, show space ≠ quote from by decide, show space ≠ newline from by decide] using ih
  | quoted plain later ih =>
    rw [List.cons_append, reaches, if_pos rfl]
    exact (text _ _ plain).trans ih
  | bare whole stops later ih => exact (word _ _ whole.2).trans ih

/-- Every quote in the arguments has its partner. -/
theorem Items.even {body : Str} {args : List Str} (items : Items body args) : body.count quote % 2 = 0 := by
  induction items with
  | nil => rfl
  | blank later ih =>
    rw [List.count_cons_of_ne (by decide)]
    exact ih
  | @quoted text body args plain later ih =>
    rw [List.cons_append, List.count_cons_self, List.count_append, List.count_cons_self,
      List.count_eq_zero_of_not_mem plain]
    omega
  | @bare word body args whole stops later ih =>
    have none_ : quote ∉ word := fun member => (whole.2 quote member).2.2 rfl
    rw [List.count_append, List.count_eq_zero_of_not_mem none_]
    omega

/-- A character other than the separators is in the text if and only if it is in one of
    its arguments. -/
theorem Items.mem_iff {body : Str} {args : List Str} (items : Items body args) {c : UInt8} (noSpace : c ≠ space)
    (noQuote : c ≠ quote) : c ∈ body ↔ ∃ a ∈ args, c ∈ a := by
  induction items with
  | nil => simp
  | blank later ih => simpa [noSpace] using ih
  | quoted plain later ih => simp [noQuote, ih]
  | bare whole stops later ih => simp [ih]

/-- The scanner reads the grammar: up to the first newline outside quotes, the text
    with what it has collected before is made of the arguments that it returns. -/
theorem scanArgs_items {inside : Bool} {i : Nat} {args out : List Str} {arg rest : Str}
    (run : scanArgs inside i args arg rest = .ok out) (ends : reaches inside rest = true)
    (chars : if inside then quote ∉ arg else ∀ c ∈ arg, c ≠ space ∧ c ≠ newline ∧ c ≠ quote)
    (room : i + rest.length ≤ 1024) :
    ∃ body ignored more, rest = body ++ newline :: ignored ∧ out = args ++ more ∧
      Items (if inside then quote :: arg ++ body else arg ++ body) more := by
  induction rest generalizing inside i args arg with
  | nil => simp [reaches] at ends
  | cons c rest ih =>
    rw [List.length_cons] at room
    have here : i < 1024 := by omega
    have next : i + 1 + rest.length ≤ 1024 := by omega
    rw [scanArgs, if_pos here] at run
    rw [reaches] at ends
    cases inside with
    | true =>
      rw [if_pos rfl] at run chars
      by_cases isQuote : c = quote
      · rw [if_pos isQuote] at run ends
        obtain ⟨body, ignored, more, whole, result, items⟩ := ih run ends (by simp) next
        refine ⟨c :: body, ignored, arg :: more, by rw [whole, List.cons_append], by simp [result], ?_⟩
        rw [if_pos rfl, isQuote]
        exact .quoted chars items
      · rw [if_neg isQuote] at run ends
        obtain ⟨body, ignored, more, whole, result, items⟩ := ih run (by simpa using ends)
          (by simpa [chars] using Ne.symm isQuote) next
        refine ⟨c :: body, ignored, more, by rw [whole, List.cons_append], result, ?_⟩
        rw [if_pos rfl] at items ⊢
        simpa using items
    | false =>
      rw [if_neg (by simp)] at run chars
      by_cases isNewline : c = newline
      · subst isNewline
        rw [if_neg (by simp), if_pos rfl] at run
        cases run
        refine ⟨[], rest, pushed [] arg, rfl, pushed_append args arg, ?_⟩
        simpa using Items.collected chars (by simp) .nil
      · by_cases isSpace : c = space
        · subst isSpace
          rw [if_neg (by simp), if_neg isNewline] at run
          rw [if_neg (by decide), if_neg (by simp [isNewline])] at ends
          obtain ⟨body, ignored, more, whole, result, items⟩ := ih run ends (by simp) next
          refine ⟨space :: body, ignored, pushed [] arg ++ more, by rw [whole, List.cons_append], ?_, ?_⟩
          · rw [result, pushed_append, List.append_assoc]
          · exact Items.collected chars (by simp) (.blank (by simpa using items))
        · rw [if_pos ⟨isSpace, isNewline⟩] at run
          by_cases isQuote : c = quote
          · rw [if_pos isQuote] at run ends
            obtain ⟨body, ignored, more, whole, result, items⟩ := ih run ends (by simp) next
            refine ⟨c :: body, ignored, pushed [] arg ++ more, by rw [whole, List.cons_append], ?_, ?_⟩
            · rw [result, pushed_append, List.append_assoc]
            · exact Items.collected chars (by simp [isQuote]) (by simpa [isQuote] using items)
          · rw [if_neg isQuote] at run ends
            rw [if_neg (by simp [isNewline])] at ends
            obtain ⟨body, ignored, more, whole, result, items⟩ := ih run ends (by
              rw [if_neg (by simp)]
              intro d member
              rcases List.mem_append.mp member with before | last
              · exact chars d before
              · rw [List.mem_singleton.mp last]; exact ⟨isSpace, isNewline, isQuote⟩) next
            refine ⟨c :: body, ignored, more, by rw [whole, List.cons_append], result, ?_⟩
            simpa using items

/-- What the scanner does not read: the line from the newline that it stops at, or a text
    that is still open where the buffer is full. -/
inductive Unread : Bool → Str → Prop
  | rest (ignored : Str) : Unread true (newline :: ignored)
  | text {text : Str} (unquoted : quote ∉ text) : Unread false (quote :: text)

/-- Before a newline that ends the text, where no other one is outside quotes and every
    quote has its partner, the scanner reads all there is. -/
theorem scanArgs_whole {i : Nat} {out : List Str} {body : Str} (missed : reaches false body = false)
    (even : body.count quote % 2 = 0) (room : i + body.length < 1024)
    (run : scanArgs false i [] [] (body ++ [newline]) = .ok out) : Items body out := by
  have reached : reaches false (body ++ [newline]) = true := (reaches_iff _ _).mpr ⟨body, [], rfl, by simpa using even⟩
  obtain ⟨cut, ignored, more, whole, result, items⟩ := scanArgs_items run reached (by simp) (by
    rw [List.length_append, List.length_singleton]; omega)
  simp only [Bool.false_eq_true, if_false, List.nil_append] at items result
  rw [result]
  rcases List.eq_nil_or_concat ignored with rfl | ⟨before, c, rfl⟩
  · rw [List.append_inj_left' whole rfl]
    exact items
  · rw [List.concat_eq_append, ← List.cons_append, ← List.append_assoc] at whole
    have inside : reaches false body = true :=
      (reaches_iff _ _).mpr ⟨cut, before, List.append_inj_left' whole rfl, by simpa using items.even⟩
    rw [missed] at inside
    cases inside

/-- A text that is cut off at the limit is dropped, and the arguments are those of the
    text before it. -/
theorem scanArgs_dropped {i : Nat} {out : List Str} {body text : Str} (missed : reaches false body = false)
    (even : body.count quote % 2 = 0) (unquoted : quote ∉ text) (full : i + (body ++ quote :: text).length = 1024)
    (run : scanArgs false i [] [] (body ++ quote :: text) = .ok out) : Items body out := by
  rw [List.length_append, List.length_cons] at full
  obtain ⟨later, args, arg, parity, follows⟩ := scanArgs_append false i [] [] missed (by omega)
  obtain rfl := parity.mpr (by simpa using even)
  have here : i + body.length < 1024 := by omega
  have limit : ¬ i + body.length + 1 + text.length < 1024 := by omega
  have dropped : pushed args arg = out := by
    rw [follows, scanArgs, if_pos here, if_neg (by simp), if_pos (by decide), if_pos rfl, ← List.append_nil text,
      scanArgs_text _ _ _ _ _ unquoted (by omega), scanArgs, if_neg limit] at run
    exact Except.ok.inj run
  -- a newline in place of the open text gives the same arguments
  apply scanArgs_whole missed even here
  rw [follows, scanArgs, if_pos here, if_neg (by simp), if_neg (by simp), if_pos rfl, dropped]

/-- Whatever the scanner returns, it has read from the front of the text. -/
theorem scanArgs_parts {i : Nat} {out : List Str} {rest : Str} (run : scanArgs false i [] [] rest = .ok out)
    (last : rest.getLast? = some newline) (room : i + rest.length ≤ 1024) :
    ∃ body tail, rest = body ++ tail ∧ Items body out ∧ Unread (reaches false rest) tail := by
  cases reached : reaches false rest with
  | true =>
    obtain ⟨body, ignored, more, whole, result, items⟩ := scanArgs_items run reached (by simp) room
    refine ⟨body, newline :: ignored, whole, ?_, .rest ignored⟩
    rw [result]
    simpa using items
  | false =>
    have full : i + rest.length = 1024 := by
      have outcome := scanArgs_outcome false i [] [] rest room
      by_contra short
      rw [if_pos ⟨reached, by omega⟩, run] at outcome
      cases outcome
    obtain ⟨body, text, whole, unquoted, missed, even⟩ := left_open last reached
    subst whole
    exact ⟨body, quote :: text, rfl, scanArgs_dropped missed even unquoted full run, .text unquoted⟩

/-- A line of the protocol that says `m`: spaces, the name of a message type, the
    arguments and one newline. -/
def ProtocolLine (s : Str) (m : Message) : Prop :=
  ∃ indent body, s = List.replicate indent space ++ (messageTypeToString m.m_message_type ++ body ++ [newline]) ∧
    m.m_message_type ≠ .NONE ∧ Items body m.m_args

theorem name_or_none {m : Message} {word : Str} (type : m.m_message_type = stringToMessageType word)
    (valid : m.is_valid = true) :
    (m.m_message_type ≠ .NONE ∧ word = messageTypeToString m.m_message_type) ∨
      (m.m_message_type = .NONE ∧ m.m_args = []) := by
  by_cases real : m.m_message_type = .NONE
  · exact .inr ⟨real, none_without_args valid real⟩
  · refine .inl ⟨real, ?_⟩
    rw [type] at real ⊢
    exact (word_of_type real).symm

/-- A line that decodes: after the leading spaces comes a word, which is the name of the
    message type or else stands for a message without arguments; then the arguments, all of
    which are returned; then what the scanner does not read. -/
theorem decode_parts {s : Str} {m : Message} (run : decode s = .ok m) :
    ∃ indent word body tail, s = List.replicate indent space ++ (word ++ (body ++ tail)) ∧
      (∀ c ∈ word, c ≠ space ∧ c ≠ newline) ∧ m.m_message_type = stringToMessageType word ∧
      (∀ c ∈ body.head?, c = space) ∧ Items body m.m_args ∧
      (Unread true tail ∨ (Unclosed s ∧ s.length = 1024 ∧ Unread false tail)) := by
  obtain ⟨fits, last, valid⟩ := decode_accepted run
  obtain ⟨p⟩ := split_exists (newline_mem last)
  have length := p.length
  have outcome := decode_line last fits
  rw [run] at outcome
  rw [decode_split p last fits] at run
  obtain ⟨type, scanned, _⟩ := decodeRest_ok run
  rcases p.ends with blank | ends
  · rw [if_pos (by rw [blank]; decide)] at scanned
    have final : p.rest.getLast? = some newline := by
      rw [p.whole, blank, List.getLast?_append, List.getLast?_append, List.getLast?_cons] at last
      cases rest : p.rest.getLast? with
      | none => simp [rest, show space ≠ newline from by decide] at last
      | some c => simpa [rest] using last
    obtain ⟨body, tail, whole, items, unread⟩ := scanArgs_parts scanned final (by omega)
    refine ⟨p.indent, p.word, space :: body, tail, ?_, p.unbroken, type, by simp, .blank items, ?_⟩
    · have front : space :: body ++ tail = p.after :: p.rest := by rw [List.cons_append, ← whole, blank]
      rw [front]
      exact p.whole
    · cases reached : reaches false p.rest with
      | true => exact .inl (reached ▸ unread)
      | false =>
        have unclosed : Unclosed s := p.unclosed.mpr ⟨blank, reached⟩
        refine .inr ⟨unclosed, ?_, reached ▸ unread⟩
        by_contra short
        rw [if_pos ⟨by omega, unclosed⟩] at outcome
        cases outcome
  · rw [if_neg (by simp [ends])] at scanned
    refine ⟨p.indent, p.word, [], newline :: p.rest, ?_, p.unbroken, type, by simp, ?_, .inl (.rest _)⟩
    · rw [List.nil_append, ← ends]
      exact p.whole
    · rw [← Except.ok.inj scanned]
      exact .nil

/-- A line that decodes, unless a text is still open where the buffer is full: after the
    leading spaces comes a word, which is the name of the message type or else stands for
    a message without arguments; then the arguments, all of which are returned; then the
    first newline outside quotes, after which nothing is looked at. -/
theorem decode_accepts {s : Str} {m : Message} (run : decode s = .ok m)
    (closed : s.length = MAX_ENCODED_LEN → ¬ Unclosed s) :
    ∃ indent word body ignored, s = List.replicate indent space ++ (word ++ body ++ newline :: ignored) ∧
      (∀ c ∈ word, c ≠ space ∧ c ≠ newline) ∧ m.m_message_type = stringToMessageType word ∧
      ((m.m_message_type ≠ .NONE ∧ word = messageTypeToString m.m_message_type) ∨
        (m.m_message_type = .NONE ∧ m.m_args = [])) ∧
      (∀ c ∈ body.head?, c = space) ∧ Items body m.m_args ∧
      ((∀ before after, s = before ++ newline :: after → after = []) → ignored = []) := by
  obtain ⟨indent, word, body, tail, whole, unbroken, type, blank, items, stop⟩ := decode_parts run
  obtain ⟨ignored, rfl⟩ : ∃ ignored, tail = newline :: ignored := by
    rcases stop with unread | ⟨unclosed, full, _⟩
    · cases unread with
      | rest ignored => exact ⟨ignored, rfl⟩
    · exact absurd unclosed (closed full)
  refine ⟨indent, word, body, ignored, by rw [whole, List.append_assoc], unbroken, type,
    name_or_none type (decode_accepted run).2.2, blank, items, ?_⟩
  intro ended
  exact ended (List.replicate indent space ++ (word ++ body)) ignored (by simpa using whole)

theorem decode_accepts_create :
    ∃ indent word body ignored,
      lit "     CREATE   invoices  \n" = List.replicate indent space ++ (word ++ body ++ newline :: ignored) ∧
      (∀ c ∈ word, c ≠ space ∧ c ≠ newline) ∧ MessageType.CREATE = stringToMessageType word ∧
      ((MessageType.CREATE ≠ .NONE ∧ word = messageTypeToString .CREATE) ∨
        (MessageType.CREATE = .NONE ∧ [lit "invoices"] = [])) ∧
      (∀ c ∈ body.head?, c = space) ∧ Items body [lit "invoices"] ∧
      ((∀ before after, lit "     CREATE   invoices  \n" = before ++ newline :: after → after = []) → ignored = []) :=
  decode_accepts (s := lit "     CREATE   invoices  \n") (m := ⟨.CREATE, [lit "invoices"]⟩) (by decide) (by decide)

/-- An unknown word decodes, and so does a line with another one behind it. -/
theorem decode_accepts_more : decode (lit "FOO\n") = .ok ⟨.NONE, []⟩ ∧
    decode (lit "PUSH 1\nPOP\n") = .ok ⟨.PUSH, [lit "1"]⟩ ∧
    ¬ ProtocolLine (lit "FOO\n") ⟨.NONE, []⟩ ∧ ¬ ProtocolLine (lit "PUSH 1\nPOP\n") ⟨.PUSH, [lit "1"]⟩ ∧
    ¬ ∀ (s : Str) (m : Message), decode s = .ok m → ProtocolLine s m := by
  have unknown : ¬ ProtocolLine (lit "FOO\n") ⟨.NONE, []⟩ := by
    rintro ⟨_, _, _, real, _⟩
    exact real rfl
  refine ⟨by decide, by decide, unknown, ?_, ?_⟩
  · rintro ⟨indent, body, whole, _, items⟩
    cases indent with
    | succ n =>
      rw [List.replicate_succ, List.cons_append] at whole
      exact absurd (List.cons.inj whole).1 (by decide)
    | zero =>
      have cut : lit "PUSH" ++ (lit " 1\nPOP" ++ [newline]) = lit "PUSH" ++ (body ++ [newline]) := by
        rw [List.replicate_zero, List.nil_append, List.append_assoc] at whole
        exact whole
      have same : lit " 1\nPOP" = body := List.append_cancel_right (List.append_cancel_left cut)
      have missed := items.unbroken
      rw [← same] at missed
      exact absurd missed (by decide)
  · intro always
    exact unknown (always _ _ (by decide))

/-- A string of any length and any bytes decodes to a valid message or is refused with
    InvalidMessage, unless it is empty or ends in a newline before the buffer is full with
    every newline behind its command word inside quotes. -/
theorem decode_answers_iff (s : Str) :
    ((∃ m, decode s = .ok m ∧ m.is_valid = true) ∨ ∃ what, decode s = .error (.InvalidMessage what)) ↔
      s ≠ [] ∧ ¬ (s.getLast? = some newline ∧ s.length < MAX_ENCODED_LEN ∧ Unclosed s) := by
  by_cases long : s.length > MAX_ENCODED_LEN
  · have refused : decode s = .error tooLong := by
      unfold decode
      rw [if_pos long]
    refine iff_of_true (.inr ⟨_, refused⟩) ⟨?_, ?_⟩
    · rintro rfl; exact absurd long (by decide)
    · rintro ⟨_, short, _⟩; omega
  · have fits : s.length ≤ 1024 := Nat.not_lt.mp long
    cases last : s.getLast? with
    | none =>
      obtain rfl := List.getLast?_eq_none_iff.mp last
      refine iff_of_false ?_ (by simp)
      rintro (⟨m, run, _⟩ | ⟨what, run⟩) <;> cases run
    | some c =>
      have some_ : s ≠ [] := by rintro rfl; cases last
      by_cases ends : c = newline
      · subst ends
        have outcome := decode_line last fits
        by_cases off : s.length < 1024 ∧ Unclosed s
        · rw [if_pos off] at outcome
          refine iff_of_false ?_ (fun h => h.2 ⟨rfl, off⟩)
          rw [outcome]
          rintro (⟨m, run, _⟩ | ⟨what, run⟩) <;> cases run
        · rw [if_neg off] at outcome
          refine iff_of_true ?_ ⟨some_, fun h => off h.2⟩
          rcases outcome with refused | ⟨m, run⟩
          · exact .inr ⟨_, refused⟩
          · exact .inl ⟨m, run, (decode_accepted run).2.2⟩
      · have refused : decode s = .error notTerminated := by
          unfold decode
          rw [if_neg long, last]
          exact if_pos ends
        refine iff_of_true (.inr ⟨_, refused⟩) ⟨some_, ?_⟩
        rintro ⟨final, _⟩
        exact ends (Option.some.inj final)

/-- A quote that is left open takes the scanner past the end of the line. -/
theorem decode_runs_off : decode (lit "PUSH \"abc\n") = .error .out_of_range ∧
    ¬ ∀ s : Str, (∃ m, decode s = .ok m ∧ m.is_valid = true) ∨ ∃ what, decode s = .error (.InvalidMessage what) := by
  have run : decode (lit "PUSH \"abc\n") = .error .out_of_range := by decide
  refine ⟨run, ?_⟩
  intro always
  rcases always (lit "PUSH \"abc\n") with ⟨m, decoded, _⟩ | ⟨what, refused⟩
  · rw [run] at decoded; cases decoded
  · rw [run] at refused; cases refused

end TableServer.Lines
