import TableServer.Serialization
import Mathlib.Tactic.Ring

/-!
What the decoder's scanner does, over the whole of a line: which words it keeps,
which bytes it can never put into an argument, how much of the line the arguments
take, and when it runs off the end.
-/

namespace TableServer.Tokens
open TableServer.Bytes TableServer.Messages TableServer.Serialization

/-! ## The command word -/

private theorem skipSpaces_replicate (k i : Nat) {c : UInt8} (other : c ≠ space) (rest : Str) :
    skipSpaces i (List.replicate k space ++ c :: rest) = .ok (i + k, c :: rest) := by
  induction k generalizing i with
  | zero => simp [skipSpaces, other]
  | succ k ih =>
    rw [List.replicate_succ, List.cons_append, skipSpaces, if_pos rfl, ih]
    congr 2; omega

private theorem scanType_word (i : Nat) (before word : Str) (unbroken : ∀ c ∈ word, c ≠ space ∧ c ≠ newline)
    {after : UInt8} (ends : after = space ∨ after = newline) (rest : Str) :
    scanType i before (word ++ after :: rest) = .ok (i + word.length, after :: rest, before ++ word) := by
  induction word generalizing i before with
  | nil =>
    have stop : ¬ (after ≠ space ∧ after ≠ newline) := by rcases ends with h | h <;> simp [h]
    rw [List.nil_append, scanType, if_neg stop]
    simp
  | cons c word ih =>
    rw [List.cons_append, scanType, if_pos (unbroken c (by simp)), ih _ _ (fun d m => unbroken d (by simp [m]))]
    simp only [List.length_cons, List.append_assoc, List.singleton_append]
    congr 2; omega

/-- A line that ends in a newline: leading spaces, the command word, and the
    character that ends the word with what follows it. -/
structure Split (s : Str) where
  indent : Nat
  word : Str
  after : UInt8
  rest : Str
  unbroken : ∀ c ∈ word, c ≠ space ∧ c ≠ newline
  ends : after = space ∨ after = newline
  first : word = [] → after = newline
  whole : s = List.replicate indent space ++ (word ++ after :: rest)

theorem Split.length {s : Str} (p : Split s) : s.length = p.indent + p.word.length + 1 + p.rest.length := by
  conv_lhs => rw [p.whole]
  simp only [List.length_append, List.length_replicate, List.length_cons]
  omega

/-- Cutting a string that contains a newline at the end of its command word. -/
def splitWord : Str → Option (Str × UInt8 × Str)
  | [] => none
  | c :: rest =>
    if c = space ∨ c = newline then some ([], c, rest)
    else (splitWord rest).map (fun w => (c :: w.1, w.2))

private theorem splitWord_spec {s : Str} (broken : newline ∈ s) :
    ∃ word after rest, splitWord s = some (word, after, rest) ∧ (∀ c ∈ word, c ≠ space ∧ c ≠ newline) ∧
      (after = space ∨ after = newline) ∧ s = word ++ after :: rest := by
  induction s with
  | nil => simp at broken
  | cons c rest ih =>
    by_cases ends : c = space ∨ c = newline
    · exact ⟨[], c, rest, by simp [splitWord, ends], by simp, ends, rfl⟩
    · push Not at ends
      have later : newline ∈ rest := by
        rcases List.mem_cons.mp broken with same | later
        · exact absurd same.symm ends.2
        · exact later
      obtain ⟨word, after, tail, found, unbroken, stop, whole⟩ := ih later
      refine ⟨c :: word, after, tail, ?_, ?_, stop, by simp [whole]⟩
      · simp [splitWord, ends.1, ends.2, found]
      · intro d member
        rcases List.mem_cons.mp member with rfl | inside
        · exact ends
        · exact unbroken d inside

theorem split_exists {s : Str} (broken : newline ∈ s) : Nonempty (Split s) := by
  induction s with
  | nil => simp at broken
  | cons c rest ih =>
    by_cases blank : c = space
    · have later : newline ∈ rest := by
        rcases List.mem_cons.mp broken with same | later
        · subst blank; exact absurd same (by decide)
        · exact later
      obtain ⟨p⟩ := ih later
      exact ⟨⟨p.indent + 1, p.word, p.after, p.rest, p.unbroken, p.ends, p.first, by
        rw [blank, List.replicate_succ, List.cons_append, ← p.whole]⟩⟩
    · obtain ⟨word, after, tail, _, unbroken, ends, whole⟩ := splitWord_spec broken
      refine ⟨⟨0, word, after, tail, unbroken, ends, ?_, by simpa using whole⟩⟩
      rintro rfl
      rcases ends with h | h
      · rw [h, List.nil_append, List.cons.injEq] at whole
        exact absurd whole.1 blank
      · exact h

/-- Decoding a line cut at its command word. -/
theorem decode_split {s : Str} (p : Split s) (last : s.getLast? = some newline) (fits : s.length ≤ 1024) :
    decode s = decodeRest (p.indent + p.word.length) p.word p.after p.rest := by
  obtain ⟨c, tail, start, notBlank⟩ : ∃ c tail, p.word ++ p.after :: p.rest = c :: tail ∧ c ≠ space := by
    cases wordCase : p.word with
    | nil => exact ⟨p.after, p.rest, by simp, by rw [p.first wordCase]; decide⟩
    | cons c tail => exact ⟨c, tail ++ p.after :: p.rest, by simp, (p.unbroken c (by simp [wordCase])).1⟩
  have skipped : skipSpaces 0 s = .ok (p.indent, p.word ++ p.after :: p.rest) := by
    conv_lhs => rw [p.whole, start]
    rw [skipSpaces_replicate p.indent 0 notBlank, ← start, Nat.zero_add]
  have short : ¬ s.length > MAX_ENCODED_LEN := Nat.not_lt.mpr fits
  unfold decode
  rw [if_neg short, last]
  simp only [ne_eq, not_true_eq_false, if_false, skipped, Bind.bind, Except.bind,
    scanType_word _ _ _ p.unbroken p.ends, List.nil_append]

theorem newline_mem {s : Str} (last : s.getLast? = some newline) : newline ∈ s := List.mem_of_getLast? last

theorem decodeRest_ok {i : Nat} {word rest : Str} {after : UInt8} {m : Message}
    (run : decodeRest i word after rest = .ok m) :
    m.m_message_type = stringToMessageType word ∧
      (if after ≠ newline then scanArgs false (i + 1) [] [] rest else .ok []) = .ok m.m_args ∧ m.is_valid = true := by
  unfold decodeRest at run
  split at run
  · cases run
  · rename_i args scanned
    dsimp only at run
    split at run
    · rename_i valid
      cases run
      exact ⟨rfl, scanned, valid⟩
    · cases run

/-- Everything a line that decodes has passed. -/
theorem decode_accepted {s : Str} {m : Message} (run : decode s = .ok m) :
    s.length ≤ 1024 ∧ s.getLast? = some newline ∧ m.is_valid = true := by
  unfold decode at run
  split at run
  · cases run
  rename_i short
  have fits : s.length ≤ 1024 := Nat.not_lt.mp short
  cases last : s.getLast? with
  | none => rw [last] at run; cases run
  | some c =>
    rw [last] at run
    by_cases ends : c = newline
    · subst ends
      refine ⟨fits, rfl, ?_⟩
      obtain ⟨p⟩ := split_exists (newline_mem last)
      have whole := decode_split p last fits
      unfold decode at whole
      rw [if_neg short, last] at whole
      rw [whole] at run
      exact (decodeRest_ok run).2.2
    · simp [ends] at run

/-! ## The arguments -/

private theorem scanArgs_bare (i : Nat) (args : List Str) (arg word rest : Str)
    (bare : ∀ c ∈ word, c ≠ space ∧ c ≠ newline ∧ c ≠ quote) (room : i + word.length ≤ 1024) :
    scanArgs false i args arg (word ++ rest) = scanArgs false (i + word.length) args (arg ++ word) rest := by
  induction word generalizing i arg with
  | nil => simp
  | cons c word ih =>
    obtain ⟨noSpace, noNewline, noQuote⟩ := bare c (by simp)
    have here : i < 1024 := by simp only [List.length_cons] at room; omega
    rw [List.cons_append, scanArgs, if_pos here, if_neg (by simp), if_pos ⟨noSpace, noNewline⟩, if_neg noQuote,
      ih _ _ (fun d m => bare d (by simp [m])) (by simp only [List.length_cons] at room; omega)]
    simp only [List.length_cons, List.append_assoc, List.singleton_append]
    congr 1; omega

/-- Inside quotes the scanner collects whatever is no quote. -/
theorem scanArgs_text (i : Nat) (args : List Str) (arg text rest : Str) (unquoted : quote ∉ text)
    (room : i + text.length ≤ 1024) :
    scanArgs true i args arg (text ++ rest) = scanArgs true (i + text.length) args (arg ++ text) rest := by
  induction text generalizing i arg with
  | nil => simp
  | cons c text ih =>
    rw [List.mem_cons, not_or] at unquoted
    rw [List.length_cons] at room
    have here : i < 1024 := by omega
    rw [List.cons_append, scanArgs, if_pos here, if_pos rfl, if_neg (Ne.symm unquoted.1), ih _ _ unquoted.2 (by omega)]
    simp only [List.length_cons, List.append_assoc, List.singleton_append]
    congr 1; omega

/-- The scanner gives back bare words that single spaces separate. -/
theorem scanArgs_encoded (i : Nat) (args : List Str) (a : Str) (more : List Str)
    (bare : ∀ w ∈ a :: more, Bare w) (room : i + a.length + (encodedArgs more).length + 1 ≤ 1024) :
    scanArgs false i args [] (a ++ encodedArgs more ++ [newline]) = .ok (args ++ a :: more) := by
  induction more generalizing i args a with
  | nil =>
    have keep : pushed args a = args ++ [a] := if_pos (bare a (by simp)).1
    have here : i + a.length < 1024 := by simp [encodedArgs] at room; omega
    rw [List.append_assoc, scanArgs_bare i args [] a _ (bare a (by simp)).2 (by omega)]
    simp [encodedArgs, scanArgs, here, keep]
  | cons b more ih =>
    have keep : pushed args a = args ++ [a] := if_pos (bare a (by simp)).1
    rw [encodedArgs_cons, List.length_append, List.length_cons] at room
    have here : i + a.length < 1024 := by omega
    rw [encodedArgs_cons, List.append_assoc, scanArgs_bare i args [] a _ (bare a (by simp)).2 (by omega)]
    simp only [List.nil_append, List.cons_append, scanArgs, here, not_true_eq_false, if_true, if_false, keep, ne_eq,
      false_and, Bool.false_eq_true, show space ≠ newline from by decide]
    rw [ih (i + a.length + 1) (args ++ [a]) b (fun w m => bare w (by simp at m ⊢; exact .inr m)) (by omega)]
    simp

/-- The rule for the scanner's loops: what every step of them keeps, the returned
    arguments have. -/
theorem scanArgs_rule (Keeps : Bool → List Str → Str → Str → Prop) (Out : List Str → Prop)
    (limit : ∀ inside args arg rest, Keeps inside args arg rest → Out args)
    (finish : ∀ args arg rest, Keeps false args arg (newline :: rest) → Out (pushed args arg))
    (close : ∀ args arg rest, Keeps true args arg (quote :: rest) → Keeps false (args ++ [arg]) [] rest)
    (text : ∀ c args arg rest, c ≠ quote → Keeps true args arg (c :: rest) → Keeps true args (arg ++ [c]) rest)
    (opening : ∀ args arg rest, Keeps false args arg (quote :: rest) → Keeps true (pushed args arg) [] rest)
    (char : ∀ c args arg rest, c ≠ space ∧ c ≠ newline ∧ c ≠ quote →
      Keeps false args arg (c :: rest) → Keeps false args (arg ++ [c]) rest)
    (blank : ∀ args arg rest, Keeps false args arg (space :: rest) → Keeps false (pushed args arg) [] rest)
    {inside : Bool} {i : Nat} {args out : List Str} {arg rest : Str}
    (run : scanArgs inside i args arg rest = .ok out) (start : Keeps inside args arg rest) : Out out := by
  induction rest generalizing inside i args arg with
  | nil =>
    rw [scanArgs] at run
    split at run
    · cases run
    · cases run; exact limit _ _ _ _ start
  | cons c rest ih =>
    rw [scanArgs] at run
    split_ifs at run with here isInside isQuote isChar isQuote isNewline
    · subst isInside isQuote; exact ih run (close _ _ _ start)
    · subst isInside; exact ih run (text _ _ _ _ isQuote start)
    · obtain rfl := Bool.eq_false_of_not_eq_true isInside
      subst isQuote; exact ih run (opening _ _ _ start)
    · obtain rfl := Bool.eq_false_of_not_eq_true isInside
      exact ih run (char _ _ _ _ ⟨isChar.1, isChar.2, isQuote⟩ start)
    · obtain rfl := Bool.eq_false_of_not_eq_true isInside
      subst isNewline; cases run; exact finish _ _ _ start
    · obtain rfl := Bool.eq_false_of_not_eq_true isInside
      obtain rfl : c = space := by
        by_contra other; exact isChar ⟨other, isNewline⟩
      exact ih run (blank _ _ _ start)
    · cases run; exact limit _ _ _ _ start

private theorem pushed_mem {P : Str → Prop} {args : List Str} {arg : Str} (old : ∀ a ∈ args, P a)
    (new : arg ≠ [] → P arg) : ∀ a ∈ pushed args arg, P a := by
  intro a member
  unfold pushed at member
  split at member
  · rename_i some_
    rcases List.mem_append.mp member with before | last
    · exact old a before
    · rw [List.mem_singleton.mp last]; exact new some_
  · exact old a member

/-- No argument that the scanner returns has a quote in it. -/
theorem scanArgs_unquoted {i : Nat} {out : List Str} {rest : Str} (run : scanArgs false i [] [] rest = .ok out) :
    ∀ a ∈ out, quote ∉ a := by
  refine scanArgs_rule (fun _ args arg _ => (∀ a ∈ args, quote ∉ a) ∧ quote ∉ arg)
    (fun args => ∀ a ∈ args, quote ∉ a) ?_ ?_ ?_ ?_ ?_ ?_ ?_ run ⟨by simp, by simp⟩
  · intro _ args arg _ kept; exact kept.1
  · intro args arg _ kept; exact pushed_mem kept.1 (fun _ => kept.2)
  · intro args arg _ kept
    refine ⟨?_, by simp⟩
    intro a member
    rcases List.mem_append.mp member with before | last
    · exact kept.1 a before
    · rw [List.mem_singleton.mp last]; exact kept.2
  · intro c args arg _ other kept; exact ⟨kept.1, by simpa [kept.2] using Ne.symm other⟩
  · intro args arg _ kept; exact ⟨pushed_mem kept.1 (fun _ => kept.2), by simp⟩
  · intro c args arg _ other kept; exact ⟨kept.1, by simpa [kept.2] using Ne.symm other.2.2⟩
  · intro args arg _ kept; exact ⟨pushed_mem kept.1 (fun _ => kept.2), by simp⟩

/-- From a line without quotes the scanner returns bare words only. -/
theorem scanArgs_bare_out {i : Nat} {out : List Str} {rest : Str} (run : scanArgs false i [] [] rest = .ok out)
    (unquoted : quote ∉ rest) : ∀ a ∈ out, Bare a := by
  refine scanArgs_rule
    (fun inside args arg rest => inside = false ∧ quote ∉ rest ∧ (∀ a ∈ args, Bare a) ∧
      ∀ c ∈ arg, c ≠ space ∧ c ≠ newline ∧ c ≠ quote)
    (fun args => ∀ a ∈ args, Bare a) ?_ ?_ ?_ ?_ ?_ ?_ ?_ run ⟨rfl, unquoted, by simp, by simp⟩
  · rintro _ args arg _ ⟨_, _, bare, _⟩; exact bare
  · rintro args arg _ ⟨_, _, bare, chars⟩; exact pushed_mem bare (fun some_ => ⟨some_, chars⟩)
  · rintro args arg _ ⟨notInside, _⟩; cases notInside
  · rintro c args arg _ _ ⟨notInside, _⟩; cases notInside
  · rintro args arg _ ⟨_, none_, _⟩; simp at none_
  · rintro c args arg _ other ⟨_, none_, bare, chars⟩
    refine ⟨rfl, fun member => none_ (List.mem_cons_of_mem _ member), bare, ?_⟩
    intro d member
    rcases List.mem_append.mp member with before | last
    · exact chars d before
    · rw [List.mem_singleton.mp last]; exact other
  · rintro args arg _ ⟨_, none_, bare, chars⟩
    exact ⟨rfl, fun member => none_ (List.mem_cons_of_mem _ member), pushed_mem bare (fun some_ => ⟨some_, chars⟩),
      by simp⟩

private theorem encodedArgs_pushed (args : List Str) (arg : Str) :
    (encodedArgs (pushed args arg)).length ≤ (encodedArgs args).length + arg.length + 1 := by
  unfold pushed
  split <;> simp [encodedArgs] <;> omega

/-- Every argument ends at a byte of its own: encoded again, the arguments are no
    longer than what the scanner read. -/
theorem scanArgs_length {i : Nat} {out : List Str} {rest : Str} (run : scanArgs false i [] [] rest = .ok out) :
    (encodedArgs out).length ≤ rest.length := by
  refine scanArgs_rule
    (fun _ args arg left => (encodedArgs args).length + arg.length + left.length ≤ rest.length)
    (fun args => (encodedArgs args).length ≤ rest.length) ?_ ?_ ?_ ?_ ?_ ?_ ?_ run (by simp [encodedArgs])
  · intro _ args arg left kept; omega
  · intro args arg left kept
    have := encodedArgs_pushed args arg
    simp only [List.length_cons] at kept; omega
  · intro args arg left kept
    have split_ : (encodedArgs (args ++ [arg])).length = (encodedArgs args).length + (arg.length + 1) := by
      simp [encodedArgs]
    simp only [List.length_cons, List.length_nil] at kept ⊢; omega
  · intro c args arg left _ kept; simp only [List.length_cons, List.length_append, List.length_nil] at kept ⊢; omega
  · intro args arg left kept
    have := encodedArgs_pushed args arg
    simp only [List.length_cons, List.length_nil] at kept ⊢; omega
  · intro c args arg left _ kept; simp only [List.length_cons, List.length_append, List.length_nil] at kept ⊢; omega
  · intro args arg left kept
    have := encodedArgs_pushed args arg
    simp only [List.length_cons, List.length_nil] at kept ⊢; omega

/-! ## A newline outside quotes -/

/-- A newline outside quotes is met; `inside` says that a quote is open to begin with. -/
def reaches (inside : Bool) : Str → Bool
  | [] => false
  | c :: rest =>
    if c = quote then reaches (!inside) rest
    else if c = newline ∧ inside = false then true
    else reaches inside rest

theorem reaches_iff (inside : Bool) (s : Str) : reaches inside s = true ↔
    ∃ before after, s = before ++ newline :: after ∧ (inside.toNat + before.count quote) % 2 = 0 := by
  induction s generalizing inside with
  | nil => simp [reaches]
  | cons c rest ih =>
    rw [reaches]
    by_cases isQuote : c = quote
    · rw [if_pos isQuote, ih]
      constructor
      · rintro ⟨before, after, whole, even⟩
        refine ⟨c :: before, after, by rw [whole, List.cons_append], ?_⟩
        rw [isQuote, List.count_cons_self]
        cases inside <;> simp at even ⊢ <;> omega
      · rintro ⟨before, after, whole, even⟩
        cases before with
        | nil =>
          rw [List.nil_append, List.cons.injEq] at whole
          exact absurd (isQuote.symm.trans whole.1) (by decide)
        | cons d before =>
          rw [List.cons_append, List.cons.injEq] at whole
          refine ⟨before, after, whole.2, ?_⟩
          rw [← whole.1, isQuote, List.count_cons_self] at even
          cases inside <;> simp at even ⊢ <;> omega
    · rw [if_neg isQuote]
      by_cases ends : c = newline ∧ inside = false
      · rw [if_pos ends]
        exact iff_of_true rfl ⟨[], rest, by rw [ends.1, List.nil_append], by simp [ends.2]⟩
      · rw [if_neg ends, ih]
        constructor
        · rintro ⟨before, after, whole, even⟩
          refine ⟨c :: before, after, by rw [whole, List.cons_append], ?_⟩
          rwa [List.count_cons_of_ne isQuote]
        · rintro ⟨before, after, whole, even⟩
          cases before with
          | nil =>
            rw [List.nil_append, List.cons.injEq] at whole
            refine absurd ⟨whole.1, ?_⟩ ends
            cases inside
            · rfl
            · simp at even
          | cons d before =>
            rw [List.cons_append, List.cons.injEq] at whole
            refine ⟨before, after, whole.2, ?_⟩
            rw [← whole.1, List.count_cons_of_ne isQuote] at even
            exact even

theorem reaches_unbroken (inside : Bool) {s : Str} (unbroken : newline ∉ s) : reaches inside s = false := by
  rw [← Bool.not_eq_true, reaches_iff]
  rintro ⟨before, after, rfl, _⟩
  exact unbroken (by simp)

/-- Where the only newline is the last byte, the quotes before it decide. -/
theorem reaches_last (inside : Bool) {body : Str} (unbroken : newline ∉ body) :
    reaches inside (body ++ [newline]) = true ↔ (inside.toNat + body.count quote) % 2 = 0 := by
  rw [reaches_iff]
  constructor
  · rintro ⟨before, after, whole, even⟩
    rcases List.eq_nil_or_concat after with rfl | ⟨after, c, rfl⟩
    · rw [List.append_inj_left' whole rfl]; exact even
    · rw [List.concat_eq_append, ← List.cons_append, ← List.append_assoc] at whole
      exact absurd (by rw [List.append_inj_left' whole rfl]; simp) unbroken
  · intro even; exact ⟨body, [], rfl, even⟩

/-- The last quote of a text. -/
theorem last_quote {s : Str} (member : quote ∈ s) : ∃ before after, s = before ++ quote :: after ∧ quote ∉ after := by
  obtain ⟨after, before, whole, fresh⟩ := List.eq_append_cons_of_mem (List.mem_reverse.mpr member)
  refine ⟨before.reverse, after.reverse, ?_, by simpa using fresh⟩
  rw [← List.reverse_reverse s, whole]
  simp

/-- Where no newline is outside quotes, not even the last character, the last quote opens
    a text that is still open at the end. -/
theorem left_open {s : Str} (last : s.getLast? = some newline) (missed : reaches false s = false) :
    ∃ body text, s = body ++ quote :: text ∧ quote ∉ text ∧ reaches false body = false ∧ body.count quote % 2 = 0 := by
  have odd : ∀ before after, s = before ++ newline :: after → before.count quote % 2 = 1 := by
    intro before after whole
    by_contra even
    rw [← Bool.not_eq_true, reaches_iff] at missed
    exact missed ⟨before, after, whole, by simp; omega⟩
  obtain ⟨front, rfl⟩ := List.getLast?_eq_some_iff.mp last
  have whole := odd front [] rfl
  obtain ⟨body, text, cut, unquoted⟩ := last_quote (s := front) (by
    by_contra none_
    rw [List.count_eq_zero_of_not_mem none_] at whole
    omega)
  refine ⟨body, text ++ [newline], by simp [cut], by simp [unquoted, show quote ≠ newline from by decide], ?_, ?_⟩
  · rw [← Bool.not_eq_true, reaches_iff]
    rintro ⟨before, after, rfl, even⟩
    have := odd before (after ++ quote :: text ++ [newline]) (by simp [cut])
    simp at even; omega
  · rw [cut, List.count_append, List.count_cons_self, List.count_eq_zero_of_not_mem unquoted] at whole
    omega

/-- As long as no newline outside quotes is met, what the scanner has collected does not
    depend on what follows. -/
theorem scanArgs_append (inside : Bool) (i : Nat) (args : List Str) (arg : Str) {body : Str}
    (missed : reaches inside body = false) (room : i + body.length ≤ 1024) :
    ∃ later args' arg', (later = false ↔ (inside.toNat + body.count quote) % 2 = 0) ∧ ∀ rest,
      scanArgs inside i args arg (body ++ rest) = scanArgs later (i + body.length) args' arg' rest := by
  induction body generalizing inside i args arg with
  | nil => exact ⟨inside, args, arg, by cases inside <;> simp, by simp⟩
  | cons c body ih =>
    rw [List.length_cons] at room ⊢
    have here : i < 1024 := by omega
    rw [show i + (body.length + 1) = i + 1 + body.length from by omega] at room ⊢
    rw [reaches] at missed
    by_cases isQuote : c = quote
    · subst isQuote
      rw [if_pos rfl] at missed
      cases inside with
      | true =>
        obtain ⟨later, args', arg', parity, run⟩ := ih false (i + 1) (args ++ [arg]) [] missed room
        refine ⟨later, args', arg', ?_, ?_⟩
        · rw [parity, List.count_cons_self]; simp; omega
        · intro rest; rw [List.cons_append, scanArgs, if_pos here, if_pos rfl, if_pos rfl, run]
      | false =>
        obtain ⟨later, args', arg', parity, run⟩ := ih true (i + 1) (pushed args arg) [] missed room
        refine ⟨later, args', arg', ?_, ?_⟩
        · rw [parity, List.count_cons_self]; simp; omega
        · intro rest
          rw [List.cons_append, scanArgs, if_pos here, if_neg (by simp), if_pos (by decide), if_pos rfl, run]
    · rw [if_neg isQuote] at missed
      rw [List.count_cons_of_ne isQuote]
      cases inside with
      | true =>
        obtain ⟨later, args', arg', parity, run⟩ := ih true (i + 1) args (arg ++ [c]) (by simpa using missed) room
        refine ⟨later, args', arg', parity, ?_⟩
        intro rest; rw [List.cons_append, scanArgs, if_pos here, if_pos rfl, if_neg isQuote, run]
      | false =>
        by_cases isNewline : c = newline
        · simp [isNewline] at missed
        · rw [if_neg (by simp [isNewline])] at missed
          by_cases isSpace : c = space
          · obtain ⟨later, args', arg', parity, run⟩ := ih false (i + 1) (pushed args arg) [] missed room
            refine ⟨later, args', arg', parity, ?_⟩
            intro rest
            rw [List.cons_append, scanArgs, if_pos here, if_neg (by simp), if_neg (by simp [isSpace]),
              if_neg isNewline, run]
          · obtain ⟨later, args', arg', parity, run⟩ := ih false (i + 1) args (arg ++ [c]) missed room
            refine ⟨later, args', arg', parity, ?_⟩
            intro rest
            rw [List.cons_append, scanArgs, if_pos here, if_neg (by simp), if_pos ⟨isSpace, isNewline⟩,
              if_neg isQuote, run]

/-- The scanner throws exactly when it meets no newline outside quotes and the limit is
    not reached first; what it throws is `out_of_range`. -/
theorem scanArgs_outcome (inside : Bool) (i : Nat) (args : List Str) (arg rest : Str) (room : i + rest.length ≤ 1024) :
    if reaches inside rest = false ∧ i + rest.length < 1024 then scanArgs inside i args arg rest = .error .out_of_range
    else ∃ out, scanArgs inside i args arg rest = .ok out := by
  induction rest generalizing inside i args arg with
  | nil =>
    by_cases here : i < 1024
    · simp [scanArgs, reaches, here]
    · simp [scanArgs, reaches, here]
  | cons c rest ih =>
    rw [List.length_cons] at room ⊢
    have here : i < 1024 := by omega
    rw [show i + (rest.length + 1) = i + 1 + rest.length from by omega] at room ⊢
    rw [reaches, scanArgs, if_pos here]
    by_cases isQuote : c = quote
    · rw [if_pos isQuote]
      cases inside with
      | true => simpa [isQuote] using ih false (i + 1) (args ++ [arg]) [] room
      | false =>
        simpa [isQuote, show quote ≠ space from by decide, show quote ≠ newline from by decide]
          using ih true (i + 1) (pushed args arg) [] room
    · rw [if_neg isQuote]
      cases inside with
      | true => simpa [isQuote] using ih true (i + 1) args (arg ++ [c]) room
      | false =>
        by_cases isNewline : c = newline
        · simp [isNewline]
        · by_cases isSpace : c = space
          · simpa [isSpace, show space ≠ newline from by decide] using ih false (i + 1) (pushed args arg) [] room
          · simpa [isQuote, isNewline, isSpace] using ih false (i + 1) args (arg ++ [c]) room

/-! ## What decoding can end with -/

/-- What follows the command word of a line. -/
def afterWord (s : Str) : Str := (s.dropWhile (· == space)).dropWhile (fun c => c != space && c != newline)

/-- No newline that follows the command word is outside quotes: an odd number of
    quotes stands between the word and each of them. -/
def Unclosed (s : Str) : Prop :=
  ∀ before after, afterWord s = before ++ newline :: after → before.count quote % 2 = 1

private theorem unclosed_iff (s : Str) : Unclosed s ↔ reaches false (afterWord s) = false := by
  rw [← Bool.not_eq_true, reaches_iff]
  constructor
  · rintro odd ⟨before, after, whole, even⟩
    have := odd before after whole
    simp at even; omega
  · intro none_ before after whole
    by_contra even
    exact none_ ⟨before, after, whole, by simp; omega⟩

instance (s : Str) : Decidable (Unclosed s) := decidable_of_iff _ (unclosed_iff s).symm

private theorem Split.afterWord_eq {s : Str} (p : Split s) : afterWord s = p.after :: p.rest := by
  have indent : s.dropWhile (· == space) = p.word ++ p.after :: p.rest := by
    conv_lhs => rw [p.whole]
    rw [List.dropWhile_append_of_pos (by simp)]
    cases word : p.word with
    | nil => simp [p.first word, show newline ≠ space from by decide]
    | cons c tail => simp [(p.unbroken c (by simp [word])).1]
  have stop : (p.after != space && p.after != newline) = false := by rcases p.ends with h | h <;> simp [h]
  rw [afterWord, indent, List.dropWhile_append_of_pos (by simpa using p.unbroken), List.dropWhile_cons, stop]
  rfl

/-- Where the word ends at a newline, that newline is outside quotes; where it ends at a
    space, the arguments decide. -/
theorem Split.unclosed {s : Str} (p : Split s) : Unclosed s ↔ p.after = space ∧ reaches false p.rest = false := by
  rw [unclosed_iff, p.afterWord_eq, reaches]
  rcases p.ends with blank | ends
  · simp [blank, show space ≠ quote from by decide, show space ≠ newline from by decide]
  · simp [ends, show newline ≠ quote from by decide, show newline ≠ space from by decide]

private theorem decodeRest_cases {i : Nat} {word rest : Str} {after : UInt8} {args : List Str}
    (scanned : (if after ≠ newline then scanArgs false (i + 1) [] [] rest else .ok []) = .ok args) :
    decodeRest i word after rest = .error invalidArguments ∨ ∃ m, decodeRest i word after rest = .ok m := by
  unfold decodeRest
  rw [scanned]
  simp only
  split
  · exact .inr ⟨_, rfl⟩
  · exact .inl rfl

/-- On a line that ends in a newline, the scanner runs off the end or the arguments are
    checked. -/
theorem decode_line {s : Str} (last : s.getLast? = some newline) (short : s.length ≤ 1024) :
    if s.length < 1024 ∧ Unclosed s then decode s = .error .out_of_range
    else decode s = .error invalidArguments ∨ ∃ m, decode s = .ok m := by
  obtain ⟨p⟩ := split_exists (newline_mem last)
  have length := p.length
  rw [decode_split p last short]
  have unclosed := p.unclosed
  rcases p.ends with blank | ends
  · have plain : p.after ≠ newline := by rw [blank]; decide
    have outcome := scanArgs_outcome false (p.indent + p.word.length + 1) [] [] p.rest (by omega)
    rw [show p.indent + p.word.length + 1 + p.rest.length = s.length from by omega] at outcome
    by_cases off : reaches false p.rest = false ∧ s.length < 1024
    · rw [if_pos off] at outcome
      rw [if_pos ⟨off.2, unclosed.mpr ⟨blank, off.1⟩⟩]
      simp [decodeRest, plain, outcome]
    · rw [if_neg off] at outcome
      obtain ⟨args, scanned⟩ := outcome
      rw [if_neg (fun h => off ⟨(unclosed.mp h.2).2, h.1⟩)]
      exact decodeRest_cases (by rw [if_pos plain]; exact scanned)
  · rw [if_neg (fun h => absurd ((unclosed.mp h.2).1.symm.trans ends) (by decide))]
    exact decodeRest_cases (if_neg (by simp [ends]))

/-- The lines on which the scanner runs off the end: nothing at all, or a quote left open
    on a line that does not fill the buffer. -/
def Unreadable (s : Str) : Prop :=
  s = [] ∨ (s.getLast? = some newline ∧ s.length < 1024 ∧ (afterWord s).count quote % 2 = 1)

instance (s : Str) : Decidable (Unreadable s) := inferInstanceAs (Decidable (_ ∨ _))

/-- Where the only newline is the last byte, a quote left open is an odd number of them. -/
theorem unclosed_odd {s : Str} (last : s.getLast? = some newline)
    (ended : ∀ before after, s = before ++ newline :: after → after = []) :
    Unclosed s ↔ (afterWord s).count quote % 2 = 1 := by
  obtain ⟨p⟩ := split_exists (newline_mem last)
  have final : (p.after :: p.rest).getLast? = some newline := by
    rw [p.whole, ← List.append_assoc, List.getLast?_append] at last
    simpa using last
  obtain ⟨body, whole⟩ := List.getLast?_eq_some_iff.mp final
  have unbroken : newline ∉ body := by
    intro inside
    obtain ⟨before, after, cut⟩ := List.append_of_mem inside
    have none_ := ended (List.replicate p.indent space ++ (p.word ++ before)) (after ++ [newline]) (by
      conv_lhs => rw [p.whole, whole, cut]
      simp)
    simp at none_
  have quotes : (afterWord s).count quote = body.count quote := by
    rw [p.afterWord_eq, whole]
    simp [show newline ≠ quote from by decide]
  rw [unclosed_iff, ← Bool.not_eq_true, p.afterWord_eq, whole, reaches_last false unbroken, ← whole, ← p.afterWord_eq,
    quotes, Bool.toNat_false]
  omega

/-- All that decoding a line can end with. -/
theorem decode_cases {s : Str} (short : s.length ≤ 1024)
    (ended : ∀ before after, s = before ++ newline :: after → after = []) :
    (Unreadable s ∧ decode s = .error .out_of_range) ∨
    (¬ Unreadable s ∧ s.getLast? ≠ some newline ∧ decode s = .error notTerminated) ∨
    (¬ Unreadable s ∧ s.getLast? = some newline ∧ (decode s = .error invalidArguments ∨ ∃ m, decode s = .ok m)) := by
  have fits : ¬ s.length > MAX_ENCODED_LEN := Nat.not_lt.mpr short
  cases last : s.getLast? with
  | none =>
    obtain rfl := List.getLast?_eq_none_iff.mp last
    exact .inl ⟨.inl rfl, rfl⟩
  | some c =>
    have some_ : s ≠ [] := by rintro rfl; cases last
    by_cases ends : c = newline
    · subst ends
      have outcome := decode_line last short
      have unreadable : Unreadable s ↔ s.length < 1024 ∧ Unclosed s := by
        rw [Unreadable, unclosed_odd last ended]
        simp [some_, last]
      by_cases off : s.length < 1024 ∧ Unclosed s
      · rw [if_pos off] at outcome
        exact .inl ⟨unreadable.mpr off, outcome⟩
      · rw [if_neg off] at outcome
        exact .inr (.inr ⟨fun h => off (unreadable.mp h), rfl, outcome⟩)
    · refine .inr (.inl ⟨?_, by simpa using ends, ?_⟩)
      · rintro (empty | ⟨final, _⟩)
        · exact some_ empty
        · rw [last] at final; exact ends (Option.some.inj final)
      · unfold decode
        rw [if_neg fits, last]
        exact if_pos ends

end TableServer.Tokens
