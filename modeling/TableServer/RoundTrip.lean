import TableServer.Tokens

/-!
Encoding and decoding again. The encoder writes the arguments as they are, while
the decoder strips quotes and cuts at spaces; the two agree on the messages whose
arguments are bare words, and on no others.
-/

namespace TableServer.RoundTrip
open TableServer.Bytes TableServer.Messages TableServer.Serialization TableServer.Tokens

theorem name_nonempty {t : MessageType} (empty : messageTypeToString t = []) : t = .NONE := by
  cases t <;> first | rfl | exact absurd empty (by decide)

theorem none_without_args {m : Message} (valid : m.is_valid = true) (none_ : m.m_message_type = .NONE) :
    m.m_args = [] := by
  have shape := shape_of_valid valid
  rw [none_] at shape
  generalize m.m_args = args at shape
  cases shape with
  | plain => rfl
  | named one => simp at one
  | value one => simp at one
  | text one => simp at one
  | cell two => simp at two

theorem encodedLine_last (m : Message) : (encodedLine m).getLast? = some newline := by
  simp [encodedLine]

/-- An encoded message cut at its command word. -/
def splitEncoded (m : Message) (valid : m.is_valid = true) : Split (encodedLine m) where
  indent := 0
  word := messageTypeToString m.m_message_type
  after := match m.m_args with | [] => newline | _ :: _ => space
  rest := match m.m_args with | [] => [] | a :: more => a ++ encodedArgs more ++ [newline]
  unbroken c member := ⟨(name_chars _ c member).1, (name_chars _ c member).2.1⟩
  ends := by cases m.m_args <;> simp
  first empty := by rw [none_without_args valid (name_nonempty empty)]
  whole := by cases args : m.m_args <;> simp [encodedLine, encodedArgs, args]

/-- A valid message of bare words survives the encoder and the decoder. -/
theorem decode_encodedLine {m : Message} (valid : m.is_valid = true) (bare : ∀ a ∈ m.m_args, Bare a)
    (fits : (encodedLine m).length ≤ 1024) : decode (encodedLine m) = .ok m := by
  rw [decode_split (splitEncoded m valid) (encodedLine_last m) fits]
  have length := (splitEncoded m valid).length
  have word : (splitEncoded m valid).word = messageTypeToString m.m_message_type := rfl
  have scanned : (if (splitEncoded m valid).after ≠ newline then
      scanArgs false ((splitEncoded m valid).indent + (splitEncoded m valid).word.length + 1) [] []
        (splitEncoded m valid).rest else .ok []) = .ok m.m_args := by
    cases args : m.m_args with
    | nil => simp [splitEncoded, args]
    | cons a more =>
      have after : (splitEncoded m valid).after = space := by simp [splitEncoded, args]
      have rest : (splitEncoded m valid).rest = a ++ encodedArgs more ++ [newline] := by simp [splitEncoded, args]
      rw [rest] at length
      simp only [List.length_append, List.length_singleton] at length
      rw [after, rest, if_pos (by decide), scanArgs_encoded _ _ _ _ (args ▸ bare) (by omega), List.nil_append]
  unfold decodeRest
  rw [scanned, word, type_of_name]
  exact if_pos valid

private theorem encodedArgs_unquoted {args : List Str} (unquoted : ∀ a ∈ args, quote ∉ a) :
    quote ∉ encodedArgs args := by
  unfold encodedArgs
  simp only [List.mem_flatMap, not_exists, not_and]
  intro a member inside
  rcases List.mem_cons.mp inside with same | later
  · exact absurd same (by decide)
  · exact unquoted a member later

/-- Whatever a line that decodes has in it, its arguments have no quotes. -/
theorem decode_unquoted {s : Str} {m : Message} (run : decode s = .ok m) : ∀ a ∈ m.m_args, quote ∉ a := by
  obtain ⟨fits, last, _⟩ := decode_accepted run
  obtain ⟨p⟩ := split_exists (newline_mem last)
  rw [decode_split p last fits] at run
  obtain ⟨_, scanned, _⟩ := decodeRest_ok run
  split at scanned
  · exact scanArgs_unquoted scanned
  · rw [← Except.ok.inj scanned]; simp

/-- The arguments of a decoded line without quotes are bare words. -/
theorem decode_bare {s : Str} {m : Message} (run : decode s = .ok m) (unquoted : quote ∉ s) :
    ∀ a ∈ m.m_args, Bare a := by
  obtain ⟨fits, last, _⟩ := decode_accepted run
  obtain ⟨p⟩ := split_exists (newline_mem last)
  have rest : quote ∉ p.rest := by
    intro inside
    apply unquoted
    rw [p.whole]
    simp [inside]
  rw [decode_split p last fits] at run
  obtain ⟨_, scanned, _⟩ := decodeRest_ok run
  split at scanned
  · exact scanArgs_bare_out scanned rest
  · rw [← Except.ok.inj scanned]; simp

/-- A valid message that encodes is decoded back to itself exactly when each of its
    arguments is a non-empty word without space, newline or quote. -/
theorem decode_encode_iff {m : Message} {s : Str} (valid : m.is_valid = true) (run : encode m = .ok s) :
    decode s = .ok m ↔ ∀ a ∈ m.m_args, Bare a := by
  obtain ⟨rfl, fits⟩ := encode_ok run
  constructor
  · intro decoded
    apply decode_bare decoded
    have args := encodedArgs_unquoted (decode_unquoted decoded)
    have name : quote ∉ messageTypeToString m.m_message_type := fun inside => (name_chars _ _ inside).2.2 rfl
    simp [encodedLine, args, name, show quote ≠ newline from by decide]
  · intro bare
    exact decode_encodedLine valid bare fits

theorem decode_encode_set : encode ⟨.SET, [lit "accounts", lit "acct123"]⟩ = .ok (lit "SET accounts acct123\n") ∧
    (decode (lit "SET accounts acct123\n") = .ok ⟨.SET, [lit "accounts", lit "acct123"]⟩ ↔
      ∀ a ∈ [lit "accounts", lit "acct123"], Bare a) :=
  ⟨by decide, decode_encode_iff (m := ⟨.SET, [lit "accounts", lit "acct123"]⟩) (by decide) (by decide)⟩

/-- The FAILED response of the unit tests encodes, but its own text is cut into
    three arguments when it is decoded. -/
theorem decode_encode_failed : ¬ ∀ (m : Message) (s : Str), m.is_valid = true → encode m = .ok s →
    decode s = .ok m := by
  intro always
  have decoded := always ⟨.FAILED, [lit "The operation failed"]⟩ (lit "FAILED The operation failed\n")
    (by decide) (by decide)
  exact absurd decoded (by decide)

/-- Text is cut in one way at its first character of a kind. -/
theorem cut_unique {stop : UInt8 → Prop} {w w' rest rest' : Str} {c c' : UInt8} (plain : ∀ x ∈ w, ¬ stop x)
    (plain' : ∀ x ∈ w', ¬ stop x) (ends : stop c) (ends' : stop c') (same : w ++ c :: rest = w' ++ c' :: rest') :
    w = w' ∧ c :: rest = c' :: rest' := by
  induction w generalizing w' with
  | nil =>
    cases w' with
    | nil => exact ⟨rfl, same⟩
    | cons x w' =>
      obtain ⟨rfl, -⟩ := List.cons.inj same
      exact absurd ends (plain' c (by simp))
  | cons x w ih =>
    cases w' with
    | nil =>
      obtain ⟨rfl, -⟩ := List.cons.inj same
      exact absurd ends' (plain x (by simp))
    | cons x' w' =>
      obtain ⟨rfl, later⟩ := List.cons.inj same
      obtain ⟨rfl, rests⟩ := ih (fun y inside => plain y (by simp [inside]))
        (fun y inside => plain' y (by simp [inside]))
        later
      exact ⟨rfl, rests⟩

/-- The line of a message, cut after the name of its type. -/
theorem encodedLine_cut (m : Message) : ∃ c rest, (c = space ∨ c = newline) ∧
    encodedArgs m.m_args ++ [newline] = c :: rest ∧ encodedLine m =
      messageTypeToString m.m_message_type ++ c :: rest := by
  cases args : m.m_args with
  | nil => exact ⟨newline, [], .inr rfl, rfl, by simp [encodedLine, args, encodedArgs]⟩
  | cons a more =>
    refine ⟨space, a ++ encodedArgs more ++ [newline], .inl rfl, by simp [encodedArgs], ?_⟩
    simp [encodedLine, args, encodedArgs]

/-- The line determines the type and the text of the arguments. -/
theorem encodedLine_parts {m m' : Message} (same : encodedLine m = encodedLine m') :
    m.m_message_type = m'.m_message_type ∧ encodedArgs m.m_args = encodedArgs m'.m_args := by
  obtain ⟨c, rest, ends, args, line⟩ := encodedLine_cut m
  obtain ⟨c', rest', ends', args', line'⟩ := encodedLine_cut m'
  have unbroken (t : MessageType) : ∀ x ∈ messageTypeToString t, ¬ (x = space ∨ x = newline) := by
    rintro x inside (broken | broken)
    · exact (name_chars t x inside).1 broken
    · exact (name_chars t x inside).2.1 broken
  obtain ⟨names, rests⟩ := cut_unique (unbroken _) (unbroken _) ends ends' (line.symm.trans (same.trans line'))
  constructor
  · rw [← type_of_name m.m_message_type, names, type_of_name]
  · exact List.append_cancel_right (args.trans (rests.trans args'.symm))

/-- A type has one number of arguments. -/
theorem args_number {t : MessageType} {args args' : List Str} (valid : (⟨t, args⟩ : Message).is_valid = true)
    (valid' : (⟨t, args'⟩ : Message).is_valid = true) : args.length = args'.length := by
  simp only [Message.is_valid, Message.valid_number_of_args, Bool.and_eq_true] at valid valid'
  have number := valid.1
  have number' := valid'.1
  cases t <;> simp only [beq_iff_eq] at number number' <;> omega

private theorem name_of_cell {t : MessageType} {n k : Str} (shape : Shape t [n, k]) : identifier_is_valid n = true := by
  cases shape with
  | cell two table key => exact table

/-- Arguments of one type that fit in a line are determined by their text: the name of
    a table, which another argument follows, has no space. -/
theorem encodedArgs_injective {t : MessageType} {args args' : List Str} (valid : (⟨t, args⟩ : Message).is_valid = true)
    (valid' : (⟨t, args'⟩ : Message).is_valid = true) (short : (encodedArgs args).length ≤ 1024)
    (same : encodedArgs args = encodedArgs args') : args = args' := by
  have number := args_number valid valid'
  have shape : Shape t args := shape_of_valid valid
  cases shape with
  | plain => exact (List.length_eq_zero_iff.mp number.symm).symm
  | named | value | text =>
    obtain ⟨b, rfl⟩ := List.length_eq_one_iff.mp number.symm
    simpa [encodedArgs] using same
  | @cell n k two table =>
    obtain ⟨n', k', rfl⟩ := List.length_eq_two.mp number.symm
    have table' := name_of_cell (shape_of_valid valid')
    have small : n.length < 2147483648 := by
      have fits : n.length + 1 ≤ (encodedArgs [n, k]).length := arg_length_le (by simp)
      omega
    have small' : n'.length < 2147483648 := by
      have fits : n'.length + 1 ≤ (encodedArgs [n', k']).length := arg_length_le (by simp)
      rw [← same] at fits
      omega
    have texts : n ++ space :: k = n' ++ space :: k' := by simpa [encodedArgs] using same
    have unbroken : ∀ x ∈ n, ¬ x = space := fun x inside => ((identifier_bare table small).2 x inside).1
    have unbroken' : ∀ x ∈ n', ¬ x = space := fun x inside => ((identifier_bare table' small').2 x inside).1
    obtain ⟨rfl, keys⟩ := cut_unique unbroken unbroken' rfl rfl texts
    rw [(List.cons.inj keys).2]

/-- No two valid messages are encoded as one string. -/
theorem encode_injective {m m' : Message} {s : Str} (valid : m.is_valid = true) (valid' : m'.is_valid = true)
    (run : encode m = .ok s) (run' : encode m' = .ok s) : m = m' := by
  obtain ⟨rfl, fits⟩ := encode_ok run
  obtain ⟨same, -⟩ := encode_ok run'
  obtain ⟨types, texts⟩ := encodedLine_parts same
  have short : (encodedArgs m.m_args).length ≤ 1024 := by
    simp only [encodedLine, List.length_append] at fits
    omega
  obtain ⟨t, args⟩ := m
  obtain ⟨t', args'⟩ := m'
  obtain rfl : t = t' := types
  rw [encodedArgs_injective valid valid' short texts]

/-- A text with a newline: the same line from the same text, however it is put together. -/
theorem encode_injective_failed : encode ⟨.FAILED, [lit "no such\ntable"]⟩ = .ok (lit "FAILED no such\ntable\n") ∧
    (⟨.FAILED, [lit "no such\ntable"]⟩ : Message) =
      ⟨stringToMessageType (lit "FAILED"), [lit "no such" ++ newline :: lit "table"]⟩ :=
  ⟨by decide, encode_injective (s := lit "FAILED no such\ntable\n") (by decide) (by decide) (by decide) (by decide)⟩

end TableServer.RoundTrip
