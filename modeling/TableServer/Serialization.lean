import TableServer.Messages

/-!
The wire format: names of the message types, the encoder, and the decoder's
hand-written scanner. A position `i` in the encoded string is kept together with
the string from there on, so that `at(i)` is the head of that suffix and throws
when the suffix is empty.
-/

namespace TableServer.Serialization
open TableServer.Bytes TableServer.Messages

def messageTypeToString : MessageType → Str
  | .LOGIN => lit "LOGIN"
  | .CREATE => lit "CREATE"
  | .PUSH => lit "PUSH"
  | .POP => lit "POP"
  | .TOP => lit "TOP"
  | .SET => lit "SET"
  | .GET => lit "GET"
  | .ADD => lit "ADD"
  | .SUB => lit "SUB"
  | .MUL => lit "MUL"
  | .DIV => lit "DIV"
  | .BEGIN => lit "BEGIN"
  | .COMMIT => lit "COMMIT"
  | .BYE => lit "BYE"
  | .OK => lit "OK"
  | .FAILED => lit "FAILED"
  | .ERROR => lit "ERROR"
  | .DATA => lit "DATA"
  | .NONE => lit ""

def stringToMessageType (str : Str) : MessageType :=
  if str = lit "LOGIN" then .LOGIN
  else if str = lit "CREATE" then .CREATE
  else if str = lit "PUSH" then .PUSH
  else if str = lit "POP" then .POP
  else if str = lit "TOP" then .TOP
  else if str = lit "SET" then .SET
  else if str = lit "GET" then .GET
  else if str = lit "ADD" then .ADD
  else if str = lit "SUB" then .SUB
  else if str = lit "MUL" then .MUL
  else if str = lit "DIV" then .DIV
  else if str = lit "BEGIN" then .BEGIN
  else if str = lit "COMMIT" then .COMMIT
  else if str = lit "BYE" then .BYE
  else if str = lit "OK" then .OK
  else if str = lit "FAILED" then .FAILED
  else if str = lit "ERROR" then .ERROR
  else if str = lit "DATA" then .DATA
  else .NONE

def tooLong : Exn := .InvalidMessage (lit "Message length exceeds max length")
def notTerminated : Exn := .InvalidMessage (lit "Message not terminated with new line char")
def invalidArguments : Exn := .InvalidMessage (lit "\"Invalid arguments (number and/or format)\"")

/-- The arguments as the encoder appends them. -/
def encodedArgs (args : List Str) : Str := args.flatMap (fun a => space :: a)

/-- The line before its length is checked. -/
def encodedLine (m : Message) : Str :=
  messageTypeToString m.m_message_type ++ encodedArgs m.m_args ++ [newline]

def encode (m : Message) : Except Exn Str :=
  if (encodedLine m).length > MAX_ENCODED_LEN then .error tooLong else .ok (encodedLine m)

/-- `while (at(i) == ' ') i++`. -/
def skipSpaces (i : Nat) : Str → Except Exn (Nat × Str)
  | [] => .error .out_of_range
  | c :: rest => if c = space then skipSpaces (i + 1) rest else .ok (i, c :: rest)

/-- The loop that collects the command word. -/
def scanType (i : Nat) (messageType : Str) : Str → Except Exn (Nat × Str × Str)
  | [] => .error .out_of_range
  | c :: rest =>
    if c ≠ space ∧ c ≠ newline then scanType (i + 1) (messageType ++ [c]) rest
    else .ok (i, c :: rest, messageType)

/-- `if (arg != "") msg.push_arg(arg)`. -/
def pushed (args : List Str) (arg : Str) : List Str := if arg ≠ [] then args ++ [arg] else args

/-- The two nested loops over the arguments; `inside` says that the inner one, over
    a quoted text, is running. Both stop at position 1024, and a text that is still
    open there is dropped. -/
def scanArgs (inside : Bool) (i : Nat) (args : List Str) (arg : Str) : Str → Except Exn (List Str)
  | [] => if i < 1024 then .error .out_of_range else .ok args
  | c :: rest =>
    if i < 1024 then
      if inside then
        if c = quote then scanArgs false (i + 1) (args ++ [arg]) [] rest
        else scanArgs true (i + 1) args (arg ++ [c]) rest
      else if c ≠ space ∧ c ≠ newline then
        if c = quote then scanArgs true (i + 1) (pushed args arg) [] rest
        else scanArgs false (i + 1) args (arg ++ [c]) rest
      else if c = newline then .ok (pushed args arg)
      else scanArgs false (i + 1) (pushed args arg) [] rest
    else .ok args

/-- What is left to do once the command word is known: the arguments from the
    character after it, and the validity check. -/
def decodeRest (i : Nat) (messageType : Str) (after : UInt8) (rest : Str) : Except Exn Message :=
  match (if after ≠ newline then scanArgs false (i + 1) [] [] rest else .ok []) with
  | .error e => .error e
  | .ok args =>
    let msg : Message := ⟨stringToMessageType messageType, args⟩
    if msg.is_valid then .ok msg else .error invalidArguments

/-- `at(length() - 1)` on the empty string is `at` of the largest `size_t`, which throws. -/
def decode (encoded_msg : Str) : Except Exn Message :=
  if encoded_msg.length > MAX_ENCODED_LEN then .error tooLong
  else match encoded_msg.getLast? with
    | none => .error .out_of_range
    | some last =>
      if last ≠ newline then .error notTerminated
      else do
        let (i, rest) ← skipSpaces 0 encoded_msg
        let (i, rest, messageType) ← scanType i [] rest
        match rest with
        | [] => .error .out_of_range
        | after :: rest => decodeRest i messageType after rest

theorem type_of_name (t : MessageType) : stringToMessageType (messageTypeToString t) = t := by
  cases t <;> decide

private theorem ite_named {c : Prop} [Decidable c] {word : Str} {t other : MessageType}
    (one : c → messageTypeToString t = word) (later : other ≠ .NONE → messageTypeToString other = word) :
    (if c then t else other) ≠ .NONE → messageTypeToString (if c then t else other) = word := by
  split
  · rename_i holds
    intro _
    exact one holds
  · exact later

/-- A word that stands for a message type is the name of that type. -/
theorem word_of_type {word : Str} (real : stringToMessageType word ≠ .NONE) :
    messageTypeToString (stringToMessageType word) = word := by
  revert real
  unfold stringToMessageType
  iterate 18 refine ite_named Eq.symm ?_
  intro real
  exact absurd rfl real

theorem push_word {word : Str} (type : stringToMessageType word = .PUSH) : word = lit "PUSH" := by
  have real : stringToMessageType word ≠ .NONE := by rw [type]; decide
  have name := word_of_type real
  rw [type] at name
  exact name.symm

theorem name_chars (t : MessageType) : ∀ c ∈ messageTypeToString t, c ≠ space ∧ c ≠ newline ∧ c ≠ quote := by
  have all : (messageTypeToString t).all (fun c => c != space && c != newline && c != quote) = true := by
    cases t <;> rfl
  simpa [List.all_eq_true, and_assoc] using all

theorem encode_ok {m : Message} {s : Str} (run : encode m = .ok s) :
    s = encodedLine m ∧ (encodedLine m).length ≤ 1024 := by
  unfold encode at run
  split at run
  · cases run
  · rename_i fits
    cases run
    exact ⟨rfl, Nat.not_lt.mp fits⟩

theorem encode_fits {m : Message} (fits : (encodedLine m).length ≤ 1024) : encode m = .ok (encodedLine m) := by
  unfold encode
  exact if_neg (Nat.not_lt.mpr fits)

theorem encodedArgs_cons (a : Str) (args : List Str) : encodedArgs (a :: args) = space :: a ++ encodedArgs args := by
  simp [encodedArgs]

theorem arg_length_le {a : Str} {args : List Str} (member : a ∈ args) : a.length + 1 ≤ (encodedArgs args).length := by
  induction args with
  | nil => simp at member
  | cons b rest ih =>
    rw [encodedArgs_cons, List.length_append, List.length_cons]
    rcases List.mem_cons.mp member with rfl | later
    · omega
    · have := ih later; omega

end TableServer.Serialization
