import TableServer.Arithmetic

/-!
What the arithmetic requests take for operands. `stoi` stops reading at the first
character that is no digit, so that a string need only begin with an integer; and it is
narrower than `to_string`, so that not every result is an operand again.
-/

namespace TableServer.Operands
open TableServer.Bytes TableServer.Messages TableServer.Serialization TableServer.Stores TableServer.Numbers
open TableServer.Connection TableServer.Server TableServer.Requests TableServer.Arithmetic
open Resumption Interleaving

variable {input : Input} {m : Message} {l l' : Local}

/-- Only integers are operands: `pop_two_values` reports success, and the response is OK,
    only if both strings are integers from end to end, and where they are not, the response
    is FAILED. -/
structure Strict (input : Input) (l : Local) (a b : Str) : Prop where
  popped : ∀ xy l', pop_two_values l = .done (.ok (some xy)) l' → isInteger a = true ∧ isInteger b = true
  answered : ∀ l', Answers input l .OK l' → isInteger a = true ∧ isInteger b = true
  refused : ¬ (isInteger a = true ∧ isInteger b = true) → ∃ l', Answers input l .FAILED l'

/-- The string begins with an integer that an `int` can hold. -/
def Starts (s : Str) : Prop := ∃ n, BeginsWith s n ∧ -2147483648 ≤ n ∧ n < 2147483648

private theorem starts_iff {v : Str} (valid : value_is_valid v = true) : Starts v ↔ ∃ n, stoi v = .ok n := by
  constructor
  · rintro ⟨n, begins, range⟩
    exact ⟨n, (stoi_iff (value_unspaced valid) n).mpr ⟨begins, range⟩⟩
  · rintro ⟨n, read⟩
    exact ⟨n, (stoi_iff (value_unspaced valid) n).mp read⟩

private theorem operands_started {a b : Str} {r : List Str} (stack : l.client_stack.stk = a :: b :: r)
    (validA : value_is_valid a = true) (validB : value_is_valid b = true) :
    (∃ xy, operands l.client_stack.stk = some xy) ↔ Starts a ∧ Starts b := by
  rw [starts_iff validA, starts_iff validB, stack]
  constructor
  · rintro ⟨⟨x, y⟩, read⟩
    obtain ⟨_, _, _, same, readA, readB⟩ := operands_some.mp read
    cases same
    exact ⟨⟨x, readA⟩, ⟨y, readB⟩⟩
  · rintro ⟨⟨x, readA⟩, ⟨y, readB⟩⟩
    exact ⟨(x, y), operands_some.mpr ⟨a, b, r, rfl, readA, readB⟩⟩

/-- An iteration is not answered in two ways. -/
theorem answers_unique {t t' : MessageType} {l₁ l₂ : Local} (one : Answers input l t l₁) (two : Answers input l t' l₂) :
    t = t' := by
  obtain ⟨_, _, type, run⟩ := one
  obtain ⟨_, _, type', run'⟩ := two
  rw [run] at run'
  obtain ⟨rfl, -, -⟩ := Prog.call.inj run'
  exact type.symm.trans type'

/-- Only integers are operands exactly where both strings are integers, or outside a
    transaction where one of them does not even begin with an integer that fits. -/
theorem operands_strict_iff {a b : Str} {r : List Str} (asked : requestOf input = some m)
    (arith : m.m_message_type ∈ arithmetic) (login : l.logged_in = true) (stack : l.client_stack.stk = a :: b :: r)
    (validA : value_is_valid a = true) (validB : value_is_valid b = true) :
    Strict input l a b ↔ (isInteger a = true ∧ isInteger b = true) ∨
      (l.transaction_mode = false ∧ ¬ (Starts a ∧ Starts b)) := by
  have started := operands_started stack validA validB
  constructor
  · intro strict
    by_cases integers : isInteger a = true ∧ isInteger b = true
    · exact .inl integers
    · right
      obtain ⟨l', failed⟩ := strict.refused integers
      have unread : operands l.client_stack.stk = none := by
        rw [Option.eq_none_iff_forall_ne_some]
        intro xy read
        exact integers (strict.popped xy _ (by rw [pop_two_values_run, read]))
      refine ⟨?_, fun both => ?_⟩
      · by_contra inside
        obtain ⟨line, _, _, run⟩ := failed
        rw [arithmetic_refused asked arith login unread, settle] at run
        have mode : (l.withStack (l.client_stack.stk.drop 2)).transaction_mode = true :=
          Bool.eq_true_of_not_eq_false inside
        rw [if_pos mode] at run
        cases run
      · obtain ⟨xy, read⟩ := started.mpr both
        rw [unread] at read
        cases read
  · rintro (integers | ⟨outside, bad⟩)
    · exact ⟨fun _ _ _ => integers, fun _ _ => integers, fun others => absurd integers others⟩
    · have unread : operands l.client_stack.stk = none := by
        rw [Option.eq_none_iff_forall_ne_some]
        intro xy read
        exact bad (started.mp ⟨xy, read⟩)
      have failed := arithmetic_failed asked arith login unread outside
      refine ⟨?_, ?_, fun _ => ⟨_, failed⟩⟩
      · intro xy l' popped
        rw [pop_two_values_run, unread] at popped
        cases popped
      · intro l' answered
        cases answers_unique answered failed

/-- A string without digits is refused. -/
theorem operands_strict_letters : Strict (rio_readlineb (lit "ADD\n")) (holding (lit "x") (lit "1")) (lit "x")
    (lit "1") := by
  have asked : requestOf (rio_readlineb (lit "ADD\n")) = some ⟨.ADD, []⟩ := by decide +kernel
  refine (operands_strict_iff (l := holding (lit "x") (lit "1")) asked (by decide) rfl rfl (by decide)
    (by decide)).mpr ?_
  refine .inr ⟨rfl, fun both => ?_⟩
  obtain ⟨n, read⟩ := (starts_iff (by decide)).mp both.1
  have rejected : stoi (lit "x") = .error .invalid_argument := by decide +kernel
  rw [rejected] at read
  cases read

/-- The client pushes `12abc` and then 1, and ADD answers OK with 13. -/
theorem operands_trailing : ¬ Strict (rio_readlineb (lit "ADD\n")) (holding (lit "1") (lit "12abc")) (lit "1")
      (lit "12abc") ∧
    Answers (rio_readlineb (lit "ADD\n")) (holding (lit "1") (lit "12abc")) .OK
      (((holding (lit "1") (lit "12abc")).withStack [lit "13"]).respond .OK []) := by
  have asked : requestOf (rio_readlineb (lit "ADD\n")) = some ⟨.ADD, []⟩ := by decide +kernel
  have printed : to_string (calculated .ADD 1 12) = lit "13" := by decide +kernel
  have answered := (arithmetic_answered (l := holding (lit "1") (lit "12abc")) asked (by decide) rfl rfl
    (show stoi (lit "1") = .ok 1 by decide +kernel) (show stoi (lit "12abc") = .ok 12 by decide +kernel) (by decide)).2
  rw [printed] at answered
  exact ⟨fun strict => absurd (strict.answered _ answered).2 (by decide), answered⟩

/-- A request that has been answered with OK: the members before and after it. -/
structure Link where
  before : Local
  request : Message
  after : Local

/-- Requests in a row, all answered with OK, that push integers or compute. -/
inductive Chain (start : Local) : List Link → Local → Prop
  | start : Chain start [] start
  | step {links : List Link} {l l' : Local} {input : Input} {m : Message} (chain : Chain start links l)
      (asked : requestOf input = some m)
      (kind : m.m_message_type ∈ arithmetic ∨ ∃ v, m = ⟨.PUSH, [v]⟩ ∧ isInteger v = true)
      (answered : Answers input l .OK l') : Chain start (links ++ [⟨l, m, l'⟩]) l'

/-- The value that the request has pushed on the rest of the stack is an operand again,
    and reads as the result of the request. -/
def Link.Usable (k : Link) : Prop :=
  ∃ a b r x y v, k.before.client_stack.stk = a :: b :: r ∧ stoi a = .ok x ∧ stoi b = .ok y ∧
    k.after.client_stack.stk = v :: r ∧ stoi v = .ok (calculated k.request.m_message_type x y)

/-- The result of the request, on whatever it finds on the stack, fits in an `int`. -/
def Link.Fits (k : Link) : Prop :=
  ∀ a b r x y, k.before.client_stack.stk = a :: b :: r → stoi a = .ok x → stoi b = .ok y →
    -2147483648 ≤ calculated k.request.m_message_type x y ∧ calculated k.request.m_message_type x y < 2147483648

private theorem answers_member {t : MessageType} {l₁ l₂ : Local} (one : Answers input l t l₁)
    (two : Answers input l t l₂) : l₁ = l₂ := by
  obtain ⟨_, _, _, run⟩ := one
  obtain ⟨_, _, _, run'⟩ := two
  rw [run] at run'
  exact (Prog.call.inj run').1

/-- Only connections that are logged in are answered with OK, LOGIN apart. -/
theorem answered_login (asked : requestOf input = some m) (other : m.m_message_type ≠ .LOGIN)
    (answered : Answers input l .OK l') : l.logged_in = true := by
  by_contra out
  obtain ⟨line, _, type, run⟩ := answered
  have encoded : encode (l.respond .ERROR [notLoggedIn]).response = .ok (lit "ERROR User not logged in\n") :=
    show encode ⟨.ERROR, [notLoggedIn]⟩ = _ by decide
  rw [stranger_run asked other (Bool.eq_false_of_not_eq_true out), settle, responding_eq encoded] at run
  obtain ⟨rfl, -, -⟩ := Prog.call.inj run
  cases type

/-- A request that computes and is answered with OK: its operands, and what it pushes. -/
theorem computed (asked : requestOf input = some m) (arith : m.m_message_type ∈ arithmetic)
    (answered : Answers input l .OK l') : ∃ a b r x y, l.client_stack.stk = a :: b :: r ∧ stoi a = .ok x ∧
      stoi b = .ok y ∧ l'.client_stack.stk = to_string (calculated m.m_message_type x y) :: r ∧
      l'.logged_in = l.logged_in := by
  have login := answered_login asked (arithmetic_quiet arith).2 answered
  cases read : operands l.client_stack.stk with
  | none =>
    obtain ⟨line, encoded, type, run⟩ := answered
    rw [arithmetic_refused asked arith login read, settle] at run
    split at run
    · cases run
    · rw [responding_eq (l := (l.withStack _).respond .FAILED _) bad_operands_encoded] at run
      obtain ⟨rfl, -, -⟩ := Prog.call.inj run
      cases type
  | some xy =>
    obtain ⟨x, y⟩ := xy
    obtain ⟨a, b, r, stack, readA, readB⟩ := operands_some.mp read
    have defined : m.m_message_type = .DIV → x ≠ 0 := by
      rintro div rfl
      obtain ⟨line, _, _, run⟩ := answered
      rw [divides_undefined asked login ⟨div, a, b, r, y, stack, readA, readB⟩] at run
      cases run
    have pushed := (arithmetic_answered asked arith login stack readA readB defined).2
    obtain rfl := answers_member answered pushed
    exact ⟨a, b, r, x, y, stack, readA, readB, rfl, rfl⟩

private theorem push_answered {v : Str} (asked : requestOf input = some ⟨.PUSH, [v]⟩) (login : l.logged_in = true) :
    Answers input l .OK ((l.withStack (v :: l.client_stack.stk)).respond .OK []) := by
  refine ⟨lit "OK\n", ok_encoded, rfl, ?_⟩
  rw [request_run asked (by simp) login, requesting_quiet rfl, Prog.bind_done]
  exact responding_eq (l := (l.withStack _).respond .OK []) ok_encoded

/-- The result of a request is an operand again exactly when it fits. -/
theorem usable_iff (asked : requestOf input = some m) (arith : m.m_message_type ∈ arithmetic)
    (answered : Answers input l .OK l') : (⟨l, m, l'⟩ : Link).Usable ↔ (⟨l, m, l'⟩ : Link).Fits := by
  obtain ⟨a, b, r, x, y, stack, readA, readB, pushed, _⟩ := computed asked arith answered
  constructor
  · rintro ⟨a', b', r', x', y', v, stack', readA', readB', pushed', read⟩ a₁ b₁ r₁ x₁ y₁ stack₁ readA₁ readB₁
    cases stack'.symm.trans stack₁
    cases readA'.symm.trans readA₁
    cases readB'.symm.trans readB₁
    exact stoi_range read
  · intro fits
    exact ⟨a, b, r, x, y, _, stack, readA, readB, pushed, stoi_to_string (fits a b r x y stack readA readB)⟩

/-- As long as what is pushed and what is computed fits in an `int`, all that is on the stack
    reads as an operand. -/
theorem Chain.readable {start : Local} {links : List Link} (chain : Chain start links l)
    (login : start.logged_in = true)
    (empty : start.client_stack.stk = [])
    (fits : ∀ k ∈ links, k.request.m_message_type ∈ arithmetic → k.Fits)
    (pushes : ∀ k ∈ links, ∀ v, k.request = ⟨.PUSH, [v]⟩ → ∃ n, stoi v = .ok n) :
    l.logged_in = true ∧ ∀ v ∈ l.client_stack.stk, ∃ n, stoi v = .ok n := by
  induction chain with
  | start => exact ⟨login, by rw [empty]; simp⟩
  | @step links l l' input m chain asked kind answered ih =>
    obtain ⟨in_, readable⟩ := ih (fun k inside => fits k (List.mem_append_left _ inside))
      (fun k inside => pushes k (List.mem_append_left _ inside))
    have last : (⟨l, m, l'⟩ : Link) ∈ links ++ [⟨l, m, l'⟩] := by simp
    rcases kind with arith | ⟨v, rfl, _⟩
    · obtain ⟨a, b, r, x, y, stack, readA, readB, pushed, same⟩ := computed asked arith answered
      refine ⟨same.trans in_, ?_⟩
      rw [stack] at readable
      rw [pushed]
      intro w inside
      rcases List.mem_cons.mp inside with rfl | below
      · exact ⟨_, stoi_to_string (fits _ last arith a b r x y stack readA readB)⟩
      · exact readable w (by simp [below])
    · obtain rfl := answers_member answered (push_answered asked in_)
      refine ⟨in_, ?_⟩
      intro w inside
      rcases List.mem_cons.mp inside with rfl | below
      · exact pushes _ last w rfl
      · exact readable w below

/-- In every chain the result of each request is an operand again exactly when it fits in
    an `int`; and a chain whose results all do, on pushed integers that do, goes on for as
    long as there are two values and no divisor is zero. -/
theorem chain_usable_iff {start : Local} {links : List Link} (chain : Chain start links l) :
    (∀ k ∈ links, k.request.m_message_type ∈ arithmetic → (k.Usable ↔ k.Fits)) ∧
    (start.logged_in = true → start.client_stack.stk = [] →
      (∀ k ∈ links, k.request.m_message_type ∈ arithmetic → k.Fits) →
      (∀ k ∈ links, ∀ v, k.request = ⟨.PUSH, [v]⟩ → ∃ n, stoi v = .ok n) →
      ∀ input m, requestOf input = some m → m.m_message_type ∈ arithmetic → 2 ≤ l.client_stack.stk.length →
        ¬ DividesByZero m l → ∃ l', Answers input l .OK l') := by
  constructor
  · induction chain with
    | start => simp
    | @step links l l' input m chain asked kind answered ih =>
      intro k inside arith
      rcases List.mem_append.mp inside with before | last
      · exact ih k before arith
      · obtain rfl := List.mem_singleton.mp last
        exact usable_iff asked arith answered
  · intro login empty fits pushes input m asked arith two safe
    obtain ⟨in_, readable⟩ := chain.readable login empty fits pushes
    rcases stack : l.client_stack.stk with _ | ⟨a, _ | ⟨b, r⟩⟩
    · simp [stack] at two
    · simp [stack] at two
    · rw [stack] at readable
      obtain ⟨x, readA⟩ := readable a (by simp)
      obtain ⟨y, readB⟩ := readable b (by simp)
      have defined : m.m_message_type = .DIV → x ≠ 0 := by
        rintro div rfl
        exact safe ⟨div, a, b, r, y, stack, readA, readB⟩
      exact ⟨_, (arithmetic_answered asked arith in_ stack readA readB defined).2⟩

private theorem Chain.push {start : Local} {links : List Link} {v : Str} (chain : Chain start links l)
    (asked : requestOf input = some ⟨.PUSH, [v]⟩) (integer : isInteger v = true) (login : l.logged_in = true) :
    Chain start (links ++ [⟨l, ⟨.PUSH, [v]⟩, (l.withStack (v :: l.client_stack.stk)).respond .OK []⟩])
      ((l.withStack (v :: l.client_stack.stk)).respond .OK []) :=
  chain.step asked (.inr ⟨v, rfl, integer⟩) (push_answered asked login)

private theorem Chain.multiply {start : Local} {links : List Link} {a b z : Str} {x y : Int}
    (chain : Chain start links l)
    (login : l.logged_in = true) (stack : l.client_stack.stk = [a, b]) (readA : stoi a = .ok x) (readB : stoi b = .ok y)
    (printed : to_string (x * y) = z) :
    Chain start (links ++ [⟨l, ⟨.MUL, []⟩, (l.withStack [z]).respond .OK []⟩]) ((l.withStack [z]).respond .OK []) := by
  have asked : requestOf (rio_readlineb (lit "MUL\n")) = some ⟨.MUL, []⟩ := by decide +kernel
  subst printed
  exact chain.step asked (.inl (by decide))
    (arithmetic_answered asked (by decide) login stack readA readB (fun div => by cases div)).2

/-- A client that has just logged in and pushed two integers. -/
theorem pushed_two {a b : Str} {first second : Input} (askedA : requestOf first = some ⟨.PUSH, [b]⟩)
    (askedB : requestOf second = some ⟨.PUSH, [a]⟩) (integerA : isInteger a = true) (integerB : isInteger b = true) :
    ∃ links l, Chain (Local.create true) links l ∧ l.logged_in = true ∧ l.client_stack.stk = [a, b] := by
  have one : Chain (Local.create true) _ _ := Chain.start.push askedA integerB rfl
  exact ⟨_, _, one.push askedB integerA rfl, rfl, rfl⟩

theorem chain_usable_small : ∃ links k, k ∈ links ∧ k.request = ⟨.MUL, []⟩ ∧ k.Usable ∧
    ∃ l, Chain (Local.create true) links l := by
  have askedA : requestOf (rio_readlineb (lit "PUSH 6\n")) = some ⟨.PUSH, [lit "6"]⟩ := by decide +kernel
  have askedB : requestOf (rio_readlineb (lit "PUSH 7\n")) = some ⟨.PUSH, [lit "7"]⟩ := by decide +kernel
  obtain ⟨links, l, chain, login, stack⟩ := pushed_two askedA askedB (by decide) (by decide)
  have readA : stoi (lit "7") = .ok 7 := by decide +kernel
  have readB : stoi (lit "6") = .ok 6 := by decide +kernel
  have whole := chain.multiply login stack readA readB (z := lit "42") (by decide +kernel)
  have last : (⟨l, ⟨.MUL, []⟩, (l.withStack [lit "42"]).respond .OK []⟩ : Link) ∈
      links ++ [⟨l, ⟨.MUL, []⟩, (l.withStack [lit "42"]).respond .OK []⟩] := by simp
  refine ⟨_, _, last, rfl, ((chain_usable_iff whole).1 _ last (show .MUL ∈ arithmetic by decide)).mpr ?_, _, whole⟩
  intro a b r x y stack' readA' readB'
  cases stack.symm.trans stack'
  cases readA.symm.trans readA'
  cases readB.symm.trans readB'
  show -2147483648 ≤ calculated .MUL 7 6 ∧ calculated .MUL 7 6 < 2147483648
  decide

/-- Twice the largest `int` is computed and pushed, but as an operand it is refused. -/
theorem chain_outgrown : (¬ ∀ links l, Chain (Local.create true) links l →
      ∀ k ∈ links, k.request.m_message_type ∈ arithmetic → k.Usable) ∧
    ∃ l', Answers (rio_readlineb (lit "ADD\n")) (holding (lit "1") (lit "4294967294")) .FAILED l' := by
  constructor
  · intro always
    have askedA : requestOf (rio_readlineb (lit "PUSH 2147483647\n")) = some ⟨.PUSH, [lit "2147483647"]⟩ := by
      decide +kernel
    have askedB : requestOf (rio_readlineb (lit "PUSH 2\n")) = some ⟨.PUSH, [lit "2"]⟩ := by decide +kernel
    obtain ⟨links, l, chain, login, stack⟩ := pushed_two askedA askedB (by decide) (by decide)
    have readA : stoi (lit "2") = .ok 2 := by decide +kernel
    have readB : stoi (lit "2147483647") = .ok 2147483647 := by decide +kernel
    have whole := chain.multiply login stack readA readB (z := lit "4294967294") (by decide +kernel)
    obtain ⟨a, b, r, x, y, v, stack', readA', readB', pushed, read⟩ := always _ _ whole
      ⟨l, ⟨.MUL, []⟩, (l.withStack [lit "4294967294"]).respond .OK []⟩ (by simp) (show .MUL ∈ arithmetic by decide)
    cases stack.symm.trans stack'
    cases readA.symm.trans readA'
    cases readB.symm.trans readB'
    have large : ¬ (-2147483648 ≤ calculated .MUL 2 2147483647 ∧ calculated .MUL 2 2147483647 < 2147483648) := by decide
    exact large (stoi_range read)
  · have asked : requestOf (rio_readlineb (lit "ADD\n")) = some ⟨.ADD, []⟩ := by decide +kernel
    exact ⟨_, arithmetic_failed asked (by decide) rfl (by decide +kernel) rfl⟩

end TableServer.Operands
