import TableServer.Requests

/-!
What a connection does before its LOGIN is answered. The check is one flag, and
what the flag is to begin with is whatever the constructor finds in memory: the
check works for exactly those connections that find it false.
-/

namespace TableServer.Login
open TableServer.Bytes TableServer.Messages TableServer.Serialization TableServer.Stores TableServer.Connection
open TableServer.Server TableServer.Requests
open Resumption Interleaving

variable {memory : ConnId → Bool} {tr : ServerTrace} {s : ServerState} {l : Local} {input : Input}

def isLogin (input : Input) : Bool := (requestOf input).any (fun m => m.m_message_type == .LOGIN)

/-- A LOGIN of `c` has been answered with OK. -/
def Answered (c : ConnId) (tr : ServerTrace) : Prop :=
  ∃ input l, isLogin input = true ∧ (c, .call input l (.write (lit "OK\n")) ()) ∈ tr

/-- The answer to an input that gets no further than the check, from the input alone; a
    line that runs the scanner off its end gets none. -/
def refusal (input : Input) : Option Str :=
  match input with
  | .closed => (encode ⟨.ERROR, [readError]⟩).toOption
  | .line buf =>
    match decode buf.text with
    | .error (.InvalidMessage what) => (encode ⟨.ERROR, [what]⟩).toOption
    | .error _ => none
    | .ok _ => (encode ⟨.ERROR, [notLoggedIn]⟩).toOption

/-- The members as the constructor sets them: nothing on the stack, no transaction, no
    locked table. -/
structure Untouched (l : Local) : Prop where
  stack : l.client_stack.stk = []
  mode : l.transaction_mode = false
  locked : l.locked_tables.addrs = []

/-- As long as no LOGIN of `c` has been answered, its members are untouched, and all it
    has done is to send the refusals of its inputs: it has not looked up, created, locked
    or accessed a table, and what it has sent depends on nothing but the inputs. -/
def NothingBefore (c : ConnId) (tr : ServerTrace) (s : ServerState) : Prop :=
  ¬ Answered c tr → Untouched (members (s.threads c)) ∧
    ∀ input l op r, (c, .call input l op r) ∈ tr → ∃ line, op = .write line ∧ refusal input = some line

/-- The ghost state says that the LOGIN has been answered. -/
def guarding : Discipline Bool Local Input Fault Op Res where
  rest l g := g = false → l.logged_in = false ∧ Untouched l
  gone l g := g = false → Untouched l
  failed _ l g := g = false → Untouched l
  node input g l op := g = false → Untouched l ∧
    ∃ line, op = .write line ∧ if isLogin input then line = lit "OK\n" else refusal input = some line
  take g _ _ g' := g' = g
  next input g _ _ _ g' := g' = (g || isLogin input)

private theorem guarding_answered {α : Type} {post : α → Local → Bool → Prop} {p : Prog Op Res Local α}
    (ends : ∀ a l, post a l true) : guarding.Ensures input post p true := by
  induction p with
  | done a l => exact ends a l
  | call l op k ih =>
    refine ⟨fun unanswered => absurd unanswered (by decide), ?_⟩
    rintro r _ rfl
    exact ih r

private theorem guarding_outcome {result : Except Fault Bool} : guarding.outcome result l true := by
  rcases result with f | keep
  · exact fun unanswered => absurd unanswered (by decide)
  · cases keep
    · exact fun unanswered => absurd unanswered (by decide)
    · exact fun unanswered => absurd unanswered (by decide)

private theorem guarding_refused (untouched : Untouched l) (other : isLogin input = false) {m : Message}
    (refused : refusal input = (encode m).toOption) :
    guarding.Ensures input guarding.outcome (responding false { l with response := m }) false := by
  have same : Untouched { l with response := m } := ⟨untouched.stack, untouched.mode, untouched.locked⟩
  unfold responding
  cases run : encode m with
  | error e => exact fun _ => same
  | ok line =>
    refine ⟨fun _ => ⟨same, line, rfl, ?_⟩, ?_⟩
    · rw [other, if_neg (by decide), refused, run]
      rfl
    · rintro ⟨⟩ _ rfl
      rw [other]
      exact fun _ => same

private theorem guarding_iteration {g : Bool} (rests : guarding.rest l g) :
    guarding.Ensures input guarding.outcome (chat_with_client input l) g := by
  cases g with
  | true => exact guarding_answered (fun _ _ => guarding_outcome)
  | false =>
    obtain ⟨out, untouched⟩ := rests rfl
    rw [chat_run]
    cases input with
    | closed => exact guarding_refused (m := ⟨.ERROR, [readError]⟩) untouched rfl rfl
    | line buf =>
      rcases line_cases buf with ⟨failed, _⟩ | ⟨failed, _⟩ | ⟨failed, _⟩ | ⟨m, parsed, _⟩
      · simp only [iteration, failed]
        exact fun _ => untouched
      · have other : isLogin (.line buf) = false := by simp [isLogin, requestOf_error failed]
        have refused : refusal (.line buf) =
            (encode ⟨.ERROR, [lit "Message not terminated with new line char"]⟩).toOption := by
          simp only [refusal, failed, notTerminated]
        simp only [iteration, failed]
        exact guarding_refused untouched other refused
      · have other : isLogin (.line buf) = false := by simp [isLogin, requestOf_error failed]
        have refused : refusal (.line buf) =
            (encode ⟨.ERROR, [lit "\"Invalid arguments (number and/or format)\""]⟩).toOption := by
          simp only [refusal, failed, invalidArguments]
        simp only [iteration, failed]
        exact guarding_refused untouched other refused
      · have asked : isLogin (.line buf) = (m.m_message_type == .LOGIN) := by
          simp [isLogin, requestOf_decode parsed]
        simp only [iteration, parsed]
        by_cases login : m.m_message_type = .LOGIN
        · rw [if_pos login]
          have yes : isLogin (.line buf) = true := by rw [asked, login]; rfl
          have entered : Untouched (Local.respond { l with logged_in := true } .OK []) :=
            ⟨untouched.stack, untouched.mode, untouched.locked⟩
          refine ⟨fun _ => ⟨entered, lit "OK\n", rfl, by rw [if_pos yes]⟩, ?_⟩
          rintro ⟨⟩ _ rfl
          rw [yes]
          exact guarding_outcome
        · rw [if_neg login, out, if_neg (by decide)]
          have other : isLogin (.line buf) = false := by
            rw [asked]
            exact beq_eq_false_iff_ne.mpr login
          have refused : refusal (.line buf) = (encode ⟨.ERROR, [notLoggedIn]⟩).toOption := by
            simp only [refusal, parsed]
          exact guarding_refused untouched other refused

/-- A connection counts as logged in because it has been answered or because the
    constructor has found the flag set; of every other one the trace has refusals only. -/
structure Guarded (memory : ConnId → Bool) (gs : ConnId → Bool) (tr : ServerTrace) : Prop where
  answered : ∀ c, gs c = true → memory c = true ∨ Answered c tr
  silent : ∀ c, gs c = false → ∀ input l op r, (c, .call input l op r) ∈ tr →
    ∃ line, op = .write line ∧ refusal input = some line

private theorem Answered.later {c : ConnId} (answered : Answered c tr) (step : ConnId × ServerEvent) :
    Answered c (tr ++ [step]) := by
  obtain ⟨input, l, login, inside⟩ := answered
  exact ⟨input, l, login, List.mem_append_left _ inside⟩

/-- One step of a connection whose ghost state it moves. -/
theorem Guarded.step {gs : ConnId → Bool} {c : ConnId} {e : ServerEvent} {g : Bool} (inv : Guarded memory gs tr)
    (entered : g = true → gs c = true ∨ Answered c (tr ++ [(c, e)])) (waits : g = false → gs c = false)
    (mine : g = false → ∀ input l op r, e = .call input l op r → ∃ line, op = .write line ∧ refusal input = some line) :
    Guarded memory (Function.update gs c g) (tr ++ [(c, e)]) := by
  constructor
  · refine (Function.forall_update_iff gs fun d g =>
      g = true → memory d = true ∨ Answered d (tr ++ [(c, e)])).mpr ⟨?_, ?_⟩
    · intro yes
      rcases entered yes with before | now
      · exact (inv.answered c before).imp_right (fun answered => answered.later _)
      · exact .inr now
    · intro d _ yes
      exact (inv.answered d yes).imp_right (fun answered => answered.later _)
  · refine (Function.forall_update_iff gs fun d g => g = false → ∀ input l op r,
      (d, .call input l op r) ∈ tr ++ [(c, e)] → ∃ line, op = .write line ∧ refusal input = some line).mpr ⟨?_, ?_⟩
    · intro no input l op r inside
      rcases List.mem_append.mp inside with before | last
      · exact inv.silent c (waits no) input l op r before
      · have now := (Prod.mk.inj (List.mem_singleton.mp last)).2
        exact mine no input l op r now.symm
    · intro d other no input l op r inside
      rcases List.mem_append.mp inside with before | last
      · exact inv.silent d no input l op r before
      · exact absurd (Prod.mk.inj (List.mem_singleton.mp last)).1 other

private theorem guarding_run (run : Run server anyStep (booted memory) tr s) :
    ∃ gs, Guarded memory gs tr ∧ ∀ c, guarding.Fits (s.threads c) (gs c) := by
  refine Discipline.sound (J := fun gs tr _ => Guarded memory gs tr) ?_ ?_ ?_ ?_ ?_ run
  · rintro input l g g' rests rfl
    exact guarding_iteration rests
  · intro gs tr s c l input inv _ _
    refine ⟨gs c, rfl, inv.step .inl id ?_⟩
    intro _ _ _ _ _ same
    cases same
  · intro gs tr s c choice input l op r after inv _ node _
    refine ⟨_, rfl, inv.step ?_ ?_ ?_⟩
    · intro yes
      cases before : gs c with
      | true => exact .inl rfl
      | false =>
        rw [before, Bool.false_or] at yes
        obtain ⟨_, line, rfl, sent⟩ := node before
        rw [if_pos yes] at sent
        subst sent
        exact .inr ⟨input, l, yes, by simp⟩
    · intro no
      exact (Bool.or_eq_false_iff.mp no).1
    · intro no input' l' op' r' same
      cases same
      obtain ⟨before, other⟩ := Bool.or_eq_false_iff.mp no
      obtain ⟨_, line, rfl, sent⟩ := node before
      rw [other, if_neg (by decide)] at sent
      exact ⟨line, rfl, sent⟩
  · intro gs tr s c input l r inv _ _
    have kept := inv.step (e := .finish input l r) (g := gs c) .inl id (by
      intro _ _ _ _ _ same
      cases same)
    simpa using kept
  · refine ⟨memory, ⟨fun c yes => .inl yes, ?_⟩, ?_⟩
    · intro c _ input l op r inside
      cases inside
    · intro c no
      exact ⟨no, rfl, rfl, rfl⟩

private theorem fits_untouched {thread : Thread Local Input Fault Op Res} (fits : guarding.Fits thread false) :
    Untouched (members thread) := by
  cases thread with
  | reading l => exact (fits rfl).2
  | exited l => exact fits rfl
  | running input p =>
    cases p with
    | call l op k => exact (fits.1 rfl).1
    | done r l =>
      rcases r with f | keep
      · exact fits rfl
      · cases keep
        · exact fits rfl
        · exact (fits rfl).2

/-- A connection whose flag is false in memory does nothing before its LOGIN is answered. -/
theorem nothing_before {c : ConnId} (unset : memory c = false) (run : Run server anyStep (booted memory) tr s) :
    NothingBefore c tr s := by
  intro unanswered
  obtain ⟨gs, inv, fits⟩ := guarding_run run
  have no : gs c = false := by
    by_contra yes
    rcases inv.answered c (Bool.eq_true_of_not_eq_false yes) with set_ | answered
    · rw [unset] at set_; cases set_
    · exact unanswered answered
  have mine := fits c
  rw [no] at mine
  exact ⟨fits_untouched mine, inv.silent c no⟩

def pushing : Input := rio_readlineb (lit "PUSH 1\n")

/-- What a new connection is at once it has read a PUSH. -/
abbrev readPush (flag : Bool) : Thread Local Input Fault Op Res :=
  .running pushing (chat_with_client pushing (Local.create flag))

def atPush (memory : ConnId → Bool) (c : ConnId) : ServerState :=
  { booted memory with threads := Function.update (booted memory).threads c (readPush (memory c)) }

private theorem atPush_self (memory : ConnId → Bool) (c : ConnId) : (atPush memory c).threads c = readPush (memory c) :=
  Function.update_self _ _ _

/-- A connection that finds the flag set executes its first request. -/
theorem push_enters {c : ConnId} (set_ : memory c = true) :
    ¬ ∀ tr s, Run server anyStep (booted memory) tr s → NothingBefore c tr s := by
  intro always
  have first : Step server (booted memory) c (.recv (Local.create (memory c)) pushing) (atPush memory c) :=
    .recv rfl rfl
  have before := always _ _ (Run.step .start first trivial) (by
    rintro ⟨input, l, _, inside⟩
    simp at inside)
  have stack := before.1.stack
  rw [atPush_self, set_] at stack
  have entered : (members (readPush true)).client_stack.stk = [lit "1"] := by decide +kernel
  rw [entered] at stack
  cases stack

/-- The lines that a connection has sent. -/
def responses (c : ConnId) (tr : ServerTrace) : List Str := tr.filterMap fun step =>
  match step with
  | (d, .call _ _ (.write line) _) => if d = c then some line else none
  | _ => none

section
variable {c d : ConnId} {e : ServerEvent} {line : Str}

theorem responses_append (c : ConnId) (tr tr' : ServerTrace) :
    responses c (tr ++ tr') = responses c tr ++ responses c tr' := List.filterMap_append

theorem responses_write {r : Unit} :
    responses c (tr ++ [(c, .call input l (.write line) r)]) = responses c tr ++ [line] := by
  rw [responses_append]
  simp [responses]

theorem responses_silent (silent : ∀ input l line r, e ≠ .call input l (.write line) r) (d : ConnId) :
    responses d (tr ++ [(c, e)]) = responses d tr := by
  have none_ : responses d [(c, e)] = [] := by
    cases e with
    | call input l op r =>
      cases op with
      | write line => exact absurd rfl (silent input l line r)
      | _ => rfl
    | _ => rfl
  rw [responses_append, none_, List.append_nil]

theorem responses_apart (apart : ∀ step ∈ tr, step.1 ≠ c) : responses c tr = [] := by
  refine List.filterMap_eq_nil_iff.mpr ?_
  rintro ⟨d, e⟩ inside
  have other : d ≠ c := apart _ inside
  cases e with
  | recv | finish => rfl
  | call input l op r => cases op <;> simp [other]

theorem responses_other (other : d ≠ c) (tr : ServerTrace) : responses c (tr ++ [(d, e)]) = responses c tr := by
  have apart : ∀ step ∈ [(d, e)], step.1 ≠ c := by simpa using other
  rw [responses_append, responses_apart apart, List.append_nil]

end

def pushAnswer (flag : Bool) : Str := if flag then lit "OK\n" else lit "ERROR User not logged in\n"

/-- The answer to the PUSH, by the flag. -/
theorem push_answered (memory : ConnId → Bool) (c : ConnId) :
    ∃ r, execute server noCheck [(c, .recv pushing), (c, .advance 0)] (booted memory) = some r ∧
      responses c r.1 = [pushAnswer (memory c)] := by
  have sends : ∀ flag, nextOp (readPush flag) = some (.write (pushAnswer flag)) := by decide +kernel
  obtain ⟨input, l, k, here⟩ := nextOp_eq (sends (memory c))
  have first : step? server (booted memory) c (.recv pushing) =
      some (.recv (Local.create (memory c)) pushing, atPush memory c) := rfl
  have there : (atPush memory c).threads c = .running input (.call l (.write (pushAnswer (memory c))) k) := by
    rw [atPush_self, here]
  have second : step? server (atPush memory c) c (.advance 0) = some (.call input l (.write (pushAnswer (memory c))) (),
      { atPush memory c with threads := Function.update (atPush memory c).threads c (.running input (k ())) }) := by
    unfold step?
    rw [there]
    rfl
  simp only [execute, first, second, noCheck, if_true, Option.map_some]
  refine ⟨_, rfl, ?_⟩
  simp [responses]

/-- Nothing happens before the LOGIN, in all runs, exactly when the constructor finds the
    flag of the connection false; and the responses are the same in all executions of two
    servers that differ in that flag only exactly when they do not differ. -/
theorem login_first (memory : ConnId → Bool) (c : ConnId) :
    ((∀ tr s, Run server anyStep (booted memory) tr s → NothingBefore c tr s) ↔ memory c = false) ∧
    ∀ flag, (∀ schedule r r', execute server noCheck schedule (booted memory) = some r →
      execute server noCheck schedule (booted (Function.update memory c flag)) = some r' →
        ∀ d, responses d r.1 = responses d r'.1) ↔ flag = memory c := by
  constructor
  · constructor
    · intro always
      by_contra set_
      exact push_enters (Bool.eq_true_of_not_eq_false set_) always
    · intro unset tr s run
      exact nothing_before unset run
  · intro flag
    constructor
    · intro always
      obtain ⟨r, taken, sent⟩ := push_answered memory c
      obtain ⟨r', taken', sent'⟩ := push_answered (Function.update memory c flag) c
      have same := always _ r r' taken taken' c
      rw [sent, sent', Function.update_self] at same
      have apart : ∀ a b, [pushAnswer a] = [pushAnswer b] → b = a := by decide +kernel
      exact apart _ _ same
    · rintro rfl schedule r r' taken taken' d
      rw [Function.update_eq_self, taken] at taken'
      rw [Option.some.inj taken']

/-- A server whose memory has the flag set serves a client that has never logged in. -/
theorem login_skipped : (¬ ∀ (memory : ConnId → Bool) (c : ConnId) tr s, Run server anyStep (booted memory) tr s →
      NothingBefore c tr s) ∧
    ¬ ∀ (memory memory' : ConnId → Bool) schedule r r', execute server noCheck schedule (booted memory) = some r →
      execute server noCheck schedule (booted memory') = some r' → responses 0 r.1 = responses 0 r'.1 := by
  constructor
  · intro always
    exact push_enters (c := 0) rfl (always (fun _ => true) 0)
  · intro always
    obtain ⟨r, taken, sent⟩ := push_answered (fun _ => true) 0
    obtain ⟨r', taken', sent'⟩ := push_answered (fun _ => false) 0
    have same := always _ _ _ r r' taken taken'
    rw [sent, sent'] at same
    exact absurd same (by decide +kernel)

end TableServer.Login
