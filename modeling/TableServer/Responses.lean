import TableServer.Outcomes

/-!
Which exceptions leave the loop of a connection, and which responses a client can
decode, in every state that the server can reach and for every line a client can
send.
-/

namespace TableServer.Responses
open TableServer.Bytes TableServer.Messages TableServer.Serialization TableServer.Stores TableServer.Connection
open TableServer.Server TableServer.Requests TableServer.Tokens TableServer.Values TableServer.Outcomes
open Resumption Interleaving

variable {memory : ConnId → Bool} {tr : ServerTrace} {s : ServerState}

/-- The request that a worker is at, and what its ghost state says there. -/
theorem request_fits {c : ConnId} {input : Input} {p : Iteration} (run : Run server anyStep (booted memory) tr s)
    (here : s.threads c = .running input p) : ∃ l calls, progress c tr = some (input, l, calls) ∧
      discipline.Ensures input discipline.outcome p ⟨input, l, calls⟩ := by
  obtain ⟨gs, inv, fits⟩ := outcomes_run run
  obtain ⟨l, calls, now, _, _, _⟩ := run_path run (opened_fresh _ _) here
  have mine := fits c
  rw [here, inv.now c input l calls now] at mine
  exact ⟨l, calls, now, mine⟩

/-- Only the end of an iteration brings the server down, and its worker stays there. -/
theorem aborted_at {c : ConnId} {f : Fault} (run : Run server anyStep (booted memory) tr s)
    (down : s.aborted = some (c, f)) : ∃ input l, s.threads c = .running input (.done (.error f) l) := by
  cases run with
  | start => cases down
  | step earlier one allowed =>
    cases one with
    | recv up here => rw [up] at down; cases down
    | call choice up here exec => rw [up] at down; cases down
    | again up here => rw [up] at down; cases down
    | exit up here => rw [up] at down; cases down
    | @abort input l g up here =>
      cases down
      exact ⟨input, l, here⟩

/-- An iteration ends with an exception that nothing catches exactly when its request
    escapes, and only such a request brings the server down. -/
theorem faults_escape (run : Run server anyStep (booted memory) tr s) :
    (∀ c input r l', s.threads c = .running input (.done r l') → ∃ l calls, progress c tr = some (input, l, calls) ∧
      ((∃ f, r = .error f) ↔ escapes ⟨input, l, calls⟩ = true)) ∧
    ∀ c f, s.aborted = some (c, f) → ∃ input l calls, progress c tr = some (input, l, calls) ∧
      escapes ⟨input, l, calls⟩ = true := by
  have ended : ∀ c input r l', s.threads c = .running input (.done r l') →
      ∃ l calls, progress c tr = some (input, l, calls) ∧ ((∃ f, r = .error f) ↔ escapes ⟨input, l, calls⟩ = true) := by
    intro c input r l' here
    obtain ⟨l, calls, now, outcome⟩ := request_fits run here
    refine ⟨l, calls, now, ?_⟩
    rcases r with f | keep
    · exact ⟨fun _ => outcome.1, fun _ => ⟨f, rfl⟩⟩
    · have stays : escapes ⟨input, l, calls⟩ = false := by
        cases keep with
        | true => exact outcome.2.1
        | false => exact outcome.1
      rw [stays]
      simp
  refine ⟨ended, ?_⟩
  intro c f down
  obtain ⟨input, l', here⟩ := aborted_at run down
  obtain ⟨l, calls, now, iff⟩ := ended c input _ l' here
  exact ⟨input, l, calls, now, iff.mp ⟨f, rfl⟩⟩

/-- A client sends a line with a quote that does not close. -/
def unclosing : List (ConnId × Action Input Addr) := turn 0 "PUSH \"a\n" 1 0

/-- The iteration ends with an exception and the server is down, although the client
    has not even logged in. -/
theorem faults_unclosed :
    (¬ ∀ tr s, Run server anyStep (booted fun _ => false) tr s → ∀ c input r l',
      s.threads c = .running input (.done r l') → ∃ keep, r = .ok keep) ∧
    ¬ ∀ tr s, Run server anyStep (booted fun _ => false) tr s → s.aborted = none := by
  have shown : (execute server noCheck unclosing (booted fun _ => false)).any (fun r => r.2.aborted.isSome) = true := by
    decide +kernel
  obtain ⟨tr, s, run, down⟩ := run_of_check shown
  constructor
  · intro always
    obtain ⟨⟨c, f⟩, at_⟩ := Option.isSome_iff_exists.mp down
    obtain ⟨input, l, here⟩ := aborted_at run.any at_
    obtain ⟨keep, same⟩ := always tr s run.any c input _ l here
    cases same
  · intro always
    dsimp only at down
    rw [always tr s run.any] at down
    cases down

/-- A client divides by zero, and its iteration ends undefined. -/
def dividing : List (ConnId × Action Input Addr) :=
  turn 0 "LOGIN ann\n" 2 0 ++ turn 0 "PUSH 1\n" 2 0 ++ turn 0 "PUSH 0\n" 2 0 ++ turn 0 "DIV\n" 0 0

theorem faults_escape_dividing : ∃ tr s input l calls, Run server anyStep (booted fun _ => false) tr s ∧
    progress 0 tr = some (input, l, calls) ∧ escapes ⟨input, l, calls⟩ = true := by
  have shown : (execute server noCheck dividing (booted fun _ => false)).any (fun r =>
      (endOf (r.2.threads 0)).any (fun e => !e.1.toBool)) = true := by
    decide +kernel
  obtain ⟨tr, s, run, holds⟩ := run_of_check shown
  obtain ⟨⟨r, l'⟩, at_, failed⟩ := (Option.any_eq_true _ _).mp holds
  obtain ⟨input, here⟩ := endOf_eq at_
  obtain ⟨l, calls, now, iff⟩ := (faults_escape run.any).1 0 input r l' here
  rcases r with f | keep
  · exact ⟨tr, s, input, l, calls, run.any, now, iff.mp ⟨f, rfl⟩⟩
  · cases failed

/-- Whatever line the server writes, the client decodes it to the message that the
    server meant exactly when the request is readable. -/
theorem responses_arrive (run : Run server anyStep (booted memory) tr s) {c : ConnId} {input : Input} {l' : Local}
    {line : Str} {k : Unit → Iteration} (here : s.threads c = .running input (.call l' (.write line) k)) :
    ∃ l calls, progress c tr = some (input, l, calls) ∧ encode l'.response = .ok line ∧
      (decode line = .ok (meant l'.response) ↔ readable ⟨input, l, calls⟩ = true) := by
  obtain ⟨l, calls, now, ensures⟩ := request_fits run here
  obtain ⟨⟨_, _, encoded, iff⟩, _⟩ := ensures
  exact ⟨l, calls, now, encoded, iff⟩

/-- The response that a worker is about to send. -/
def answering (thread : Thread Local Input Fault Op Res) : Option (Message × Str) :=
  match nextOp thread with
  | some (.write line) => some ((members thread).response, line)
  | _ => none

theorem answering_eq {thread : Thread Local Input Fault Op Res} {m : Message} {line : Str}
    (answer : answering thread = some (m, line)) :
    ∃ input l k, thread = .running input (.call l (.write line) k) ∧ l.response = m := by
  unfold answering at answer
  split at answer
  · rename_i line' next
    obtain ⟨input, l, k, rfl⟩ := nextOp_eq next
    cases answer
    exact ⟨input, l, k, rfl, rfl⟩
  · cases answer

/-- A client asks for the top of its stack and the server answers. -/
def topping : List (ConnId × Action Input Addr) :=
  turn 0 "LOGIN ann\n" 2 0 ++ turn 0 "PUSH 7\n" 2 0 ++ turn 0 "TOP\n" 0 0

theorem responses_arrive_top : ∃ (s : ServerState) (line : Str), nextOp (s.threads 0) = some (.write line) ∧
    decode line = .ok ⟨.DATA, [lit "7"]⟩ := by
  have shown : (execute server noCheck topping (booted fun _ => false)).any (fun r =>
      answering (r.2.threads 0) == some (⟨.DATA, [lit "7"]⟩, lit "DATA 7\n") &&
        (progress 0 r.1).any (fun p => readable ⟨p.1, p.2.1, p.2.2⟩)) = true := by
    decide +kernel
  obtain ⟨tr, s, run, holds⟩ := run_of_check shown
  simp only [Bool.and_eq_true, beq_iff_eq, Option.any_eq_true] at holds
  obtain ⟨answer, ⟨input, l, calls⟩, at_, ready⟩ := holds
  obtain ⟨_, l', k, here, response⟩ := answering_eq answer
  obtain ⟨l₁, calls₁, now, _, iff⟩ := responses_arrive run.any here
  rw [now] at at_
  cases at_
  rw [response] at iff
  exact ⟨s, _, by rw [here]; rfl, iff.mpr ready⟩

/-- A client pops its empty stack. -/
def popping : List (ConnId × Action Input Addr) := turn 0 "LOGIN ann\n" 2 0 ++ turn 0 "POP\n" 0 0

/-- The server answers with a text that the client's decoder takes for many arguments. -/
theorem responses_failed : ¬ ∀ tr s, Run server anyStep (booted fun _ => false) tr s → ∀ c input l' line k,
    s.threads c = .running input (.call l' (.write line) k) → decode line = .ok (meant l'.response) := by
  intro always
  have shown : (execute server noCheck popping (booted fun _ => false)).any (fun r =>
      answering (r.2.threads 0) == some (⟨.FAILED, [emptyStack]⟩, lit "FAILED Stack is empty\n")) = true := by
    decide +kernel
  obtain ⟨tr, s, run, holds⟩ := run_of_check shown
  obtain ⟨input, l', k, here, response⟩ := answering_eq (beq_iff_eq.mp holds)
  have decoded := always tr s run.any 0 input l' _ k here
  rw [response] at decoded
  exact absurd decoded (by decide +kernel)

end TableServer.Responses
