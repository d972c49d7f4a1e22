import TableServer.LockSafety
import TableServer.Responses

/-!
Requests that fail inside a transaction. A refused lock is followed by the whole
cleanup; a failing operation on the stack is not, since the exception that stands
for it is thrown where no `catch` clause sees it.
-/

namespace TableServer.Rollback
open TableServer.Bytes TableServer.Messages TableServer.Serialization TableServer.Stores TableServer.Connection
open TableServer.Server TableServer.Requests TableServer.Locking TableServer.Exclusion TableServer.LockSafety
open TableServer.Outcomes TableServer.Responses
open Resumption Interleaving

variable {memory : ConnId → Bool} {tr : ServerTrace} {s : ServerState}

/-- The request fails and is to be recovered from: its lock is refused, or its operation
    finds the stack empty or the operands bad. -/
def fails (r : Request) : Bool :=
  refusedLock r.calls || (requestOf r.input).any (fun m => r.start.logged_in && stumbles m r.start r.calls)

/-- The line that a call has written to the client. -/
def writtenLine : Call Op Res → Option Str
  | ⟨.write line, _⟩ => some line
  | _ => none

/-- What recovery leaves at the end of an iteration of `c`. -/
structure CleanedUp (tr : ServerTrace) (s : ServerState) (c : ConnId) (request : Request) (r : Except Fault Bool)
    (l : Local) : Prop where
  goesOn : r = .ok true
  emptied : l.locked_tables.addrs = []
  outside : l.transaction_mode = false
  answered : ∃ text line, encode ⟨.FAILED, [text]⟩ = .ok line ∧ request.calls.filterMap writtenLine = [line]
  dropped : ∀ t ∈ request.start.locked_tables.addrs,
    ⟨.rollback_changes t, ()⟩ ∈ request.calls ∧ ∀ w ∈ pendingWrites t tr, w.writer ≠ c
  unlocked : ∀ t ∈ request.start.locked_tables.addrs,
    ⟨.unlock t, ()⟩ ∈ request.calls ∧ holder s.shared t ≠ some c

def letGoAfter (t : Addr) (gone : Bool) : Call Op Res → Bool
  | ⟨.unlock u, _⟩ => u == t || gone
  | ⟨.lock u, _⟩ => u != t && gone
  | ⟨.trylock u, _⟩ => u != t && gone
  | _ => gone

/-- The request has unlocked the table and not tried to lock it again. -/
def letGo (t : Addr) (calls : List (Call Op Res)) : Bool := calls.foldl (letGoAfter t) false

private theorem letGo_snoc (t : Addr) (calls : List (Call Op Res)) (call : Call Op Res) :
    letGo t (calls ++ [call]) = letGoAfter t (letGo t calls) call := by
  simp [letGo]

/-- A mutex that a request of `c` has let go is not held by `c`. -/
theorem letGo_released {ok : ServerState → ConnId → ServerEvent → Prop} {start : ServerState}
    (run : Run server ok start tr s) {c : ConnId} {input : Input} {l : Local} {calls : List (Call Op Res)} {t : Addr}
    (now : progress c tr = some (input, l, calls)) (gone : letGo t calls = true) : holder s.shared t ≠ some c := by
  induction run generalizing input l calls with
  | start => cases now
  | @step tr s s' d e earlier one allowed ih =>
    intro held
    cases one with
    | @recv l' input' up here =>
      by_cases mine : d = c
      · subst mine
        rw [progress_recv] at now
        cases now
        cases gone
      · rw [progress_other mine] at now
        exact ih now gone held
    | @call input' l' op k r after choice up here exec =>
      have exec : Server.exec d choice op s.shared = some (r, after) := exec
      by_cases mine : d = c
      · subst mine
        rw [progress_call] at now
        obtain ⟨p, before, same⟩ := Option.map_eq_some_iff.mp now
        cases same
        rw [letGo_snoc] at gone
        rcases exec_holder exec held with ⟨kept, notUnlock⟩ | ⟨_, rfl | rfl⟩
        · refine ih before ?_ kept
          cases op with
          | unlock u =>
            have other : u ≠ t := by simpa using notUnlock
            simpa [letGoAfter, other] using gone
          | lock u => exact (Bool.and_eq_true_iff.mp gone).2
          | trylock u => exact (Bool.and_eq_true_iff.mp gone).2
          | _ => exact gone
        · simp [letGoAfter] at gone
        · simp [letGoAfter] at gone
      · rw [progress_other mine] at now
        rcases exec_holder exec held with ⟨kept, _⟩ | ⟨same, _⟩
        · exact ih now gone kept
        · exact mine same
    | again up here => exact ih (by simpa [progress] using now) gone held
    | exit up here => exact ih (by simpa [progress] using now) gone held
    | abort up here => exact ih (by simpa [progress] using now) gone held

private theorem letGo_release (ending : Ending) (tables : List Addr) (t : Addr) (gone : Bool) :
    (releaseCalls ending tables).foldl (letGoAfter t) gone = (decide (t ∈ tables) || gone) := by
  induction tables generalizing gone with
  | nil => simp [releaseCalls]
  | cons u rest ih =>
    have unrolled : releaseCalls ending (u :: rest) =
        Ending.call ending u :: ⟨.unlock u, ()⟩ :: releaseCalls ending rest := rfl
    have first : letGoAfter t (letGoAfter t gone (Ending.call ending u)) ⟨.unlock u, ()⟩ = (u == t || gone) := by
      cases ending <;> rfl
    rw [unrolled, List.foldl_cons, List.foldl_cons, first, ih]
    by_cases same : t = u
    · simp [same]
    · have apart : (u == t) = false := beq_eq_false_iff_ne.mpr (Ne.symm same)
      simp [same, apart]

/-- In a release every table is rolled back and let go. -/
theorem mem_releaseCalls (ending : Ending) {tables : List Addr} {t : Addr} (inside : t ∈ tables) :
    Ending.call ending t ∈ releaseCalls ending tables ∧ ⟨.unlock t, ()⟩ ∈ releaseCalls ending tables := by
  constructor
  · exact List.mem_flatMap.mpr ⟨t, inside, by simp⟩
  · exact List.mem_flatMap.mpr ⟨t, inside, by simp⟩

private theorem written_release (ending : Ending) (tables : List Addr) :
    (releaseCalls ending tables).filterMap writtenLine = [] := by
  rw [List.filterMap_eq_nil_iff]
  intro call inside
  obtain ⟨t, _, one⟩ := List.mem_flatMap.mp inside
  rcases List.mem_cons.mp one with rfl | one
  · cases ending <;> rfl
  · rw [List.mem_singleton.mp one]
    rfl

/-- At the end of an iteration outside a transaction a connection has nothing pending. -/
theorem nothing_pending {c : ConnId} {input : Input} {l : Local} (run : Run server anyStep (booted memory) tr s)
    (here : s.threads c = .running input (.done (.ok true) l)) (emptied : l.locked_tables.addrs = []) (t : Addr) :
    ∀ w ∈ pendingWrites t tr, w.writer ≠ c := by
  obtain ⟨gs, inv, fits⟩ := locks_run initial_quiescent (fun _ _ _ _ => False.elim) run
  have mine := fits c
  rw [here] at mine
  have phase : gs c = .holding l.locked_tables.addrs := mine.1
  rintro w inside rfl
  have dirty := inv.writers t w inside
  rw [phase, emptied] at dirty
  cases dirty

private theorem refused_cleaned {c : ConnId} {input : Input} {l l' : Local} {calls : List (Call Op Res)}
    (run : Run server anyStep (booted memory) tr s) (here : s.threads c = .running input (.done (.ok true) l'))
    (now : progress c tr = some (input, l, calls)) (back : AfterRefusal ⟨input, l, calls⟩ l') :
    CleanedUp tr s c ⟨input, l, calls⟩ (.ok true) l' := by
  obtain ⟨emptied, outside, n, t, line, all, encoded⟩ := back
  dsimp only at all
  refine ⟨rfl, emptied, outside, ⟨_, line, encoded, ?_⟩, ?_, ?_⟩
  · rw [all, List.filterMap_append, List.filterMap_append, written_release]
    rfl
  · intro u inside
    refine ⟨?_, nothing_pending run here emptied u⟩
    have rolled := (mem_releaseCalls .rollback inside).1
    rw [all]
    exact List.mem_append_left _ (List.mem_append_right _ rolled)
  · intro u inside
    have unlocks := (mem_releaseCalls .rollback inside).2
    refine ⟨by rw [all]; exact List.mem_append_left _ (List.mem_append_right _ unlocks), letGo_released run now ?_⟩
    simp [letGo, all, letGo_release, letGoAfter, inside]

/-- A request that fails inside a transaction is recovered from exactly when it fails
    because its lock is refused. -/
theorem failed_cleaned (run : Run server anyStep (booted memory) tr s) {c : ConnId} {input : Input}
    {r : Except Fault Bool} {l' : Local} (here : s.threads c = .running input (.done r l')) :
    ∃ l calls, progress c tr = some (input, l, calls) ∧
      (l.transaction_mode = true → fails ⟨input, l, calls⟩ = true →
        (CleanedUp tr s c ⟨input, l, calls⟩ r l' ↔ refusedLock calls = true)) := by
  obtain ⟨l, calls, now, outcome⟩ := request_fits run here
  refine ⟨l, calls, now, ?_⟩
  intro mode failed
  constructor
  · -- An operation that fails on the stack leaves the loop.
    intro clean
    obtain rfl := clean.goesOn
    by_contra unrefused
    have stumbled : (requestOf input).any (fun m => l.logged_in && stumbles m l calls) = true := by
      simpa [fails, unrefused] using failed
    obtain ⟨m, asked, both⟩ := (Option.any_eq_true _ _).mp stumbled
    obtain ⟨login, stumbled⟩ := Bool.and_eq_true_iff.mp both
    have stays : escapes ⟨input, l, calls⟩ = false := outcome.2.1
    rw [escapes_request asked login] at stays
    simp [mode, stumbled] at stays
  · intro refused
    rcases r with f | keep
    · have unrefused : refusedLock calls = false := outcome.2
      rw [refused] at unrefused
      cases unrefused
    · cases keep with
      | true => exact refused_cleaned run here now (outcome.2.2 refused)
      | false =>
        have unrefused : refusedLock calls = false := outcome.2
        rw [refused] at unrefused
        cases unrefused

/-- The second client has locked a table in its transaction; the first one, which has
    written to another table in its own, asks for it. -/
def colliding : List (ConnId × Action Input Addr) :=
  turn 0 "LOGIN ann\n" 2 0 ++ turn 0 "CREATE a\n" 4 0 ++ turn 0 "CREATE b\n" 4 1 ++ turn 1 "LOGIN bob\n" 2 0 ++
    turn 1 "BEGIN\n" 2 0 ++ turn 1 "GET b k\n" 5 0 ++ turn 0 "PUSH 5\n" 2 0 ++ turn 0 "BEGIN\n" 2 0 ++
    turn 0 "SET a k\n" 5 0 ++ turn 0 "GET b k\n" 5 0

theorem failed_cleaned_colliding : ∃ tr s request r l', CleanedUp tr s 0 request r l' ∧
    request.start.locked_tables.addrs = [0] ∧ holder s.shared 0 ≠ some 0 := by
  have shown : (execute server noCheck colliding (booted fun _ => false)).any (fun r =>
      (endOf (r.2.threads 0)).isSome && (progress 0 r.1).any (fun p =>
        p.2.1.transaction_mode && refusedLock p.2.2 && p.2.1.locked_tables.addrs == [0])) = true := by
    decide +kernel
  obtain ⟨tr, s, run, holds⟩ := run_of_check shown
  simp only [Bool.and_eq_true, Option.any_eq_true, beq_iff_eq] at holds
  obtain ⟨ends, ⟨input, l, calls⟩, at_, ⟨mode, refused⟩, locked⟩ := holds
  obtain ⟨⟨r, l'⟩, last⟩ := Option.isSome_iff_exists.mp ends
  obtain ⟨input', here⟩ := endOf_eq last
  obtain ⟨l₁, calls₁, now, iff⟩ := failed_cleaned run.any here
  rw [now] at at_
  cases at_
  have clean := (iff mode (by simp [fails, refused])).mpr refused
  have inside : 0 ∈ l.locked_tables.addrs := by
    rw [show l.locked_tables.addrs = [0] from locked]
    exact List.mem_singleton.mpr rfl
  exact ⟨tr, s, _, r, l', clean, locked, (clean.unlocked 0 inside).2⟩

/-- A client that has written to a table in a transaction pops its empty stack. -/
def stumbling : List (ConnId × Action Input Addr) :=
  turn 0 "LOGIN ann\n" 2 0 ++ turn 0 "CREATE a\n" 4 0 ++ turn 0 "PUSH 5\n" 2 0 ++ turn 0 "BEGIN\n" 2 0 ++
    turn 0 "SET a k\n" 5 0 ++ turn 0 "POP\n" 0 0

/-- The exception leaves the loop and nothing is cleaned up. -/
theorem failed_stumbling : ¬ ∀ tr s, Run server anyStep (booted fun _ => false) tr s → ∀ c input r l' l calls,
    s.threads c = .running input (.done r l') → progress c tr = some (input, l, calls) → l.transaction_mode = true →
    fails ⟨input, l, calls⟩ = true → CleanedUp tr s c ⟨input, l, calls⟩ r l' := by
  intro always
  have shown : (execute server noCheck stumbling (booted fun _ => false)).any (fun r =>
      (endOf (r.2.threads 0)).any (fun e => !e.1.toBool) &&
        (progress 0 r.1).any (fun p => p.2.1.transaction_mode && fails ⟨p.1, p.2.1, p.2.2⟩)) = true := by
    decide +kernel
  obtain ⟨tr, s, run, holds⟩ := run_of_check shown
  simp only [Bool.and_eq_true, Option.any_eq_true] at holds
  obtain ⟨⟨⟨r, l'⟩, last, thrown⟩, ⟨input, l, calls⟩, at_, mode, failed⟩ := holds
  obtain ⟨input', here⟩ := endOf_eq last
  obtain ⟨l₁, calls₁, now, _⟩ := request_fits run.any here
  rw [now] at at_
  cases at_
  have clean := always tr s run.any 0 _ r l' l calls here now mode failed
  rw [clean.goesOn] at thrown
  cases thrown

end TableServer.Rollback
