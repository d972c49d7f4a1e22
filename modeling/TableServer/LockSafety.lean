import TableServer.Exclusion

/-!
What the locking discipline gives for every reachable state: tables are used under
their mutex, pending writes belong to whoever holds it, and, for clients that
neither forget a lock nor leave in a transaction, no deadlock and nothing left
behind.
-/

namespace TableServer.LockSafety
open TableServer.Bytes TableServer.Messages TableServer.Stores TableServer.Connection TableServer.Server
open TableServer.Requests TableServer.Locking TableServer.Exclusion
open Resumption Interleaving

variable {memory : ConnId → Bool} {tr : ServerTrace} {s : ServerState} {g : Phase} {polite : Prop}
  {thread : Thread Local Input Fault Op Res}

private theorem fits_consistent (fits : (discipline polite).Fits thread g) : Consistent (members thread) g := by
  cases thread with
  | reading l => exact fits.2
  | exited l => exact fits.2.1
  | running input p =>
    cases p with
    | call l op k => exact fits.1.1
    | done r l =>
      rcases r with f | keep
      · exact fits.1
      · cases keep with
        | true => exact fits.2
        | false => exact fits.2.1

theorem fits_allowed (fits : (discipline polite).Fits thread g) {op : Op} (at_ : nextOp thread = some op) :
    Allowed g (members thread) op := by
  obtain ⟨input, l, k, rfl⟩ := nextOp_eq at_
  cases at_
  exact fits.1.2

/-- Between operations a worker holds the tables of its transaction or one it forgets. -/
theorem fits_idle (fits : (discipline polite).Fits thread g) (at_ : nextOp thread = none) :
    (∃ L, g = .holding L) ∨ ∃ t, g = .locked t true := by
  cases thread with
  | reading l => exact .inl ⟨_, fits.1⟩
  | exited l => exact .inl ⟨_, fits.1⟩
  | running input p =>
    cases p with
    | call l op k => cases at_
    | done r l =>
      rcases r with f | keep
      · exact fits.2
      · cases keep with
        | true => exact .inl ⟨_, fits.1⟩
        | false => exact .inl ⟨_, fits.1⟩

/-- The table that an operation accesses or unlocks. -/
def usedTable : Op → Option Addr
  | .get t _ => some t
  | .set t _ _ => some t
  | .commit_changes t => some t
  | .rollback_changes t => some t
  | .unlock t => some t
  | _ => none

/-- The members of `locked_tables` that the worker has not unlocked: all of them,
    except that the loops of `commit_tables` and `rollback_tables` have unlocked those
    before the table they are at. -/
def unreleased (thread : Thread Local Input Fault Op Res) : List Addr :=
  match nextOp thread with
  | some (.commit_changes u) => (members thread).locked_tables.addrs.filter (u ≤ ·)
  | some (.rollback_changes u) => (members thread).locked_tables.addrs.filter (u ≤ ·)
  | some (.unlock u) => (members thread).locked_tables.addrs.filter (u ≤ ·)
  | _ => (members thread).locked_tables.addrs

theorem allowed_used {l : Local} {op : Op} {t : Addr} (allowed : Allowed g l op) (uses : usedTable op = some t) :
    t ∈ g.tables := by
  cases op with
  | get u key =>
    cases uses
    rcases allowed with ⟨empty, rfl⟩ | ⟨L, rfl, inside⟩
    · simp
    · exact inside
  | set u key value =>
    cases uses
    rcases allowed with ⟨empty, rfl⟩ | ⟨L, rfl, inside⟩
    · simp
    · exact inside
  | commit_changes u =>
    cases uses
    rcases allowed with rfl | ⟨rest, rfl⟩ <;> simp
  | rollback_changes u =>
    cases uses
    obtain ⟨rest, rfl⟩ := allowed
    simp
  | unlock u =>
    cases uses
    rcases allowed with rfl | ⟨ending, rest, rfl⟩ <;> simp
  | _ => cases uses

private theorem unreleased_sub (thread : Thread Local Input Fault Op Res) :
    ∀ t ∈ unreleased thread, t ∈ (members thread).locked_tables.addrs := by
  intro t inside
  unfold unreleased at inside
  split at inside
  · exact List.mem_of_mem_filter inside
  · exact List.mem_of_mem_filter inside
  · exact List.mem_of_mem_filter inside
  · exact inside

/-- From a table of a sorted list on. -/
theorem from_table {before rest : List Addr} {t u : Addr} (sorted : (before ++ u :: rest).Pairwise (· < ·))
    (inside : t ∈ before ++ u :: rest) (from_ : u ≤ t) : t ∈ u :: rest := by
  rcases List.mem_append.mp inside with early | late
  · have below : t < u := (List.pairwise_append.mp sorted).2.2 t early u List.mem_cons_self
    exact absurd below (Nat.not_lt.mpr from_)
  · exact late

private theorem unreleased_held (fits : (discipline polite).Fits thread g) {t : Addr} (inside : t ∈ unreleased thread) :
    t ∈ g.tables := by
  have consistent := fits_consistent fits
  have all := unreleased_sub thread t inside
  have outside : (members thread).transaction_mode = false → t ∈ g.tables := by
    intro mode
    rw [consistent.outside mode] at all
    cases all
  -- In the loops at the end of a transaction the phase is a part of `locked_tables`.
  have loop : ∀ u rest, (∃ before, (members thread).locked_tables.addrs = before ++ u :: rest) →
      (t ∈ (members thread).locked_tables.addrs.filter (u ≤ ·)) → t ∈ u :: rest := by
    intro u rest ⟨before, whole⟩ kept
    have sorted := (members thread).locked_tables.sorted
    rw [whole] at sorted all
    exact from_table sorted all (by simpa using (List.mem_filter.mp kept).2)
  cases g with
  | holding L => rw [Phase.holding_tables, consistent.tables]; exact all
  | locked u empty => exact outside consistent.phase
  | accessed u => exact outside consistent.phase
  | committed u => exact outside consistent.phase
  | releasing ending u rest =>
    cases at_ : nextOp thread with
    | none => rcases fits_idle fits at_ with ⟨L, same⟩ | ⟨v, same⟩ <;> cases same
    | some op =>
      have allowed := fits_allowed fits at_
      cases op with
      | commit_changes v =>
        obtain ⟨rest', same⟩ := allowed.resolve_left (by intro same; cases same)
        cases same
        exact loop u rest consistent.phase (by simpa [unreleased, at_] using inside)
      | rollback_changes v =>
        obtain ⟨rest', same⟩ := allowed
        cases same
        exact loop u rest consistent.phase (by simpa [unreleased, at_] using inside)
      | _ => simp [Allowed] at allowed
  | finished ending u rest =>
    cases at_ : nextOp thread with
    | none => rcases fits_idle fits at_ with ⟨L, same⟩ | ⟨v, same⟩ <;> cases same
    | some op =>
      have allowed := fits_allowed fits at_
      cases op with
      | unlock v =>
        obtain ⟨ending', rest', same⟩ := allowed.resolve_left (by intro same; cases same)
        cases same
        exact loop u rest consistent.phase (by simpa [unreleased, at_] using inside)
      | _ => simp [Allowed] at allowed

theorem lock_discipline (run : Run server anyStep (booted memory) tr s) :
    (∀ c op t, nextOp (s.threads c) = some op → usedTable op = some t → holder s.shared t = some c) ∧
    (∀ c, (members (s.threads c)).transaction_mode = false → (members (s.threads c)).locked_tables.addrs = []) ∧
    (∀ c, ∀ t ∈ unreleased (s.threads c), holder s.shared t = some c) ∧
    ∀ c d t, c ≠ d → t ∈ unreleased (s.threads c) → t ∉ unreleased (s.threads d) := by
  obtain ⟨gs, inv, fits⟩ := locks_run initial_quiescent (fun _ _ _ _ => False.elim) run
  have held : ∀ c, ∀ t ∈ (gs c).tables, holder s.shared t = some c := fun c t inside =>
    holder_eq.mpr (inv.held c t inside)
  refine ⟨?_, ?_, ?_, ?_⟩
  · intro c op t at_ uses
    exact held c t (allowed_used (fits_allowed (fits c) at_) uses)
  · intro c mode
    exact (fits_consistent (fits c)).outside mode
  · intro c t inside
    exact held c t (unreleased_held (fits c) inside)
  · intro c d t apart byC byD
    exact apart (inv.exclusive (unreleased_held (fits c) byC) (unreleased_held (fits d) byD))

/-- One client commits two tables, at 0 and 1, and is stopped before the second one;
    another client locks the first one in a transaction. -/
def committing : List (ConnId × Action Input Addr) :=
  turn 0 "LOGIN ann\n" 2 0 ++ turn 0 "CREATE a\n" 4 0 ++ turn 0 "CREATE b\n" 4 1 ++ turn 0 "BEGIN\n" 2 0 ++
    turn 0 "GET a k\n" 5 0 ++ turn 0 "GET b k\n" 5 0 ++ turn 0 "COMMIT\n" 2 0 ++
    turn 1 "LOGIN bob\n" 2 0 ++ turn 1 "BEGIN\n" 2 0 ++ turn 1 "GET a k\n" 2 0

private theorem committing_run : ∃ tr s, Run server anyStep (booted fun _ => false) tr s ∧
    (0 ∈ (members (s.threads 0)).locked_tables.addrs ∧ 0 ∈ (members (s.threads 1)).locked_tables.addrs) ∧
    nextOp (s.threads 0) = some (.commit_changes 1) ∧ nextOp (s.threads 1) = some (.get 0 (lit "k")) := by
  have shown : (execute server noCheck committing (booted fun _ => false)).any (fun r =>
      ((members (r.2.threads 0)).locked_tables.addrs.contains 0 &&
        (members (r.2.threads 1)).locked_tables.addrs.contains 0) &&
      (nextOp (r.2.threads 0) == some (.commit_changes 1) &&
        nextOp (r.2.threads 1) == some (.get 0 (lit "k")))) = true := by
    decide +kernel
  obtain ⟨tr, s, run, holds⟩ := run_of_check shown
  simp only [Bool.and_eq_true, List.contains_iff_mem, beq_iff_eq] at holds
  exact ⟨tr, s, run.any, holds⟩

theorem lock_discipline_ran : ∃ s : ServerState, nextOp (s.threads 0) = some (.commit_changes 1) ∧
    nextOp (s.threads 1) = some (.get 0 (lit "k")) ∧ holder s.shared 1 = some 0 ∧ holder s.shared 0 = some 1 := by
  obtain ⟨tr, s, run, _, first, second⟩ := committing_run
  exact ⟨s, first, second, (lock_discipline run).1 0 _ 1 first rfl, (lock_discipline run).1 1 _ 0 second rfl⟩

/-- The first client still has the table in `locked_tables` that it has unlocked and
    the second client has locked. -/
theorem lock_discipline_committing :
    (¬ ∀ tr s, Run server anyStep (booted fun _ => false) tr s →
      ∀ c, ∀ t ∈ (members (s.threads c)).locked_tables.addrs, holder s.shared t = some c) ∧
    ¬ ∀ tr s, Run server anyStep (booted fun _ => false) tr s → ∀ c d t, c ≠ d →
      t ∈ (members (s.threads c)).locked_tables.addrs → t ∉ (members (s.threads d)).locked_tables.addrs := by
  obtain ⟨tr, s, run, ⟨first, second⟩, _⟩ := committing_run
  constructor
  · intro always
    have one := always tr s run 0 0 first
    have other := always tr s run 1 0 second
    rw [one] at other
    exact absurd other (by decide)
  · intro always
    exact always tr s run 0 1 0 (by decide) first second

/-- A table whose mutex is free has nothing pending; what is pending in a table is what
    has been written to it since it was last committed or rolled back; and a worker that
    is about to use a table finds only its own writes there. -/
theorem pending_owned (run : Run server anyStep (booted memory) tr s) :
    (∀ t tb, s.shared.heap t = some tb → tb.m_mutex = none → tb.tempMap = ∅) ∧
    (∀ t tb, s.shared.heap t = some tb → tb.tempMap = replay (pendingWrites t tr)) ∧
    (∀ t, ∀ w ∈ pendingWrites t tr, holder s.shared t = some w.writer) ∧
    ∀ c op t, nextOp (s.threads c) = some op → usedTable op = some t → ∀ w ∈ pendingWrites t tr, w.writer = c := by
  obtain ⟨gs, inv, fits⟩ := locks_run initial_quiescent (fun _ _ _ _ => False.elim) run
  refine ⟨?_, inv.pending, ?_, ?_⟩
  · intro t tb here free
    exact inv.free_clean here free
  · intro t w inside
    exact holder_eq.mpr (inv.held _ t (Phase.dirty_sub _ t (inv.writers t w inside)))
  · intro c op t at_ uses w inside
    exact (inv.mine (allowed_used (fits_allowed (fits c) at_) uses) inside).1

/-- A client has written to a table in a transaction. -/
def writingOnce : List (ConnId × Action Input Addr) :=
  turn 0 "LOGIN ann\n" 2 0 ++ turn 0 "CREATE a\n" 4 0 ++ turn 0 "PUSH 5\n" 2 0 ++ turn 0 "BEGIN\n" 2 0 ++
    turn 0 "SET a k\n" 5 0

theorem pending_owned_ran : ∃ tr s, Run server anyStep (booted fun _ => false) tr s ∧
    (pendingWrites 0 tr).map (·.writer) = [0] ∧ holder s.shared 0 = some 0 := by
  have shown : (execute server noCheck writingOnce (booted fun _ => false)).any (fun r =>
      (pendingWrites 0 r.1).map (·.writer) == [0]) = true := by
    decide +kernel
  obtain ⟨tr, s, run, holds⟩ := run_of_check shown
  have written : (pendingWrites 0 tr).map (·.writer) = [0] := beq_iff_eq.mp holds
  obtain ⟨w, inside, byFirst⟩ := List.mem_map.mp
    (written ▸ List.mem_singleton.mpr rfl : 0 ∈ (pendingWrites 0 tr).map (·.writer))
  have held := (pending_owned run.any).2.2.1 0 w inside
  rw [byFirst] at held
  exact ⟨tr, s, run.any, written, held⟩

/-- The step does not lock a table for a SET that will find its stack empty, outside a
    transaction. -/
def remembers : ServerEvent → Bool
  | .call input l (.lock _) _ => !forgets input l
  | _ => true

theorem not_forgotten {ok : ServerState → ConnId → ServerEvent → Prop} {start : ServerState}
    (kept : ∀ s c e, ok s c e → remembers e = true) (run : Run server ok start tr s) (c : ConnId) (t : Addr) :
    ¬ Forgotten c t tr := by
  rintro ⟨input, l, inside, empty⟩
  obtain ⟨s₁, allowed⟩ := run.allowed inside
  have full := kept _ _ _ allowed
  simp [remembers, empty] at full

/-- `c` waits in `lock` for a mutex that `d` has locked. -/
def WaitsFor (s : ServerState) (c d : ConnId) : Prop :=
  ∃ t, waitingFor (s.threads c) = some t ∧ holder s.shared t = some d

/-- A worker that waits in `lock` holds no mutex, and so no workers wait for each other. -/
theorem deadlock_free (run : Run server (fun _ _ e => remembers e = true) (booted memory) tr s) :
    (∀ c t, waitingFor (s.threads c) = some t → ∀ u, holder s.shared u ≠ some c) ∧
    ∀ c, ¬ Relation.TransGen (WaitsFor s) c c := by
  obtain ⟨gs, inv, fits⟩ := locks_run initial_quiescent (fun _ _ _ _ => False.elim) run
  have free : ∀ c t, waitingFor (s.threads c) = some t → ∀ u, holder s.shared u ≠ some c := by
    intro c t waits u held
    obtain ⟨phase, _⟩ := fits_allowed (fits c) (waitingFor_eq.mp waits)
    obtain ⟨tb, here, byC⟩ := holder_eq.mp held
    rcases inv.owner u tb c here byC with inside | lost
    · rw [phase] at inside
      cases inside
    · exact not_forgotten (fun _ _ _ => id) run c u lost
  refine ⟨free, ?_⟩
  intro c cycle
  -- The last edge of the cycle says that `c` holds a mutex, the first one that it waits.
  obtain ⟨d, _, u, _, held⟩ := Relation.TransGen.tail'_iff.mp cycle
  obtain ⟨e, ⟨t, waits, _⟩, _⟩ := Relation.TransGen.head'_iff.mp cycle
  exact free c t waits u held

/-- Two clients ask for one table outside transactions, and the second one waits. -/
def waiting : List (ConnId × Action Input Addr) :=
  turn 0 "LOGIN ann\n" 2 0 ++ turn 0 "CREATE a\n" 4 0 ++ turn 1 "LOGIN bob\n" 2 0 ++ turn 0 "GET a k\n" 2 0 ++
    turn 1 "GET a k\n" 1 0

theorem deadlock_free_waiting : ∃ s : ServerState, waitingFor (s.threads 1) = some 0 ∧
    (∀ u, holder s.shared u ≠ some 1) ∧ ∀ c, ¬ Relation.TransGen (WaitsFor s) c c := by
  have shown : (execute server (fun _ _ => remembers) waiting (booted fun _ => false)).any (fun r =>
      waitingFor (r.2.threads 1) == some 0) = true := by
    decide +kernel
  obtain ⟨tr, s, run, holds⟩ := run_of_check shown
  have waits := beq_iff_eq.mp holds
  exact ⟨s, waits, (deadlock_free run).1 1 0 waits, (deadlock_free run).2⟩

/-- A client forgets a table, by a SET while its stack is empty, and asks for it again. -/
def forgetting : List (ConnId × Action Input Addr) :=
  turn 0 "LOGIN ann\n" 2 0 ++ turn 0 "CREATE a\n" 4 0 ++ turn 0 "SET a k\n" 4 0 ++ turn 0 "GET a k\n" 1 0

/-- It then waits for a mutex that it holds itself. -/
theorem deadlock_forgetting : ¬ ∀ tr s, Run server anyStep (booted fun _ => false) tr s →
    (∀ c t, waitingFor (s.threads c) = some t → ∀ u, holder s.shared u ≠ some c) ∧
    ∀ c, ¬ Relation.TransGen (WaitsFor s) c c := by
  intro always
  have shown : (execute server noCheck forgetting (booted fun _ => false)).any (fun r =>
      waitingFor (r.2.threads 0) == some 0 && holder r.2.shared 0 == some 0) = true := by
    decide +kernel
  obtain ⟨tr, s, run, holds⟩ := run_of_check shown
  simp only [Bool.and_eq_true, beq_iff_eq] at holds
  exact (always tr s run.any).2 0 (.single ⟨0, holds⟩)

/-- A connection whose loop has ended holds no mutex, and nothing that it has written is
    still pending. -/
theorem finished_clean (run : Run server (fun s _ e => careful s e = true ∧ remembers e = true) (booted memory) tr s)
    {c : ConnId} {l : Local} (gone : s.threads c = .exited l) :
    (∀ t, holder s.shared t ≠ some c) ∧ ∀ t, ∀ w ∈ pendingWrites t tr, w.writer ≠ c := by
  obtain ⟨gs, inv, fits⟩ := locks_run initial_quiescent (fun _ _ _ both (_ : True) => both.1) run
  have mine := fits c
  rw [gone] at mine
  obtain ⟨phase, _, none_⟩ := mine
  rw [none_ trivial] at phase
  constructor
  · intro t held
    obtain ⟨tb, here, byC⟩ := holder_eq.mp held
    rcases inv.owner t tb c here byC with inside | lost
    · rw [phase] at inside
      cases inside
    · exact not_forgotten (fun _ _ _ both => both.2) run c t lost
  · rintro t w inside rfl
    have dirty := inv.writers t w inside
    rw [phase] at dirty
    cases dirty

/-- A client ends its transaction and then its connection. -/
def leavingAfter : List (ConnId × Action Input Addr) :=
  turn 0 "LOGIN ann\n" 2 0 ++ turn 0 "CREATE a\n" 4 0 ++ turn 0 "PUSH 5\n" 2 0 ++ turn 0 "BEGIN\n" 2 0 ++
    turn 0 "SET a k\n" 5 0 ++ turn 0 "COMMIT\n" 4 0 ++ turn 0 "BYE\n" 2 0

theorem finished_clean_after : ∃ (tr : ServerTrace) (s : ServerState) (l : Local), s.threads 0 = .exited l ∧
    (∀ t, holder s.shared t ≠ some 0) ∧
    ∀ t, ∀ w ∈ pendingWrites t tr, w.writer ≠ 0 := by
  have shown : (execute server (fun s _ e => careful s e && remembers e) leavingAfter (booted fun _ => false)).any
      (fun r => match r.2.threads 0 with | .exited _ => true | _ => false) = true := by
    decide +kernel
  obtain ⟨tr, s, run, gone⟩ := run_of_check shown
  simp only [Bool.and_eq_true] at run
  split at gone
  · rename_i l exited
    exact ⟨tr, s, l, exited, finished_clean run exited⟩
  · cases gone

/-- A client ends its connection in the middle of a transaction. -/
def leavingInside : List (ConnId × Action Input Addr) :=
  turn 0 "LOGIN ann\n" 2 0 ++ turn 0 "CREATE a\n" 4 0 ++ turn 0 "PUSH 5\n" 2 0 ++ turn 0 "BEGIN\n" 2 0 ++
    turn 0 "SET a k\n" 5 0 ++ turn 0 "BYE\n" 2 0

/-- Its table stays locked, with its write pending. -/
theorem finished_inside : ¬ ∀ tr s, Run server anyStep (booted fun _ => false) tr s → ∀ c l, s.threads c = .exited l →
    (∀ t, holder s.shared t ≠ some c) ∧ ∀ t, ∀ w ∈ pendingWrites t tr, w.writer ≠ c := by
  intro always
  have shown : (execute server noCheck leavingInside (booted fun _ => false)).any (fun r =>
      (match r.2.threads 0 with | .exited _ => true | _ => false) && holder r.2.shared 0 == some 0) = true := by
    decide +kernel
  obtain ⟨tr, s, run, holds⟩ := run_of_check shown
  simp only [Bool.and_eq_true, beq_iff_eq] at holds
  obtain ⟨gone, held⟩ := holds
  split at gone
  · rename_i l exited
    exact (always tr s run.any 0 l exited).1 0 held
  · cases gone

end TableServer.LockSafety
