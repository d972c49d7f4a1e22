import TableServer.Resumption
import Mathlib.Logic.Function.Basic

/-!
Worker threads over a shared store. Each thread reads an input, runs the body of
its loop on it and starts again until the body says to stop; what it does to the
store are single operations, and the operations of all threads interleave freely.

A discipline gives every thread a ghost state and says what its operations do to
it. Programs are checked against it one at a time (`Ensures`); that it holds of
every interleaving is proved once (`Discipline.sound`).
-/

namespace Interleaving
open Resumption

variable {Id Shared Local Input Fault Choice Op : Type} {Res : Op → Type} {Ghost α β : Type}

/-- How a thread executes an operation, or must wait (`none`), and the loop body,
    which returns whether to go on. The choice is what the operation leaves open. -/
structure Machine (Id Shared Local Input Fault Choice Op : Type) (Res : Op → Type) where
  exec : Id → Choice → (op : Op) → Shared → Option (Res op × Shared)
  body : Input → Handler Op Res Local Fault Bool

inductive Thread (Local Input Fault Op : Type) (Res : Op → Type) where
  | reading (l : Local)
  | running (input : Input) (p : Prog Op Res Local (Except Fault Bool))
  | exited (l : Local)

/-- An exception that leaves a loop body brings down the whole process. -/
structure State (Id Shared Local Input Fault Op : Type) (Res : Op → Type) where
  shared : Shared
  threads : Id → Thread Local Input Fault Op Res
  aborted : Option (Id × Fault)

inductive Event (Local Input Fault Op : Type) (Res : Op → Type) where
  | recv (l : Local) (input : Input)
  | call (input : Input) (l : Local) (op : Op) (r : Res op)
  | finish (input : Input) (l : Local) (r : Except Fault Bool)

/-- The steps of a run in order, each with the thread that took it. -/
abbrev Trace (Id Local Input Fault Op : Type) (Res : Op → Type) := List (Id × Event Local Input Fault Op Res)

section Steps
variable [DecidableEq Id] (M : Machine Id Shared Local Input Fault Choice Op Res)

/-- One step of thread `i`, with what it was. -/
inductive Step (s : State Id Shared Local Input Fault Op Res) (i : Id) :
    Event Local Input Fault Op Res → State Id Shared Local Input Fault Op Res → Prop where
  | recv {l : Local} {input : Input} (up : s.aborted = none) (here : s.threads i = .reading l) :
      Step s i (.recv l input)
        { s with threads := Function.update s.threads i (.running input (M.body input l)) }
  | call {input : Input} {l : Local} {op : Op} {k : Res op → Prog Op Res Local (Except Fault Bool)} {r : Res op}
      {after : Shared} (choice : Choice) (up : s.aborted = none) (here : s.threads i = .running input (.call l op k))
      (exec : M.exec i choice op s.shared = some (r, after)) :
      Step s i (.call input l op r)
        { s with shared := after, threads := Function.update s.threads i (.running input (k r)) }
  | again {input : Input} {l : Local} (up : s.aborted = none)
    (here : s.threads i = .running input (.done (.ok true) l)) :
      Step s i (.finish input l (.ok true)) { s with threads := Function.update s.threads i (.reading l) }
  | exit {input : Input} {l : Local} (up : s.aborted = none)
    (here : s.threads i = .running input (.done (.ok false) l)) :
      Step s i (.finish input l (.ok false)) { s with threads := Function.update s.threads i (.exited l) }
  | abort {input : Input} {l : Local} {f : Fault} (up : s.aborted = none)
      (here : s.threads i = .running input (.done (.error f) l)) :
      Step s i (.finish input l (.error f)) { s with aborted := some (i, f) }

/-- The runs from `start` whose steps all satisfy `ok`. -/
inductive Run (ok : State Id Shared Local Input Fault Op Res → Id → Event Local Input Fault Op Res → Prop)
    (start : State Id Shared Local Input Fault Op Res) :
    Trace Id Local Input Fault Op Res → State Id Shared Local Input Fault Op Res → Prop where
  | start : Run ok start [] start
  | step {tr : Trace Id Local Input Fault Op Res} {s s' : State Id Shared Local Input Fault Op Res} {i : Id}
      {e : Event Local Input Fault Op Res} (run : Run ok start tr s) (step : Step M s i e s') (allowed : ok s i e) :
      Run ok start (tr ++ [(i, e)]) s'

/-- A step condition that every step meets. -/
def anyStep (_ : State Id Shared Local Input Fault Op Res) (_ : Id) (_ : Event Local Input Fault Op Res) : Prop := True

inductive Action (Input Choice : Type) where
  | recv (input : Input)
  | advance (choice : Choice)

/-- The step that thread `i` takes, if it can. -/
def step? (s : State Id Shared Local Input Fault Op Res) (i : Id) (a : Action Input Choice) :
    Option (Event Local Input Fault Op Res × State Id Shared Local Input Fault Op Res) :=
  match s.aborted, a, s.threads i with
  | none, .recv input, .reading l =>
    some (.recv l input, { s with threads := Function.update s.threads i (.running input (M.body input l)) })
  | none, .advance choice, .running input (.call l op k) =>
    match M.exec i choice op s.shared with
    | some (r, after) => some (.call input l op r,
        { s with shared := after, threads := Function.update s.threads i (.running input (k r)) })
    | none => none
  | none, .advance _, .running input (.done (.ok true) l) =>
    some (.finish input l (.ok true), { s with threads := Function.update s.threads i (.reading l) })
  | none, .advance _, .running input (.done (.ok false) l) =>
    some (.finish input l (.ok false), { s with threads := Function.update s.threads i (.exited l) })
  | none, .advance _, .running input (.done (.error f) l) =>
    some (.finish input l (.error f), { s with aborted := some (i, f) })
  | _, _, _ => none

/-- A check that every step passes. -/
def noCheck (_ : State Id Shared Local Input Fault Op Res) (_ : Id) (_ : Event Local Input Fault Op Res) : Bool := true

/-- The steps of a schedule from a state on, as long as each passes the check `ok`. -/
def execute (ok : State Id Shared Local Input Fault Op Res → Id → Event Local Input Fault Op Res → Bool) :
    List (Id × Action Input Choice) → State Id Shared Local Input Fault Op Res →
    Option (Trace Id Local Input Fault Op Res × State Id Shared Local Input Fault Op Res)
  | [], s => some ([], s)
  | (i, a) :: more, s =>
    match step? M s i a with
    | some (e, s') => if ok s i e then (execute ok more s').map (fun r => ((i, e) :: r.1, r.2)) else none
    | none => none

variable {M}

theorem step_of_step? {s s' : State Id Shared Local Input Fault Op Res} {i : Id} {a : Action Input Choice}
    {e : Event Local Input Fault Op Res} (taken : step? M s i a = some (e, s')) : Step M s i e s' := by
  unfold step? at taken
  split at taken
  case h_1 up here => cases taken; exact .recv up here
  case h_2 choice _ l op k up here =>
    split at taken
    · rename_i r after exec; cases taken; exact .call choice up here exec
    · cases taken
  case h_3 up here => cases taken; exact .again up here
  case h_4 up here => cases taken; exact .exit up here
  case h_5 up here => cases taken; exact .abort up here
  case h_6 => cases taken

theorem recv_of_step? {s' : State Id Shared Local Input Fault Op Res} {i : Id} {input : Input}
    {e : Event Local Input Fault Op Res} (taken : step? M s i (.recv input) = some (e, s')) :
    ∃ l, e = .recv l input ∧ s.threads i = .reading l := by
  cases up : s.aborted with
  | some down => simp [step?, up] at taken
  | none =>
    cases here : s.threads i with
    | reading l =>
      simp only [step?, up, here, Option.some.injEq, Prod.mk.injEq] at taken
      exact ⟨l, taken.1.symm, rfl⟩
    | running | exited => simp [step?, up, here] at taken

theorem run_of_execute {ok : State Id Shared Local Input Fault Op Res → Id → Event Local Input Fault Op Res → Bool}
    {start s s' : State Id Shared Local Input Fault Op Res} {schedule : List (Id × Action Input Choice)}
    {before tr : Trace Id Local Input Fault Op Res} (run : Run M (fun s i e => ok s i e = true) start before s)
    (taken : execute M ok schedule s = some (tr, s')) :
    Run M (fun s i e => ok s i e = true) start (before ++ tr) s' := by
  induction schedule generalizing before s tr with
  | nil => simp only [execute, Option.some.injEq, Prod.mk.injEq] at taken; obtain ⟨rfl, rfl⟩ := taken; simpa using run
  | cons head more ih =>
    obtain ⟨i, a⟩ := head
    rw [execute] at taken
    split at taken
    · rename_i e middle one
      split at taken
      · rename_i passed
        obtain ⟨⟨rest, last⟩, later, same⟩ := Option.map_eq_some_iff.mp taken
        cases same
        have tail := ih (run.step (step_of_step? one) passed) later
        simpa using tail
      · cases taken
    · cases taken

/-- A schedule that can be executed is a run, and what it checks at its end holds there. -/
theorem run_of_check {ok : State Id Shared Local Input Fault Op Res → Id → Event Local Input Fault Op Res → Bool}
    {start : State Id Shared Local Input Fault Op Res} {schedule : List (Id × Action Input Choice)}
    {check : Trace Id Local Input Fault Op Res × State Id Shared Local Input Fault Op Res → Bool}
    (checked : (execute M ok schedule start).any check = true) :
    ∃ tr s, Run M (fun s i e => ok s i e = true) start tr s ∧ check (tr, s) = true := by
  cases taken : execute M ok schedule start with
  | none => rw [taken] at checked; cases checked
  | some r =>
    rw [taken] at checked
    exact ⟨r.1, r.2, by simpa using run_of_execute .start taken, checked⟩

/-! ### Runs -/

variable {ok : State Id Shared Local Input Fault Op Res → Id → Event Local Input Fault Op Res → Prop}
  {start s : State Id Shared Local Input Fault Op Res} {tr : Trace Id Local Input Fault Op Res}

/-- A step changes the thread that takes it and no other one. -/
theorem Step.other {i j : Id} {e : Event Local Input Fault Op Res} {s' : State Id Shared Local Input Fault Op Res}
    (one : Step M s j e s') (other : j ≠ i) : s'.threads i = s.threads i := by
  cases one <;> simp [Function.update_of_ne (Ne.symm other)]

/-- A run also meets a condition that every step of its trace meets. -/
theorem Run.mono {ok' : State Id Shared Local Input Fault Op Res → Id → Event Local Input Fault Op Res → Prop}
    (run : Run M ok start tr s)
    (weaker : ∀ s s' i e, (i, e) ∈ tr → Step M s i e s' → ok s i e → ok' s i e) : Run M ok' start tr s := by
  induction run with
  | start => exact .start
  | step _ one allowed ih =>
    refine (ih fun s s' i e inside => weaker s s' i e (List.mem_append_left _ inside)).step one ?_
    exact weaker _ _ _ _ (by simp) one allowed

theorem Run.any (run : Run M ok start tr s) : Run M anyStep start tr s := run.mono fun _ _ _ _ _ _ _ => trivial

theorem Run.append {s' : State Id Shared Local Input Fault Op Res} {tr' : Trace Id Local Input Fault Op Res}
    (one : Run M ok start tr s) (two : Run M ok s tr' s') : Run M ok start (tr ++ tr') s' := by
  induction two with
  | start =>
    rw [List.append_nil]
    exact one
  | step _ last allowed ih =>
    rw [← List.append_assoc]
    exact ih.step last allowed

/-- A run is one run after another wherever its trace is cut. -/
theorem Run.cut {before after : Trace Id Local Input Fault Op Res} (run : Run M ok start (before ++ after) s) :
    ∃ s₁, Run M ok start before s₁ ∧ Run M ok s₁ after s := by
  generalize whole : before ++ after = tr at run
  induction run generalizing after with
  | start =>
    obtain ⟨rfl, rfl⟩ := List.append_eq_nil_iff.mp whole
    exact ⟨start, .start, .start⟩
  | @step tr₁ s₁ s₂ j d earlier one allowed ih =>
    rcases List.eq_nil_or_concat after with rfl | ⟨init, last, rfl⟩
    · rw [List.append_nil] at whole
      subst whole
      exact ⟨s₂, earlier.step one allowed, .start⟩
    · have cut : (before ++ init) ++ [last] = tr₁ ++ [(j, d)] := by simpa using whole
      obtain ⟨shorter, same⟩ := List.append_inj' cut rfl
      cases same
      obtain ⟨s', first, second⟩ := ih shorter
      rw [List.concat_eq_append]
      exact ⟨s', first, second.step one allowed⟩

theorem Run.nothing (run : Run M ok start [] s) : s = start := by
  generalize none_ : [] = tr at run
  cases run with
  | start => rfl
  | step => simp at none_

theorem Run.head {i : Id} {e : Event Local Input Fault Op Res} (run : Run M ok start ((i, e) :: tr) s) :
    ∃ s₁, Step M start i e s₁ ∧ ok start i e ∧ Run M ok s₁ tr s := by
  have whole : Run M ok start ([(i, e)] ++ tr) s := run
  obtain ⟨s₁, first, rest⟩ := whole.cut
  generalize one : [(i, e)] = single at first
  cases first with
  | start => cases one
  | @step tr₁ s₀ _ j d earlier step allowed =>
    obtain ⟨nothing, same⟩ := List.append_inj' ((List.nil_append _).trans one) rfl
    subst nothing
    cases same
    obtain rfl := earlier.nothing
    exact ⟨s₁, step, allowed, rest⟩

/-- The run up to a step of its trace. -/
theorem Run.upTo {before after : Trace Id Local Input Fault Op Res} {i : Id} {e : Event Local Input Fault Op Res}
    (run : Run M ok start tr s) (at_ : tr = before ++ (i, e) :: after) :
    ∃ s₁ s₂, Run M ok start before s₁ ∧ Step M s₁ i e s₂ ∧ ok s₁ i e := by
  subst at_
  obtain ⟨s₁, first, rest⟩ := run.cut
  obtain ⟨s₂, one, allowed, _⟩ := rest.head
  exact ⟨s₁, s₂, first, one, allowed⟩

theorem Run.allowed {i : Id} {e : Event Local Input Fault Op Res} (run : Run M ok start tr s) (member : (i, e) ∈ tr) :
    ∃ s₁, ok s₁ i e := by
  obtain ⟨before, after, at_⟩ := List.append_of_mem member
  obtain ⟨s₁, _, _, _, allowed⟩ := run.upTo at_
  exact ⟨s₁, allowed⟩

/-- What thread `i` read last and in which local state, and its calls since. -/
def progress (i : Id) (tr : Trace Id Local Input Fault Op Res) : Option (Input × Local × List (Call Op Res)) :=
  tr.foldl (fun now step =>
    if step.1 = i then
      match step.2 with
      | .recv l input => some (input, l, [])
      | .call _ _ op r => now.map (fun p => (p.1, p.2.1, p.2.2 ++ [⟨op, r⟩]))
      | .finish _ _ _ => now
    else now) none

theorem progress_other {i j : Id} (other : j ≠ i) (tr : Trace Id Local Input Fault Op Res)
    (e : Event Local Input Fault Op Res) : progress i (tr ++ [(j, e)]) = progress i tr := by
  simp [progress, other]

theorem progress_recv (i : Id) (tr : Trace Id Local Input Fault Op Res) (l : Local) (input : Input) :
    progress i (tr ++ [(i, .recv l input)]) = some (input, l, []) := by
  simp [progress]

theorem progress_call (i : Id) (tr : Trace Id Local Input Fault Op Res) (input : Input) (l : Local) (op : Op)
    (r : Res op) : progress i (tr ++ [(i, .call input l op r)]) =
      (progress i tr).map (fun p => (p.1, p.2.1, p.2.2 ++ [⟨op, r⟩])) := by
  simp [progress]

/-- A running thread is the loop body, from the input and the local state that the
    thread last read in, after the calls it has made since: nothing that other threads
    do changes its program. -/
theorem run_path {i : Id} {input : Input} {p : Prog Op Res Local (Except Fault Bool)} (run : Run M ok start tr s)
    (fresh : ∀ j, ∃ l, start.threads j = .reading l) (here : s.threads i = .running input p) :
    ∃ l calls, progress i tr = some (input, l, calls) ∧ (M.body input l).Path calls p ∧ (i, .recv l input) ∈ tr ∧
      ∀ c ∈ calls, ∃ l', (i, .call input l' c.1 c.2) ∈ tr := by
  induction run generalizing i input p with
  | start => obtain ⟨l, reads⟩ := fresh i; rw [reads] at here; cases here
  | @step tr s s' j e earlier one allowed ih =>
    have later {i : Id} {input : Input} {p : Prog Op Res Local (Except Fault Bool)}
        (here : s.threads i = .running input p) (same : progress i (tr ++ [(j, e)]) = progress i tr) :
        ∃ l calls, progress i (tr ++ [(j, e)]) = some (input, l, calls) ∧ (M.body input l).Path calls p ∧
          (i, .recv l input) ∈ tr ++ [(j, e)] ∧ ∀ c ∈ calls, ∃ l', (i, .call input l' c.1 c.2) ∈ tr ++ [(j, e)] := by
      obtain ⟨l, calls, now, path, received, called⟩ := ih here
      refine ⟨l, calls, same.trans now, path, List.mem_append_left _ received, fun c member => ?_⟩
      obtain ⟨l', inside⟩ := called c member
      exact ⟨l', List.mem_append_left _ inside⟩
    by_cases mine : j = i
    · subst mine
      cases one with
      | @recv l input' up reads =>
        simp only [Function.update_self, Thread.running.injEq] at here
        obtain ⟨rfl, rfl⟩ := here
        exact ⟨l, [], progress_recv _ _ _ _, .refl _, by simp, by simp⟩
      | @call input' l' op k r after choice up reads exec =>
        simp only [Function.update_self, Thread.running.injEq] at here
        obtain ⟨rfl, rfl⟩ := here
        obtain ⟨l, calls, now, path, received, called⟩ := ih reads
        refine ⟨l, calls ++ [⟨op, r⟩], by rw [progress_call, now]; rfl, path.snoc r,
          List.mem_append_left _ received, ?_⟩
        intro c member
        rcases List.mem_append.mp member with before | last
        · obtain ⟨l₁, inside⟩ := called c before
          exact ⟨l₁, List.mem_append_left _ inside⟩
        · rw [List.mem_singleton.mp last]
          exact ⟨l', by simp⟩
      | again up reads => simp at here
      | exit up reads => simp at here
      | abort up reads => exact later here (by simp [progress])
    · have others : s'.threads i = s.threads i := one.other mine
      exact later (others ▸ here) (progress_other mine tr e)

/-- The step is not one in which thread `i` reads an input. -/
def unread (i : Id) (_ : State Id Shared Local Input Fault Op Res) (j : Id) (e : Event Local Input Fault Op Res) :
    Prop :=
  j = i → ∀ l input, e ≠ .recv l input

variable {i : Id} {e : Event Local Input Fault Op Res} {input : Input} {l : Local} {op : Op}
  {k : Res op → Prog Op Res Local (Except Fault Bool)}

theorem Run.others (run : Run M ok start tr s) (apart : ∀ step ∈ tr, step.1 ≠ i) : s.threads i = start.threads i := by
  induction run with
  | start => rfl
  | @step tr₁ s₁ s₂ j d earlier one _ ih =>
    have same := ih fun step member => apart step (List.mem_append_left _ member)
    rw [one.other (apart (j, d) (by simp)), same]

/-- A thread that stands before a call can only take it. -/
theorem Step.called {s' : State Id Shared Local Input Fault Op Res} (one : Step M s i e s')
    (here : s.threads i = .running input (.call l op k)) :
    ∃ r, e = .call input l op r ∧ s'.threads i = .running input (k r) := by
  cases one with
  | @call input' l' op' k' r after choice up at_ exec =>
    rw [here] at at_
    cases at_
    exact ⟨r, rfl, Function.update_self ..⟩
  | recv up at_ => rw [here] at at_; cases at_
  | again up at_ => rw [here] at at_; cases at_
  | exit up at_ => rw [here] at at_; cases at_
  | abort up at_ => rw [here] at at_; cases at_

theorem Step.executes {r : Res op} {s' : State Id Shared Local Input Fault Op Res}
    (one : Step M s i (.call input l op r) s') : ∃ choice, M.exec i choice op s.shared = some (r, s'.shared) := by
  cases one with
  | call choice up here exec => exact ⟨choice, exec⟩

variable (M ok start s tr i input l op k) in
/-- A run from where a thread stands before a call: others move until it takes the call,
    and then the run goes on. -/
structure Calling where
  (before after : Trace Id Local Input Fault Op Res)
  r : Res op
  (asked answered : State Id Shared Local Input Fault Op Res)
  whole : tr = before ++ (i, .call input l op r) :: after
  apart : ∀ step ∈ before, step.1 ≠ i
  opens : Run M ok start before asked
  calls : Step M asked i (.call input l op r) answered
  allowed : ok asked i (.call input l op r)
  here : answered.threads i = .running input (k r)
  closes : Run M ok answered after s

/-- A thread that stands before a call and moves takes the call first. -/
theorem Run.calling (run : Run M ok start tr s) (here : start.threads i = .running input (.call l op k))
    (moves : (i, e) ∈ tr) : Nonempty (Calling M ok start s tr i input l op k) := by
  have own : (tr.find? fun step => step.1 = i).isSome := by
    rw [List.find?_isSome]
    exact ⟨(i, e), moves, by simp⟩
  obtain ⟨⟨j, d⟩, first⟩ := Option.isSome_iff_exists.mp own
  obtain ⟨mine, before, after, rfl, apart⟩ := List.find?_eq_some_iff_append.mp first
  obtain rfl : j = i := by simpa using mine
  have others : ∀ step ∈ before, step.1 ≠ j := by simpa using apart
  obtain ⟨asked, opens, rest⟩ := run.cut
  obtain ⟨answered, one, allowed, closes⟩ := rest.head
  obtain ⟨r, rfl, next⟩ := one.called (by rw [opens.others others, here])
  exact ⟨before, after, r, asked, answered, rfl, others, opens, one, allowed, next, closes⟩

theorem Calling.moves (C : Calling M ok start s tr i input l op k) (inside : (i, e) ∈ tr) :
    e = .call input l op C.r ∨ (i, e) ∈ C.after := by
  rw [C.whole] at inside
  rcases List.mem_append.mp inside with early | late
  · exact absurd rfl (C.apart _ early)
  · rcases List.mem_cons.mp late with now | later
    · exact .inl (congrArg Prod.snd now)
    · exact .inr later

/-- The calls that a thread has still to make before its next input are of the kind `P`,
    and it gets there with `Q`. -/
def Within (P : Local → Op → Prop) (Q : Except Fault Bool → Local → Prop) : Thread Local Input Fault Op Res → Prop
  | .running _ p => p.Calls P ∧ p.Ends Q
  | .reading l => ∃ r, Q r l
  | .exited l => ∃ r, Q r l

/-- A thread that reads no further input makes only the calls that its program has left. -/
theorem Run.stays {P : Local → Op → Prop} {Q : Except Fault Bool → Local → Prop}
    (run : Run M (unread i) start tr s) (within : Within P Q (start.threads i)) :
    (∀ input l op r, (i, .call input l op r) ∈ tr → P l op) ∧ Within P Q (s.threads i) := by
  induction run with
  | start => exact ⟨fun _ _ _ _ inside => absurd inside List.not_mem_nil, within⟩
  | @step tr₁ s₁ s₂ j d earlier one unread ih =>
    obtain ⟨past, now⟩ := ih
    have called : (∀ input l op r, (i, .call input l op r) = (j, d) → P l op) →
        ∀ input l op r, (i, .call input l op r) ∈ tr₁ ++ [(j, d)] → P l op := by
      intro last input l op r inside
      rcases List.mem_append.mp inside with before | here
      · exact past input l op r before
      · exact last input l op r (List.mem_singleton.mp here)
    by_cases mine : j = i
    · subst mine
      cases one with
      | @recv l input up here => exact absurd rfl (unread rfl l input)
      | @call input l op k r after choice up here exec =>
        rw [here] at now
        refine ⟨called ?_, ?_⟩
        · rintro _ _ _ _ ⟨⟩
          exact now.1.1
        · simp only [Function.update_self]
          exact ⟨now.1.2 r, now.2 r⟩
      | again up here =>
        rw [here] at now
        refine ⟨called (by rintro _ _ _ _ ⟨⟩), ?_⟩
        simp only [Function.update_self]
        exact ⟨_, now.2⟩
      | exit up here =>
        rw [here] at now
        refine ⟨called (by rintro _ _ _ _ ⟨⟩), ?_⟩
        simp only [Function.update_self]
        exact ⟨_, now.2⟩
      | abort up here => exact ⟨called (by rintro _ _ _ _ ⟨⟩), now⟩
    · refine ⟨called ?_, ?_⟩
      · rintro _ _ _ _ ⟨⟩
        exact absurd rfl mine
      · rw [one.other mine]
        exact now

/-- The calls of a thread that reads no further input are those of its program. -/
theorem Run.only {P : Local → Op → Prop} {p : Prog Op Res Local (Except Fault Bool)} (run : Run M (unread i) start tr s)
    (here : start.threads i = .running input p) (calls : p.Calls P) {input' : Input} {r : Res op}
    (inside : (i, .call input' l op r) ∈ tr) : P l op := by
  have within : Within P (fun _ _ => True) (start.threads i) := by
    rw [here]
    exact ⟨calls, Prog.ends_any p⟩
  exact (run.stays within).1 input' l op r inside

end Steps

/-! ### Disciplines -/

/-- Ghost states for threads: what holds of a thread between inputs (`rest`), after
    its loop (`gone`) and when an exception leaves it (`failed`); which operations it may
    call (`node`); and how reading an input (`take`) and calling an operation (`next`)
    move the ghost state. -/
structure Discipline (Ghost Local Input Fault Op : Type) (Res : Op → Type) where
  rest : Local → Ghost → Prop
  gone : Local → Ghost → Prop
  failed : Fault → Local → Ghost → Prop
  node : Input → Ghost → Local → Op → Prop
  take : Ghost → Local → Input → Ghost → Prop
  next : Input → Ghost → Local → (op : Op) → Res op → Ghost → Prop

namespace Discipline
variable (D : Discipline Ghost Local Input Fault Op Res)

/-- The program calls only what the discipline allows, whatever its calls return, and
    ends in `post`. -/
def Ensures (input : Input) (post : α → Local → Ghost → Prop) : Prog Op Res Local α → Ghost → Prop
  | .done a l, g => post a l g
  | .call l op k, g => D.node input g l op ∧ ∀ r g', D.next input g l op r g' → Ensures input post (k r) g'

/-- What the end of a loop body must establish. -/
def outcome (r : Except Fault Bool) (l : Local) (g : Ghost) : Prop :=
  match r with
  | .ok true => D.rest l g
  | .ok false => D.gone l g
  | .error f => D.failed f l g

/-- A thread follows the discipline from its ghost state on. -/
def Fits (t : Thread Local Input Fault Op Res) (g : Ghost) : Prop :=
  match t with
  | .reading l => D.rest l g
  | .running input p => D.Ensures input D.outcome p g
  | .exited l => D.gone l g

variable {D}

theorem ensures_mono {input : Input} {post post' : α → Local → Ghost → Prop} {p : Prog Op Res Local α} {g : Ghost}
    (ensures : D.Ensures input post p g) (weaker : ∀ a l g, post a l g → post' a l g) : D.Ensures input post' p g := by
  induction p generalizing g with
  | done a l => exact weaker a l g ensures
  | call l op k ih => exact ⟨ensures.1, fun r g' moves => ih r (ensures.2 r g' moves)⟩

/-- Sequencing. -/
theorem ensures_bind {input : Input} {mid : α → Local → Ghost → Prop} {post : β → Local → Ghost → Prop}
    {p : Prog Op Res Local α} {f : α → Local → Prog Op Res Local β} {g : Ghost} (first : D.Ensures input mid p g)
    (second : ∀ a l g, mid a l g → D.Ensures input post (f a l) g) : D.Ensures input post (p.bind f) g := by
  induction p generalizing g with
  | done a l => exact second a l g first
  | call l op k ih => exact ⟨first.1, fun r g' moves => ih r (first.2 r g' moves)⟩

/-- What a program ends with whatever happens, it ends with under the discipline. -/
theorem ensures_ends {input : Input} {post : α → Local → Ghost → Prop} {Q : α → Local → Prop}
    {p : Prog Op Res Local α} {g : Ghost} (ensures : D.Ensures input post p g) (ends : p.Ends Q) :
    D.Ensures input (fun a l g => post a l g ∧ Q a l) p g := by
  induction p generalizing g with
  | done a l => exact ⟨ensures, ends⟩
  | call l op k ih => exact ⟨ensures.1, fun r g' moves => ih r (ensures.2 r g' moves) (ends r)⟩

/-- What a discipline says of exceptions that leave a thread does not matter before the end. -/
theorem ensures_failing {input : Input} {post : α → Local → Ghost → Prop} {p : Prog Op Res Local α} {g : Ghost}
    (failed : Fault → Local → Ghost → Prop) (ensures : D.Ensures input post p g) :
    ({ D with failed := failed } : Discipline Ghost Local Input Fault Op Res).Ensures input post p g := by
  induction p generalizing g with
  | done a l => exact ensures
  | call l op k ih => exact ⟨ensures.1, fun r g' moves => ih r (ensures.2 r g' moves)⟩

/-- A program whose calls are all allowed in one ghost state, and leave it. -/
theorem ensures_calls {input : Input} {post : α → Local → Ghost → Prop} {P : Local → Op → Prop}
    {p : Prog Op Res Local α} {g : Ghost} (calls : p.Calls P)
    (stays : ∀ l op, P l op → D.node input g l op ∧ ∀ r g', D.next input g l op r g' → g' = g)
    (ends : ∀ a l, post a l g) : D.Ensures input post p g := by
  induction p with
  | done a l => exact ends a l
  | call l op k ih =>
    obtain ⟨allowed, same⟩ := stays l op calls.1
    refine ⟨allowed, ?_⟩
    intro r g' moves
    obtain rfl := same r g' moves
    exact ih r (calls.2 r) 

variable [DecidableEq Id] {M : Machine Id Shared Local Input Fault Choice Op Res}
  {ok : State Id Shared Local Input Fault Op Res → Id → Event Local Input Fault Op Res → Prop}
  {start s : State Id Shared Local Input Fault Op Res} {tr : Trace Id Local Input Fault Op Res}
  {J : (Id → Ghost) → Trace Id Local Input Fault Op Res → Shared → Prop}

/-- The rule for all interleavings whose traces are of a kind `F`, a kind that traces are
    of from their beginning on. When every loop body follows the discipline and every
    single read, operation and end of a body keeps the invariant `J` of all ghost states,
    the trace and the store, then `J` holds after every such run, with ghost states that
    every thread fits. -/
theorem sound_along {F : Trace Id Local Input Fault Op Res → Prop} (shorter : ∀ tr step, F (tr ++ [step]) → F tr)
    (body : ∀ input l g g', D.rest l g → D.take g l input g' → D.Ensures input D.outcome (M.body input l) g')
    (recv : ∀ gs tr s i l input, F (tr ++ [(i, .recv l input)]) → J gs tr s.shared → ok s i (.recv l input) →
      D.rest l (gs i) →
      ∃ g', D.take (gs i) l input g' ∧ J (Function.update gs i g') (tr ++ [(i, .recv l input)]) s.shared)
    (call : ∀ gs tr s i choice input l op r after, F (tr ++ [(i, .call input l op r)]) → J gs tr s.shared →
      ok s i (.call input l op r) → D.node input (gs i) l op → M.exec i choice op s.shared = some (r, after) →
      ∃ g', D.next input (gs i) l op r g' ∧ J (Function.update gs i g') (tr ++ [(i, .call input l op r)]) after)
    (finish : ∀ gs tr s i input l r, F (tr ++ [(i, .finish input l r)]) → J gs tr s.shared →
      ok s i (.finish input l r) → D.outcome r l (gs i) → J gs (tr ++ [(i, .finish input l r)]) s.shared)
    (initially : ∃ gs, J gs [] start.shared ∧ ∀ i, D.Fits (start.threads i) (gs i))
    (run : Run M ok start tr s) (along : F tr) : ∃ gs, J gs tr s.shared ∧ ∀ i, D.Fits (s.threads i) (gs i) := by
  induction run with
  | start => exact initially
  | @step tr s s' i e earlier one allowed ih =>
    obtain ⟨gs, inv, fits⟩ := ih (shorter tr _ along)
    have mine := fits i
    -- Only the ghost state of the thread that moves changes.
    have others {threads : Id → Thread Local Input Fault Op Res} {t : Thread Local Input Fault Op Res} {g : Ghost}
        (moved : D.Fits t g) (same : threads = s.threads) :
        ∀ j, D.Fits (Function.update threads i t j) (Function.update gs i g j) := by
      intro j
      by_cases here : j = i
      · subst here; simpa using moved
      · simpa [Function.update_of_ne here, same] using fits j
    cases one with
    | @recv l input up here =>
      rw [here] at mine
      obtain ⟨g', moves, inv'⟩ := recv gs tr s i l input along inv allowed mine
      exact ⟨_, inv', others (body input l _ _ mine moves) rfl⟩
    | @call input l op k r after choice up here exec =>
      rw [here] at mine
      obtain ⟨g', moves, inv'⟩ := call gs tr s i choice input l op r after along inv allowed mine.1 exec
      exact ⟨_, inv', others (mine.2 r g' moves) rfl⟩
    | @again input l up here =>
      rw [here] at mine
      refine ⟨gs, finish gs tr s i input l _ along inv allowed mine, ?_⟩
      have all := others (t := .reading l) (g := gs i) mine rfl
      simpa using all
    | @exit input l up here =>
      rw [here] at mine
      refine ⟨gs, finish gs tr s i input l _ along inv allowed mine, ?_⟩
      have all := others (t := .exited l) (g := gs i) mine rfl
      simpa using all
    | @abort input l f up here =>
      rw [here] at mine
      exact ⟨gs, finish gs tr s i input l _ along inv allowed mine, fits⟩

/-- The rule for all interleavings. When every loop body follows the discipline and
    every single read, operation and end of a body keeps the invariant `J` of all ghost
    states, the trace and the store, then `J` holds after every run, with ghost states that
    every thread fits. -/
theorem sound
    (body : ∀ input l g g', D.rest l g → D.take g l input g' → D.Ensures input D.outcome (M.body input l) g')
    (recv : ∀ gs tr s i l input, J gs tr s.shared → ok s i (.recv l input) → D.rest l (gs i) →
      ∃ g', D.take (gs i) l input g' ∧ J (Function.update gs i g') (tr ++ [(i, .recv l input)]) s.shared)
    (call : ∀ gs tr s i choice input l op r after, J gs tr s.shared → ok s i (.call input l op r) →
      D.node input (gs i) l op → M.exec i choice op s.shared = some (r, after) →
      ∃ g', D.next input (gs i) l op r g' ∧ J (Function.update gs i g') (tr ++ [(i, .call input l op r)]) after)
    (finish : ∀ gs tr s i input l r, J gs tr s.shared → ok s i (.finish input l r) → D.outcome r l (gs i) →
      J gs (tr ++ [(i, .finish input l r)]) s.shared)
    (initially : ∃ gs, J gs [] start.shared ∧ ∀ i, D.Fits (start.threads i) (gs i))
    (run : Run M ok start tr s) : ∃ gs, J gs tr s.shared ∧ ∀ i, D.Fits (s.threads i) (gs i) :=
  sound_along (F := fun _ => True) (fun _ _ => id) body (fun gs tr s i l input _ => recv gs tr s i l input)
    (fun gs tr s i choice input l op r after _ => call gs tr s i choice input l op r after)
    (fun gs tr s i input l r _ => finish gs tr s i input l r) initially run trivial

end Discipline
end Interleaving
