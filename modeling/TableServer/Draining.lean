import TableServer.Interleaving

/-!
What becomes of the threads when no input arrives any more. Each of them can only go on
with the iteration it is in, and an iteration is a finite program, so that the threads
that have started one come to an end together, in whatever order they move.
-/

namespace Interleaving
open Resumption

variable {Id Shared Local Input Fault Choice Op : Type} {Res : Op → Type} [DecidableEq Id]
  {M : Machine Id Shared Local Input Fault Choice Op Res} {s s' : State Id Shared Local Input Fault Op Res} {i j : Id}
  {ids : List Id} {e : Event Local Input Fault Op Res}

/-- The thread is in an iteration. -/
def Busy : Thread Local Input Fault Op Res → Prop
  | .running _ _ => True
  | .reading _ | .exited _ => False

def isInput : Event Local Input Fault Op Res → Bool
  | .recv _ _ => true
  | _ => false

variable (M ids) in
/-- One of the threads goes on with its iteration. -/
def WorksAmong (s s' : State Id Shared Local Input Fault Op Res) : Prop :=
  ∃ i ∈ ids, ∃ e, Step M s i e s' ∧ isInput e = false

variable (M) in
/-- A thread goes on with its iteration. -/
def Works (s s' : State Id Shared Local Input Fault Op Res) : Prop := ∃ i e, Step M s i e s' ∧ isInput e = false

/-- A thread that goes on is in an iteration. -/
theorem Step.busy (one : Step M s i e s') (onward : isInput e = false) : Busy (s.threads i) := by
  cases one with
  | recv up here => cases onward
  | call _ up here => rw [here]; trivial
  | again up here => rw [here]; trivial
  | exit up here => rw [here]; trivial
  | abort up here => rw [here]; trivial

private theorem Step.up (one : Step M s i e s') : s.aborted = none := by
  cases one <;> assumption

/-- When the steps of one thread lead to states from which the threads come to an end, so do
    those of the others in between. -/
theorem acc_others (others : ∀ s, Acc (fun s₂ s₁ => WorksAmong M ids s₁ s₂) s) {t : Thread Local Input Fault Op Res}
    (own : ∀ s e s', s.threads i = t → Step M s i e s' → isInput e = false →
      Acc (fun s₂ s₁ => WorksAmong M (i :: ids) s₁ s₂) s') :
    ∀ s, s.threads i = t → Acc (fun s₂ s₁ => WorksAmong M (i :: ids) s₁ s₂) s := by
  intro s
  induction others s with
  | intro s _ ih =>
    intro here
    refine .intro s ?_
    rintro s' ⟨j, member, e, one, onward⟩
    by_cases mine : j = i
    · subst mine
      exact own s e s' here one onward
    · have inside : j ∈ ids := (List.mem_cons.mp member).resolve_left mine
      exact ih s' ⟨j, inside, e, one, onward⟩ ((one.other mine).trans here)

/-- Finitely many threads come to an end with their iterations. -/
theorem acc_among (ids : List Id) : ∀ s, Acc (fun s₂ s₁ => WorksAmong M ids s₁ s₂) s := by
  induction ids with
  | nil =>
    refine fun s => .intro s ?_
    rintro s' ⟨i, member, _⟩
    cases member
  | cons i ids others =>
    have resting : ∀ s, ¬ Busy (s.threads i) → Acc (fun s₂ s₁ => WorksAmong M (i :: ids) s₁ s₂) s := by
      intro s idle
      refine acc_others others (t := s.threads i) ?_ s rfl
      intro s₁ e s₂ here one onward
      rw [← here] at idle
      exact absurd (one.busy onward) idle
    have down : ∀ s, s.aborted ≠ none → Acc (fun s₂ s₁ => WorksAmong M (i :: ids) s₁ s₂) s := by
      refine fun s aborted => .intro s ?_
      rintro s' ⟨j, _, e, one, _⟩
      exact absurd one.up aborted
    intro s
    cases at_ : s.threads i with
    | reading l => exact resting s (by rw [at_]; exact id)
    | exited l => exact resting s (by rw [at_]; exact id)
    | running input p =>
      -- The thread only goes on to what is left of its program.
      induction p generalizing s with
      | done r l =>
        refine acc_others others ?_ s at_
        intro s₁ e s₂ here one onward
        cases one with
        | recv up at₁ => cases onward
        | call _ up at₁ => rw [here] at at₁; cases at₁
        | again up at₁ => exact resting _ (by simp [Busy])
        | exit up at₁ => exact resting _ (by simp [Busy])
        | abort up at₁ => exact down _ (by simp)
      | call l op k ih =>
        refine acc_others others ?_ s at_
        intro s₁ e s₂ here one onward
        obtain ⟨r, _, next⟩ := one.called here
        exact ih r s₂ next

/-- When finitely many threads are in an iteration, every run without further inputs ends. -/
theorem acc_works (few : ∀ i, i ∉ ids → ¬ Busy (s.threads i)) : Acc (fun s₂ s₁ => Works M s₁ s₂) s := by
  induction acc_among (M := M) ids s with
  | intro s _ ih =>
    refine .intro s ?_
    rintro s' ⟨i, e, one, onward⟩
    have inside : i ∈ ids := by
      by_contra outside
      exact few i outside (one.busy onward)
    refine ih s' ⟨i, inside, e, one, onward⟩ ?_
    intro j outside
    have other : i ≠ j := by
      rintro rfl
      exact outside inside
    rw [one.other other]
    exact few j outside

end Interleaving
