import TableServer.Interleaving

/-!
A thread that runs while no other thread moves: the calls of one loop body in
order, and the inputs of a session one after another. Both are read off the runs
in which only that thread moves, and every session is such a run.
-/

namespace Interleaving
open Resumption

variable {Id Shared Local Input Fault Choice Op : Type} {Res : Op → Type} {α : Type}

section
variable (M : Machine Id Shared Local Input Fault Choice Op Res) (i : Id)

/-- Calls that thread `i` executes in a row: from a program and a store to what is left
    of the program and the store after them. -/
inductive Alone : Prog Op Res Local α → Shared → List (Call Op Res) → Prog Op Res Local α → Shared → Prop
  | refl (p : Prog Op Res Local α) (sh : Shared) : Alone p sh [] p sh
  | step {l : Local} {op : Op} {k : Res op → Prog Op Res Local α} {r : Res op} {sh sh' sh'' : Shared}
      {calls : List (Call Op Res)} {q : Prog Op Res Local α} (choice : Choice)
      (exec : M.exec i choice op sh = some (r, sh')) (rest : Alone (k r) sh' calls q sh'') :
      Alone (.call l op k) sh (⟨op, r⟩ :: calls) q sh''

/-- The inputs that thread `i` handles in a row, each to the end of its loop body, and the
    calls on the way. -/
inductive Session : List Input → Local → Shared → List (Call Op Res) → Local → Shared → Prop
  | nil (l : Local) (sh : Shared) : Session [] l sh [] l sh
  | snoc {inputs : List Input} {input : Input} {l l' l'' : Local} {sh sh' sh'' : Shared}
      {calls more : List (Call Op Res)} (before : Session inputs l sh calls l' sh')
      (one : Alone M i (M.body input l') sh' more (.done (.ok true) l'') sh'') :
      Session (inputs ++ [input]) l sh (calls ++ more) l'' sh''
end

variable {M : Machine Id Shared Local Input Fault Choice Op Res} {i : Id}

theorem alone_done {a : α} {l : Local} {sh sh' : Shared} {calls : List (Call Op Res)} {q : Prog Op Res Local α} :
    Alone M i (.done a l) sh calls q sh' ↔ calls = [] ∧ q = .done a l ∧ sh' = sh := by
  constructor
  · intro alone
    cases alone
    exact ⟨rfl, rfl, rfl⟩
  · rintro ⟨rfl, rfl, rfl⟩
    exact .refl _ _

/-- A program that gets to its end begins with its first call. -/
theorem alone_call {l l' : Local} {op : Op} {k : Res op → Prog Op Res Local α} {a : α} {sh sh' : Shared}
    {calls : List (Call Op Res)} (alone : Alone M i (.call l op k) sh calls (.done a l') sh') :
    ∃ choice r sh₁ rest, M.exec i choice op sh = some (r, sh₁) ∧ calls = ⟨op, r⟩ :: rest ∧
      Alone M i (k r) sh₁ rest (.done a l') sh' := by
  cases alone with
  | step choice exec rest => exact ⟨choice, _, _, _, exec, rfl, rest⟩

private theorem Alone.snoc {p : Prog Op Res Local α} {l : Local} {op : Op} {k : Res op → Prog Op Res Local α}
    {r : Res op} {sh sh' sh'' : Shared} {calls : List (Call Op Res)} (alone : Alone M i p sh calls (.call l op k) sh')
    (choice : Choice) (exec : M.exec i choice op sh' = some (r, sh'')) :
    Alone M i p sh (calls ++ [⟨op, r⟩]) (k r) sh'' := by
  generalize stopped : Prog.call l op k = q at alone
  induction alone with
  | refl p sh =>
    subst stopped
    exact .step choice exec (.refl _ _)
  | step first exec' rest ih => exact .step first exec' (ih exec stopped)

/-- Operations of the kind `P` leave nothing open. -/
def Determined (M : Machine Id Shared Local Input Fault Choice Op Res) (i : Id) (P : Local → Op → Prop) : Prop :=
  ∀ l op sh choice choice' x y, P l op → M.exec i choice op sh = some x → M.exec i choice' op sh = some y → x = y

private theorem Alone.unique {P : Local → Op → Prop} (determined : Determined M i P) {p : Prog Op Res Local α}
    {a a' : α} {l l' : Local} {sh sh₁ sh₂ : Shared} {calls calls' : List (Call Op Res)} (kind : p.Calls P)
    (one : Alone M i p sh calls (.done a l) sh₁) (two : Alone M i p sh calls' (.done a' l') sh₂) :
    calls = calls' ∧ a = a' ∧ l = l' ∧ sh₁ = sh₂ := by
  induction p generalizing sh calls calls' with
  | done b m =>
    obtain ⟨rfl, same, rfl⟩ := alone_done.mp one
    obtain ⟨rfl, same', rfl⟩ := alone_done.mp two
    cases same
    cases same'
    exact ⟨rfl, rfl, rfl, rfl⟩
  | call m op k ih =>
    obtain ⟨_, r, after, rest, exec, rfl, later⟩ := alone_call one
    obtain ⟨_, r', after', rest', exec', rfl, later'⟩ := alone_call two
    cases determined m op sh _ _ _ _ kind.1 exec exec'
    obtain ⟨rfl, rfl, rfl, rfl⟩ := ih r (kind.2 r) later later'
    exact ⟨rfl, rfl, rfl, rfl⟩

theorem Session.append {inputs more : List Input} {l l' l'' : Local} {sh sh' sh'' : Shared}
    {calls later : List (Call Op Res)} (one : Session M i inputs l sh calls l' sh')
    (two : Session M i more l' sh' later l'' sh'') : Session M i (inputs ++ more) l sh (calls ++ later) l'' sh'' := by
  induction two with
  | nil l' sh' =>
    rw [List.append_nil, List.append_nil]
    exact one
  | snoc before last ih =>
    rw [← List.append_assoc, ← List.append_assoc]
    exact (ih one).snoc last

theorem session_one {input : Input} {l l' : Local} {sh sh' : Shared} {calls : List (Call Op Res)}
    (alone : Alone M i (M.body input l) sh calls (.done (.ok true) l') sh') : Session M i [input] l sh calls l' sh' :=
  Session.snoc (.nil l sh) alone

/-- What a session comes to is decided by its inputs. -/
theorem Session.unique {P : Local → Op → Prop} (determined : Determined M i P) {inputs : List Input}
    (kind : ∀ input ∈ inputs, ∀ l, (M.body input l).Calls P) {l l₁ l₂ : Local} {sh sh₁ sh₂ : Shared}
    {calls calls' : List (Call Op Res)} (one : Session M i inputs l sh calls l₁ sh₁)
    (two : Session M i inputs l sh calls' l₂ sh₂) : calls = calls' ∧ l₁ = l₂ ∧ sh₁ = sh₂ := by
  induction one generalizing calls' l₂ sh₂ with
  | nil l sh =>
    generalize none_ : ([] : List Input) = inputs at two
    cases two with
    | nil => exact ⟨rfl, rfl, rfl⟩
    | snoc => simp at none_
  | @snoc inputs input l l' l'' sh sh' sh'' calls more before one ih =>
    generalize whole : inputs ++ [input] = all at two
    cases two with
    | nil => simp at whole
    | @snoc inputs' input' _ m' _ _ after' _ calls' more' before' two =>
      obtain ⟨rfl, last⟩ := List.append_inj' whole rfl
      cases last
      obtain ⟨rfl, rfl, rfl⟩ := ih (fun d member => kind d (by simp [member])) before'
      obtain ⟨rfl, _, rfl, rfl⟩ := one.unique determined (kind input (by simp) _) two
      exact ⟨rfl, rfl, rfl⟩

/-- The inputs that a run reads, when only one thread moves. -/
def received (tr : Trace Id Local Input Fault Op Res) : List Input := tr.filterMap fun step =>
  match step.2 with
  | .recv _ input => some input
  | _ => none

def called (tr : Trace Id Local Input Fault Op Res) : List (Call Op Res) := tr.filterMap fun step =>
  match step.2 with
  | .call _ _ op r => some ⟨op, r⟩
  | _ => none

/-- Only thread `i` moves. -/
def only (i : Id) (_ : State Id Shared Local Input Fault Op Res) (j : Id) (_ : Event Local Input Fault Op Res) : Prop :=
  j = i

variable [DecidableEq Id] {start s : State Id Shared Local Input Fault Op Res} {tr : Trace Id Local Input Fault Op Res}
  {l : Local}

/-- How far a session has come that began in the local state `l` and the store `sh`. -/
def Reached (M : Machine Id Shared Local Input Fault Choice Op Res) (i : Id) (l : Local) (sh : Shared)
    (tr : Trace Id Local Input Fault Op Res) (after : Shared) : Thread Local Input Fault Op Res → Prop
  | .reading l' => Session M i (received tr) l sh (called tr) l' after
  | .running input p => ∃ inputs calls more l' sh', received tr = inputs ++ [input] ∧ called tr = calls ++ more ∧
      Session M i inputs l sh calls l' sh' ∧ Alone M i (M.body input l') sh' more p after
  | .exited _ => True

private theorem run_reached (run : Run M (only i) start tr s) (here : start.threads i = .reading l) :
    Reached M i l start.shared tr s.shared (s.threads i) := by
  induction run with
  | start =>
    rw [here]
    exact .nil _ _
  | @step tr s s' j e earlier one mine ih =>
    obtain rfl : j = i := mine
    cases one with
    | @recv m input up reads =>
      rw [reads] at ih
      simp only [Function.update_self]
      exact ⟨received tr, called tr, [], m, s.shared, by simp [received], by simp [called], ih, .refl _ _⟩
    | @call input m op k r after choice up reads exec =>
      rw [reads] at ih
      obtain ⟨inputs, calls, more, m', sh', got, made, session, alone⟩ := ih
      simp only [Function.update_self]
      refine ⟨inputs, calls, more ++ [⟨op, r⟩], m', sh', ?_, ?_, session, alone.snoc choice exec⟩
      · rw [← got]
        simp [received]
      · rw [← List.append_assoc, ← made]
        simp [called]
    | @again input m up reads =>
      rw [reads] at ih
      obtain ⟨inputs, calls, more, m', sh', got, made, session, alone⟩ := ih
      have got' : received (tr ++ [(j, .finish input m (.ok true))]) = inputs ++ [input] := by
        rw [← got]
        simp [received]
      have made' : called (tr ++ [(j, .finish input m (.ok true))]) = calls ++ more := by
        rw [← made]
        simp [called]
      simp only [Function.update_self, Reached]
      rw [got', made']
      exact session.snoc alone
    | exit up reads =>
      simp only [Function.update_self]
      trivial
    | @abort input m f up reads =>
      rw [reads] at ih ⊢
      obtain ⟨inputs, calls, more, m', sh', got, made, session, alone⟩ := ih
      refine ⟨inputs, calls, more, m', sh', ?_, ?_, session, alone⟩
      · rw [← got]
        simp [received]
      · rw [← made]
        simp [called]

/-- A thread that has moved alone and reads again has had a session. -/
theorem session_of_run (run : Run M (only i) start tr s) (here : start.threads i = .reading l) {l' : Local}
    (back : s.threads i = .reading l') : Session M i (received tr) l start.shared (called tr) l' s.shared := by
  have reached := run_reached run here
  rwa [back] at reached

private theorem run_of_alone {input : Input} {p q : Prog Op Res Local (Except Fault Bool)} {calls : List (Call Op Res)}
    {sh sh' : Shared} (alone : Alone M i p sh calls q sh') (run : Run M (only i) start tr s) (up : s.aborted = none)
    (store : s.shared = sh) (here : s.threads i = .running input p) :
    ∃ tr' s', Run M (only i) start tr' s' ∧ received tr' = received tr ∧ called tr' = called tr ++ calls ∧
      s'.threads i = .running input q ∧ s'.shared = sh' ∧ s'.aborted = none := by
  induction alone generalizing tr s with
  | refl p sh => exact ⟨tr, s, run, rfl, by simp, here, store, up⟩
  | @step m op k r sh sh₁ sh₂ calls q choice exec rest ih =>
    subst store
    obtain ⟨tr', s', run', got, made, there⟩ := ih (run.step (.call choice up here exec) rfl) up rfl
      (Function.update_self ..)
    refine ⟨tr', s', run', ?_, ?_, there⟩
    · rw [got]
      simp [received]
    · rw [made]
      simp [called]

/-- Every session is a run of its thread alone. -/
theorem run_of_session {inputs : List Input} {sh : Shared} {calls : List (Call Op Res)} {l' : Local} {sh' : Shared}
    (session : Session M i inputs l sh calls l' sh') (up : start.aborted = none) (store : start.shared = sh)
    (here : start.threads i = .reading l) :
    ∃ tr s, Run M (only i) start tr s ∧ received tr = inputs ∧ called tr = calls ∧ s.threads i = .reading l' ∧
      s.shared = sh' ∧ s.aborted = none := by
  induction session with
  | nil l sh => exact ⟨[], start, .start, rfl, rfl, here, store, up⟩
  | @snoc inputs input l l₁ l₂ sh sh₁ sh₂ calls more before one ih =>
    obtain ⟨tr, s, run, got, made, reads, store', up'⟩ := ih store here
    have read : Step M s i (.recv l₁ input) _ := .recv up' reads
    obtain ⟨tr', s', run', got', made', there, store'', up''⟩ :=
      run_of_alone one (run.step read rfl) up' store' (Function.update_self ..)
    refine ⟨_, _, run'.step (.again up'' there) rfl, ?_, ?_, Function.update_self .., store'', up''⟩
    · rw [received, List.filterMap_append, ← received, got', ← got]
      simp [received]
    · rw [called, List.filterMap_append, ← called, made', ← made]
      simp [called]

end Interleaving
