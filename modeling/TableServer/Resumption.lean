import Mathlib.Tactic.Common

/-!
Programs that compute on a local state and call operations of their environment.
A call shows the local state it is made in, so that a program stopped between two
calls can be looked at. Handlers are such programs with exceptions, in the order
of C++: the local state survives a throw.
-/

namespace Resumption

variable {Op : Type} {Res : Op → Type} {Local Fault α β : Type}

inductive Prog (Op : Type) (Res : Op → Type) (Local α : Type) : Type where
  | done (a : α) (l : Local)
  | call (l : Local) (op : Op) (k : Res op → Prog Op Res Local α)

/-- A call that has returned. -/
abbrev Call (Op : Type) (Res : Op → Type) : Type := (op : Op) × Res op

namespace Prog

def bind : Prog Op Res Local α → (α → Local → Prog Op Res Local β) → Prog Op Res Local β
  | done a l, f => f a l
  | call l op k, f => call l op (fun r => (k r).bind f)

@[simp] theorem bind_done (a : α) (l : Local) (f : α → Local → Prog Op Res Local β) :
    (done a l : Prog Op Res Local α).bind f = f a l := rfl

@[simp] theorem bind_call (l : Local) (op : Op) (k : Res op → Prog Op Res Local α)
    (f : α → Local → Prog Op Res Local β) : (call l op k).bind f = call l op (fun r => (k r).bind f) := rfl

theorem bind_assoc {γ : Type} (p : Prog Op Res Local α) (f : α → Local → Prog Op Res Local β)
    (g : β → Local → Prog Op Res Local γ) : (p.bind f).bind g = p.bind (fun a l => (f a l).bind g) := by
  induction p with
  | done a l => rfl
  | call l op k ih => simp only [bind_call, ih]

/-- The program that is left of another one after some calls. -/
inductive Path : Prog Op Res Local α → List (Call Op Res) → Prog Op Res Local α → Prop
  | refl (p : Prog Op Res Local α) : Path p [] p
  | step {l : Local} {op : Op} {k : Res op → Prog Op Res Local α} {r : Res op} {calls : List (Call Op Res)}
      {q : Prog Op Res Local α} : Path (k r) calls q → Path (call l op k) (⟨op, r⟩ :: calls) q

theorem Path.snoc {p : Prog Op Res Local α} {calls : List (Call Op Res)} {l : Local} {op : Op}
    {k : Res op → Prog Op Res Local α} (path : Path p calls (call l op k)) (r : Res op) :
    Path p (calls ++ [⟨op, r⟩]) (k r) := by
  generalize stopped : call l op k = q at path
  induction path with
  | refl p => subst stopped; exact .step (.refl _)
  | step _ ih => exact .step (ih stopped)

/-- Every call of the program is of the kind `P`. -/
def Calls (P : Local → Op → Prop) : Prog Op Res Local α → Prop
  | done _ _ => True
  | call l op k => P l op ∧ ∀ r, Calls P (k r)

@[simp] theorem calls_done {P : Local → Op → Prop} (a : α) (l : Local) :
    Calls P (done a l : Prog Op Res Local α) := trivial

theorem calls_bind {P : Local → Op → Prop} {p : Prog Op Res Local α} {f : α → Local → Prog Op Res Local β}
    (first : Calls P p) (second : ∀ a l, Calls P (f a l)) : Calls P (p.bind f) := by
  induction p with
  | done a l => exact second a l
  | call l op k ih => exact ⟨first.1, fun r => ih r (first.2 r)⟩

theorem calls_mono {P Q : Local → Op → Prop} {p : Prog Op Res Local α} (calls : Calls P p)
    (weaker : ∀ l op, P l op → Q l op) : Calls Q p := by
  induction p with
  | done a l => trivial
  | call l op k ih => exact ⟨weaker l op calls.1, fun r => ih r (calls.2 r)⟩

theorem calls_and {P Q : Local → Op → Prop} {p : Prog Op Res Local α} (both : Calls (fun l op => P l op ∧ Q l op) p) :
    Calls P p ∧ Calls Q p :=
  ⟨calls_mono both fun _ _ => And.left, calls_mono both fun _ _ => And.right⟩

/-- Every end of the program, whatever its calls return, is of the kind `Q`. -/
def Ends (Q : α → Local → Prop) : Prog Op Res Local α → Prop
  | done a l => Q a l
  | call _ _ k => ∀ r, Ends Q (k r)

theorem ends_any (p : Prog Op Res Local α) : Ends (fun _ _ => True) p := by
  induction p with
  | done a l => trivial
  | call l op k ih => exact ih

theorem ends_bind {Q : α → Local → Prop} {R : β → Local → Prop} {p : Prog Op Res Local α}
    {f : α → Local → Prog Op Res Local β} (first : Ends Q p) (second : ∀ a l, Q a l → Ends R (f a l)) :
    Ends R (p.bind f) := by
  induction p with
  | done a l => exact second a l first
  | call l op k ih => exact fun r => ih r (first r)

/-- What is left of a program ends as the program does. -/
theorem Path.ends {Q : α → Local → Prop} {p q : Prog Op Res Local α} {calls : List (Call Op Res)}
    (path : Path p calls q) (ends : Ends Q p) : Ends Q q := by
  induction path with
  | refl p => exact ends
  | @step l op k r calls q _ ih => exact ih (ends r)

/-- Two programs that make the same calls, in local states that `E` relates, and whose
    ends `Q` relates. -/
inductive Alike (E : Local → Local → Prop) (Q : α → Local → α → Local → Prop) :
    Prog Op Res Local α → Prog Op Res Local α → Prop
  | done {a a' : α} {l l' : Local} (ends : Q a l a' l') : Alike E Q (done a l) (done a' l')
  | call {l l' : Local} {op : Op} {k k' : Res op → Prog Op Res Local α} (here : E l l')
      (then_ : ∀ r, Alike E Q (k r) (k' r)) : Alike E Q (call l op k) (call l' op k')

variable {E : Local → Local → Prop}

theorem alike_bind {Q : α → Local → α → Local → Prop} {R : β → Local → β → Local → Prop} {p p' : Prog Op Res Local α}
    {f f' : α → Local → Prog Op Res Local β} (first : Alike E Q p p')
    (second : ∀ a l a' l', Q a l a' l' → Alike E R (f a l) (f' a' l')) : Alike E R (p.bind f) (p'.bind f') := by
  induction first with
  | done ends => exact second _ _ _ _ ends
  | call here _ ih => exact .call here ih

theorem alike_refl {Q : α → Local → α → Local → Prop} (same : ∀ l, E l l) (ends : ∀ a l, Q a l a l)
    (p : Prog Op Res Local α) : Alike E Q p p := by
  induction p with
  | done a l => exact .done (ends a l)
  | call l op k ih => exact .call (same l) ih

/-- Whatever the calls of one return, the other makes the same ones. -/
theorem Alike.path {Q : α → Local → α → Local → Prop} {p p' q : Prog Op Res Local α} {calls : List (Call Op Res)}
    (alike : Alike E Q p p') (path : Path p calls q) : ∃ q', Path p' calls q' ∧ Alike E Q q q' := by
  induction path generalizing p' with
  | refl p => exact ⟨p', .refl _, alike⟩
  | step _ ih =>
    cases alike with
    | call here then_ =>
      obtain ⟨q', path', later⟩ := ih (then_ _)
      exact ⟨q', .step path', later⟩

end Prog

def Handler (Op : Type) (Res : Op → Type) (Local Fault α : Type) : Type := Local → Prog Op Res Local (Except Fault α)

namespace Handler

/-- What follows a handler that has returned; an exception passes by. -/
def andThen (f : α → Handler Op Res Local Fault β) (r : Except Fault α) (l : Local) :
    Prog Op Res Local (Except Fault β) :=
  match r with
  | .ok a => f a l
  | .error e => .done (.error e) l

/-- A `catch` clause: it runs on an exception and its own exceptions leave it. -/
def orElse (f : Fault → Handler Op Res Local Fault α) (r : Except Fault α) (l : Local) :
    Prog Op Res Local (Except Fault α) :=
  match r with
  | .ok a => .done (.ok a) l
  | .error e => f e l

instance : Monad (Handler Op Res Local Fault) where
  pure a := fun l => .done (.ok a) l
  bind h f := fun l => (h l).bind (andThen f)

instance : MonadExceptOf Fault (Handler Op Res Local Fault) where
  throw e := fun l => .done (.error e) l
  tryCatch h f := fun l => (h l).bind (orElse f)

def look : Handler Op Res Local Fault Local := fun l => .done (.ok l) l

def update (f : Local → Local) : Handler Op Res Local Fault Unit := fun l => .done (.ok ()) (f l)

/-- Call an operation and return its result. -/
def perform (op : Op) : Handler Op Res Local Fault (Res op) := fun l => .call l op (fun r => .done (.ok r) l)

def ofExcept (r : Except Fault α) : Handler Op Res Local Fault α := fun l => .done r l

@[simp] theorem andThen_ok (f : α → Handler Op Res Local Fault β) (a : α) (l : Local) :
    andThen f (.ok a) l = f a l := rfl

@[simp] theorem andThen_error (f : α → Handler Op Res Local Fault β) (e : Fault) (l : Local) :
    andThen f (.error e) l = .done (.error e) l := rfl

@[simp] theorem orElse_error (f : Fault → Handler Op Res Local Fault α) (e : Fault) (l : Local) :
    orElse f (.error e) l = f e l := rfl

@[simp] theorem pure_run (a : α) (l : Local) : (pure a : Handler Op Res Local Fault α) l = .done (.ok a) l := rfl

@[simp] theorem bind_run (h : Handler Op Res Local Fault α) (f : α → Handler Op Res Local Fault β) (l : Local) :
    (h >>= f) l = (h l).bind (andThen f) := rfl

@[simp] theorem throw_run (e : Fault) (l : Local) :
    (throw e : Handler Op Res Local Fault α) l = .done (.error e) l := rfl

@[simp] theorem tryCatch_run (h : Handler Op Res Local Fault α) (f : Fault → Handler Op Res Local Fault α)
    (l : Local) : (tryCatch h f) l = (h l).bind (orElse f) := rfl

@[simp] theorem look_run (l : Local) : (look : Handler Op Res Local Fault Local) l = .done (.ok l) l := rfl

@[simp] theorem update_run (f : Local → Local) (l : Local) :
    (update f : Handler Op Res Local Fault Unit) l = .done (.ok ()) (f l) := rfl

@[simp] theorem perform_run (op : Op) (l : Local) :
    (perform op : Handler Op Res Local Fault (Res op)) l = .call l op (fun r => .done (.ok r) l) := rfl

@[simp] theorem ofExcept_run (r : Except Fault α) (l : Local) :
    (ofExcept r : Handler Op Res Local Fault α) l = .done r l := rfl

end Handler
end Resumption
