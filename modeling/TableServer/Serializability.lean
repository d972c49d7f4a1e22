import Mathlib.Data.List.Basic
import Mathlib.Logic.Function.Basic

/-!
Transactions over locations with keyed contents. A transaction is the list of its
accesses, each get with the value that it got; executing it alone checks these
values. A ledger orders the finished transactions of many threads, together with
the accesses that are still open, while no two threads hold the same location; its
operations keep the order executable, so that every ledger is serializable.
-/

namespace Serializability

variable {Id Loc Key Value : Type}

abbrev Contents (Loc Key Value : Type) := Loc → Key → Value

inductive Access (Loc Key Value : Type) where
  | get (loc : Loc) (key : Key) (value : Value)
  | set (loc : Loc) (key : Key) (value : Value)
  deriving DecidableEq

/-- The accesses of a transaction, and whether its sets are kept or discarded. -/
structure Transaction (Loc Key Value : Type) where
  accesses : List (Access Loc Key Value)
  kept : Bool
  deriving DecidableEq

def Access.loc : Access Loc Key Value → Loc
  | get loc _ _ => loc
  | set loc _ _ => loc

section
variable [DecidableEq Loc] [DecidableEq Key] [DecidableEq Value]

/-- A get must find its value. -/
def Access.perform (contents : Contents Loc Key Value) : Access Loc Key Value → Option (Contents Loc Key Value)
  | get loc key value => if contents loc key = value then some contents else none
  | set loc key value => some (Function.update contents loc (Function.update (contents loc) key value))

def performAll (contents : Contents Loc Key Value) :
    List (Access Loc Key Value) → Option (Contents Loc Key Value)
  | [] => some contents
  | a :: rest => (a.perform contents).bind fun contents => performAll contents rest

def Transaction.execute (contents : Contents Loc Key Value) (tx : Transaction Loc Key Value) :
    Option (Contents Loc Key Value) :=
  (performAll contents tx.accesses).map fun after => if tx.kept then after else contents

/-- Each transaction after the ones before it. -/
def serial (contents : Contents Loc Key Value) :
    List (Id × Transaction Loc Key Value) → Option (Contents Loc Key Value)
  | [] => some contents
  | (_, tx) :: rest => (tx.execute contents).bind fun contents => serial contents rest

variable {contents contents' after : Contents Loc Key Value}

private theorem performAll_snoc (accesses : List (Access Loc Key Value)) (a : Access Loc Key Value) :
    performAll contents (accesses ++ [a]) = (performAll contents accesses).bind a.perform := by
  induction accesses generalizing contents with
  | nil => simp [performAll]
  | cons b rest ih =>
    simp only [List.cons_append, performAll]
    cases b.perform contents with
    | none => rfl
    | some middle => exact ih

private theorem serial_snoc (order : List (Id × Transaction Loc Key Value)) (i : Id) (tx : Transaction Loc Key Value) :
    serial contents (order ++ [(i, tx)]) = (serial contents order).bind fun contents => tx.execute contents := by
  induction order generalizing contents with
  | nil => simp [serial, Transaction.execute]
  | cons head rest ih =>
    obtain ⟨j, first⟩ := head
    simp only [List.cons_append, serial]
    cases first.execute contents with
    | none => rfl
    | some middle => exact ih

/-- An access changes nothing at other locations. -/
theorem perform_outside {a : Access Loc Key Value} (run : a.perform contents = some after) {loc : Loc}
    (other : loc ≠ a.loc) : after loc = contents loc := by
  cases a with
  | get l key value =>
    rw [Access.perform] at run
    split at run
    · cases run; rfl
    · cases run
  | set l key value =>
    obtain rfl := Option.some.inj run
    exact Function.update_of_ne other _ _

private theorem performAll_outside {accesses : List (Access Loc Key Value)}
    (run : performAll contents accesses = some after)
    {loc : Loc} (other : ∀ a ∈ accesses, a.loc ≠ loc) : after loc = contents loc := by
  induction accesses generalizing contents with
  | nil => cases run; rfl
  | cons a rest ih =>
    obtain ⟨middle, first, later⟩ := Option.bind_eq_some_iff.mp run
    rw [ih later (fun b inside => other b (List.mem_cons_of_mem _ inside))]
    exact perform_outside first (Ne.symm (other a List.mem_cons_self))

/-- The contents with those of other contents at some locations. -/
def splice (at_ : Loc → Prop) [DecidablePred at_] (inside outside : Contents Loc Key Value) : Contents Loc Key Value :=
  fun loc => if at_ loc then inside loc else outside loc

/-- An access depends on nothing but its own location. -/
theorem perform_splice {at_ : Loc → Prop} [DecidablePred at_] {a : Access Loc Key Value}
    (run : a.perform contents = some after) (inside : at_ a.loc) :
    a.perform (splice at_ contents contents') = some (splice at_ after contents') := by
  cases a with
  | get l key value =>
    have here : at_ l := inside
    rw [Access.perform] at run ⊢
    split at run
    · rename_i found
      cases run
      rw [if_pos (by simpa [splice, here] using found)]
    · cases run
  | set l key value =>
    have here : at_ l := inside
    obtain rfl := Option.some.inj run
    rw [Access.perform, Option.some.injEq]
    funext loc
    by_cases same : loc = l
    · subst same
      simp [splice, here]
    · simp [splice, same]

private theorem performAll_splice {at_ : Loc → Prop} [DecidablePred at_] {accesses : List (Access Loc Key Value)}
    (run : performAll contents accesses = some after) (inside : ∀ a ∈ accesses, at_ a.loc) :
    performAll (splice at_ contents contents') accesses = some (splice at_ after contents') := by
  induction accesses generalizing contents with
  | nil => cases run; rfl
  | cons a rest ih =>
    obtain ⟨middle, first, later⟩ := Option.bind_eq_some_iff.mp run
    rw [performAll, perform_splice first (inside a List.mem_cons_self)]
    exact ih later (fun b member => inside b (List.mem_cons_of_mem _ member))

end

/-- The transactions of one thread, in their order. -/
def ofThread [DecidableEq Id] (i : Id) (order : List (Id × Transaction Loc Key Value)) :
    List (Transaction Loc Key Value) := (order.filter (·.1 = i)).map (·.2)

section
variable [DecidableEq Id]

theorem ofThread_self (i : Id) (order : List (Id × Transaction Loc Key Value)) (tx : Transaction Loc Key Value) :
    ofThread i (order ++ [(i, tx)]) = ofThread i order ++ [tx] := by
  simp [ofThread]

private theorem ofThread_other {i j : Id} (other : i ≠ j) (order : List (Id × Transaction Loc Key Value))
    (tx : Transaction Loc Key Value) : ofThread j (order ++ [(i, tx)]) = ofThread j order := by
  simp [ofThread, other]
end

variable [DecidableEq Loc] [DecidableEq Key] [DecidableEq Value]

/-- Which locations each thread holds, its open accesses, the order of the finished
    transactions and what it leaves, and what each thread sees after its open accesses. -/
structure Ledger (Id : Type) (start : Contents Loc Key Value) where
  holds : Id → Loc → Prop
  current : Id → List (Access Loc Key Value)
  order : List (Id × Transaction Loc Key Value)
  settled : Contents Loc Key Value
  view : Id → Contents Loc Key Value
  apart : ∀ i j loc, holds i loc → holds j loc → i = j
  inside : ∀ i, ∀ a ∈ current i, holds i a.loc
  settles : serial start order = some settled
  sees : ∀ i, performAll settled (current i) = some (view i)

namespace Ledger

variable {start : Contents Loc Key Value}

/-- Before anything has happened. -/
def initial (start : Contents Loc Key Value) : Ledger Id start where
  holds _ _ := False
  current _ := []
  order := []
  settled := start
  view _ := start
  apart _ _ _ held := held.elim
  inside _ a inside := by cases inside
  settles := rfl
  sees _ := rfl

variable (ledger : Ledger Id start)

/-- At the locations that a thread does not hold it sees what is settled. -/
theorem view_outside {i : Id} {loc : Loc} (free : ¬ ledger.holds i loc) : ledger.view i loc = ledger.settled loc := by
  apply performAll_outside (ledger.sees i)
  rintro a inside rfl
  exact free (ledger.inside i a inside)

theorem view_idle {i : Id} (idle : ledger.current i = []) : ledger.view i = ledger.settled := by
  have sees := ledger.sees i
  rw [idle] at sees
  exact (Option.some.inj sees).symm

/-- A thread that holds nothing has no open access. -/
theorem current_free {i : Id} (free : ∀ loc, ¬ ledger.holds i loc) : ledger.current i = [] := by
  rw [List.eq_nil_iff_forall_not_mem]
  intro a inside
  exact free a.loc (ledger.inside i a inside)

/-- Locking a location that is free. -/
def acquire (i : Id) (loc : Loc) (free : ∀ j, ¬ ledger.holds j loc) : Ledger Id start :=
  { ledger with
    holds := fun j l => ledger.holds j l ∨ (j = i ∧ l = loc)
    apart := by
      rintro j k l (first | ⟨rfl, rfl⟩) (second | ⟨rfl, same⟩)
      · exact ledger.apart j k l first second
      · exact absurd (same ▸ first) (free j)
      · exact absurd second (free k)
      · rfl
    inside := fun j a member => .inl (ledger.inside j a member) }

/-- Unlocking a location when the thread's transaction is over. -/
def release (i : Id) (loc : Loc) (idle : ledger.current i = []) : Ledger Id start :=
  { ledger with
    holds := fun j l => ledger.holds j l ∧ ¬ (j = i ∧ l = loc)
    apart := fun j k l first second => ledger.apart j k l first.1 second.1
    inside := by
      intro j a member
      refine ⟨ledger.inside j a member, ?_⟩
      rintro ⟨rfl, _⟩
      rw [idle] at member
      cases member }

/-- What is settled once thread `i` has finished its transaction. -/
def settledBy (i : Id) (kept : Bool) : Contents Loc Key Value := if kept then ledger.view i else ledger.settled

/-- Finishing a transaction changes nothing that another thread holds. -/
theorem settledBy_other {i : Id} (kept : Bool) {loc : Loc} (free : ¬ ledger.holds i loc) :
    ledger.settledBy i kept loc = ledger.settled loc := by
  unfold settledBy
  cases kept with
  | true => exact ledger.view_outside free
  | false => rfl

variable [DecidableEq Id]

/-- An access to a location that the thread holds. -/
def access (i : Id) (a : Access Loc Key Value) (held : ledger.holds i a.loc) (after : Contents Loc Key Value)
    (run : a.perform (ledger.view i) = some after) : Ledger Id start :=
  { ledger with
    current := Function.update ledger.current i (ledger.current i ++ [a])
    view := Function.update ledger.view i after
    inside := by
      intro j b inside
      by_cases mine : j = i
      · subst mine
        rw [Function.update_self] at inside
        rcases List.mem_append.mp inside with before | last
        · exact ledger.inside j b before
        · rw [List.mem_singleton.mp last]
          exact held
      · rw [Function.update_of_ne mine] at inside
        exact ledger.inside j b inside
    sees := by
      intro j
      by_cases mine : j = i
      · subst mine
        rw [Function.update_self, Function.update_self, performAll_snoc, ledger.sees j]
        exact run
      · rw [Function.update_of_ne mine, Function.update_of_ne mine]
        exact ledger.sees j }

open Classical in
/-- The thread's open accesses become the next transaction of the order. -/
noncomputable def finish (i : Id) (kept : Bool) : Ledger Id start where
  holds := ledger.holds
  current := Function.update ledger.current i []
  order := ledger.order ++ [(i, ⟨ledger.current i, kept⟩)]
  settled := ledger.settledBy i kept
  view j := if j = i then ledger.settledBy i kept else splice (ledger.holds j) (ledger.view j) (ledger.settledBy i kept)
  apart := ledger.apart
  inside := by
    intro j a inside
    by_cases mine : j = i
    · rw [mine, Function.update_self] at inside
      cases inside
    · rw [Function.update_of_ne mine] at inside
      exact ledger.inside j a inside
  settles := by
    rw [serial_snoc, ledger.settles, Option.bind_some, Transaction.execute, ledger.sees i]
    rfl
  sees := by
    intro j
    by_cases mine : j = i
    · rw [mine, Function.update_self, if_pos rfl]
      rfl
    · rw [Function.update_of_ne mine, if_neg mine]
      -- What `j` holds is as it was, since `i` does not hold it.
      have same : splice (ledger.holds j) ledger.settled (ledger.settledBy i kept) = ledger.settledBy i kept := by
        funext loc
        by_cases held : ledger.holds j loc
        · rw [splice, if_pos held, ledger.settledBy_other]
          exact fun other => mine (ledger.apart j i loc held other)
        · rw [splice, if_neg held]
      have kept_ : performAll (splice (ledger.holds j) ledger.settled (ledger.settledBy i kept))
        (ledger.current j) = _ :=
        performAll_splice (ledger.sees j) (ledger.inside j)
      rwa [same] at kept_

section
variable {i : Id} {a : Access Loc Key Value} {held : ledger.holds i a.loc} {after : Contents Loc Key Value}
  {run : a.perform (ledger.view i) = some after}

theorem access_current_self : (ledger.access i a held after run).current i = ledger.current i ++ [a] :=
  Function.update_self _ _ _

private theorem access_current_other {j : Id} (other : j ≠ i) :
    (ledger.access i a held after run).current j = ledger.current j := Function.update_of_ne other _ _

theorem access_view_self : (ledger.access i a held after run).view i = after := Function.update_self _ _ _

private theorem access_view_other {j : Id} (other : j ≠ i) :
    (ledger.access i a held after run).view j = ledger.view j :=
  Function.update_of_ne other _ _
end

section
variable {i : Id} {kept : Bool}

theorem finish_current_self : (ledger.finish i kept).current i = [] := Function.update_self _ _ _

private theorem finish_current_other {j : Id} (other : j ≠ i) : (ledger.finish i kept).current j = ledger.current j :=
  Function.update_of_ne other _ _

/-- What another thread sees where it holds locations stays. -/
theorem finish_view_other {j : Id} (other : j ≠ i) {loc : Loc} (held : ledger.holds j loc) :
    (ledger.finish i kept).view j loc = ledger.view j loc := by
  classical
  have spliced : (ledger.finish i kept).view j = splice (ledger.holds j) (ledger.view j) (ledger.settledBy i kept) :=
    if_neg other
  rw [spliced]
  exact if_pos held
end

/-- Thread `j` has done nothing and noticed nothing. -/
structure Unmoved (ledger ledger' : Ledger Id start) (j : Id) : Prop where
  order : ofThread j ledger'.order = ofThread j ledger.order
  current : ledger'.current j = ledger.current j
  holds : ∀ loc, ledger'.holds j loc ↔ ledger.holds j loc
  view : ∀ loc, ledger.holds j loc → ledger'.view j loc = ledger.view j loc
  settled : ∀ loc, ledger.holds j loc → ledger'.settled loc = ledger.settled loc

theorem unmoved_self (j : Id) : ledger.Unmoved ledger j :=
  ⟨rfl, rfl, fun _ => Iff.rfl, fun _ _ => rfl, fun _ _ => rfl⟩

variable {ledger} {i j : Id}

theorem unmoved_acquire (other : j ≠ i) {loc : Loc} {free : ∀ j, ¬ ledger.holds j loc} :
    ledger.Unmoved (ledger.acquire i loc free) j := by
  refine ⟨rfl, rfl, ?_, fun _ _ => rfl, fun _ _ => rfl⟩
  intro l
  constructor
  · rintro (held | ⟨same, _⟩)
    · exact held
    · exact absurd same other
  · exact .inl

theorem Unmoved.release {ledger' : Ledger Id start} (unmoved : ledger.Unmoved ledger' j) (other : j ≠ i) {loc : Loc}
    {idle : ledger'.current i = []} : ledger.Unmoved (ledger'.release i loc idle) j := by
  refine ⟨unmoved.order, unmoved.current, ?_, unmoved.view, unmoved.settled⟩
  intro l
  rw [← unmoved.holds l]
  constructor
  · exact fun held => held.1
  · exact fun held => ⟨held, fun same => other same.1⟩

theorem unmoved_access (other : j ≠ i) {a : Access Loc Key Value} {held : ledger.holds i a.loc}
    {after : Contents Loc Key Value} {run : a.perform (ledger.view i) = some after} :
    ledger.Unmoved (ledger.access i a held after run) j := by
  refine ⟨rfl, ledger.access_current_other other, fun _ => Iff.rfl, ?_, fun _ _ => rfl⟩
  intro loc _
  rw [ledger.access_view_other other]

theorem unmoved_finish (other : j ≠ i) (kept : Bool) : ledger.Unmoved (ledger.finish i kept) j := by
  refine ⟨ofThread_other (Ne.symm other) _ _, ledger.finish_current_other other, fun _ => Iff.rfl, ?_, ?_⟩
  · intro loc held
    exact ledger.finish_view_other other held
  · intro loc held
    apply ledger.settledBy_other
    intro mine
    exact other (ledger.apart j i loc held mine)

end Ledger
end Serializability
