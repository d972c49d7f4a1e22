import TableServer.Exclusion
import TableServer.Serializability

/-!
The units in which connections read and write tables: transactions, committed or
rolled back, and single requests outside a transaction. Each connection holds its
tables until its unit is over, so the units of all connections keep a ledger, and
the tables always show what the ledger says.
-/

namespace TableServer.Transactions
open TableServer.Bytes TableServer.Messages TableServer.Stores TableServer.Connection TableServer.Server
open TableServer.Requests TableServer.Locking TableServer.Exclusion
open Resumption Interleaving Serializability

/-- The units of a connection, and its accesses after the last one. -/
structure Log where
  units : List (Transaction Addr Str Str)
  current : List (Access Addr Str Str)

namespace Log

def empty : Log := ⟨[], []⟩

def add (log : Log) (a : Access Addr Str Str) : Log := { log with current := log.current ++ [a] }

/-- The unit is over. -/
def close (log : Log) (kept : Bool) : Log := ⟨log.units ++ [⟨log.current, kept⟩], []⟩

end Log

/-- The line is the COMMIT of a transaction. -/
def commits (l : Local) (input : Input) : Bool :=
  l.logged_in && l.transaction_mode && (requestOf input).any (·.m_message_type = .COMMIT)

/-- A unit is over when the COMMIT of a transaction is handled, when a `trylock` has
    failed, so that the transaction is rolled back, and, outside a transaction, when a
    request has unlocked its table. -/
def Log.step (log : Log) : ServerEvent → Log
  | .recv l input => if commits l input then log.close true else log
  | .call _ _ (.get t key) (.ok value) => log.add (.get t key value)
  | .call _ _ (.set t key value) _ => log.add (.set t key value)
  | .call _ _ (.trylock _) false => log.close false
  | .call _ l (.unlock _) _ => if l.transaction_mode then log else log.close true
  | _ => log

def logOf (c : ConnId) (tr : ServerTrace) : Log :=
  tr.foldl (fun log step => if step.1 = c then log.step step.2 else log) .empty

/-- The units of a connection, in its order. -/
def units (c : ConnId) (tr : ServerTrace) : List (Transaction Addr Str Str) := (logOf c tr).units

private theorem logOf_self (c : ConnId) (tr : ServerTrace) (e : ServerEvent) :
    logOf c (tr ++ [(c, e)]) = (logOf c tr).step e := by
  simp [logOf]

private theorem logOf_other {c d : ConnId} (other : d ≠ c) (tr : ServerTrace) (e : ServerEvent) :
    logOf d (tr ++ [(c, e)]) = logOf d tr := by
  simp [logOf, Ne.symm other]

/-- What each table reads as; a table that does not exist reads as empty. -/
def contents (sh : Shared) : Contents Addr Str Str := fun t =>
  match sh.heap t with
  | some tb => tb.read
  | none => fun _ => []

/-- A table that its transaction has left and not yet finished. -/
def Unfinished (ending : Ending) (tb : Table) (settled : Str → Str) : Prop :=
  match ending with
  | .commit => tb.read = settled
  | .rollback => tb.committed = settled

/-- What a table that is locked shows in each phase of the worker that has locked it:
    `settled` is what the units that are over have left, `seen` what the worker has made
    of it. -/
def Standing (g : Phase) (t : Addr) (tb : Table) (settled seen : Str → Str) : Prop :=
  match g with
  | .holding _ => tb.committed = settled ∧ tb.read = seen
  | .locked _ _ => tb.committed = settled ∧ tb.read = seen
  | .accessed _ => tb.committed = settled ∧ tb.read = seen
  | .committed _ => tb.committed = seen ∧ tb.read = seen
  | .releasing ending _ _ => Unfinished ending tb settled
  | .finished ending u _ => if t = u then tb.committed = settled ∧ tb.read = settled else Unfinished ending tb settled

/-- The phases in which a worker has accessed nothing since its last unit. -/
def unopened : Phase → Bool
  | .locked _ _ => true
  | .releasing _ _ _ => true
  | .finished _ _ _ => true
  | _ => false

variable {start : Contents Addr Str Str} {ledger : Ledger ConnId start} {gs : ConnId → Phase} {tr : ServerTrace}
  {sh sh' : Shared} {c : ConnId} {g' : Phase} {e : ServerEvent} {t : Addr} {tb : Table}

/-- The ledger tells what the trace, the phases and the tables show. -/
structure Backed (ledger : Ledger ConnId start) (gs : ConnId → Phase) (tr : ServerTrace) (sh : Shared) : Prop where
  log : ∀ c, logOf c tr = ⟨ofThread c ledger.order, ledger.current c⟩
  holds : ∀ c t, ledger.holds c t ↔ t ∈ (gs c).tables
  idle : ∀ c, unopened (gs c) = true → ledger.current c = []
  held : ∀ c, ∀ t ∈ (gs c).tables, ∀ tb, sh.heap t = some tb →
    Standing (gs c) t tb (ledger.settled t) (ledger.view c t)
  free : ∀ t, (∀ c, t ∉ (gs c).tables) → ∀ tb, sh.heap t = some tb →
    tb.committed = ledger.settled t ∧ tb.read = ledger.settled t
  absent : ∀ t, sh.heap t = none → ledger.settled t = fun _ => []

theorem backed_opened (quiescent : Quiescent sh) :
    Backed (Ledger.initial (contents sh)) (fun _ => .holding []) [] sh where
  log _ := rfl
  holds c t := by simp [Ledger.initial]
  idle c opened := by cases opened
  held c t inside := by cases inside
  free t _ tb here := by
    have shows : (Ledger.initial (contents sh) : Ledger ConnId _).settled t = tb.read := by
      simp [Ledger.initial, contents, here]
    rw [shows, Table.read_of_clean (quiescent.clean t tb here)]
    exact ⟨rfl, rfl⟩
  absent t none_ := by simp [Ledger.initial, contents, none_]

/-- At a table that a worker has not locked it sees what is settled. -/
theorem Backed.view_free (backed : Backed ledger gs tr sh) (free : t ∉ (gs c).tables) :
    ledger.view c t = ledger.settled t := by
  apply ledger.view_outside
  rw [backed.holds]
  exact free

/-- A step of one worker. -/
theorem Backed.move (backed : Backed ledger gs tr sh) (ledger' : Ledger ConnId start)
    (log : (logOf c tr).step e = ⟨ofThread c ledger'.order, ledger'.current c⟩)
    (others : ∀ d, d ≠ c → ledger.Unmoved ledger' d) (holds : ∀ u, ledger'.holds c u ↔ u ∈ g'.tables)
    (idle : unopened g' = true → ledger'.current c = [])
    (elsewhere : ∀ d, d ≠ c → ∀ u ∈ (gs d).tables, sh'.heap u = sh.heap u)
    (held : ∀ u ∈ g'.tables, ∀ tb, sh'.heap u = some tb → Standing g' u tb (ledger'.settled u) (ledger'.view c u))
    (free : ∀ u, u ∉ g'.tables → (∀ d, d ≠ c → u ∉ (gs d).tables) → ∀ tb, sh'.heap u = some tb →
      tb.committed = ledger'.settled u ∧ tb.read = ledger'.settled u)
    (absent : ∀ u, sh'.heap u = none → ledger'.settled u = fun _ => []) :
    Backed ledger' (Function.update gs c g') (tr ++ [(c, e)]) sh' := by
  refine ⟨?_, ?_, ?_, ?_, ?_, absent⟩
  · intro d
    by_cases mine : d = c
    · subst mine
      rw [logOf_self, log]
    · rw [logOf_other mine, backed.log d, (others d mine).order, (others d mine).current]
  · refine (Function.forall_update_iff gs fun d g => ∀ u, ledger'.holds d u ↔ u ∈ g.tables).mpr ⟨holds, ?_⟩
    intro d mine u
    rw [(others d mine).holds]
    exact backed.holds d u
  · refine (Function.forall_update_iff gs fun d g => unopened g = true → ledger'.current d = []).mpr ⟨idle, ?_⟩
    intro d mine opened
    rw [(others d mine).current]
    exact backed.idle d opened
  · refine (Function.forall_update_iff gs fun d g => ∀ u ∈ g.tables, ∀ tb, sh'.heap u = some tb →
      Standing g u tb (ledger'.settled u) (ledger'.view d u)).mpr ⟨held, ?_⟩
    intro d mine u inside tb here
    rw [elsewhere d mine u inside] at here
    have holding := (backed.holds d u).mpr inside
    rw [(others d mine).view u holding, (others d mine).settled u holding]
    exact backed.held d u inside tb here
  · intro u none_ tb here
    refine free u ?_ ?_ tb here
    · have out := none_ c
      rwa [Function.update_self] at out
    · intro d mine
      have out := none_ d
      rwa [Function.update_of_ne mine] at out

/-- A step that changes nothing. -/
theorem Backed.still (backed : Backed ledger gs tr sh) (same : sh'.heap = sh.heap)
    (log : (logOf c tr).step e = logOf c tr) :
    Backed ledger (Function.update gs c (gs c)) (tr ++ [(c, e)]) sh' := by
  refine backed.move ledger (by rw [log]; exact backed.log c) (fun d _ => ledger.unmoved_self d) (backed.holds c)
    (backed.idle c) ?_ ?_ ?_ ?_
  · intro d _ u _
    rw [same]
  · intro u inside tb here
    rw [same] at here
    exact backed.held c u inside tb here
  · intro u out alone tb here
    rw [same] at here
    refine backed.free u ?_ tb here
    intro d
    by_cases mine : d = c
    · rw [mine]
      exact out
    · exact alone d mine
  · intro u none_
    rw [same] at none_
    exact backed.absent u none_

/-- A step on one table, which no other worker has locked. -/
theorem Backed.touch (locks : Locks gs tr sh) (backed : Backed ledger gs tr sh) (ledger' : Ledger ConnId start)
    (log : (logOf c tr).step e = ⟨ofThread c ledger'.order, ledger'.current c⟩)
    (others : ∀ d, d ≠ c → ledger.Unmoved ledger' d) (holds : ∀ u, ledger'.holds c u ↔ u ∈ g'.tables)
    (idle : unopened g' = true → ledger'.current c = []) (elsewhere : ∀ u, u ≠ t → sh'.heap u = sh.heap u)
    (alone : ∀ d, d ≠ c → t ∉ (gs d).tables) (here : sh'.heap t = some tb)
    (tables : ∀ u, u ≠ t → u ∈ (gs c).tables → u ∈ g'.tables)
    (outside : ∀ u, u ∉ (gs c).tables → ledger'.settled u = ledger.settled u)
    (rest : ∀ u, u ≠ t → u ∈ g'.tables → ∀ tb, sh.heap u = some tb →
      Standing g' u tb (ledger'.settled u) (ledger'.view c u))
    (mine : t ∈ g'.tables → Standing g' t tb (ledger'.settled t) (ledger'.view c t))
    (left : t ∉ g'.tables → tb.committed = ledger'.settled t ∧ tb.read = ledger'.settled t) :
    Backed ledger' (Function.update gs c g') (tr ++ [(c, e)]) sh' := by
  refine backed.move ledger' log others holds idle ?_ ?_ ?_ ?_
  · intro d other u inside
    apply elsewhere
    rintro rfl
    exact alone d other inside
  · intro u inside tb' here'
    by_cases same : u = t
    · subst same
      rw [here] at here'
      obtain rfl := Option.some.inj here'
      exact mine inside
    · rw [elsewhere u same] at here'
      exact rest u same inside tb' here'
  · intro u out nobody tb' here'
    by_cases same : u = t
    · subst same
      rw [here] at here'
      obtain rfl := Option.some.inj here'
      exact left out
    · rw [elsewhere u same] at here'
      have before : u ∉ (gs c).tables := fun inside => out (tables u same inside)
      rw [outside u before]
      refine backed.free u ?_ tb' here'
      intro d
      by_cases isC : d = c
      · rw [isC]
        exact before
      · exact nobody d isC
  · intro u none_
    have same : u ≠ t := by
      rintro rfl
      rw [here] at none_
      cases none_
    rw [elsewhere u same] at none_
    rw [outside u (locks.unknown none_ c)]
    exact backed.absent u none_

end TableServer.Transactions
