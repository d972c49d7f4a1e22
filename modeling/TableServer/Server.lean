import TableServer.Connection
import TableServer.Interleaving

/-!
The server: the table map, the tables on the heap, and how the operations of a
worker are executed on them. Each critical section of `find_table` and
`create_table`, each mutex operation and each access to a table is one step.
-/

namespace TableServer.Server
open TableServer.Bytes TableServer.Messages TableServer.Stores TableServer.Connection
open Interleaving

/-- What the workers share. Tables are never deleted. -/
structure Shared where
  server_tables : StdMap Addr
  heap : Addr → Option Table

/-- The heap with the table at `t` replaced. -/
def Shared.put (sh : Shared) (t : Addr) (tb : Table) : Shared :=
  { sh with heap := Function.update sh.heap t (some tb) }

/-- `new Table(name)` at a fresh address, entered in the map under its name whatever
    is there. -/
def Shared.create (sh : Shared) (name : Str) (fresh : Addr) : Shared :=
  { server_tables := sh.server_tables.insert name fresh
    heap := Function.update sh.heap fresh (some (Table.create name)) }

/-- Worker `c` executes an operation; `fresh` is where an allocation goes. A worker
    whose mutex is locked, by whomever, waits. -/
def exec (c : ConnId) (fresh : Addr) : (op : Op) → Shared → Option (Res op × Shared)
  | .find_table name, sh => some (sh.server_tables[name]?, sh)
  | .create_table name, sh => if (sh.heap fresh).isNone then some ((), sh.create name fresh) else none
  | .lock t, sh => (sh.heap t).bind fun tb =>
    if tb.m_mutex.isNone then some ((), sh.put t { tb with m_mutex := some c }) else none
  | .trylock t, sh => (sh.heap t).map fun tb =>
    if tb.m_mutex.isNone then (true, sh.put t { tb with m_mutex := some c }) else (false, sh)
  | .unlock t, sh => (sh.heap t).map fun tb => ((), sh.put t { tb with m_mutex := none })
  | .get t key, sh => (sh.heap t).map fun tb =>
    match tb.get key with
    | .ok (value, tb) => (.ok value, sh.put t tb)
    | .error e => (.error e, sh)
  | .set t key value, sh => (sh.heap t).map fun tb => ((), sh.put t (tb.set key value))
  | .commit_changes t, sh => (sh.heap t).map fun tb => ((), sh.put t tb.commit_changes)
  | .rollback_changes t, sh => (sh.heap t).map fun tb => ((), sh.put t tb.rollback_changes)
  | .write _, sh => some ((), sh)

def server : Machine ConnId Shared Local Input Fault Addr Op Res := ⟨exec, chat_with_client⟩

abbrev ServerState := State ConnId Shared Local Input Fault Op Res
abbrev ServerEvent := Event Local Input Fault Op Res
abbrev ServerTrace := Trace ConnId Local Input Fault Op Res

/-- The server with the given store and every connection just constructed; `memory`
    is what the constructor finds in `logged_in`. A connection that no client has opened
    yet is one that has not moved. -/
def opened (sh : Shared) (memory : ConnId → Bool) : ServerState :=
  ⟨sh, fun c => .reading (Local.create (memory c)), none⟩

/-- The store of a server that has just been started. -/
def Shared.initial : Shared := ⟨∅, fun _ => none⟩

def booted (memory : ConnId → Bool) : ServerState := opened .initial memory

/-- A store that nobody is using: tables at known addresses, every mutex free, nothing
    pending. -/
structure Quiescent (sh : Shared) : Prop where
  known : ∀ (name : Str) (t : Addr), sh.server_tables[name]? = some t → ∃ tb, sh.heap t = some tb
  free : ∀ t tb, sh.heap t = some tb → tb.m_mutex = none
  clean : ∀ t tb, sh.heap t = some tb → tb.tempMap = ∅

theorem initial_quiescent : Quiescent .initial where
  known name t found := by simp [Shared.initial] at found
  free t tb found := by cases found
  clean t tb found := by cases found

theorem opened_fresh (sh : Shared) (memory : ConnId → Bool) (c : ConnId) :
    ∃ l, (opened sh memory).threads c = .reading l := ⟨_, rfl⟩

@[simp] theorem put_self (sh : Shared) (t : Addr) (tb : Table) : (sh.put t tb).heap t = some tb := by
  simp [Shared.put]

theorem put_other (sh : Shared) {t u : Addr} (other : u ≠ t) (tb : Table) : (sh.put t tb).heap u = sh.heap u := by
  simp [Shared.put, other]

/-- Who has locked the mutex of a table. -/
def holder (sh : Shared) (t : Addr) : Option ConnId := (sh.heap t).bind Table.m_mutex

/-- The members of a worker, at the point where it is. -/
def members : Thread Local Input Fault Op Res → Local
  | .reading l => l
  | .running _ (.done _ l) => l
  | .running _ (.call l _ _) => l
  | .exited l => l

/-- The operation that a worker is about to execute or waits to execute. -/
def nextOp : Thread Local Input Fault Op Res → Option Op
  | .running _ (.call _ op _) => some op
  | _ => none

/-- How the iteration of a worker has ended, when it is at its end. -/
def endOf : Thread Local Input Fault Op Res → Option (Except Fault Bool × Local)
  | .running _ (.done r l) => some (r, l)
  | _ => none

/-- The table whose mutex a worker is waiting for in `lock`. -/
def waitingFor (thread : Thread Local Input Fault Op Res) : Option Addr :=
  match nextOp thread with
  | some (.lock t) => some t
  | _ => none

/-- Worker `c` reads a line and takes `n` steps; `fresh` is where a new table goes. -/
def turn (c : ConnId) (line : String) (n : Nat) (fresh : Addr) : List (ConnId × Action Input Addr) :=
  (c, .recv (rio_readlineb (lit line))) :: List.replicate n (c, .advance fresh)

theorem holder_eq {sh : Shared} {t : Addr} {c : ConnId} :
    holder sh t = some c ↔ ∃ tb, sh.heap t = some tb ∧ tb.m_mutex = some c := Option.bind_eq_some_iff

theorem nextOp_eq {thread : Thread Local Input Fault Op Res} {op : Op} (next : nextOp thread = some op) :
    ∃ input l k, thread = .running input (.call l op k) := by
  unfold nextOp at next
  split at next
  · cases next; exact ⟨_, _, _, rfl⟩
  · cases next

theorem endOf_eq {thread : Thread Local Input Fault Op Res} {r : Except Fault Bool} {l : Local}
    (at_ : endOf thread = some (r, l)) : ∃ input, thread = .running input (.done r l) := by
  unfold endOf at at_
  split at at_
  · cases at_; exact ⟨_, rfl⟩
  · cases at_

theorem waitingFor_eq {thread : Thread Local Input Fault Op Res} {t : Addr} :
    waitingFor thread = some t ↔ nextOp thread = some (.lock t) := by
  unfold waitingFor
  constructor
  · intro waits
    split at waits
    · rename_i next; rw [next]; cases waits; rfl
    · cases waits
  · intro next
    rw [next]

section
variable {c : ConnId} {fresh t : Addr} {key value name : Str} {sh sh' : Shared}

theorem exec_find {r : Option Addr} (run : exec c fresh (.find_table name) sh = some (r, sh')) :
    r = sh.server_tables[name]? ∧ sh' = sh := by
  cases run; exact ⟨rfl, rfl⟩

theorem exec_create (run : exec c fresh (.create_table name) sh = some ((), sh')) :
    sh.heap fresh = none ∧ sh' = sh.create name fresh := by
  simp only [exec] at run
  split at run
  · rename_i free; cases run; exact ⟨by simpa using free, rfl⟩
  · cases run

theorem exec_lock (run : exec c fresh (.lock t) sh = some ((), sh')) :
    ∃ tb, sh.heap t = some tb ∧ tb.m_mutex = none ∧ sh' = sh.put t { tb with m_mutex := some c } := by
  obtain ⟨tb, here, taken⟩ := Option.bind_eq_some_iff.mp run
  split at taken
  · rename_i free; cases taken; exact ⟨tb, here, by simpa using free, rfl⟩
  · cases taken

theorem exec_trylock {r : Bool} (run : exec c fresh (.trylock t) sh = some (r, sh')) :
    ∃ tb, sh.heap t = some tb ∧
      ((r = true ∧ tb.m_mutex = none ∧ sh' = sh.put t { tb with m_mutex := some c }) ∨
        (r = false ∧ tb.m_mutex ≠ none ∧ sh' = sh)) := by
  obtain ⟨tb, here, taken⟩ := Option.map_eq_some_iff.mp run
  split at taken
  · rename_i free; cases taken; exact ⟨tb, here, .inl ⟨rfl, by simpa using free, rfl⟩⟩
  · rename_i busy; cases taken; exact ⟨tb, here, .inr ⟨rfl, by simpa using busy, rfl⟩⟩

theorem exec_unlock (run : exec c fresh (.unlock t) sh = some ((), sh')) :
    ∃ tb, sh.heap t = some tb ∧ sh' = sh.put t { tb with m_mutex := none } := by
  obtain ⟨tb, here, taken⟩ := Option.map_eq_some_iff.mp run
  cases taken; exact ⟨tb, here, rfl⟩

theorem exec_get {r : Except Exn Str} (run : exec c fresh (.get t key) sh = some (r, sh')) :
    ∃ tb, sh.heap t = some tb ∧ r = .ok (tb.read key) ∧ sh' = sh.put t (tb.touch key) := by
  obtain ⟨tb, here, taken⟩ := Option.map_eq_some_iff.mp run
  rw [Table.get_eq] at taken
  cases taken; exact ⟨tb, here, rfl, rfl⟩

theorem exec_set (run : exec c fresh (.set t key value) sh = some ((), sh')) :
    ∃ tb, sh.heap t = some tb ∧ sh' = sh.put t (tb.set key value) := by
  obtain ⟨tb, here, taken⟩ := Option.map_eq_some_iff.mp run
  cases taken; exact ⟨tb, here, rfl⟩

theorem exec_commit (run : exec c fresh (.commit_changes t) sh = some ((), sh')) :
    ∃ tb, sh.heap t = some tb ∧ sh' = sh.put t tb.commit_changes := by
  obtain ⟨tb, here, taken⟩ := Option.map_eq_some_iff.mp run
  cases taken; exact ⟨tb, here, rfl⟩

theorem exec_rollback (run : exec c fresh (.rollback_changes t) sh = some ((), sh')) :
    ∃ tb, sh.heap t = some tb ∧ sh' = sh.put t tb.rollback_changes := by
  obtain ⟨tb, here, taken⟩ := Option.map_eq_some_iff.mp run
  cases taken; exact ⟨tb, here, rfl⟩

theorem exec_write {line : Str} (run : exec c fresh (.write line) sh = some ((), sh')) : sh' = sh := by
  cases run; rfl

/-- Only `create_table` changes the table map. -/
theorem exec_tables {op : Op} {r : Res op} (run : exec c fresh op sh = some (r, sh'))
    (other : ∀ n, op ≠ .create_table n) : sh'.server_tables = sh.server_tables := by
  cases op with
  | find_table name => rw [(exec_find run).2]
  | create_table name => exact absurd rfl (other name)
  | lock t => obtain ⟨tb, _, _, rfl⟩ := exec_lock run; rfl
  | trylock t =>
    obtain ⟨tb, _, ⟨_, _, rfl⟩ | ⟨_, _, rfl⟩⟩ := exec_trylock run
    · rfl
    · rfl
  | unlock t => obtain ⟨tb, _, rfl⟩ := exec_unlock run; rfl
  | get t key => obtain ⟨tb, _, _, rfl⟩ := exec_get run; rfl
  | set t key value => obtain ⟨tb, _, rfl⟩ := exec_set run; rfl
  | commit_changes t => obtain ⟨tb, _, rfl⟩ := exec_commit run; rfl
  | rollback_changes t => obtain ⟨tb, _, rfl⟩ := exec_rollback run; rfl
  | write line => rw [exec_write run]

theorem create_other {u : Addr} (other : u ≠ fresh) : (sh.create name fresh).heap u = sh.heap u := by
  simp [Shared.create, other]

theorem Quiescent.create (quiescent : Quiescent sh) (unused : sh.heap fresh = none) :
    Quiescent (sh.create name fresh) := by
  have made : (sh.create name fresh).heap fresh = some (Table.create name) := by simp [Shared.create]
  have tables : ∀ t tb, (sh.create name fresh).heap t = some tb → tb = Table.create name ∨ sh.heap t = some tb := by
    intro t tb here
    by_cases same : t = fresh
    · rw [same, made] at here
      exact .inl (Option.some.inj here).symm
    · rw [create_other same] at here
      exact .inr here
  constructor
  · intro n t found
    have entry : (sh.server_tables.insert name fresh)[n]? = some t := found
    rw [getElem?_insert] at entry
    split at entry
    · cases entry
      exact ⟨_, made⟩
    · obtain ⟨tb, here⟩ := quiescent.known n t entry
      refine ⟨tb, ?_⟩
      rw [create_other]
      · exact here
      · rintro rfl
        rw [unused] at here
        cases here
  · intro t tb here
    rcases tables t tb here with rfl | before
    · rfl
    · exact quiescent.free t tb before
  · intro t tb here
    rcases tables t tb here with rfl | before
    · rfl
    · exact quiescent.clean t tb before

theorem Quiescent.put {tb : Table} (quiescent : Quiescent sh) (free : tb.m_mutex = none) (clean : tb.tempMap = ∅) :
    Quiescent (sh.put t tb) := by
  have tables : ∀ u tb', (sh.put t tb).heap u = some tb' → tb' = tb ∨ sh.heap u = some tb' := by
    intro u tb' here
    by_cases same : u = t
    · rw [same, put_self] at here
      exact .inl (Option.some.inj here).symm
    · rw [put_other sh same] at here
      exact .inr here
  constructor
  · intro n u found
    obtain ⟨tb', here⟩ := quiescent.known n u found
    by_cases same : u = t
    · exact ⟨tb, by rw [same, put_self]⟩
    · exact ⟨tb', by rw [put_other sh same]; exact here⟩
  · intro u tb' here
    rcases tables u tb' here with rfl | before
    · exact free
    · exact quiescent.free u tb' before
  · intro u tb' here
    rcases tables u tb' here with rfl | before
    · exact clean
    · exact quiescent.clean u tb' before

theorem holder_put (sh : Shared) (u t : Addr) (tb : Table) :
    holder (sh.put u tb) t = if t = u then tb.m_mutex else holder sh t := by
  by_cases same : t = u
  · subst same
    simp [holder]
  · rw [if_neg same, holder, holder, put_other sh same]

/-- A connection holds a mutex that it held before or that it has just locked. -/
theorem exec_holder {d : ConnId} {op : Op} {r : Res op} (run : exec d fresh op sh = some (r, sh'))
    (held : holder sh' t = some c) :
    (holder sh t = some c ∧ op ≠ .unlock t) ∨ (d = c ∧ (op = .lock t ∨ op = .trylock t)) := by
  -- An operation on a table that leaves its mutex alone.
  have kept : ∀ (u : Addr) (tb tb' : Table), sh.heap u = some tb → tb'.m_mutex = tb.m_mutex → sh' = sh.put u tb' →
      holder sh t = some c := by
    intro u tb tb' here mutex after
    rw [after, holder_put] at held
    by_cases same : t = u
    · subst same
      rw [if_pos rfl, mutex] at held
      exact holder_eq.mpr ⟨tb, here, held⟩
    · rwa [if_neg same] at held
  have locked : ∀ (u : Addr) (tb : Table), sh' = sh.put u { tb with m_mutex := some d } →
      holder sh t = some c ∨ (d = c ∧ u = t) := by
    intro u tb after
    rw [after, holder_put] at held
    by_cases same : t = u
    · rw [if_pos same] at held
      exact .inr ⟨Option.some.inj held, same.symm⟩
    · rw [if_neg same] at held
      exact .inl held
  cases op with
  | find_table name => rw [(exec_find run).2] at held; exact .inl ⟨held, by simp⟩
  | create_table name =>
    obtain ⟨free, rfl⟩ := exec_create run
    refine .inl ⟨?_, by simp⟩
    obtain ⟨tb, here, byC⟩ := holder_eq.mp held
    by_cases same : t = fresh
    · subst same
      obtain rfl : Table.create name = tb := by simpa [Shared.create] using here
      cases byC
    · rw [create_other same] at here
      exact holder_eq.mpr ⟨tb, here, byC⟩
  | lock u =>
    obtain ⟨tb, _, _, after⟩ := exec_lock run
    rcases locked u tb after with before | ⟨rfl, rfl⟩
    · exact .inl ⟨before, by simp⟩
    · exact .inr ⟨rfl, .inl rfl⟩
  | trylock u =>
    obtain ⟨tb, _, ⟨_, _, after⟩ | ⟨_, _, rfl⟩⟩ := exec_trylock run
    · rcases locked u tb after with before | ⟨rfl, rfl⟩
      · exact .inl ⟨before, by simp⟩
      · exact .inr ⟨rfl, .inr rfl⟩
    · exact .inl ⟨held, by simp⟩
  | unlock u =>
    obtain ⟨tb, _, rfl⟩ := exec_unlock run
    rw [holder_put] at held
    by_cases same : t = u
    · rw [if_pos same] at held
      cases held
    · rw [if_neg same] at held
      exact .inl ⟨held, by simpa using Ne.symm same⟩
  | get u key =>
    obtain ⟨tb, here, _, after⟩ := exec_get run
    exact .inl ⟨kept u tb _ here (Table.touch_mutex tb key) after, by simp⟩
  | set u key value =>
    obtain ⟨tb, here, after⟩ := exec_set run
    exact .inl ⟨kept u tb _ here (Table.set_mutex tb key value) after, by simp⟩
  | commit_changes u =>
    obtain ⟨tb, here, after⟩ := exec_commit run
    exact .inl ⟨kept u tb _ here (Table.commit_mutex tb) after, by simp⟩
  | rollback_changes u =>
    obtain ⟨tb, here, after⟩ := exec_rollback run
    exact .inl ⟨kept u tb _ here (Table.rollback_mutex tb) after, by simp⟩
  | write line => rw [exec_write run] at held; exact .inl ⟨held, by simp⟩

end

end TableServer.Server
