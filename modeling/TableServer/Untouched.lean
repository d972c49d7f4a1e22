import TableServer.Validity
import TableServer.LockSafety

/-!
A transaction that is rolled back and the committed data. Its steps leave the
committed map of every table alone as long as each key that it reads is there. A key
that is not there is entered in the committed map, and no rollback takes it out again.
-/

namespace TableServer.Untouched
open TableServer.Bytes TableServer.Messages TableServer.Stores TableServer.Connection TableServer.Server
open TableServer.Requests TableServer.Locking TableServer.Exclusion TableServer.LockSafety
open TableServer.Values TableServer.Validity
open Resumption Interleaving

variable {memory : ConnId → Bool} {start s s' : ServerState} {tr : ServerTrace} {c d : ConnId} {e : ServerEvent}
  {sh sh' : Shared} {t u : Addr} {tb : Table} {m : StdMap Str} {fresh : Addr} {op : Op} {r : Res op}

/-- The committed map of a table. -/
def theMapOf (sh : Shared) (t : Addr) : Option (StdMap Str) := (sh.heap t).map Table.theMap

/-- Every table of the first store has the same committed map in the second one. -/
def SameMaps (sh sh' : Shared) : Prop := ∀ t m, theMapOf sh t = some m → theMapOf sh' t = some m

private theorem sameMaps_refl (sh : Shared) : SameMaps sh sh := fun _ _ => id

private theorem theMapOf_put (sh : Shared) (u t : Addr) (tb : Table) :
    theMapOf (sh.put u tb) t = if t = u then some tb.theMap else theMapOf sh t := by
  by_cases same : t = u
  · rw [if_pos same, same, theMapOf, put_self]
    rfl
  · rw [if_neg same, theMapOf, theMapOf, put_other sh same]

private theorem sameMaps_put {tb' : Table} (here : sh.heap u = some tb) :
    SameMaps sh (sh.put u tb') ↔ tb'.theMap = tb.theMap := by
  have before : theMapOf sh u = some tb.theMap := by rw [theMapOf, here]; rfl
  constructor
  · intro same
    have after := same u _ before
    rw [theMapOf_put, if_pos rfl] at after
    exact Option.some.inj after
  · intro kept t m at_
    rw [theMapOf_put]
    by_cases other : t = u
    · rw [other, before] at at_
      rw [if_pos other, kept]
      exact at_
    · rw [if_neg other]
      exact at_

/-- Reading a key changes the committed map exactly when neither map has it. -/
theorem touch_theMap (tb : Table) (k : Str) : (tb.touch k).theMap = tb.theMap ↔ tb.has_key k = true := by
  rw [has_key_iff]
  by_cases absent : tb.tempMap[k]? = none ∧ tb.theMap[k]? = none
  · have entered : (tb.touch k).theMap = tb.theMap.insert k [] := by rw [Table.touch, if_pos absent]
    constructor
    · intro same
      have there : (tb.touch k).theMap[k]? = some [] := by rw [entered, getElem?_insert, if_pos rfl]
      rw [same, absent.2] at there
      cases there
    · intro present
      exact absurd absent present
  · have kept : tb.touch k = tb := if_neg absent
    rw [kept]
    exact ⟨fun _ => absent, fun _ => rfl⟩

/-- Among the operations that commit nothing, only the read of an absent key changes a
    committed map. -/
theorem exec_maps (uncommitted : ∀ t, op ≠ .commit_changes t) (run : exec c fresh op sh = some (r, sh')) :
    SameMaps sh sh' ↔ keyed sh op = true := by
  have kept : ∀ {u tb tb'}, sh.heap u = some tb → sh' = sh.put u tb' → tb'.theMap = tb.theMap → SameMaps sh sh' := by
    rintro u tb tb' here rfl same
    exact (sameMaps_put here).mpr same
  have always : SameMaps sh sh' → keyed sh op = true → (SameMaps sh sh' ↔ keyed sh op = true) := fun same found =>
    ⟨fun _ => found, fun _ => same⟩
  cases op with
  | find_table name => exact always (by rw [(exec_find run).2]; exact sameMaps_refl sh) rfl
  | create_table name =>
    obtain ⟨free, rfl⟩ := exec_create run
    refine always ?_ rfl
    intro t m at_
    have other : t ≠ fresh := by
      rintro rfl
      rw [theMapOf, free] at at_
      cases at_
    rw [theMapOf, create_other other]
    exact at_
  | lock u =>
    obtain ⟨tb, here, _, after⟩ := exec_lock run
    exact always (kept here after rfl) rfl
  | trylock u =>
    obtain ⟨tb, here, ⟨_, _, after⟩ | ⟨_, _, after⟩⟩ := exec_trylock run
    · exact always (kept here after rfl) rfl
    · exact always (by rw [after]; exact sameMaps_refl sh) rfl
  | unlock u =>
    obtain ⟨tb, here, after⟩ := exec_unlock run
    exact always (kept here after rfl) rfl
  | get u key =>
    obtain ⟨tb, here, _, rfl⟩ := exec_get run
    rw [sameMaps_put here, touch_theMap, keyed, here]
    rfl
  | set u key value =>
    obtain ⟨tb, here, after⟩ := exec_set run
    exact always (kept here after rfl) rfl
  | commit_changes u => exact absurd rfl (uncommitted u)
  | rollback_changes u =>
    obtain ⟨tb, here, after⟩ := exec_rollback run
    exact always (kept here after rfl) rfl
  | write line => exact always (by rw [exec_write run]; exact sameMaps_refl sh) rfl

/-- The step is not one of `c` that commits. -/
def uncommitted (c : ConnId) (_ : ServerState) (d : ConnId) (e : ServerEvent) : Prop :=
  d = c → ∀ input l t, e ≠ .call input l (.commit_changes t) ()

/-- The step is not one of `c` that unlocks the table. -/
def keepsLocked (c : ConnId) (t : Addr) (_ : ServerState) (d : ConnId) (e : ServerEvent) : Prop :=
  d = c → ∀ input l, e ≠ .call input l (.unlock t) ()

/-- The step, when it is one of `c`, leaves every committed map as it was. -/
def traceless (c : ConnId) (s : ServerState) (d : ConnId) (e : ServerEvent) : Prop :=
  d = c → ∀ s', Step server s d e s' → SameMaps s.shared s'.shared

/-- The step is not one of `c` that reads a key which neither map of the table has. -/
def findsKeys (c : ConnId) (s : ServerState) (d : ConnId) (e : ServerEvent) : Prop := d = c → findsKey s d e = true

private theorem step_maps (one : Step server s c e s') (commitless : uncommitted c s c e) :
    SameMaps s.shared s'.shared ↔ findsKey s c e = true := by
  cases one with
  | @call input l op k r after choice up here exec =>
    have exec : Server.exec c choice op s.shared = some (r, after) := exec
    refine exec_maps ?_ exec
    rintro t rfl
    exact commitless rfl input l t rfl
  | recv up here => exact ⟨fun _ => rfl, fun _ => sameMaps_refl _⟩
  | again up here => exact ⟨fun _ => rfl, fun _ => sameMaps_refl _⟩
  | exit up here => exact ⟨fun _ => rfl, fun _ => sameMaps_refl _⟩
  | abort up here => exact ⟨fun _ => rfl, fun _ => sameMaps_refl _⟩

/-- The steps of `c` in a run without commits of `c` leave all committed maps alone if and
    only if its reads find their keys. -/
theorem traceless_run (run : Run server (uncommitted c) start tr s) :
    Run server (traceless c) start tr s ↔ Run server (findsKeys c) start tr s := by
  have commitless : ∀ s d e, (d, e) ∈ tr → uncommitted c s d e := by
    intro s d e inside
    obtain ⟨s₁, allowed⟩ := run.allowed inside
    exact allowed
  constructor
  · intro still
    refine still.mono ?_
    rintro s s' d e inside one same rfl
    exact (step_maps one (commitless s d e inside)).mp (same rfl s' one)
  · intro finds
    refine finds.mono ?_
    rintro s s' d e inside one found rfl s'' other
    exact (step_maps other (commitless s d e inside)).mpr (found rfl)

/-- An operation that neither uses nor unlocks a locked table leaves it as it is. -/
theorem exec_locked (held : holder sh t = some c) (elsewhere : usedTable op ≠ some t)
    (run : exec d fresh op sh = some (r, sh')) : sh'.heap t = sh.heap t := by
  obtain ⟨tb, here, byC⟩ := holder_eq.mp held
  have apart : ∀ {u tb'}, u ≠ t → sh' = sh.put u tb' → sh'.heap t = sh.heap t := by
    rintro u tb' other rfl
    exact put_other sh (Ne.symm other) tb'
  have busy : ∀ {u tb'}, sh.heap u = some tb' → tb'.m_mutex = none → u ≠ t := by
    rintro u tb' here' free rfl
    rw [here] at here'
    cases here'
    rw [byC] at free
    cases free
  have used : ∀ {u}, usedTable op = some u → u ≠ t := by
    rintro u uses rfl
    exact elsewhere uses
  cases op with
  | find_table name => rw [(exec_find run).2]
  | create_table name =>
    obtain ⟨free, rfl⟩ := exec_create run
    refine create_other ?_
    rintro rfl
    rw [here] at free
    cases free
  | lock u =>
    obtain ⟨tb', here', free, after⟩ := exec_lock run
    exact apart (busy here' free) after
  | trylock u =>
    obtain ⟨tb', here', ⟨_, free, after⟩ | ⟨_, _, rfl⟩⟩ := exec_trylock run
    · exact apart (busy here' free) after
    · rfl
  | unlock u =>
    obtain ⟨tb', _, after⟩ := exec_unlock run
    exact apart (used rfl) after
  | get u key =>
    obtain ⟨tb', _, _, after⟩ := exec_get run
    exact apart (used rfl) after
  | set u key value =>
    obtain ⟨tb', _, after⟩ := exec_set run
    exact apart (used rfl) after
  | commit_changes u =>
    obtain ⟨tb', _, after⟩ := exec_commit run
    exact apart (used rfl) after
  | rollback_changes u =>
    obtain ⟨tb', _, after⟩ := exec_rollback run
    exact apart (used rfl) after
  | write line => rw [exec_write run]

/-- Only its holder uses or unlocks a table. -/
theorem used_held (run : Run server anyStep (booted memory) tr s) (next : nextOp (s.threads d) = some op)
    (uses : usedTable op = some t) : holder s.shared t = some d := by
  obtain ⟨gs, inv, fits⟩ := locks_run initial_quiescent (fun _ _ _ _ => False.elim) run
  exact holder_eq.mpr (inv.held d t (allowed_used (fits_allowed (fits d) next) uses))

/-- An operation on a locked table that does not unlock it. -/
theorem exec_keeps (held : holder sh t = some c) (locked : op ≠ .unlock t) (run : exec d fresh op sh = some (r, sh')) :
    holder sh' t = some c := by
  obtain ⟨tb, here, byC⟩ := holder_eq.mp held
  by_cases uses : usedTable op = some t
  · have kept : ∀ {tb₁ tb'}, sh.heap t = some tb₁ → sh' = sh.put t tb' → tb'.m_mutex = tb₁.m_mutex →
        holder sh' t = some c := by
      rintro tb₁ tb' there rfl mutex
      rw [here] at there
      cases there
      rw [holder_put, if_pos rfl, mutex, byC]
    cases op with
    | unlock u =>
      cases uses
      exact absurd rfl locked
    | get u key =>
      cases uses
      obtain ⟨tb', there, _, after⟩ := exec_get run
      exact kept there after (Table.touch_mutex tb' key)
    | set u key value =>
      cases uses
      obtain ⟨tb', there, after⟩ := exec_set run
      exact kept there after (Table.set_mutex tb' key value)
    | commit_changes u =>
      cases uses
      obtain ⟨tb', there, after⟩ := exec_commit run
      exact kept there after (Table.commit_mutex tb')
    | rollback_changes u =>
      cases uses
      obtain ⟨tb', there, after⟩ := exec_rollback run
      exact kept there after (Table.rollback_mutex tb')
    | _ => cases uses
  · rw [holder, exec_locked held uses run]
    exact held

/-- The steps of the others leave a table alone that `c` has locked. -/
theorem step_held (run : Run server anyStep (booted memory) tr s) (one : Step server s d e s') (other : d ≠ c)
    (held : holder s.shared t = some c) : s'.shared.heap t = s.shared.heap t := by
  cases one with
  | @call input l op k r after choice up reads exec =>
    have exec : Server.exec d choice op s.shared = some (r, after) := exec
    have next : nextOp (s.threads d) = some op := by rw [reads]; rfl
    apply exec_locked held _ exec
    intro uses
    have byD := used_held run next uses
    rw [held] at byD
    exact other (Option.some.inj byD).symm
  | _ => rfl

/-- No step changes the committed map of a table that `c` has locked, as long as `c` itself
    commits nothing, keeps the table locked and finds the keys it reads. -/
theorem locked_step (run : Run server anyStep (booted memory) tr s) (one : Step server s d e s')
    (held : holder s.shared t = some c) (commitless : uncommitted c s d e) (locked : keepsLocked c t s d e)
    (finds : findsKeys c s d e) : holder s'.shared t = some c ∧ theMapOf s'.shared t = theMapOf s.shared t := by
  by_cases mine : d = c
  · subst mine
    have same := (step_maps one commitless).mpr (finds rfl)
    obtain ⟨tb, here, byC⟩ := holder_eq.mp held
    have there : theMapOf s.shared t = some tb.theMap := by rw [theMapOf, here]; rfl
    refine ⟨?_, by rw [there, same t _ there]⟩
    cases one with
    | @call input l op k r after choice up reads exec =>
      have exec : Server.exec d choice op s.shared = some (r, after) := exec
      refine exec_keeps held ?_ exec
      rintro rfl
      exact locked rfl input l rfl
    | _ => exact held
  · have same := step_held run one mine held
    constructor
    · rw [holder, same]
      exact held
    · rw [theMapOf, theMapOf, same]

private theorem locked_run (before : Run server anyStep (booted memory) tr start)
    (held : holder start.shared t = some c) {tr' : ServerTrace} (run : Run server (findsKeys c) start tr' s)
    (inside : ∀ s d e, (d, e) ∈ tr' → uncommitted c s d e ∧ keepsLocked c t s d e) :
    holder s.shared t = some c ∧ theMapOf s.shared t = theMapOf start.shared t := by
  induction run with
  | start => exact ⟨held, rfl⟩
  | @step tr₁ s₁ s₂ d e earlier one finds ih =>
    obtain ⟨still, same⟩ := ih fun s d e member => inside s d e (List.mem_append_left _ member)
    obtain ⟨commitless, locked⟩ := inside s₁ d e (by simp)
    obtain ⟨held', same'⟩ := locked_step (before.append earlier.any) one still commitless locked finds
    exact ⟨held', same'.trans same⟩

private theorem step_trylock {input : Input} {l : Local} (one : Step server s c (.call input l (.trylock t) true) s') :
    ∃ tb, s.shared.heap t = some tb ∧ s'.shared = s.shared.put t { tb with m_mutex := some c } := by
  cases one with
  | @call _ _ _ _ _ after choice up reads exec =>
    have exec : Server.exec c choice (.trylock t) s.shared = some (true, after) := exec
    obtain ⟨tb, here, ⟨_, _, after⟩ | ⟨no, _, _⟩⟩ := exec_trylock exec
    · exact ⟨tb, here, after⟩
    · cases no

/-- A transaction of `c` from its beginning to the rollback of a table `t` that it has
    locked, between the steps of all other connections: `c` commits nothing on the way, and
    keeps the table locked. -/
structure RolledBack (memory : ConnId → Bool) (c : ConnId) (t : Addr) where
  (begun unlocked locked refused rolled : ServerState)
  (before opening within : ServerTrace)
  (asks fails : Input × Local)
  reached : Run server anyStep (booted memory) before begun
  opens : Run server (uncommitted c) begun opening unlocked
  locks : Step server unlocked c (.call asks.1 asks.2 (.trylock t) true) locked
  works : Run server (fun s d e => uncommitted c s d e ∧ keepsLocked c t s d e) locked within refused
  rolls : Step server refused c (.call fails.1 fails.2 (.rollback_changes t) ()) rolled

namespace RolledBack

/-- No step of the transaction changes the committed map of any table, and the table that
    is rolled back has the committed map that it had when it was locked. -/
structure LeavesNoTrace (T : RolledBack memory c t) : Prop where
  opening : Run server (traceless c) T.begun T.opening T.unlocked
  locking : SameMaps T.unlocked.shared T.locked.shared
  within : Run server (traceless c) T.locked T.within T.refused
  rolling : SameMaps T.refused.shared T.rolled.shared
  restored : theMapOf T.rolled.shared t = theMapOf T.unlocked.shared t

/-- The transaction reads only keys that one of the two maps of their table has. -/
structure FindsKeys (T : RolledBack memory c t) : Prop where
  opening : Run server (findsKeys c) T.begun T.opening T.unlocked
  within : Run server (findsKeys c) T.locked T.within T.refused

private theorem works_uncommitted (T : RolledBack memory c t) : Run server
    (uncommitted c) T.locked T.within T.refused :=
  T.works.mono fun _ _ _ _ _ _ both => both.1

/-- The lock at the beginning and the rollback at the end leave all committed maps alone. -/
theorem ends_traceless (T : RolledBack memory c t) :
    SameMaps T.unlocked.shared T.locked.shared ∧ SameMaps T.refused.shared T.rolled.shared := by
  constructor
  · refine (step_maps T.locks ?_).mpr rfl
    rintro _ input l u ⟨⟩
  · refine (step_maps T.rolls ?_).mpr rfl
    rintro _ input l u ⟨⟩

private theorem locked_held (T : RolledBack memory c t) : holder T.locked.shared t = some c := by
  obtain ⟨tb, _, after⟩ := step_trylock T.locks
  rw [after, holder_put, if_pos rfl]

end RolledBack

/-- A transaction that is rolled back leaves no trace in the committed data if and only if
    it reads only keys that are there. -/
theorem untouched_iff (T : RolledBack memory c t) : T.LeavesNoTrace ↔ T.FindsKeys := by
  constructor
  · intro untouched
    exact ⟨(traceless_run T.opens).mp untouched.opening, (traceless_run T.works_uncommitted).mp untouched.within⟩
  · intro finds
    obtain ⟨locking, rolling⟩ := T.ends_traceless
    refine ⟨(traceless_run T.opens).mpr finds.opening, locking, (traceless_run T.works_uncommitted).mpr finds.within,
      rolling, ?_⟩
    have reached : Run server anyStep (booted memory) _ T.locked :=
      (T.reached.append T.opens.any).step T.locks trivial
    have inside : ∀ s d e, (d, e) ∈ T.within → uncommitted c s d e ∧ keepsLocked c t s d e := by
      intro s d e member
      obtain ⟨s₁, allowed⟩ := T.works.allowed member
      exact allowed
    obtain ⟨_, same⟩ := locked_run reached T.locked_held finds.within inside
    obtain ⟨tb, here, _⟩ := step_trylock T.locks
    have there : theMapOf T.unlocked.shared t = some tb.theMap := by rw [theMapOf, here]; rfl
    have atLock := locking t _ there
    rw [← same] at atLock
    rw [there, rolling t _ atLock]

/-- A step after which a transaction that has locked the table goes on. -/
def goesOn (t : Addr) : ServerEvent → Bool
  | .call _ _ (.commit_changes _) _ => false
  | .call _ _ (.unlock u) _ => u != t
  | _ => true

def isLock (t : Addr) : ServerEvent → Bool
  | .call _ _ (.trylock u) got => u == t && got
  | _ => false

def isRollback (t : Addr) : ServerEvent → Bool
  | .call _ _ (.rollback_changes u) _ => u == t
  | _ => false

private theorem goesOn_meets (yes : goesOn t e = true) : uncommitted c s d e ∧ keepsLocked c t s d e := by
  constructor
  · rintro _ input l u rfl
    cases yes
  · rintro _ input l rfl
    simp [goesOn] at yes

private theorem isLock_eq (yes : isLock t e = true) : ∃ input l, e = .call input l (.trylock t) true := by
  unfold isLock at yes
  split at yes
  · obtain ⟨same, rfl⟩ := Bool.and_eq_true_iff.mp yes
    rw [beq_iff_eq.mp same]
    exact ⟨_, _, rfl⟩
  · cases yes

private theorem isRollback_eq (yes : isRollback t e = true) :
    ∃ input l, e = .call input l (.rollback_changes t) () := by
  unfold isRollback at yes
  split at yes
  · rw [beq_iff_eq.mp yes]
    exact ⟨_, _, rfl⟩
  · cases yes

/-- Three schedules, before the transaction of the first client, up to its lock of the table and
    from there to its rollback, whose steps pass the check, and what they lead to. -/
def rollsBack (ok : ServerState → ConnId → ServerEvent → Bool) (meets enters asks : List (ConnId × Action Input Addr))
    (ends : ServerState → ServerState → Bool) : Bool :=
  (execute server noCheck meets (booted fun _ => false)).any fun a =>
    (execute server (fun s d e => goesOn 0 e && ok s d e) enters a.2).any fun b =>
      (step? server b.2 0 (.advance 0)).any fun l => isLock 0 l.1 &&
        (execute server (fun s d e => goesOn 0 e && ok s d e) asks l.2).any fun w =>
          (step? server w.2 0 (.advance 0)).any fun r => isRollback 0 r.1 && ends b.2 r.2

/-- Such schedules are a transaction that is rolled back. -/
theorem rolledBack_of_check {ok : ServerState → ConnId → ServerEvent → Bool}
    {meets enters asks : List (ConnId × Action Input Addr)} {ends : ServerState → ServerState → Bool}
    (shown : rollsBack ok meets enters asks ends = true) : ∃ T : RolledBack (fun _ => false) 0 0,
      Run server (fun s d e => ok s d e = true) T.begun T.opening T.unlocked ∧
      Run server (fun s d e => ok s d e = true) T.locked T.within T.refused ∧
      ends T.unlocked T.rolled = true := by
  simp only [rollsBack, Option.any_eq_true, Bool.and_eq_true] at shown
  obtain ⟨⟨before, begun⟩, first, ⟨opening, unlocked⟩, second, ⟨e, locked⟩, third, lock, ⟨within, refused⟩, fourth,
    ⟨e', rolled⟩, fifth, rollback, ends_⟩ := shown
  obtain ⟨input, l, rfl⟩ := isLock_eq lock
  obtain ⟨input', l', rfl⟩ := isRollback_eq rollback
  have opens := run_of_execute .start second
  have works := run_of_execute .start fourth
  refine ⟨{
    begun := begun, unlocked := unlocked, locked := locked, refused := refused, rolled := rolled
    before := before, opening := opening, within := within, asks := (input, l), fails := (input', l')
    reached := (run_of_execute .start first).any
    opens := opens.mono fun _ _ _ _ _ _ yes => (goesOn_meets (Bool.and_eq_true_iff.mp yes).1).1
    locks := step_of_step? third
    works := works.mono fun _ _ _ _ _ _ yes => goesOn_meets (Bool.and_eq_true_iff.mp yes).1
    rolls := step_of_step? fifth }, ?_, ?_, ends_⟩
  · exact opens.mono fun _ _ _ _ _ _ yes => (Bool.and_eq_true_iff.mp yes).2
  · exact works.mono fun _ _ _ _ _ _ yes => (Bool.and_eq_true_iff.mp yes).2

/-- The first client begins a transaction; the second one is in a transaction of its own
    and has locked the table `b`. -/
def approaching : List (ConnId × Action Input Addr) :=
  turn 0 "LOGIN ann\n" 2 0 ++ turn 0 "CREATE a\n" 4 0 ++ turn 0 "CREATE b\n" 4 1 ++ turn 1 "LOGIN bob\n" 2 0 ++
    turn 1 "BEGIN\n" 2 0 ++ turn 1 "GET b k\n" 5 0

/-- A client sets a key and reads it back, and then asks for a table that is locked. -/
theorem untouched_iff_rereading : ∃ T : RolledBack (fun _ => false) 0 0, T.FindsKeys ∧ T.LeavesNoTrace := by
  have shown : rollsBack findsKey approaching
      (turn 0 "PUSH 5\n" 2 0 ++ turn 0 "BEGIN\n" 2 0 ++ turn 0 "SET a k\n" 1 0)
      (List.replicate 3 (0, .advance 0) ++ turn 0 "GET a k\n" 4 0 ++ turn 0 "GET b k\n" 2 0)
      (fun _ _ => true) = true := by
    decide +kernel
  obtain ⟨T, opens, works, _⟩ := rolledBack_of_check shown
  have finds : T.FindsKeys :=
    ⟨opens.mono fun _ _ _ _ _ _ yes _ => yes, works.mono fun _ _ _ _ _ _ yes _ => yes⟩
  exact ⟨T, finds, (untouched_iff T).mpr finds⟩

/-- The first client goes on to where it locks the table `a`. -/
def entering : List (ConnId × Action Input Addr) := turn 0 "BEGIN\n" 2 0 ++ turn 0 "GET a k\n" 1 0

/-- It reads a key that was never set, and asks for the other table. -/
def asking : List (ConnId × Action Input Addr) := List.replicate 3 (0, .advance 0) ++ turn 0 "GET b k\n" 2 0

/-- The key is in the table after the rollback, and it was not when the table was locked. -/
theorem untouched_absent : ¬ ∀ (memory : ConnId → Bool) (c : ConnId) (t : Addr) (T : RolledBack memory c t),
    T.LeavesNoTrace := by
  intro always
  have shown : rollsBack noCheck approaching entering asking (fun unlocked rolled =>
      (theMapOf unlocked.shared 0).map (·.toList) == some [] &&
        (theMapOf rolled.shared 0).map (·.toList) == some [(lit "k", [])]) = true := by
    decide +kernel
  obtain ⟨T, _, _, ends⟩ := rolledBack_of_check shown
  obtain ⟨empty, entered⟩ := Bool.and_eq_true_iff.mp ends
  have same : theMapOf T.rolled.shared 0 = theMapOf T.unlocked.shared 0 := (always _ 0 0 T).restored
  have none_ : (theMapOf T.unlocked.shared 0).map (·.toList) = some [] := beq_iff_eq.mp empty
  have one : (theMapOf T.rolled.shared 0).map (·.toList) = some [(lit "k", [])] := beq_iff_eq.mp entered
  rw [same, none_] at one
  cases one

end TableServer.Untouched
