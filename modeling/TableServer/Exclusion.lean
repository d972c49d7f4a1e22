import TableServer.Locking
import Mathlib.Logic.Relation

/-!
Who holds which mutex, and whose writes are pending, in every state that the
workers can reach together: the invariant `Locks` relates the phases of all
workers, the trace and the tables, and each operation keeps it.
-/

namespace TableServer.Exclusion
open TableServer.Bytes TableServer.Messages TableServer.Stores TableServer.Connection TableServer.Server
open TableServer.Requests TableServer.Locking
open Resumption Interleaving

structure Write where
  writer : ConnId
  key : Str
  value : Str

def afterStep (t : Addr) (ws : List Write) (step : ConnId × ServerEvent) : List Write :=
  match step.2 with
  | .call _ _ (.set u key value) _ => if u = t then ws ++ [⟨step.1, key, value⟩] else ws
  | .call _ _ (.commit_changes u) _ => if u = t then [] else ws
  | .call _ _ (.rollback_changes u) _ => if u = t then [] else ws
  | _ => ws

/-- The writes to a table since it was last committed or rolled back. -/
def pendingWrites (t : Addr) (tr : ServerTrace) : List Write := tr.foldl (afterStep t) []

def replay (ws : List Write) : StdMap Str := ws.foldl (fun m w => m.insert w.key w.value) ∅

private theorem pendingWrites_snoc (t : Addr) (tr : ServerTrace) (step : ConnId × ServerEvent) :
    pendingWrites t (tr ++ [step]) = afterStep t (pendingWrites t tr) step := by
  simp [pendingWrites]

private theorem replay_snoc (ws : List Write) (w : Write) : replay (ws ++ [w]) = (replay ws).insert w.key w.value := by
  simp [replay]

/-- An earlier request of the connection locked the table and forgot it. -/
def Forgotten (c : ConnId) (t : Addr) (tr : ServerTrace) : Prop :=
  ∃ input l, (c, Event.call input l (Op.lock t) ()) ∈ tr ∧ forgets input l = true

private theorem Forgotten.later {c : ConnId} {t : Addr} {tr : ServerTrace} (forgotten : Forgotten c t tr)
    (step : ConnId × ServerEvent) : Forgotten c t (tr ++ [step]) := by
  obtain ⟨input, l, inside, empty⟩ := forgotten
  exact ⟨input, l, List.mem_append_left _ inside, empty⟩

structure Locks (gs : ConnId → Phase) (tr : ServerTrace) (sh : Shared) : Prop where
  held : ∀ c, ∀ t ∈ (gs c).tables, ∃ tb, sh.heap t = some tb ∧ tb.m_mutex = some c
  pending : ∀ t tb, sh.heap t = some tb → tb.tempMap = replay (pendingWrites t tr)
  writers : ∀ t, ∀ w ∈ pendingWrites t tr, t ∈ (gs w.writer).dirty
  owner : ∀ t tb c, sh.heap t = some tb → tb.m_mutex = some c → t ∈ (gs c).tables ∨ Forgotten c t tr
  forgotten : ∀ c t, gs c = .locked t true → Forgotten c t tr

variable {gs : ConnId → Phase} {tr : ServerTrace} {sh sh' : Shared} {c : ConnId} {g' : Phase} {e : ServerEvent}
  {t : Addr} {tb : Table}

/-- A mutex has one holder. -/
theorem Locks.exclusive (inv : Locks gs tr sh) {d : ConnId} (mine : t ∈ (gs c).tables) (other : t ∈ (gs d).tables) :
    c = d := by
  obtain ⟨tb, here, byC⟩ := inv.held c t mine
  obtain ⟨tb', here', byD⟩ := inv.held d t other
  rw [here] at here'
  obtain rfl := Option.some.inj here'
  exact Option.some.inj (byC.symm.trans byD)

/-- Nobody holds a table that does not exist. -/
theorem Locks.unknown (inv : Locks gs tr sh) (none_ : sh.heap t = none) (d : ConnId) : t ∉ (gs d).tables := by
  intro inside
  obtain ⟨tb, here, _⟩ := inv.held d t inside
  rw [none_] at here
  cases here

/-- Nobody holds a table whose mutex is free. -/
theorem Locks.unheld (inv : Locks gs tr sh) (here : sh.heap t = some tb) (free : tb.m_mutex = none) (d : ConnId) :
    t ∉ (gs d).tables := by
  intro inside
  obtain ⟨tb', here', byD⟩ := inv.held d t inside
  rw [here] at here'
  obtain rfl := Option.some.inj here'
  rw [free] at byD
  cases byD

private theorem Locks.writer_holds (inv : Locks gs tr sh) {w : Write} (inside : w ∈ pendingWrites t tr)
    (here : sh.heap t = some tb) : tb.m_mutex = some w.writer := by
  obtain ⟨tb', here', held⟩ := inv.held _ t (Phase.dirty_sub _ t (inv.writers t w inside))
  rw [here] at here'
  obtain rfl := Option.some.inj here'
  exact held

private theorem Locks.nothing_pending (inv : Locks gs tr sh) (here : sh.heap t = some tb) (free : tb.m_mutex = none) :
    pendingWrites t tr = [] := by
  rw [List.eq_nil_iff_forall_not_mem]
  intro w inside
  rw [inv.writer_holds inside here] at free
  cases free

theorem Locks.free_clean (inv : Locks gs tr sh) (here : sh.heap t = some tb) (free : tb.m_mutex = none) :
    tb.tempMap = ∅ := by
  rw [inv.pending t tb here, inv.nothing_pending here free]
  rfl

/-- In a phase in which the holder has written nothing, nothing is pending. -/
theorem Locks.clean_phase (inv : Locks gs tr sh) (mine : t ∈ (gs c).tables) (clean : t ∉ (gs c).dirty) :
    pendingWrites t tr = [] := by
  rw [List.eq_nil_iff_forall_not_mem]
  intro w inside
  have dirty := inv.writers t w inside
  obtain same := inv.exclusive mine (Phase.dirty_sub _ t dirty)
  rw [← same] at dirty
  exact clean dirty

/-- A step of one worker that changes no table. -/
theorem Locks.still (inv : Locks gs tr sh) (unwritten : ∀ u, pendingWrites u (tr ++ [(c, e)]) = pendingWrites u tr)
    (old : ∀ u ∈ g'.tables, u ∈ (gs c).tables) (dirty : ∀ u ∈ (gs c).dirty, u ∈ g'.dirty)
    (kept : ∀ u ∈ (gs c).tables, u ∈ g'.tables ∨ Forgotten c u tr)
    (unlocked : ∀ u, g' = .locked u true → gs c = .locked u true) (same : sh'.heap = sh.heap) :
    Locks (Function.update gs c g') (tr ++ [(c, e)]) sh' := by
  have olds : ∀ d, ∀ u ∈ (Function.update gs c g' d).tables, u ∈ (gs d).tables :=
    (Function.forall_update_iff gs fun d g => ∀ u ∈ g.tables, u ∈ (gs d).tables).mpr ⟨old, fun _ _ _ => id⟩
  have dirties : ∀ d, ∀ u ∈ (gs d).dirty, u ∈ (Function.update gs c g' d).dirty :=
    (Function.forall_update_iff gs fun d g => ∀ u ∈ (gs d).dirty, u ∈ g.dirty).mpr ⟨dirty, fun _ _ _ => id⟩
  have keeps : ∀ d, ∀ u ∈ (gs d).tables, u ∈ (Function.update gs c g' d).tables ∨ Forgotten d u tr :=
    (Function.forall_update_iff gs fun d g => ∀ u ∈ (gs d).tables, u ∈ g.tables ∨ Forgotten d u tr).mpr
      ⟨kept, fun _ _ _ => .inl⟩
  have unlockeds : ∀ d u, Function.update gs c g' d = .locked u true → gs d = .locked u true :=
    (Function.forall_update_iff gs fun d g => ∀ u, g = .locked u true → gs d = .locked u true).mpr
      ⟨unlocked, fun _ _ _ => id⟩
  refine ⟨?_, ?_, ?_, ?_, ?_⟩
  · intro d u inside
    rw [same]
    exact inv.held d u (olds d u inside)
  · intro u tb here
    rw [same] at here
    rw [unwritten]
    exact inv.pending u tb here
  · intro u w inside
    rw [unwritten] at inside
    exact dirties w.writer u (inv.writers u w inside)
  · intro u tb d here byD
    rw [same] at here
    rcases inv.owner u tb d here byD with inside | lost
    · exact (keeps d u inside).imp id (·.later _)
    · exact .inr (lost.later _)
  · intro d u locked
    exact (inv.forgotten d u (unlockeds d u locked)).later _

/-- A step of one worker on one table, which no other worker has locked. -/
theorem Locks.move (inv : Locks gs tr sh) (elsewhere : ∀ u, u ≠ t → sh'.heap u = sh.heap u)
    (unwritten : ∀ u, u ≠ t → pendingWrites u (tr ++ [(c, e)]) = pendingWrites u tr)
    (tables : ∀ u, u ≠ t → (u ∈ g'.tables ↔ u ∈ (gs c).tables))
    (dirty : ∀ u, u ≠ t → u ∈ (gs c).dirty → u ∈ g'.dirty) (alone : ∀ d, d ≠ c → t ∉ (gs d).tables)
    (here : sh'.heap t = some tb) (holds : (t ∈ g'.tables ∧ tb.m_mutex = some c) ∨ (t ∉ g'.tables ∧ tb.m_mutex = none))
    (pending : tb.tempMap = replay (pendingWrites t (tr ++ [(c, e)])))
    (mine : ∀ w ∈ pendingWrites t (tr ++ [(c, e)]), w.writer = c ∧ t ∈ g'.dirty)
    (forgets_ : ∀ u, g' = .locked u true → Forgotten c u (tr ++ [(c, e)])) :
    Locks (Function.update gs c g') (tr ++ [(c, e)]) sh' := by
  have same : ∀ d, ∀ u, u ≠ t → (u ∈ (Function.update gs c g' d).tables ↔ u ∈ (gs d).tables) :=
    (Function.forall_update_iff gs fun d g => ∀ u, u ≠ t → (u ∈ g.tables ↔ u ∈ (gs d).tables)).mpr
      ⟨tables, fun _ _ _ _ => Iff.rfl⟩
  have dirties : ∀ d, ∀ u, u ≠ t → u ∈ (gs d).dirty → u ∈ (Function.update gs c g' d).dirty :=
    (Function.forall_update_iff gs fun d g => ∀ u, u ≠ t → u ∈ (gs d).dirty → u ∈ g.dirty).mpr
      ⟨dirty, fun _ _ _ _ => id⟩
  have owner : ∀ d, t ∈ (Function.update gs c g' d).tables → tb.m_mutex = some d :=
    (Function.forall_update_iff gs fun d g => t ∈ g.tables → tb.m_mutex = some d).mpr
      ⟨fun inside => (holds.resolve_right (fun out => out.1 inside)).2,
        fun d other inside => absurd inside (alone d other)⟩
  refine ⟨?_, ?_, ?_, ?_, ?_⟩
  · intro d u inside
    by_cases other : u = t
    · subst other
      exact ⟨tb, here, owner d inside⟩
    · rw [elsewhere u other]
      exact inv.held d u ((same d u other).mp inside)
  · intro u tb' here'
    by_cases other : u = t
    · subst other
      rw [here] at here'
      obtain rfl := Option.some.inj here'
      exact pending
    · rw [elsewhere u other] at here'
      rw [unwritten u other]
      exact inv.pending u tb' here'
  · intro u w inside
    by_cases other : u = t
    · subst other
      obtain ⟨byC, marked⟩ := mine w inside
      rw [byC, Function.update_self]
      exact marked
    · rw [unwritten u other] at inside
      exact dirties w.writer u other (inv.writers u w inside)
  · intro u tb' d here' byD
    by_cases other : u = t
    · subst other
      rw [here] at here'
      obtain rfl := Option.some.inj here'
      rcases holds with ⟨inside, byC⟩ | ⟨_, free⟩
      · obtain rfl := Option.some.inj (byC.symm.trans byD)
        exact .inl (by rw [Function.update_self]; exact inside)
      · rw [free] at byD
        cases byD
    · rw [elsewhere u other] at here'
      exact (inv.owner u tb' d here' byD).imp (same d u other).mpr (·.later _)
  · exact (Function.forall_update_iff gs fun d g => ∀ u, g = .locked u true → Forgotten d u (tr ++ [(c, e)])).mpr
      ⟨forgets_, fun d _ u locked => (inv.forgotten d u locked).later _⟩

/-- A step of one worker on a table that it has locked and keeps locked. -/
theorem Locks.access (inv : Locks gs tr sh) (access : Phase.Accesses t (gs c) g') (here : sh.heap t = some tb)
    {tb' : Table} (mutex : tb'.m_mutex = tb.m_mutex) (after : sh' = sh.put t tb')
    (unwritten : ∀ u, u ≠ t → pendingWrites u (tr ++ [(c, e)]) = pendingWrites u tr)
    (pending : tb'.tempMap = replay (pendingWrites t (tr ++ [(c, e)])))
    (mine : ∀ w ∈ pendingWrites t (tr ++ [(c, e)]), w.writer = c ∧ t ∈ g'.dirty) :
    Locks (Function.update gs c g') (tr ++ [(c, e)]) sh' := by
  subst after
  obtain ⟨tb₁, here₁, byC⟩ := inv.held c t access.inside
  rw [here] at here₁
  obtain rfl := Option.some.inj here₁
  refine inv.move (fun u other => put_other sh other tb') unwritten ?_ access.dirty ?_ (put_self sh t tb')
    (.inl ⟨?_, mutex.trans byC⟩) pending mine (fun u same => absurd same (access.moved u true))
  · intro u _
    rw [access.tables]
  · intro d isC inside
    exact isC (inv.exclusive inside access.inside)
  · rw [access.tables]
    exact access.inside

/-- The writes of a worker that has locked the table, and the ones it adds. -/
theorem Locks.mine (inv : Locks gs tr sh) (locked : t ∈ (gs c).tables) {w : Write} (inside : w ∈ pendingWrites t tr) :
    w.writer = c ∧ t ∈ (gs c).dirty := by
  have dirty := inv.writers t w inside
  have same := inv.exclusive (Phase.dirty_sub _ t dirty) locked
  rw [same] at dirty
  exact ⟨same, dirty⟩

section Operations
variable {fresh : Addr} {input : Input} {l : Local}

private theorem locks_find {name : Str} {r : Option Addr} (inv : Locks gs tr sh) (at_ : ∃ L, gs c = .holding L)
    (run : exec c fresh (.find_table name) sh = some (r, sh')) :
    Locks (Function.update gs c (next input (gs c) l (.find_table name) r))
      (tr ++ [(c, .call input l (.find_table name) r)]) sh' := by
  obtain ⟨L, phase⟩ := at_
  obtain ⟨rfl, rfl⟩ := exec_find run
  refine inv.still ?_ ?_ ?_ ?_ ?_ rfl
  · intro u; rw [pendingWrites_snoc]; rfl
  · intro u inside; simpa [phase, next] using inside
  · intro u inside; simpa [phase, next] using inside
  · intro u inside; exact .inl (by simpa [phase, next] using inside)
  · intro u locked; simp [phase, next] at locked

private theorem locks_create {name : Str} (inv : Locks gs tr sh) (at_ : ∃ L, gs c = .holding L)
    (run : exec c fresh (.create_table name) sh = some ((), sh')) :
    Locks (Function.update gs c (next input (gs c) l (.create_table name) ()))
      (tr ++ [(c, .call input l (.create_table name) ())]) sh' := by
  obtain ⟨L, phase⟩ := at_
  obtain ⟨free, rfl⟩ := exec_create run
  have unwritten : ∀ u,
      pendingWrites u (tr ++ [(c, Event.call input l (Op.create_table name) ())]) = pendingWrites u tr := by
    intro u; rw [pendingWrites_snoc]; rfl
  have unknown : ∀ d, fresh ∉ (gs d).tables := inv.unknown free
  have same : next input (gs c) l (.create_table name) () = gs c := by rw [phase]; rfl
  have none_ : pendingWrites fresh tr = [] := by
    rw [List.eq_nil_iff_forall_not_mem]
    intro w inside
    exact unknown _ (Phase.dirty_sub _ _ (inv.writers fresh w inside))
  rw [same]
  have created : (sh.create name fresh).heap fresh = some (Table.create name) := by simp [Shared.create]
  refine inv.move (fun u other => create_other other) (fun u _ => unwritten u) (fun u _ => Iff.rfl) (fun u _ => id)
    (fun d _ => unknown d) created (.inr ⟨unknown c, rfl⟩) ?_ ?_ ?_
  · rw [unwritten, none_]; rfl
  · intro w inside; rw [unwritten, none_] at inside; cases inside
  · intro u locked; rw [phase] at locked; cases locked

/-- Locking a free mutex, by `lock` or `trylock`. -/
theorem locks_acquire {g' : Phase} {e : ServerEvent} (inv : Locks gs tr sh) (here : sh.heap t = some tb)
    (free : tb.m_mutex = none)
    (after : sh' = sh.put t { tb with m_mutex := some c }) (mine : ∀ u, u ∈ g'.tables ↔ u = t ∨ u ∈ (gs c).tables)
    (dirty : ∀ u ∈ (gs c).dirty, u ∈ g'.dirty) (unwritten : ∀ u, pendingWrites u (tr ++ [(c, e)]) = pendingWrites u tr)
    (forgets_ : ∀ u, g' = .locked u true → Forgotten c u (tr ++ [(c, e)])) :
    Locks (Function.update gs c g') (tr ++ [(c, e)]) sh' := by
  subst after
  have none_ := inv.nothing_pending here free
  refine inv.move (fun u other => put_other sh other _) (fun u _ => unwritten u) ?_ (fun u _ => dirty u) ?_
    (put_self sh t _) (.inl ⟨(mine t).mpr (.inl rfl), rfl⟩) ?_ ?_ forgets_
  · intro u other
    rw [mine u]
    exact ⟨fun inside => inside.resolve_left other, .inr⟩
  · intro d _
    exact inv.unheld here free d
  · rw [unwritten, none_]
    rw [inv.free_clean here free]
    rfl
  · intro w inside
    rw [unwritten, none_] at inside
    cases inside

private theorem locks_lock (inv : Locks gs tr sh) (at_ : gs c = .holding [])
    (run : exec c fresh (.lock t) sh = some ((), sh')) :
    Locks (Function.update gs c (next input (gs c) l (.lock t) ())) (tr ++ [(c, .call input l (.lock t) ())]) sh' := by
  obtain ⟨tb, here, free, after⟩ := exec_lock run
  rw [at_]
  refine locks_acquire inv here free after ?_ ?_ ?_ ?_
  · intro u; simp [at_, next]
  · intro u inside; simp [at_] at inside
  · intro u; rw [pendingWrites_snoc]; rfl
  · intro u locked
    obtain ⟨rfl, empty⟩ := Phase.locked.inj locked
    exact ⟨input, l, by simp, empty⟩

private theorem locks_trylock {r : Bool} (inv : Locks gs tr sh) (at_ : ∃ L, gs c = .holding L ∧ t ∉ L)
    (run : exec c fresh (.trylock t) sh = some (r, sh')) :
    Locks (Function.update gs c (next input (gs c) l (.trylock t) r))
      (tr ++ [(c, .call input l (.trylock t) r)]) sh' := by
  obtain ⟨L, phase, _⟩ := at_
  have unwritten : ∀ u, pendingWrites u (tr ++ [(c, Event.call input l (Op.trylock t) r)]) = pendingWrites u tr := by
    intro u; rw [pendingWrites_snoc]; rfl
  obtain ⟨tb, here, ⟨rfl, free, after⟩ | ⟨rfl, busy, rfl⟩⟩ := exec_trylock run
  · rw [phase]
    refine locks_acquire inv here free after ?_ ?_ unwritten ?_
    · intro u; rw [phase]; exact TableSet.mem_insertAddr
    · intro u inside; rw [phase] at inside; exact TableSet.mem_insertAddr.mpr (.inr inside)
    · intro u locked; cases locked
  · have released : next input (gs c) l (.trylock t) false = .release .rollback L := by rw [phase]; rfl
    rw [released]
    refine inv.still unwritten ?_ ?_ ?_ ?_ rfl
    · intro u inside; simpa [phase] using inside
    · intro u inside; simpa [phase] using inside
    · intro u inside; exact .inl (by simpa [phase] using inside)
    · intro u locked; cases L <;> cases locked

private theorem locks_unlock (inv : Locks gs tr sh) (consistent : Consistent l (gs c))
    (at_ : gs c = .committed t ∨ ∃ ending rest, gs c = .finished ending t rest)
    (run : exec c fresh (.unlock t) sh = some ((), sh')) :
    Locks (Function.update gs c (next input (gs c) l (.unlock t) ()))
      (tr ++ [(c, .call input l (.unlock t) ())]) sh' := by
  obtain ⟨tb, here, rfl⟩ := exec_unlock run
  have unwritten : ∀ u, pendingWrites u (tr ++ [(c, Event.call input l (Op.unlock t) ())]) = pendingWrites u tr := by
    intro u; rw [pendingWrites_snoc]; rfl
  obtain ⟨R, tables, dirty, new, apart⟩ : ∃ R, (gs c).tables = t :: R ∧ (gs c).dirty = R ∧
      (∃ ending, next input (gs c) l (.unlock t) () = .release ending R) ∧ t ∉ R := by
    rcases at_ with phase | ⟨ending, rest, phase⟩
    · rw [phase]; exact ⟨[], rfl, rfl, ⟨.commit, rfl⟩, by simp⟩
    · refine ⟨rest, by rw [phase]; rfl, by rw [phase]; rfl, ⟨ending, by rw [phase]; rfl⟩, ?_⟩
      have part := consistent.phase
      rw [phase] at part
      obtain ⟨before, all⟩ := part
      have sorted := l.locked_tables.sorted
      rw [all] at sorted
      intro inside
      exact Nat.lt_irrefl t ((List.pairwise_cons.mp (List.pairwise_append.mp sorted).2.1).1 t inside)
  obtain ⟨ending, new⟩ := new
  have locked : t ∈ (gs c).tables := by rw [tables]; exact List.mem_cons_self
  have none_ := inv.clean_phase locked (by rw [dirty]; exact apart)
  rw [new]
  refine inv.move (fun u other => put_other sh other _) (fun u _ => unwritten u) ?_ ?_ ?_ (put_self sh t _)
    (.inr ⟨by simpa using apart, rfl⟩) ?_ ?_ ?_
  · intro u other
    rw [Phase.release_tables, tables]
    exact ⟨List.mem_cons_of_mem _, fun inside => (List.mem_cons.mp inside).resolve_left other⟩
  · intro u _ inside
    rw [dirty] at inside
    rw [Phase.release_dirty]
    exact inside
  · intro d isC inside
    exact isC (inv.exclusive inside locked)
  · rw [unwritten]
    exact inv.pending t tb here
  · intro w inside
    rw [unwritten, none_] at inside
    cases inside
  · intro u same
    cases R <;> cases same

private theorem locks_get {key : Str} {r : Except Exn Str} (inv : Locks gs tr sh)
    (at_ : (∃ empty, gs c = .locked t empty) ∨ ∃ L, gs c = .holding L ∧ t ∈ L)
    (run : exec c fresh (.get t key) sh = some (r, sh')) :
    Locks (Function.update gs c (next input (gs c) l (.get t key) r))
      (tr ++ [(c, .call input l (.get t key) r)]) sh' := by
  obtain ⟨tb, here, rfl, after⟩ := exec_get run
  have unwritten : ∀ u, pendingWrites u (tr ++ [(c, Event.call input l (Op.get t key) (.ok (tb.read key)))]) =
      pendingWrites u tr := by
    intro u; rw [pendingWrites_snoc]; rfl
  obtain ⟨access, dirty⟩ : Phase.Accesses t (gs c) (next input (gs c) l (.get t key) (.ok (tb.read key))) ∧
      (t ∈ (gs c).dirty → t ∈ (next input (gs c) l (.get t key) (.ok (tb.read key))).dirty) := by
    rcases at_ with ⟨empty, phase⟩ | ⟨L, phase, inside⟩
    · rw [phase]; exact ⟨Phase.accesses_locked t empty, by simp⟩
    · rw [phase]; exact ⟨Phase.accesses_holding inside, id⟩
  refine inv.access access here (Table.touch_mutex tb key) after (fun u _ => unwritten u) ?_ ?_
  · rw [unwritten, Table.touch_temp]
    exact inv.pending t tb here
  · intro w inside
    rw [unwritten] at inside
    obtain ⟨byC, before⟩ := inv.mine access.inside inside
    exact ⟨byC, dirty before⟩

private theorem locks_set {key value : Str} (inv : Locks gs tr sh)
    (at_ : (∃ empty, gs c = .locked t empty) ∨ ∃ L, gs c = .holding L ∧ t ∈ L)
    (run : exec c fresh (.set t key value) sh = some ((), sh')) :
    Locks (Function.update gs c (next input (gs c) l (.set t key value) ()))
      (tr ++ [(c, .call input l (.set t key value) ())]) sh' := by
  obtain ⟨tb, here, after⟩ := exec_set run
  obtain ⟨access, dirty⟩ : Phase.Accesses t (gs c) (next input (gs c) l (.set t key value) ()) ∧
      t ∈ (next input (gs c) l (.set t key value) ()).dirty := by
    rcases at_ with ⟨empty, phase⟩ | ⟨L, phase, inside⟩
    · rw [phase]; exact ⟨Phase.accesses_locked t empty, List.mem_cons_self⟩
    · rw [phase]; exact ⟨Phase.accesses_holding inside, inside⟩
  have written : pendingWrites t (tr ++ [(c, Event.call input l (Op.set t key value) ())]) =
      pendingWrites t tr ++ [⟨c, key, value⟩] := by
    rw [pendingWrites_snoc]; exact if_pos rfl
  refine inv.access access here (Table.set_mutex tb key value) after ?_ ?_ ?_
  · intro u other
    rw [pendingWrites_snoc]
    exact if_neg (Ne.symm other)
  · rw [written, replay_snoc, ← inv.pending t tb here]
    rfl
  · intro w inside
    rw [written] at inside
    rcases List.mem_append.mp inside with before | last
    · exact ⟨(inv.mine access.inside before).1, dirty⟩
    · rw [List.mem_singleton.mp last]
      exact ⟨rfl, dirty⟩

/-- Dropping what is pending, by `commit_changes` or `rollback_changes`. -/
theorem locks_clear {tb' : Table} (inv : Locks gs tr sh) (access : Phase.Accesses t (gs c) g')
    (here : sh.heap t = some tb)
    (mutex : tb'.m_mutex = tb.m_mutex) (after : sh' = sh.put t tb') (empty : tb'.tempMap = ∅)
    (cleared : ∀ u, pendingWrites u (tr ++ [(c, e)]) = if t = u then [] else pendingWrites u tr) :
    Locks (Function.update gs c g') (tr ++ [(c, e)]) sh' := by
  have none_ : pendingWrites t (tr ++ [(c, e)]) = [] := by rw [cleared, if_pos rfl]
  refine inv.access access here mutex after ?_ ?_ ?_
  · intro u other
    rw [cleared, if_neg (Ne.symm other)]
  · rw [none_, empty]
    rfl
  · intro w inside
    rw [none_] at inside
    cases inside

private theorem locks_commit (inv : Locks gs tr sh)
    (at_ : gs c = .accessed t ∨ ∃ rest, gs c = .releasing .commit t rest)
    (run : exec c fresh (.commit_changes t) sh = some ((), sh')) :
    Locks (Function.update gs c (next input (gs c) l (.commit_changes t) ()))
      (tr ++ [(c, .call input l (.commit_changes t) ())]) sh' := by
  obtain ⟨tb, here, after⟩ := exec_commit run
  have access : Phase.Accesses t (gs c) (next input (gs c) l (.commit_changes t) ()) := by
    rcases at_ with phase | ⟨rest, phase⟩
    · rw [phase]; exact Phase.accesses_accessed t
    · rw [phase]; exact Phase.accesses_releasing .commit t rest
  refine locks_clear inv access here (Table.commit_mutex tb) after (Table.commit_temp tb) ?_
  intro u
  rw [pendingWrites_snoc]
  rfl

private theorem locks_rollback (inv : Locks gs tr sh) (at_ : ∃ rest, gs c = .releasing .rollback t rest)
    (run : exec c fresh (.rollback_changes t) sh = some ((), sh')) :
    Locks (Function.update gs c (next input (gs c) l (.rollback_changes t) ()))
      (tr ++ [(c, .call input l (.rollback_changes t) ())]) sh' := by
  obtain ⟨tb, here, after⟩ := exec_rollback run
  have access : Phase.Accesses t (gs c) (next input (gs c) l (.rollback_changes t) ()) := by
    obtain ⟨rest, phase⟩ := at_
    rw [phase]; exact Phase.accesses_releasing .rollback t rest
  refine locks_clear inv access here (Table.rollback_mutex tb) after (Table.rollback_temp tb) ?_
  intro u
  rw [pendingWrites_snoc]
  rfl

private theorem locks_write {line : Str} (inv : Locks gs tr sh)
    (at_ : (∃ L, gs c = .holding L) ∨ ∃ t, gs c = .locked t true)
    (run : exec c fresh (.write line) sh = some ((), sh')) :
    Locks (Function.update gs c (next input (gs c) l (.write line) ())) (tr ++ [(c, .call input l (.write line) ())])
      sh' := by
  obtain rfl := exec_write run
  have unwritten : ∀ u, pendingWrites u (tr ++ [(c, Event.call input l (Op.write line) ())]) = pendingWrites u tr := by
    intro u; rw [pendingWrites_snoc]; rfl
  rcases at_ with ⟨L, phase⟩ | ⟨t, phase⟩
  · have same : next input (gs c) l (.write line) () = gs c := by rw [phase]; rfl
    rw [same]
    exact inv.still unwritten (fun _ => id) (fun _ => id) (fun _ => .inl) (fun _ => id) rfl
  · have same : next input (gs c) l (.write line) () = .holding [] := by rw [phase]; rfl
    rw [same]
    refine inv.still unwritten (by simp) ?_ ?_ (by simp) rfl
    · intro u inside; simp [phase] at inside
    · intro u inside
      obtain rfl : u = t := by simpa [phase] using inside
      exact .inr (inv.forgotten c u phase)

theorem locks_call {choice : Addr} {op : Op} {r : Res op} (inv : Locks gs tr sh) (consistent : Consistent l (gs c))
    (allowed : Allowed (gs c) l op) (run : exec c choice op sh = some (r, sh')) :
    Locks (Function.update gs c (next input (gs c) l op r)) (tr ++ [(c, .call input l op r)]) sh' := by
  cases op with
  | find_table name => exact locks_find inv allowed run
  | create_table name => exact locks_create inv allowed run
  | lock t => exact locks_lock inv allowed.1 run
  | trylock t => exact locks_trylock inv allowed run
  | unlock t => exact locks_unlock inv consistent allowed run
  | get t key => exact locks_get inv allowed run
  | set t key value => exact locks_set inv allowed run
  | commit_changes t => exact locks_commit inv allowed run
  | rollback_changes t => exact locks_rollback inv allowed run
  | write line => exact locks_write inv allowed run

theorem locks_recv (inv : Locks gs tr sh) (L : List Addr) (at_ : gs c = .holding L) :
    Locks (Function.update gs c (take (gs c) l input)) (tr ++ [(c, .recv l input)]) sh := by
  refine inv.still ?_ ?_ ?_ ?_ ?_ rfl
  · intro u; rw [pendingWrites_snoc]; rfl
  · intro u inside; rw [take_tables] at inside; exact inside
  · intro u inside; rw [take_dirty]; exact inside
  · intro u inside; rw [take_tables]; exact .inl inside
  · intro u locked
    rw [at_, take] at locked
    split at locked
    · cases L <;> cases locked
    · cases locked

theorem locks_finish {r : Except Fault Bool} (inv : Locks gs tr sh) :
    Locks gs (tr ++ [(c, .finish input l r)]) sh := by
  have kept : Locks (Function.update gs c (gs c)) (tr ++ [(c, .finish input l r)]) sh :=
    inv.still (fun u => by rw [pendingWrites_snoc]; rfl) (fun _ => id) (fun _ => id) (fun _ => .inl) (fun _ => id) rfl
  simpa using kept

end Operations

theorem locks_opened (quiescent : Quiescent sh) : Locks (fun _ => .holding []) [] sh where
  held c t inside := by simp at inside
  pending t tb here := by rw [quiescent.clean t tb here]; rfl
  writers t w inside := by cases inside
  owner t tb c here byC := by rw [quiescent.free t tb here] at byC; cases byC
  forgotten c t locked := by cases locked

/-- What a step must be for a client that does not leave in the middle of a transaction. -/
def careful (s : ServerState) : ServerEvent → Bool
  | .recv l input => decide (StaysOpen l input)
  | .call input l (.find_table name) _ => decide (FindsWanted input l (s.shared.server_tables[name]?).isSome)
  | _ => true

variable {ok : ServerState → ConnId → ServerEvent → Prop} {memory : ConnId → Bool} {s : ServerState} {polite : Prop}

/-- The phases of all workers exist in every reachable state, and `Locks` holds of them. -/
theorem locks_run (quiescent : Quiescent sh) (kept : ∀ s c e, ok s c e → polite → careful s e = true)
    (run : Run server ok (opened sh memory) tr s) :
    ∃ gs, Locks gs tr s.shared ∧ ∀ c, (discipline polite).Fits (s.threads c) (gs c) := by
  refine Discipline.sound ?_ ?_ ?_ ?_ ?_ run
  · intro input l g g' rests taken
    exact ensures_iteration rests taken
  · intro gs tr s c l input inv allowed rests
    exact ⟨_, ⟨rfl, fun polite => of_decide_eq_true (kept s c _ allowed polite)⟩, locks_recv inv _ rests.1⟩
  · intro gs tr s c choice input l op r after inv allowed node exec
    have exec : Server.exec c choice op s.shared = some (r, after) := exec
    refine ⟨_, ⟨rfl, ?_⟩, locks_call inv node.1 node.2 exec⟩
    cases op with
    | find_table name =>
      intro polite
      obtain ⟨rfl, _⟩ := exec_find exec
      exact of_decide_eq_true (kept s c _ allowed polite)
    | get t key =>
      obtain ⟨tb, _, same, _⟩ := exec_get exec
      exact ⟨_, same⟩
    | _ => trivial
  · intro gs tr s c input l r inv _ _
    exact locks_finish inv
  · refine ⟨_, locks_opened quiescent, ?_⟩
    intro c
    exact ⟨rfl, fun _ => rfl, fun some_ => absurd rfl some_, rfl⟩

end TableServer.Exclusion
