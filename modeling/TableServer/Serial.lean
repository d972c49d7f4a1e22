import TableServer.Transactions

/-!
Every operation of a worker is a step of the ledger, so the units of all
connections can be executed one after another, in an order that each connection
agrees with, with the same values and the same tables in the end.
-/

namespace TableServer.Serial
open TableServer.Bytes TableServer.Messages TableServer.Stores TableServer.Connection TableServer.Server
open TableServer.Requests TableServer.Locking TableServer.Exclusion TableServer.Transactions
open Resumption Interleaving Serializability

variable {start : Contents Addr Str Str} {ledger : Ledger ConnId start} {gs : ConnId → Phase} {tr : ServerTrace}
  {sh sh' : Shared} {c : ConnId} {g' : Phase} {e : ServerEvent} {t : Addr} {tb tb' : Table}

/-- The phases of a unit that is open. -/
def Plain (g : Phase) : Prop := ∀ u tb x y, Standing g u tb x y ↔ tb.committed = x ∧ tb.read = y

private theorem plain_holding (L : List Addr) : Plain (.holding L) := fun _ _ _ _ => Iff.rfl
private theorem plain_locked (t : Addr) (empty : Bool) : Plain (.locked t empty) := fun _ _ _ _ => Iff.rfl
private theorem plain_accessed (t : Addr) : Plain (.accessed t) := fun _ _ _ _ => Iff.rfl

/-- Locking a free table. -/
theorem backed_acquire (locks : Locks gs tr sh) (backed : Backed ledger gs tr sh) (here : sh.heap t = some tb)
    (free : tb.m_mutex = none) (after : sh' = sh.put t { tb with m_mutex := some c })
    (tables : ∀ u, u ∈ g'.tables ↔ u = t ∨ u ∈ (gs c).tables) (plain : Plain (gs c)) (plain' : Plain g')
    (idle : unopened g' = true → ledger.current c = []) (log : (logOf c tr).step e = logOf c tr) :
    ∃ ledger' : Ledger ConnId start, Backed ledger' (Function.update gs c g') (tr ++ [(c, e)]) sh' := by
  subst after
  have unheld : ∀ d, t ∉ (gs d).tables := locks.unheld here free
  have nobody : ∀ d, ¬ ledger.holds d t := by
    intro d
    rw [backed.holds]
    exact unheld d
  refine ⟨ledger.acquire c t nobody, ?_⟩
  refine backed.touch locks _ (by rw [log]; exact backed.log c) (fun d other => Ledger.unmoved_acquire other) ?_ idle
    (fun u other => put_other sh other _) (fun d _ => unheld d) (put_self sh t _) ?_ (fun _ _ => rfl) ?_ ?_ ?_
  · intro u
    rw [tables]
    constructor
    · rintro (held | ⟨_, same⟩)
      · exact .inr ((backed.holds c u).mp held)
      · exact .inl same
    · rintro (same | inside)
      · exact .inr ⟨rfl, same⟩
      · exact .inl ((backed.holds c u).mpr inside)
  · intro u _ inside
    exact (tables u).mpr (.inr inside)
  · intro u other inside tb₁ here₁
    have before := ((tables u).mp inside).resolve_left other
    exact (plain' _ _ _ _).mpr ((plain _ _ _ _).mp (backed.held c u before tb₁ here₁))
  · intro _
    obtain ⟨committed, read⟩ := backed.free t unheld tb here
    have sees : ledger.view c t = ledger.settled t := backed.view_free (unheld c)
    exact (plain' _ _ _ _).mpr ⟨committed, read.trans sees.symm⟩
  · intro out
    exact absurd ((tables t).mpr (.inl rfl)) out

/-- A get or a set on a table that the worker has locked. -/
theorem backed_access (locks : Locks gs tr sh) (backed : Backed ledger gs tr sh) {a : Access Addr Str Str}
    {view' : Contents Addr Str Str} (inside : a.loc ∈ (gs c).tables) (here : sh.heap a.loc = some tb)
    (after : sh' = sh.put a.loc tb') (run : a.perform (ledger.view c) = some view')
    (committed : tb'.committed = tb.committed) (read : tb'.read = view' a.loc) (tables : g'.tables = (gs c).tables)
    (plain : Plain (gs c)) (plain' : Plain g') (opened : unopened g' = false)
    (log : (logOf c tr).step e = (logOf c tr).add a) :
    ∃ ledger' : Ledger ConnId start, Backed ledger' (Function.update gs c g') (tr ++ [(c, e)]) sh' := by
  subst after
  refine ⟨ledger.access c a ((backed.holds c _).mpr inside) view' run, ?_⟩
  refine backed.touch locks _ ?_ (fun d other => Ledger.unmoved_access other) ?_ ?_
    (fun u other => put_other sh other _)
    ?_ (put_self sh _ tb') ?_ (fun _ _ => rfl) ?_ ?_ ?_
  · rw [log, backed.log c, Ledger.access_current_self]
    rfl
  · intro u
    rw [tables]
    exact backed.holds c u
  · intro idle
    rw [opened] at idle
    cases idle
  · intro d other byD
    exact other (locks.exclusive byD inside)
  · intro u _ before
    rw [tables]
    exact before
  · intro u other member tb₁ here₁
    rw [tables] at member
    rw [Ledger.access_view_self, perform_outside run other]
    exact (plain' _ _ _ _).mpr ((plain _ _ _ _).mp (backed.held c u member tb₁ here₁))
  · intro _
    rw [Ledger.access_view_self]
    have before := (plain _ _ _ _).mp (backed.held c _ inside tb here)
    exact (plain' _ _ _ _).mpr ⟨committed.trans before.1, read⟩
  · intro out
    rw [tables] at out
    exact absurd inside out

/-- Committing or rolling back a table while it stays locked. -/
theorem backed_finish (locks : Locks gs tr sh) (backed : Backed ledger gs tr sh) (inside : t ∈ (gs c).tables)
    (after : sh' = sh.put t tb') (tables : g'.tables = (gs c).tables)
    (idle : unopened g' = true → unopened (gs c) = true)
    (rest : ∀ u, u ≠ t → u ∈ (gs c).tables → ∀ tb x y, Standing (gs c) u tb x y → Standing g' u tb x y)
    (mine : Standing g' t tb' (ledger.settled t) (ledger.view c t)) (log : (logOf c tr).step e = logOf c tr) :
    Backed ledger (Function.update gs c g') (tr ++ [(c, e)]) sh' := by
  subst after
  refine backed.touch locks ledger (by rw [log]; exact backed.log c) (fun d _ => ledger.unmoved_self d) ?_
    (fun opened => backed.idle c (idle opened)) (fun u other => put_other sh other _) ?_ (put_self sh t tb') ?_
    (fun _ _ => rfl) ?_ (fun _ => mine) ?_
  · intro u
    rw [tables]
    exact backed.holds c u
  · intro d other byD
    exact other (locks.exclusive byD inside)
  · intro u _ before
    rw [tables]
    exact before
  · intro u other member tb₁ here₁
    rw [tables] at member
    exact rest u other member tb₁ _ _ (backed.held c u member tb₁ here₁)
  · intro out
    rw [tables] at out
    exact absurd inside out

/-- Finishing one table leaves the others unfinished. -/
theorem standing_finish {ending : Ending} {R : List Addr} {u : Addr} {x y : Str → Str} (other : u ≠ t)
    (before : Standing (.releasing ending t R) u tb x y) : Standing (.finished ending t R) u tb x y := by
  rw [Standing, if_neg other]
  exact before

/-- Giving up a table when the unit is over, with this step or before it; `base` is the
    ledger in which it is over. -/
theorem backed_release (locks : Locks gs tr sh) (backed : Backed ledger gs tr sh) (base : Ledger ConnId start)
    (idle : base.current c = []) (log : (logOf c tr).step e = ⟨ofThread c base.order, base.current c⟩)
    (others : ∀ d, d ≠ c → ledger.Unmoved base d) (holds : ∀ u, base.holds c u ↔ ledger.holds c u)
    (outside : ∀ u, u ∉ (gs c).tables → base.settled u = ledger.settled u) (inside : t ∈ (gs c).tables)
    (tables : ∀ u, u ∈ g'.tables ↔ u ∈ (gs c).tables ∧ u ≠ t)
    (elsewhere : ∀ u, u ≠ t → sh'.heap u = sh.heap u) (here : sh'.heap t = some tb)
    (rest : ∀ u, u ∈ g'.tables → ∀ tb, sh.heap u = some tb → Standing g' u tb (base.settled u) (base.view c u))
    (done : tb.committed = base.settled t ∧ tb.read = base.settled t) :
    ∃ ledger' : Ledger ConnId start, Backed ledger' (Function.update gs c g') (tr ++ [(c, e)]) sh' := by
  refine ⟨base.release c t idle, ?_⟩
  refine backed.touch locks _ log (fun d other => (others d other).release other) ?_ (fun _ => idle) elsewhere ?_ here
    ?_
    outside (fun u _ member => rest u member) ?_ (fun _ => done)
  · intro u
    rw [tables, ← backed.holds c u, ← holds u]
    constructor
    · rintro ⟨held, apart⟩
      exact ⟨held, fun same => apart ⟨rfl, same⟩⟩
    · rintro ⟨held, apart⟩
      exact ⟨held, fun both => apart both.2⟩
  · intro d other byD
    exact other (locks.exclusive byD inside)
  · intro u other before
    exact (tables u).mpr ⟨before, other⟩
  · intro member
    exact absurd rfl ((tables t).mp member).2

/-- The end of a transaction, before its first table is committed or rolled back. -/
theorem backed_ending (locks : Locks gs tr sh) (backed : Backed ledger gs tr sh) {L : List Addr} (ending : Ending)
    (kept : Bool) (how : match ending with | .commit => kept = true | .rollback => kept = false)
    (at_ : gs c = .holding L) (log : (logOf c tr).step e = (logOf c tr).close kept) :
    ∃ ledger' : Ledger ConnId start, Backed ledger' (Function.update gs c (.release ending L)) (tr ++ [(c, e)]) sh := by
  have outside : ∀ u, u ∉ (gs c).tables → (ledger.finish c kept).settled u = ledger.settled u := by
    intro u out
    apply ledger.settledBy_other
    rw [backed.holds]
    exact out
  refine ⟨ledger.finish c kept, ?_⟩
  refine backed.move _ ?_ (fun d other => Ledger.unmoved_finish other kept) ?_ (fun _ => ledger.finish_current_self)
    (fun _ _ _ _ => rfl) ?_ ?_ ?_
  · rw [log, backed.log c, Ledger.finish_current_self]
    show _ = Log.mk (ofThread c (ledger.order ++ [(c, ⟨ledger.current c, kept⟩)])) []
    rw [ofThread_self]
    rfl
  · intro u
    rw [Phase.release_tables]
    have holds := backed.holds c u
    rw [at_] at holds
    exact holds
  · intro u inside tb here
    rw [Phase.release_tables] at inside
    have before := backed.held c u (by rw [at_]; exact inside) tb here
    rw [at_] at before
    cases L with
    | nil => cases inside
    | cons v rest =>
      cases ending with
      | commit =>
        obtain rfl : kept = true := how
        exact before.2
      | rollback =>
        obtain rfl : kept = false := how
        exact before.1
  · intro u out nobody tb here
    rw [Phase.release_tables] at out
    have before : u ∉ (gs c).tables := by
      rw [at_]
      exact out
    rw [outside u before]
    refine backed.free u ?_ tb here
    intro d
    by_cases mine : d = c
    · rw [mine]
      exact before
    · exact nobody d mine
  · intro u none_
    rw [outside u (locks.unknown none_ c)]
    exact backed.absent u none_

section Operations
variable {fresh : Addr} {input : Input} {l : Local}

private theorem serial_create {name : Str} (locks : Locks gs tr sh) (backed : Backed ledger gs tr sh)
    (at_ : ∃ L, gs c = .holding L) (run : exec c fresh (.create_table name) sh = some ((), sh')) :
    Backed ledger (Function.update gs c (next input (gs c) l (.create_table name) ()))
      (tr ++ [(c, .call input l (.create_table name) ())]) sh' := by
  obtain ⟨L, phase⟩ := at_
  obtain ⟨free, rfl⟩ := exec_create run
  have same : next input (gs c) l (.create_table name) () = gs c := by rw [phase]; rfl
  have unknown : ∀ d, fresh ∉ (gs d).tables := locks.unknown free
  have created : (sh.create name fresh).heap fresh = some (Table.create name) := by simp [Shared.create]
  rw [same]
  refine backed.touch locks ledger (backed.log c) (fun d _ => ledger.unmoved_self d) (backed.holds c) (backed.idle c)
    (fun u other => create_other other) (fun d _ => unknown d) created (fun u _ => id) (fun _ _ => rfl)
    (fun u _ inside => backed.held c u inside) (fun inside => absurd inside (unknown c)) ?_
  intro _
  rw [backed.absent fresh free, Table.read_of_clean (Table.create_temp name), Table.create_committed]
  exact ⟨rfl, rfl⟩

private theorem serial_lock (locks : Locks gs tr sh) (backed : Backed ledger gs tr sh) (at_ : gs c = .holding [])
    (run : exec c fresh (.lock t) sh = some ((), sh')) : ∃ ledger' : Ledger ConnId start,
      Backed ledger' (Function.update gs c (next input (gs c) l (.lock t) ()))
        (tr ++ [(c, .call input l (.lock t) ())]) sh' := by
  obtain ⟨tb, here, free, after⟩ := exec_lock run
  rw [at_]
  refine backed_acquire locks backed here free after ?_ (by rw [at_]; exact plain_holding []) (plain_locked t _) ?_ rfl
  · intro u
    simp [at_, next]
  · intro _
    apply ledger.current_free
    intro u
    rw [backed.holds, at_]
    exact List.not_mem_nil

private theorem serial_trylock {r : Bool} (locks : Locks gs tr sh) (backed : Backed ledger gs tr sh)
    (at_ : ∃ L, gs c = .holding L ∧ t ∉ L) (run : exec c fresh (.trylock t) sh = some (r, sh')) :
    ∃ ledger' : Ledger ConnId start, Backed ledger' (Function.update gs c (next input (gs c) l (.trylock t) r))
      (tr ++ [(c, .call input l (.trylock t) r)]) sh' := by
  obtain ⟨L, phase, _⟩ := at_
  obtain ⟨tb, here, ⟨rfl, free, after⟩ | ⟨rfl, busy, rfl⟩⟩ := exec_trylock run
  · rw [phase]
    refine backed_acquire locks backed here free after ?_ (by rw [phase]; exact plain_holding L)
      (plain_holding _) ?_ rfl
    · intro u
      rw [phase]
      exact TableSet.mem_insertAddr
    · intro opened
      cases opened
  · have released : next input (gs c) l (.trylock t) false = .release .rollback L := by rw [phase]; rfl
    rw [released]
    exact backed_ending locks backed .rollback false rfl phase rfl

private theorem serial_unlock (locks : Locks gs tr sh) (backed : Backed ledger gs tr sh)
    (consistent : Consistent l (gs c)) (at_ : gs c = .committed t ∨ ∃ ending rest, gs c = .finished ending t rest)
    (run : exec c fresh (.unlock t) sh = some ((), sh')) : ∃ ledger' : Ledger ConnId start,
      Backed ledger' (Function.update gs c (next input (gs c) l (.unlock t) ()))
        (tr ++ [(c, .call input l (.unlock t) ())]) sh' := by
  obtain ⟨tb, here, rfl⟩ := exec_unlock run
  have part := consistent.phase
  rcases at_ with phase | ⟨ending, R, phase⟩
  · -- A request outside a transaction is over.
    have locked : t ∈ (gs c).tables := by rw [phase]; exact List.mem_singleton.mpr rfl
    have mode : l.transaction_mode = false := by rw [phase] at part; exact part
    have standing := backed.held c t locked tb here
    rw [phase] at standing
    have released : next input (gs c) l (.unlock t) () = .holding [] := by rw [phase]; rfl
    rw [released]
    refine backed_release locks backed (ledger.finish c true) ledger.finish_current_self ?_
      (fun d other => Ledger.unmoved_finish other true) (fun _ => Iff.rfl) ?_ locked ?_
      (fun u other => put_other sh other _) (put_self sh t _) ?_ standing
    · rw [Ledger.finish_current_self]
      show (if l.transaction_mode = true then _ else (logOf c tr).close true) = _
      rw [mode, backed.log c]
      show _ = Log.mk (ofThread c (ledger.order ++ [(c, ⟨ledger.current c, true⟩)])) []
      rw [ofThread_self]
      rfl
    · intro u out
      exact ledger.settledBy_other true (fun held => out ((backed.holds c u).mp held))
    · intro u
      simp [phase]
    · intro u inside
      cases inside
  · -- A table of a transaction that is over.
    have locked : t ∈ (gs c).tables := by rw [phase]; exact List.mem_cons_self
    rw [phase] at part
    obtain ⟨before, all⟩ := part
    have mode : l.transaction_mode = true := by
      by_contra off
      have none_ := consistent.outside (Bool.eq_false_of_not_eq_true off)
      rw [all] at none_
      simp at none_
    have apart : t ∉ R := by
      have sorted := l.locked_tables.sorted
      rw [all] at sorted
      intro inside
      exact Nat.lt_irrefl t ((List.pairwise_cons.mp (List.pairwise_append.mp sorted).2.1).1 t inside)
    have standing := backed.held c t locked tb here
    rw [phase] at standing
    have released : next input (gs c) l (.unlock t) () = .release ending R := by rw [phase]; rfl
    rw [released]
    refine backed_release locks backed ledger (backed.idle c (by rw [phase]; rfl)) ?_ (fun d _ => ledger.unmoved_self d)
      (fun _ => Iff.rfl) (fun _ _ => rfl) locked ?_ (fun u other => put_other sh other _) (put_self sh t _) ?_ ?_
    · show (if l.transaction_mode = true then logOf c tr else _) = _
      rw [mode]
      exact backed.log c
    · intro u
      rw [Phase.release_tables, phase]
      constructor
      · intro inside
        refine ⟨List.mem_cons_of_mem _ inside, ?_⟩
        rintro rfl
        exact apart inside
      · rintro ⟨inside, other⟩
        exact (List.mem_cons.mp inside).resolve_left other
    · intro u inside tb₁ here₁
      rw [Phase.release_tables] at inside
      have unfinished := backed.held c u (by rw [phase]; exact List.mem_cons_of_mem _ inside) tb₁ here₁
      rw [phase, Standing, if_neg (by rintro rfl; exact apart inside)] at unfinished
      cases R with
      | nil => cases inside
      | cons v rest => exact unfinished
    · rw [Standing, if_pos rfl] at standing
      exact standing

/-- In which phases a worker accesses a table, before and after. -/
theorem accesses_plain {op : Op} {r : Res op} (access : (∃ k, op = .get t k) ∨ ∃ k v, op = .set t k v)
    (at_ : (∃ empty, gs c = .locked t empty) ∨ ∃ L, gs c = .holding L ∧ t ∈ L) :
    t ∈ (gs c).tables ∧ (next input (gs c) l op r).tables = (gs c).tables ∧ Plain (gs c) ∧
      Plain (next input (gs c) l op r) ∧ unopened (next input (gs c) l op r) = false := by
  rcases at_ with ⟨empty, phase⟩ | ⟨L, phase, inside⟩
  · rw [phase]
    rcases access with ⟨k, rfl⟩ | ⟨k, v, rfl⟩
    · exact ⟨List.mem_singleton.mpr rfl, rfl, plain_locked t empty, plain_accessed t, rfl⟩
    · exact ⟨List.mem_singleton.mpr rfl, rfl, plain_locked t empty, plain_accessed t, rfl⟩
  · rw [phase]
    rcases access with ⟨k, rfl⟩ | ⟨k, v, rfl⟩
    · exact ⟨inside, rfl, plain_holding L, plain_holding L, rfl⟩
    · exact ⟨inside, rfl, plain_holding L, plain_holding L, rfl⟩

private theorem serial_get {key : Str} {r : Except Exn Str} (locks : Locks gs tr sh) (backed : Backed ledger gs tr sh)
    (at_ : (∃ empty, gs c = .locked t empty) ∨ ∃ L, gs c = .holding L ∧ t ∈ L)
    (run : exec c fresh (.get t key) sh = some (r, sh')) : ∃ ledger' : Ledger ConnId start,
      Backed ledger' (Function.update gs c (next input (gs c) l (.get t key) r))
        (tr ++ [(c, .call input l (.get t key) r)]) sh' := by
  obtain ⟨tb, here, rfl, after⟩ := exec_get run
  obtain ⟨inside, tables, plain, plain', opened⟩ := accesses_plain (.inl ⟨key, rfl⟩) at_
  have reads := ((plain _ _ _ _).mp (backed.held c t inside tb here)).2
  have member : (Access.get t key (tb.read key)).loc ∈ (gs c).tables := inside
  have found : Access.perform (ledger.view c) (.get t key (tb.read key)) = some (ledger.view c) :=
    if_pos (congrFun reads key).symm
  exact backed_access locks backed member here after found (Table.touch_committed tb key)
    ((Table.touch_read tb key).trans reads) tables plain plain' opened rfl

private theorem serial_set {key value : Str} (locks : Locks gs tr sh) (backed : Backed ledger gs tr sh)
    (at_ : (∃ empty, gs c = .locked t empty) ∨ ∃ L, gs c = .holding L ∧ t ∈ L)
    (run : exec c fresh (.set t key value) sh = some ((), sh')) : ∃ ledger' : Ledger ConnId start,
      Backed ledger' (Function.update gs c (next input (gs c) l (.set t key value) ()))
        (tr ++ [(c, .call input l (.set t key value) ())]) sh' := by
  obtain ⟨tb, here, after⟩ := exec_set run
  obtain ⟨inside, tables, plain, plain', opened⟩ := accesses_plain (.inr ⟨key, value, rfl⟩) at_
  have reads := ((plain _ _ _ _).mp (backed.held c t inside tb here)).2
  have member : (Access.set t key value).loc ∈ (gs c).tables := inside
  have written : Access.perform (ledger.view c) (.set t key value) =
      some (Function.update (ledger.view c) t (Function.update (ledger.view c t) key value)) := rfl
  refine backed_access locks backed member here after written (Table.set_committed tb key value) ?_ tables plain plain'
    opened rfl
  rw [Table.set_read, reads]
  show _ = Function.update (ledger.view c) t (Function.update (ledger.view c t) key value) t
  rw [Function.update_self]

private theorem serial_commit (locks : Locks gs tr sh) (backed : Backed ledger gs tr sh)
    (at_ : gs c = .accessed t ∨ ∃ rest, gs c = .releasing .commit t rest)
    (run : exec c fresh (.commit_changes t) sh = some ((), sh')) :
    Backed ledger (Function.update gs c (next input (gs c) l (.commit_changes t) ()))
      (tr ++ [(c, .call input l (.commit_changes t) ())]) sh' := by
  obtain ⟨tb, here, after⟩ := exec_commit run
  have read : tb.commit_changes.read = tb.read := by
    rw [Table.read_of_clean (Table.commit_temp tb), Table.commit_committed]
  rcases at_ with phase | ⟨R, phase⟩
  · have inside : t ∈ (gs c).tables := by rw [phase]; exact List.mem_singleton.mpr rfl
    have standing := backed.held c t inside tb here
    rw [phase] at standing
    have moved : next input (gs c) l (.commit_changes t) () = .committed t := by rw [phase]; rfl
    rw [moved]
    refine backed_finish locks backed inside after (by rw [phase]; rfl) (fun opened => by cases opened) ?_
      ⟨(Table.commit_committed tb).trans standing.2, read.trans standing.2⟩ rfl
    intro u other member
    rw [phase] at member
    exact absurd (List.mem_singleton.mp member) other
  · have inside : t ∈ (gs c).tables := by rw [phase]; exact List.mem_cons_self
    have standing := backed.held c t inside tb here
    rw [phase] at standing
    have moved : next input (gs c) l (.commit_changes t) () = .finished .commit t R := by rw [phase]; rfl
    rw [moved]
    refine backed_finish locks backed inside after (by rw [phase]; rfl) (fun _ => by rw [phase]; rfl) ?_ ?_ rfl
    · intro u other _ tb x y before
      rw [phase] at before
      exact standing_finish other before
    · rw [Standing, if_pos rfl]
      exact ⟨(Table.commit_committed tb).trans standing, read.trans standing⟩

private theorem serial_rollback (locks : Locks gs tr sh) (backed : Backed ledger gs tr sh)
    (at_ : ∃ rest, gs c = .releasing .rollback t rest) (run : exec c fresh (.rollback_changes t) sh = some ((), sh')) :
    Backed ledger (Function.update gs c (next input (gs c) l (.rollback_changes t) ()))
      (tr ++ [(c, .call input l (.rollback_changes t) ())]) sh' := by
  obtain ⟨tb, here, after⟩ := exec_rollback run
  obtain ⟨R, phase⟩ := at_
  have inside : t ∈ (gs c).tables := by rw [phase]; exact List.mem_cons_self
  have standing := backed.held c t inside tb here
  rw [phase] at standing
  have moved : next input (gs c) l (.rollback_changes t) () = .finished .rollback t R := by rw [phase]; rfl
  rw [moved]
  refine backed_finish locks backed inside after (by rw [phase]; rfl) (fun _ => by rw [phase]; rfl) ?_ ?_ rfl
  · intro u other _ tb x y before
    rw [phase] at before
    exact standing_finish other before
  · rw [Standing, if_pos rfl, Table.read_of_clean (Table.rollback_temp tb), Table.rollback_committed]
    exact ⟨standing, standing⟩

private theorem serial_write {line : Str} (locks : Locks gs tr sh) (backed : Backed ledger gs tr sh)
    (at_ : (∃ L, gs c = .holding L) ∨ ∃ t, gs c = .locked t true)
    (run : exec c fresh (.write line) sh = some ((), sh')) : ∃ ledger' : Ledger ConnId start,
      Backed ledger' (Function.update gs c (next input (gs c) l (.write line) ()))
        (tr ++ [(c, .call input l (.write line) ())]) sh' := by
  obtain rfl := exec_write run
  rcases at_ with ⟨L, phase⟩ | ⟨t, phase⟩
  · have same : next input (gs c) l (.write line) () = gs c := by rw [phase]; rfl
    rw [same]
    exact ⟨ledger, backed.still rfl rfl⟩
  · -- The table of a failed SET stays locked, as it was.
    have same : next input (gs c) l (.write line) () = .holding [] := by rw [phase]; rfl
    rw [same]
    have inside : t ∈ (gs c).tables := by rw [phase]; exact List.mem_singleton.mpr rfl
    have idle := backed.idle c (by rw [phase]; rfl)
    obtain ⟨tb, here, _⟩ := locks.held c t inside
    have standing := backed.held c t inside tb here
    rw [phase, ledger.view_idle idle] at standing
    refine backed_release locks backed ledger idle (backed.log c) (fun d _ => ledger.unmoved_self d) (fun _ => Iff.rfl)
      (fun _ _ => rfl) inside ?_ (fun _ _ => rfl) here ?_ standing
    · intro u
      simp [phase]
    · intro u member
      cases member

private theorem serial_call {choice : Addr} {op : Op} {r : Res op} (locks : Locks gs tr sh)
    (backed : Backed ledger gs tr sh)
    (consistent : Consistent l (gs c)) (allowed : Allowed (gs c) l op) (run : exec c choice op sh = some (r, sh')) :
    ∃ ledger' : Ledger ConnId start, Backed ledger' (Function.update gs c (next input (gs c) l op r))
      (tr ++ [(c, .call input l op r)]) sh' := by
  cases op with
  | find_table name =>
    obtain ⟨L, phase⟩ := allowed
    obtain ⟨_, rfl⟩ := exec_find run
    have same : next input (gs c) l (.find_table name) r = gs c := by rw [phase]; rfl
    rw [same]
    exact ⟨ledger, backed.still rfl rfl⟩
  | create_table name => exact ⟨ledger, serial_create locks backed allowed run⟩
  | lock t => exact serial_lock locks backed allowed.1 run
  | trylock t => exact serial_trylock locks backed allowed run
  | unlock t => exact serial_unlock locks backed consistent allowed run
  | get t key => exact serial_get locks backed allowed run
  | set t key value => exact serial_set locks backed allowed run
  | commit_changes t => exact ⟨ledger, serial_commit locks backed allowed run⟩
  | rollback_changes t => exact ⟨ledger, serial_rollback locks backed allowed run⟩
  | write line => exact serial_write locks backed allowed run

private theorem serial_recv (locks : Locks gs tr sh) (backed : Backed ledger gs tr sh)
    (consistent : Consistent l (gs c)) (at_ : gs c = .holding l.locked_tables.addrs) : ∃ ledger' : Ledger ConnId start,
      Backed ledger' (Function.update gs c (take (gs c) l input)) (tr ++ [(c, .recv l input)]) sh := by
  by_cases ends_ : commits l input = true
  · obtain ⟨⟨login, _⟩, commit⟩ : (l.logged_in = true ∧ l.transaction_mode = true) ∧
        (requestOf input).any (·.m_message_type = .COMMIT) = true := by
      simpa only [commits, Bool.and_eq_true] using ends_
    have taken : take (gs c) l input = .release .commit l.locked_tables.addrs := by
      rw [at_, take, login, commit]
      rfl
    rw [taken]
    exact backed_ending locks backed .commit true rfl at_ (if_pos ends_)
  · have taken : take (gs c) l input = gs c := by
      rw [at_, take]
      split
      · rename_i asked
        -- A COMMIT outside a transaction finds no table to release.
        have mode : l.transaction_mode = false := by
          by_contra on
          simp only [Bool.and_eq_true] at asked
          simp [commits, asked.1, asked.2, Bool.eq_true_of_not_eq_false on] at ends_
        rw [consistent.outside mode]
        rfl
      · rfl
    rw [taken]
    exact ⟨ledger, backed.still rfl (if_neg ends_)⟩

private theorem serial_finish {r : Except Fault Bool} (backed : Backed ledger gs tr sh) :
    Backed ledger gs (tr ++ [(c, .finish input l r)]) sh := by
  have kept : Backed ledger (Function.update gs c (gs c)) (tr ++ [(c, .finish input l r)]) sh := backed.still rfl rfl
  simpa using kept

end Operations

variable {memory : ConnId → Bool} {s : ServerState}

/-- The locks of all workers, and a ledger of their units. -/
structure Accounted (start : Contents Addr Str Str) (gs : ConnId → Phase) (tr : ServerTrace) (sh : Shared) : Prop where
  locks : Locks gs tr sh
  backed : ∃ ledger : Ledger ConnId start, Backed ledger gs tr sh

/-- In every reachable state the locks are in order and the tables show a ledger. -/
theorem serial_run (quiescent : Quiescent sh) (run : Run server anyStep (opened sh memory) tr s) :
    ∃ gs, Accounted (contents sh) gs tr s.shared ∧ ∀ c, (discipline False).Fits (s.threads c) (gs c) := by
  refine Discipline.sound ?_ ?_ ?_ ?_ ?_ run
  · intro input l g g' rests taken
    exact ensures_iteration rests taken
  · rintro gs tr s c l input ⟨locks, ledger, backed⟩ _ ⟨phase, consistent⟩
    exact ⟨_, ⟨rfl, False.elim⟩, locks_recv locks _ phase, serial_recv locks backed consistent phase⟩
  · rintro gs tr s c choice input l op r after ⟨locks, ledger, backed⟩ _ ⟨consistent, allowed⟩ exec
    have exec : Server.exec c choice op s.shared = some (r, after) := exec
    refine ⟨_, ⟨rfl, ?_⟩, locks_call locks consistent allowed exec, serial_call locks backed consistent allowed exec⟩
    cases op with
    | find_table name => exact False.elim
    | get t key =>
      obtain ⟨tb, _, same, _⟩ := exec_get exec
      exact ⟨_, same⟩
    | _ => trivial
  · rintro gs tr s c input l r ⟨locks, ledger, backed⟩ _ _
    exact ⟨locks_finish locks, ledger, serial_finish backed⟩
  · refine ⟨_, ⟨locks_opened quiescent, _, backed_opened quiescent⟩, ?_⟩
    intro c
    exact ⟨rfl, fun _ => rfl, fun some_ => absurd rfl some_, rfl⟩

/-- Serializability: the units of all connections have an order that each connection
    agrees with, in which each, executed after the ones before it, gets the values that
    it got, and which leaves every table that nobody has locked as it is. -/
theorem serializable (quiescent : Quiescent sh) (run : Run server anyStep (opened sh memory) tr s) :
    ∃ order : List (ConnId × Transaction Addr Str Str), (∀ c, ofThread c order = units c tr) ∧
      ∃ left, serial (contents sh) order = some left ∧
        ∀ t tb, s.shared.heap t = some tb → tb.m_mutex = none → ∀ k, (tb.get k).map Prod.fst = .ok (left t k) := by
  obtain ⟨gs, ⟨locks, ledger, backed⟩, _⟩ := serial_run quiescent run
  refine ⟨ledger.order, ?_, ledger.settled, ledger.settles, ?_⟩
  · intro c
    rw [units, backed.log c]
  · intro t tb here free k
    rw [Table.get_eq, ← (backed.free t (locks.unheld here free) tb here).2]
    rfl

/-- Two clients meet at two tables: the second one's transaction is rolled back while the
    first one's goes on, and afterwards it reads what the first one has committed. -/
def meeting : List (ConnId × Action Input Addr) :=
  turn 0 "LOGIN ann\n" 2 0 ++ turn 0 "CREATE a\n" 4 0 ++ turn 0 "CREATE b\n" 4 1 ++ turn 0 "PUSH 5\n" 2 0 ++
    turn 0 "BEGIN\n" 2 0 ++ turn 0 "SET a k\n" 5 0 ++ turn 1 "LOGIN bob\n" 2 0 ++ turn 1 "BEGIN\n" 2 0 ++
    turn 1 "GET b k\n" 5 0 ++ turn 1 "GET a k\n" 6 0 ++ turn 0 "GET b k\n" 5 0 ++ turn 0 "COMMIT\n" 6 0 ++
    turn 1 "GET a k\n" 7 0

theorem serializable_meeting : ∃ (order : List (ConnId × Transaction Addr Str Str)) (left : Contents Addr Str Str),
    ofThread 0 order = [⟨[.set 0 (lit "k") (lit "5"), .get 1 (lit "k") []], true⟩] ∧
    ofThread 1 order = [⟨[.get 1 (lit "k") []], false⟩, ⟨[.get 0 (lit "k") (lit "5")], true⟩] ∧
    serial (contents .initial) order = some left ∧ left 0 (lit "k") = lit "5" := by
  have shown : (execute server noCheck meeting (booted fun _ => false)).any (fun r =>
      units 0 r.1 == [⟨[.set 0 (lit "k") (lit "5"), .get 1 (lit "k") []], true⟩] &&
        units 1 r.1 == [⟨[.get 1 (lit "k") []], false⟩, ⟨[.get 0 (lit "k") (lit "5")], true⟩] &&
        (r.2.shared.heap 0).any (fun tb => tb.m_mutex == none && tb.read (lit "k") == lit "5")) = true := by
    decide +kernel
  obtain ⟨tr, s, run, holds⟩ := run_of_check shown
  simp only [Bool.and_eq_true, beq_iff_eq, Option.any_eq_true] at holds
  obtain ⟨⟨first, second⟩, tb, here, free, value⟩ := holds
  obtain ⟨order, same, left, executes, shows⟩ := serializable initial_quiescent run.any
  have last := shows 0 tb here free (lit "k")
  rw [Table.get_eq, value] at last
  exact ⟨order, left, (same 0).trans first, (same 1).trans second, executes, (Except.ok.inj last).symm⟩

end TableServer.Serial
