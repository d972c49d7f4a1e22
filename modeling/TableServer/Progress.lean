import TableServer.Draining
import TableServer.LockSafety
import TableServer.Footprint

/-!
What the workers have still to do, they do. Every table that a worker asks for is there,
so that a worker can be held up in one way only, in `lock`, by whoever has locked the
table. Without further requests all workers come to rest, and one that still waits then
waits for a connection that has left its transaction open.
-/

namespace TableServer.Progress
open TableServer.Bytes TableServer.Messages TableServer.Serialization TableServer.Stores TableServer.Connection
open TableServer.Server TableServer.Requests TableServer.Locking TableServer.LockSafety TableServer.Exclusion
open TableServer.Footprint
open Resumption Interleaving

variable {memory : ConnId → Bool} {tr : ServerTrace} {s : ServerState} {sh sh' : Shared} {c : ConnId} {fresh : Addr}
  {op : Op} {r : Res op} {input : Input} {l : Local}

/-- What an operation does to the store: nothing, something to one table, or a new table. -/
theorem exec_cases (run : exec c fresh op sh = some (r, sh')) : sh' = sh ∨
    (∃ t tb tb', sh.heap t = some tb ∧ tb'.m_name = tb.m_name ∧ sh' = sh.put t tb') ∨
    ∃ name, op = .create_table name ∧ sh.heap fresh = none ∧ sh' = sh.create name fresh := by
  cases op with
  | find_table name => exact .inl (exec_find run).2
  | create_table name =>
    obtain ⟨free, after⟩ := exec_create run
    exact .inr (.inr ⟨name, rfl, free, after⟩)
  | lock t =>
    obtain ⟨tb, here, _, after⟩ := exec_lock run
    exact .inr (.inl ⟨t, tb, _, here, by rfl, after⟩)
  | trylock t =>
    obtain ⟨tb, here, ⟨_, _, after⟩ | ⟨_, _, same⟩⟩ := exec_trylock run
    · exact .inr (.inl ⟨t, tb, _, here, by rfl, after⟩)
    · exact .inl same
  | unlock t =>
    obtain ⟨tb, here, after⟩ := exec_unlock run
    exact .inr (.inl ⟨t, tb, _, here, by rfl, after⟩)
  | get t key =>
    obtain ⟨tb, here, _, after⟩ := exec_get run
    refine .inr (.inl ⟨t, tb, _, here, ?_, after⟩)
    unfold Table.touch
    split <;> rfl
  | set t key value =>
    obtain ⟨tb, here, after⟩ := exec_set run
    exact .inr (.inl ⟨t, tb, _, here, by rfl, after⟩)
  | commit_changes t =>
    obtain ⟨tb, here, after⟩ := exec_commit run
    exact .inr (.inl ⟨t, tb, _, here, by rfl, after⟩)
  | rollback_changes t =>
    obtain ⟨tb, here, after⟩ := exec_rollback run
    exact .inr (.inl ⟨t, tb, _, here, by rfl, after⟩)
  | write line => exact .inl (exec_write run)

/-- There is a table of that name at the address. -/
def Named (sh : Shared) (t : Addr) (name : Str) : Prop := ∃ tb, sh.heap t = some tb ∧ tb.m_name = name

/-- Tables stay, under their names. -/
theorem named_exec (run : exec c fresh op sh = some (r, sh')) {t : Addr} {name : Str} (named : Named sh t name) :
    Named sh' t name := by
  obtain ⟨tb, here, same⟩ := named
  rcases exec_cases run with rfl | ⟨u, tb', tb'', there, kept, rfl⟩ | ⟨name', _, free, rfl⟩
  · exact ⟨tb, here, same⟩
  · by_cases at_ : t = u
    · subst at_
      obtain rfl : tb = tb' := Option.some.inj (here.symm.trans there)
      exact ⟨tb'', put_self .., kept.trans same⟩
    · exact ⟨tb, by rw [put_other sh at_]; exact here, same⟩
  · refine ⟨tb, ?_, same⟩
    rw [create_other]
    · exact here
    · rintro rfl
      rw [free] at here
      cases here

/-- The map leads to tables of the names that it has for them, and there is room for more. -/
structure Registered (sh : Shared) : Prop where
  known : ∀ (name : Str) (t : Addr), sh.server_tables[name]? = some t → Named sh t name
  room : ∃ n, ∀ t, n ≤ t → sh.heap t = none

private theorem registered_initial : Registered .initial := by
  refine ⟨?_, 0, fun _ _ => rfl⟩
  intro name t found
  simp [Shared.initial] at found

private theorem Registered.exec (registered : Registered sh) (run : exec c fresh op sh = some (r, sh')) :
    Registered sh' := by
  obtain ⟨known, n, room⟩ := registered
  have kept {t : Addr} {name : Str} : Named sh t name → Named sh' t name := named_exec run
  rcases exec_cases run with rfl | ⟨u, tb, tb', here, _, rfl⟩ | ⟨name, _, _, rfl⟩
  · exact ⟨known, n, room⟩
  · refine ⟨fun name t found => kept (known name t found), n, ?_⟩
    intro t beyond
    rw [put_other]
    · exact room t beyond
    · rintro rfl
      rw [room t beyond] at here
      cases here
  · refine ⟨?_, max n (fresh + 1), ?_⟩
    · intro name' t found
      have entry : (sh.server_tables.insert name fresh)[name']? = some t := found
      rw [getElem?_insert] at entry
      split at entry
      · rename_i same
        cases entry
        exact ⟨Table.create name, by simp [Shared.create], by simpa [Table.create] using same⟩
      · exact kept (known name' t entry)
    · intro t beyond
      obtain ⟨old, new⟩ := max_le_iff.mp beyond
      rw [create_other (Nat.ne_of_gt new)]
      exact room t old

/-- The operation takes a mutex. -/
def acquires : Op → Option Addr
  | .lock t => some t
  | .trylock t => some t
  | _ => none

/-- The ghost state is what the last look-up has returned, with the name. -/
def finding : Discipline (Option (Str × Addr)) Local Input Fault Op Res where
  rest _ _ := True
  gone _ _ := True
  failed _ _ _ := True
  node _ g _ op := ∀ t, acquires op = some t → ∃ name, g = some (name, t)
  take g _ _ g' := g' = g
  next _ g _ op r g' :=
    match op, r with
    | .find_table name, found => g' = found.map fun t => (name, t)
    | _, _ => g' = g

/-- The operation neither looks a table up nor takes a mutex. -/
def Onward (_ : Local) : Op → Prop
  | .find_table _ => False
  | .lock _ => False
  | .trylock _ => False
  | _ => True

private theorem finding_outcome {result : Except Fault Bool} {g : Option (Str × Addr)} :
    finding.outcome result l g := by
  rcases result with f | keep
  · trivial
  · cases keep <;> trivial

private theorem finding_onward {p : Iteration} {g : Option (Str × Addr)} (onward : p.Calls Onward) :
    finding.Ensures input finding.outcome p g := by
  refine Discipline.ensures_calls onward ?_ fun _ _ => finding_outcome
  intro l op allowed
  constructor
  · intro t takes
    cases op with
    | lock u | trylock u => exact allowed.elim
    | _ => cases takes
  · intro r g' moves
    cases op with
    | find_table name => exact allowed.elim
    | _ => exact moves

private theorem onward_settle (result : Except Fault Bool) (l : Local) : (settle result l).Calls Onward := by
  have answers : ∀ (keep : Bool) (l : Local), (responding keep l).Calls Onward :=
    fun keep l => calls_responding keep fun _ => trivial
  apply settle_cases
  · intro f
    trivial
  · intro keep t args
    exact answers keep _
  · intro what
    exact calls_releasing .rollback (fun _ => trivial) (fun _ => trivial) _ (answers true _)

private theorem onward_autocommitting {t : Addr} {after : Iteration} (then_ : after.Calls Onward) :
    (autocommitting t l after).Calls Onward := by
  unfold autocommitting
  split
  · exact then_
  · exact ⟨trivial, fun _ => ⟨trivial, fun _ => then_⟩⟩

private theorem onward_reading (t : Addr) (k : Str) (l : Local) : (reading t k l).Calls Onward := by
  refine ⟨trivial, ?_⟩
  rintro (e | v)
  · trivial
  · exact onward_autocommitting (Prog.calls_done _ _)

private theorem onward_writing (t : Addr) (k : Str) (l : Local) : (writing t k l).Calls Onward := by
  unfold writing
  split
  · trivial
  · exact ⟨trivial, fun _ => onward_autocommitting (Prog.calls_done _ _)⟩

private theorem onward_settled {p : Iteration} (onward : p.Calls Onward) : (p.bind settle).Calls Onward :=
  Prog.calls_bind onward onward_settle

private theorem finding_onTable {n : Str} {use : Addr → Local → Iteration} {g : Option (Str × Addr)}
    (uses : ∀ t l, (use t l).Calls Onward) :
    finding.Ensures input finding.outcome ((onTable n l use).bind settle) g := by
  refine ⟨by rintro t ⟨⟩, ?_⟩
  rintro (_ | t) g' rfl
  · exact finding_onward (onward_settle _ _)
  · show finding.Ensures input finding.outcome ((locking t l (use t)).bind settle) (some (n, t))
    have mine : ∀ u, some t = some u → ∃ name, some (n, t) = some (name, u) := by
      rintro u ⟨⟩
      exact ⟨n, rfl⟩
    unfold locking
    split
    · split
      · exact finding_onward (onward_settled (uses t l))
      · refine ⟨mine, ?_⟩
        rintro got _ rfl
        cases got with
        | false => exact finding_onward (onward_settle _ _)
        | true => exact finding_onward (onward_settled (uses t _))
    · exact ⟨mine, fun _ _ _ => finding_onward (onward_settled (uses t l))⟩

private theorem finding_iteration {g : Option (Str × Addr)} :
    finding.Ensures input finding.outcome (chat_with_client input l) g := by
  cases asked : requestOf input with
  | none =>
    obtain ⟨e, whole⟩ := unread_run (l := l) asked
    rw [whole]
    exact finding_onward (onward_settle _ _)
  | some m =>
    by_cases login : m.m_message_type = .LOGIN
    · rw [login_run asked login]
      exact finding_onward (calls_responding true fun _ => trivial)
    · cases known : l.logged_in with
      | false =>
        rw [stranger_run asked login known]
        exact finding_onward (onward_settle _ _)
      | true =>
        rw [request_run asked login known]
        rcases request_forms (request_valid asked) with ⟨n, rfl⟩ | ⟨n, k, rfl⟩ | ⟨n, k, rfl⟩ | rfl | quiet
        · refine ⟨by rintro t ⟨⟩, ?_⟩
          rintro (_ | t) g' rfl
          · exact finding_onward ⟨trivial, fun _ => onward_settle _ _⟩
          · exact finding_onward (onward_settle _ _)
        · exact finding_onTable fun t => onward_reading t k
        · exact finding_onTable fun t => onward_writing t k
        · refine finding_onward (onward_settled ?_)
          exact calls_releasing .commit (fun _ => trivial) (fun _ => trivial) _ (Prog.calls_done _ _)
        · rw [requesting_quiet quiet]
          exact finding_onward (onward_settle _ _)

/-- The store is registered, and what the look-ups have returned is there. -/
structure Found (gs : ConnId → Option (Str × Addr)) (tr : ServerTrace) (sh : Shared) : Prop where
  registered : Registered sh
  last : ∀ c name t, gs c = some (name, t) → Named sh t name
  looked : ∀ c input l name t, (c, .call input l (.find_table name) (some t)) ∈ tr → Named sh t name

section
variable {gs : ConnId → Option (Str × Addr)}

/-- After an operation that looks up nothing. -/
theorem Found.exec (inv : Found gs tr sh) (run : Server.exec c fresh op sh = some (r, sh'))
    (other : ∀ name, op ≠ .find_table name) : Found gs (tr ++ [(c, .call input l op r)]) sh' := by
  refine ⟨inv.registered.exec run, fun d name t last => named_exec run (inv.last d name t last), ?_⟩
  intro d input' l' name t inside
  rcases List.mem_append.mp inside with before | now
  · exact named_exec run (inv.looked d input' l' name t before)
  · cases List.mem_singleton.mp now
    exact absurd rfl (other name)

/-- After a look-up. -/
theorem Found.find (inv : Found gs tr sh) {name : Str} : Found
    (Function.update gs c (sh.server_tables[name]?.map fun t => (name, t)))
    (tr ++ [(c, .call input l (.find_table name) sh.server_tables[name]?)]) sh := by
  refine ⟨inv.registered, ?_, ?_⟩
  · refine (Function.forall_update_iff gs fun d g => ∀ name t, g = some (name, t) → Named sh t name).mpr ⟨?_, ?_⟩
    · intro name' t last
      obtain ⟨u, found, same⟩ := Option.map_eq_some_iff.mp last
      cases same
      exact inv.registered.known _ _ found
    · intro d _
      exact inv.last d
  · intro d input' l' name' t inside
    rcases List.mem_append.mp inside with before | now
    · exact inv.looked d input' l' name' t before
    · obtain ⟨_, same⟩ := Prod.mk.inj (List.mem_singleton.mp now)
      injection same with _ _ op found
      cases op
      exact inv.registered.known name t found.symm

end

theorem found_run {ok : ServerState → ConnId → ServerEvent → Prop} (registered : Registered sh)
    (run : Run server ok (opened sh memory) tr s) :
    ∃ gs, Found gs tr s.shared ∧ ∀ c, finding.Fits (s.threads c) (gs c) := by
  refine Discipline.sound ?_ ?_ ?_ ?_ ?_ run
  · intro input l g g' _ _
    exact finding_iteration
  · intro gs tr s c l input inv _ _
    refine ⟨gs c, rfl, ?_⟩
    rw [Function.update_eq_self]
    exact ⟨inv.registered, inv.last, fun d input' l' name t inside =>
      inv.looked d input' l' name t (by simpa using inside)⟩
  · intro gs tr s c choice input l op r after inv _ node exec
    have exec : Server.exec c choice op s.shared = some (r, after) := exec
    have stays (other : ∀ name, op ≠ .find_table name) :
        Found (Function.update gs c (gs c)) (tr ++ [(c, .call input l op r)]) after := by
      rw [Function.update_eq_self]
      exact inv.exec exec other
    cases op with
    | find_table name =>
      obtain ⟨rfl, rfl⟩ := exec_find exec
      exact ⟨_, rfl, inv.find⟩
    | _ => exact ⟨gs c, rfl, stays (by simp)⟩
  · intro gs tr s c input l r inv _ _
    exact ⟨inv.registered, inv.last, fun d input' l' name t inside =>
      inv.looked d input' l' name t (by simpa using inside)⟩
  · refine ⟨fun _ => none, ⟨registered, ?_, ?_⟩, fun _ => trivial⟩
    · intro c name t none_
      cases none_
    · intro c input l name t inside
      cases inside

private theorem usedTable_there {gs : ConnId → Phase} (inv : Locks gs tr sh) {t : Addr}
    (allowed : Locking.Allowed (gs c) l op) (uses : usedTable op = some t) : ∃ tb, sh.heap t = some tb := by
  obtain ⟨tb, here, _⟩ := inv.held c t (allowed_used allowed uses)
  exact ⟨tb, here⟩

/-- Every table that an operation of a worker needs is there. -/
theorem table_there (run : Run server anyStep (booted memory) tr s) {t : Addr} (next : nextOp (s.threads c) = some op)
    (needs : tableOf op = some t) : ∃ tb, s.shared.heap t = some tb := by
  obtain ⟨_, found, finds⟩ := found_run registered_initial run
  obtain ⟨_, locks, fits⟩ := locks_run initial_quiescent (fun _ _ _ _ => False.elim) run
  cases takes : acquires op with
  | some u =>
    obtain ⟨input, l, k, at_⟩ := nextOp_eq next
    have fit := finds c
    rw [at_] at fit
    obtain ⟨name, last⟩ := fit.1 u takes
    obtain rfl : u = t := by
      cases op with
      | lock v | trylock v => exact Option.some.inj (takes.symm.trans needs)
      | _ => cases takes
    obtain ⟨tb, here, _⟩ := found.last c name u last
    exact ⟨tb, here⟩
  | none =>
    refine usedTable_there locks (fits_allowed (fits c) next) ?_
    cases op with
    | lock v | trylock v => cases takes
    | _ => exact needs

/-- The table map and what the workers know of it. -/
structure Registry (tr : ServerTrace) (s : ServerState) : Prop where
  /-- Each name leads to a table of that name. -/
  entries : ∀ (name : Str) (t : Addr), s.shared.server_tables[name]? = some t → Named s.shared t name
  /-- No table is entered under two names. -/
  apart : ∀ (name name' : Str) (t : Addr), s.shared.server_tables[name]? = some t →
    s.shared.server_tables[name']? = some t → name = name'
  /-- What a look-up has returned stays a table of that name, also when it is no longer in the map. -/
  looked : ∀ c input l name t, (c, .call input l (.find_table name) (some t)) ∈ tr → Named s.shared t name
  /-- A worker is never about to use a table that is not there. -/
  there : ∀ c op t, nextOp (s.threads c) = some op → tableOf op = some t → ∃ tb, s.shared.heap t = some tb

/-- In every reachable state the map leads to tables of the right names, and no worker uses
    an address without a table. -/
theorem registry (run : Run server anyStep (booted memory) tr s) : Registry tr s := by
  obtain ⟨_, found, _⟩ := found_run registered_initial run
  refine ⟨found.registered.known, ?_, found.looked, fun c op t => table_there run⟩
  intro name name' t first second
  obtain ⟨tb, here, rfl⟩ := found.registered.known name t first
  obtain ⟨tb', here', rfl⟩ := found.registered.known name' t second
  obtain rfl : tb = tb' := Option.some.inj (here.symm.trans here')
  rfl

/-- An operation is executed unless it waits for a mutex. -/
theorem executes (run : Run server anyStep (booted memory) tr s) (next : nextOp (s.threads c) = some op) :
    (∃ fresh r sh', exec c fresh op s.shared = some (r, sh')) ∨ ∃ t d, op = .lock t ∧ holder s.shared t = some d := by
  have there : ∀ t, tableOf op = some t → ∃ tb, s.shared.heap t = some tb := fun t => table_there run next
  obtain ⟨_, found, _⟩ := found_run registered_initial run
  cases op with
  | find_table name => exact .inl ⟨0, _, _, rfl⟩
  | write line => exact .inl ⟨0, _, _, rfl⟩
  | create_table name =>
    obtain ⟨n, room⟩ := found.registered.room
    refine .inl ⟨n, (), s.shared.create name n, if_pos ?_⟩
    rw [room n (Nat.le_refl n)]
    rfl
  | lock t =>
    obtain ⟨tb, here⟩ := there t rfl
    cases taken : tb.m_mutex with
    | some d => exact .inr ⟨t, d, rfl, holder_eq.mpr ⟨tb, here, taken⟩⟩
    | none => exact .inl ⟨0, (), _, by simp [exec, here, taken]; rfl⟩
  | trylock t =>
    obtain ⟨tb, here⟩ := there t rfl
    exact .inl ⟨0, _, _, Option.map_eq_some_iff.mpr ⟨tb, here, rfl⟩⟩
  | unlock t | set t key value | commit_changes t | rollback_changes t | get t key =>
    obtain ⟨tb, here⟩ := there t rfl
    exact .inl ⟨0, _, _, Option.map_eq_some_iff.mpr ⟨tb, here, rfl⟩⟩

/-- A worker that cannot go on waits for a mutex that somebody has locked. -/
theorem stuck_waits (run : Run server anyStep (booted memory) tr s) (up : s.aborted = none)
    (stuck : ∀ s', ¬ Works server s s') (busy : Busy (s.threads c)) :
    ∃ t d, waitingFor (s.threads c) = some t ∧ holder s.shared t = some d := by
  cases at_ : s.threads c with
  | reading l | exited l => rw [at_] at busy; exact busy.elim
  | running input p =>
    cases p with
    | done result l =>
      rcases result with f | keep
      · exact absurd ⟨c, _, .abort up at_, rfl⟩ (stuck _)
      · cases keep with
        | true => exact absurd ⟨c, _, .again up at_, rfl⟩ (stuck _)
        | false => exact absurd ⟨c, _, .exit up at_, rfl⟩ (stuck _)
    | call l op k =>
      have next : nextOp (s.threads c) = some op := by rw [at_]; rfl
      rcases executes run next with ⟨fresh, r, after, exec⟩ | ⟨t, d, rfl, held⟩
      · exact absurd ⟨c, _, .call fresh up at_ exec, rfl⟩ (stuck _)
      · exact ⟨t, d, rfl, held⟩

/-- A worker that has nothing to do, or that waits for a table whose connection is idle or
    gone, with the table still in its `locked_tables`. -/
inductive AtRest (s : ServerState) (c : ConnId) : Prop
  | idle {l : Local} (here : s.threads c = .reading l)
  | gone {l : Local} (here : s.threads c = .exited l)
  | waits {t : Addr} {d : ConnId} {l : Local} (waits : waitingFor (s.threads c) = some t)
      (held : holder s.shared t = some d) (left : s.threads d = .reading l ∨ s.threads d = .exited l)
      (unreleased : t ∈ l.locked_tables.addrs)

/-- From every reachable state, whatever the order in which the workers go on, they come to
    rest after finitely many steps when no further requests arrive; every request is then
    answered, but for those that wait for a table of a transaction that was left open. -/
theorem drains (run : Run server (fun _ _ e => remembers e = true) (booted memory) tr s) :
    Acc (fun s₂ s₁ => Works server s₁ s₂) s ∧
      ((∀ s', ¬ Works server s s') → s.aborted = none → ∀ c, AtRest s c) := by
  constructor
  · have few : ∀ i, i ∉ tr.map Prod.fst → ¬ Busy (s.threads i) := by
      intro i outside
      rw [run.others fun step inside at_ => outside (List.mem_map.mpr ⟨step, inside, at_⟩)]
      exact id
    exact acc_works few
  · intro stuck up c
    obtain ⟨gs, inv, fits⟩ := locks_run initial_quiescent (fun _ _ _ _ => False.elim) run
    by_cases busy : Busy (s.threads c)
    · obtain ⟨t, d, waits, held⟩ := stuck_waits run.any up stuck busy
      obtain ⟨tb, here, byD⟩ := holder_eq.mp held
      have mine : t ∈ (gs d).tables :=
        (inv.owner t tb d here byD).resolve_right (not_forgotten (fun _ _ _ => id) run d t)
      have fit := fits d
      cases at_ : s.threads d with
      | reading l =>
        rw [at_] at fit
        exact .waits waits held (.inl at_) (by rw [fit.1] at mine; exact mine)
      | exited l =>
        rw [at_] at fit
        exact .waits waits held (.inr at_) (by rw [fit.1] at mine; exact mine)
      | running input p =>
        -- One that has locked a table does not wait in `lock`.
        obtain ⟨u, e, waits', _⟩ := stuck_waits run.any up stuck (c := d) (by rw [at_]; trivial)
        obtain ⟨phase, _⟩ := fits_allowed (fits d) (waitingFor_eq.mp waits')
        rw [phase] at mine
        cases mine
    · cases at_ : s.threads c with
      | reading l => exact .idle at_
      | exited l => exact .gone at_
      | running input p => exact absurd (by rw [at_]; trivial) busy

/-- A client keeps a table locked in its transaction, and another one asks for it. -/
def keeping : List (ConnId × Action Input Addr) :=
  turn 0 "LOGIN ann\n" 2 0 ++ turn 0 "CREATE a\n" 4 0 ++ turn 0 "BEGIN\n" 2 0 ++ turn 0 "GET a k\n" 5 0 ++
    turn 1 "LOGIN bob\n" 2 0 ++ turn 1 "GET a k\n" 1 0

/-- The second client waits, and nobody moves. -/
def kept (r : ServerTrace × ServerState) : Bool :=
  r.1.all (fun step => decide (step.1 < 2)) && r.2.aborted.isNone && (nextOp (r.2.threads 0)).isNone &&
    (endOf (r.2.threads 0)).isNone && waitingFor (r.2.threads 1) == some 0 && holder r.2.shared 0 == some 0

private theorem not_busy {thread : Thread Local Input Fault Op Res} (calm : nextOp thread = none)
    (going : endOf thread = none) : ¬ Busy thread := by
  cases thread with
  | reading l | exited l => exact id
  | running input p =>
    cases p with
    | done r l => cases going
    | call l op k => cases calm

theorem registry_keeping :
    ∃ s : ServerState, s.shared.server_tables[lit "a"]? = some 0 ∧ Named s.shared 0 (lit "a") := by
  have shown : (execute server (fun _ _ => remembers) keeping (booted fun _ => false)).any
      (fun r => r.2.shared.server_tables[lit "a"]? == some 0) = true := by
    decide +kernel
  obtain ⟨tr, s, run, holds⟩ := run_of_check shown
  have entered := beq_iff_eq.mp holds
  exact ⟨s, entered, (registry run.any).entries _ 0 entered⟩

theorem drains_keeping : ∃ s : ServerState, waitingFor (s.threads 1) = some 0 ∧ AtRest s 1 := by
  have shown : (execute server (fun _ _ => remembers) keeping (booted fun _ => false)).any kept = true := by
    decide +kernel
  obtain ⟨tr, s, run, holds⟩ := run_of_check shown
  simp only [kept, Bool.and_eq_true, List.all_eq_true, decide_eq_true_eq, beq_iff_eq,
    Option.isNone_iff_eq_none] at holds
  obtain ⟨⟨⟨⟨⟨few, up⟩, calm⟩, going⟩, waits⟩, held⟩ := holds
  refine ⟨s, waits, (drains run).2 ?_ up 1⟩
  rintro s' ⟨c, e, one, onward⟩
  have busy := one.busy onward
  by_cases first : c = 0
  · subst first
    exact not_busy calm going busy
  · by_cases second : c = 1
    · subst second
      obtain ⟨input, l, k, here⟩ := nextOp_eq (waitingFor_eq.mp waits)
      obtain ⟨r, rfl, _⟩ := one.called here
      obtain ⟨fresh, exec⟩ := one.executes
      have exec : Server.exec 1 fresh (.lock 0) s.shared = some ((), s'.shared) := exec
      obtain ⟨tb, there, free, _⟩ := exec_lock exec
      obtain ⟨tb', there', byFirst⟩ := holder_eq.mp held
      obtain rfl : tb = tb' := Option.some.inj (there.symm.trans there')
      rw [free] at byFirst
      cases byFirst
    · have apart : s.threads c = (booted fun _ => false).threads c := by
        refine run.others fun step inside at_ => ?_
        have small : c < 2 := at_ ▸ few step inside
        rcases Nat.lt_succ_iff_lt_or_eq.mp small with none_ | one_
        · exact first (Nat.lt_one_iff.mp none_)
        · exact second one_
      rw [apart] at busy
      exact busy

end TableServer.Progress
