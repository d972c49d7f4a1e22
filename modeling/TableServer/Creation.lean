import TableServer.Requests

/-!
Creating tables. A CREATE looks its name up and then enters a new table, in two
critical sections; when no other CREATE of the name comes in between, at most one
CREATE of a name is answered OK and what a name stands for never changes.
-/

namespace TableServer.Creation
open TableServer.Bytes TableServer.Messages TableServer.Serialization TableServer.Stores TableServer.Connection
open TableServer.Server TableServer.Requests TableServer.Tokens
open Resumption Interleaving

def NoCreate (_ : Local) : Op → Prop
  | .create_table _ => False
  | _ => True

private theorem calls_answer (keep : Bool) (l : Local) : (responding keep l).Calls NoCreate :=
  calls_responding keep fun _ => trivial

private theorem calls_ending {α : Type} (ending : Ending) (l : Local) {after : Program α} (then_ : after.Calls NoCreate)
    (tables : List Addr) : (releasing ending l after tables).Calls NoCreate := by
  apply calls_releasing ending _ _ tables then_
  · intro t
    cases ending <;> trivial
  · intro t
    trivial

private theorem calls_settle (r : Except Fault Bool) (l : Local) : (settle r l).Calls NoCreate := by
  apply settle_cases
  · intro f
    trivial
  · intro keep t args
    exact calls_answer _ _
  · intro what
    exact calls_ending _ _ (calls_answer _ _) _

private theorem calls_locking {α : Type} (t : Addr) (l : Local) {after : Local → Program α}
    (then_ : ∀ l, (after l).Calls NoCreate) : (locking t l after).Calls NoCreate := by
  unfold locking
  split
  · split
    · exact then_ l
    · refine ⟨trivial, ?_⟩
      intro got
      cases got
      · trivial
      · exact then_ _
  · exact ⟨trivial, fun _ => then_ l⟩

private theorem calls_autocommitting {α : Type} (t : Addr) (l : Local) {after : Program α}
    (then_ : after.Calls NoCreate) : (autocommitting t l after).Calls NoCreate := by
  unfold autocommitting
  split
  · exact then_
  · exact ⟨trivial, fun _ => ⟨trivial, fun _ => then_⟩⟩

private theorem calls_onTable (n : Str) (l : Local) {use : Addr → Local → Iteration}
    (then_ : ∀ t l, (use t l).Calls NoCreate) : (onTable n l use).Calls NoCreate := by
  refine ⟨trivial, ?_⟩
  intro found
  cases found with
  | none => trivial
  | some t => exact calls_locking t l (then_ t)

private theorem calls_reading (t : Addr) (k : Str) (l : Local) : (reading t k l).Calls NoCreate := by
  refine ⟨trivial, ?_⟩
  intro value
  cases value with
  | error e => trivial
  | ok v => exact calls_autocommitting t _ (Prog.calls_done _ _)

private theorem calls_writing (t : Addr) (k : Str) (l : Local) : (writing t k l).Calls NoCreate := by
  unfold writing
  split
  · trivial
  · exact ⟨trivial, fun _ => calls_autocommitting t _ (Prog.calls_done _ _)⟩

private theorem calls_requesting {m : Message} (valid : m.is_valid = true) (other : m.m_message_type ≠ .CREATE)
    (l : Local) : (requesting m l).Calls NoCreate := by
  rcases request_forms valid with ⟨n, rfl⟩ | ⟨n, k, rfl⟩ | ⟨n, k, rfl⟩ | rfl | quiet
  · exact absurd rfl other
  · exact calls_onTable n l (fun t => calls_reading t k)
  · exact calls_onTable n l (fun t => calls_writing t k)
  · exact calls_ending _ _ (Prog.calls_done _ _) _
  · rw [requesting_quiet quiet]; trivial

theorem calls_iteration {input : Input} (other : ∀ n, requestOf input ≠ some ⟨.CREATE, [n]⟩) (l : Local) :
    (chat_with_client input l).Calls NoCreate := by
  cases asked : requestOf input with
  | none =>
    obtain ⟨e, run⟩ := unread_run (l := l) asked
    rw [run]
    exact calls_settle _ _
  | some m =>
    have notCreate : m.m_message_type ≠ .CREATE := by
      intro create
      rcases request_forms (request_valid asked) with ⟨n, rfl⟩ | ⟨n, k, rfl⟩ | ⟨n, k, rfl⟩ | rfl | quiet
      · exact other n asked
      · cases create
      · cases create
      · cases create
      · rw [create] at quiet; cases quiet
    by_cases login : m.m_message_type = .LOGIN
    · rw [login_run asked login]
      exact calls_answer _ _
    · cases known : l.logged_in with
      | false =>
        rw [stranger_run asked login known]
        exact calls_settle _ _
      | true =>
        rw [request_run asked login known]
        exact Prog.calls_bind (calls_requesting (request_valid asked) notCreate l) calls_settle

def answersOK (l : Local) (input : Input) (n : Str) : Prop :=
  l.response = ⟨.OK, []⟩ ∧ requestOf input = some ⟨.CREATE, [n]⟩

instance (l : Local) (input : Input) (n : Str) : Decidable (answersOK l input n) := inferInstanceAs (Decidable (_ ∧ _))

/-- The ghost state is the name of the table that the worker has created and not yet
    answered for. -/
def discipline : Discipline (Option Str) Local Input Fault Op Res where
  rest _ g := g = none
  gone _ g := g = none
  failed _ _ _ := True
  node input g l op :=
    match op with
    | .create_table n => g = none ∧ requestOf input = some ⟨.CREATE, [n]⟩
    | .write _ => ∀ n, answersOK l input n → g = some n
    | _ => True
  take g _ _ g' := g' = g
  next _ g _ op _ g' :=
    match op with
    | .create_table n => g' = some n
    | .write _ => g' = none
    | _ => g' = g

variable {input : Input} {l : Local}

private theorem ensures_plain {p : Iteration} (calls : p.Calls NoCreate)
    (other : ∀ n, requestOf input ≠ some ⟨.CREATE, [n]⟩) : discipline.Ensures input discipline.outcome p none := by
  refine Discipline.ensures_calls calls ?_ ?_
  · intro l op plain
    cases op with
    | create_table n => exact plain.elim
    | write line => exact ⟨fun n ok => absurd ok.2 (other n), fun _ _ => id⟩
    | _ => exact ⟨trivial, fun _ _ => id⟩
  · intro r l
    rcases r with f | _ | _
    · trivial
    · rfl
    · rfl

/-- A response that is not OK, or the OK for the table just created. -/
theorem ensures_responding {keep : Bool} {g : Option Str} (owed : ∀ n, answersOK l input n → g = some n) :
    discipline.Ensures input discipline.outcome (responding keep l) g := by
  unfold responding
  split
  · refine ⟨owed, ?_⟩
    rintro _ _ rfl
    cases keep <;> rfl
  · trivial

private theorem ensures_refused {what : Str} :
    discipline.Ensures input discipline.outcome (settle (.error (.thrown (.InvalidMessage what))) l) none :=
  ensures_responding (fun n ok => by cases ok.1)

private theorem ensures_creating {n : Str} (asked : requestOf input = some ⟨.CREATE, [n]⟩) :
    discipline.Ensures input discipline.outcome ((creating n l).bind settle) none := by
  refine ⟨trivial, ?_⟩
  rintro found _ rfl
  cases found with
  | some t => exact ensures_refused
  | none =>
    refine ⟨⟨rfl, asked⟩, ?_⟩
    rintro _ _ rfl
    show discipline.Ensures input discipline.outcome (responding true (l.respond .OK [])) (some n)
    refine ensures_responding ?_
    intro m ok
    have same : (⟨.CREATE, [n]⟩ : Message) = ⟨.CREATE, [m]⟩ := Option.some.inj (asked.symm.trans ok.2)
    cases same
    rfl

private theorem ensures_iteration : discipline.Ensures input discipline.outcome (chat_with_client input l) none := by
  by_cases create : ∃ n, requestOf input = some ⟨.CREATE, [n]⟩
  · obtain ⟨n, asked⟩ := create
    cases known : l.logged_in with
    | false =>
      rw [stranger_run asked (by simp) known]
      exact ensures_refused
    | true =>
      rw [request_run asked (by simp) known]
      exact ensures_creating asked
  · have other : ∀ n, requestOf input ≠ some ⟨.CREATE, [n]⟩ := fun n asked => create ⟨n, asked⟩
    exact ensures_plain (calls_iteration other l) other

/-- The step answers a CREATE of the name with OK. -/
def createdOK (n : Str) : ServerEvent → Bool
  | .call input l (.write _) _ => decide (answersOK l input n)
  | _ => false

def answers (n : Str) (tr : ServerTrace) : List (ConnId × ServerEvent) := tr.filter (fun step => createdOK n step.2)

private theorem answers_snoc (n : Str) (tr : ServerTrace) (c : ConnId) (e : ServerEvent) :
    answers n (tr ++ [(c, e)]) = if createdOK n e = true then answers n tr ++ [(c, e)] else answers n tr := by
  unfold answers
  rw [List.filter_append]
  by_cases ok : createdOK n e = true
  · simp [ok]
  · simp [ok]

structure Created (gs : ConnId → Option Str) (tr : ServerTrace) (sh : Shared) : Prop where
  absent : ∀ n, sh.server_tables[n]? = none → answers n tr = [] ∧ ∀ c, gs c ≠ some n
  once : ∀ n, (answers n tr).length ≤ 1
  owed : ∀ n c, gs c = some n → answers n tr = []
  alone : ∀ n c d, gs c = some n → gs d = some n → c = d
  found : ∀ n t c input l, (c, Event.call input l (Op.find_table n) (some t)) ∈ tr → sh.server_tables[n]? = some t

/-- When `create_table` enters a table there is none of that name. -/
def unraced (s : ServerState) : ServerEvent → Bool
  | .call _ _ (.create_table n) _ => (s.shared.server_tables[n]?).isNone
  | _ => true

variable {gs : ConnId → Option Str} {tr : ServerTrace} {sh sh' : Shared} {c : ConnId} {e : ServerEvent}

/-- A step that neither creates nor answers. -/
theorem Created.still (inv : Created gs tr sh) (silent : ∀ n, createdOK n e = false)
    (tables : sh'.server_tables = sh.server_tables)
    (finds : ∀ n t input l, e = .call input l (.find_table n) (some t) → sh.server_tables[n]? = some t) :
    Created gs (tr ++ [(c, e)]) sh' := by
  have same : ∀ n, answers n (tr ++ [(c, e)]) = answers n tr := by
    intro n
    rw [answers_snoc, silent n]
    rfl
  refine ⟨?_, ?_, ?_, inv.alone, ?_⟩
  · intro n none_
    rw [same n]
    rw [tables] at none_
    exact inv.absent n none_
  · intro n
    rw [same n]
    exact inv.once n
  · intro n d pending
    rw [same n]
    exact inv.owed n d pending
  · intro n t d input l inside
    rw [tables]
    rcases List.mem_append.mp inside with before | last
    · exact inv.found n t d input l before
    · cases List.mem_singleton.mp last
      exact finds n t input l rfl

private theorem Created.create (inv : Created gs tr sh) {n : Str} {fresh : Addr} (none_ : sh.server_tables[n]? = none)
    (idle : gs c = none) :
    Created (Function.update gs c (some n)) (tr ++ [(c, .call input l (.create_table n) ())]) (sh.create n fresh) := by
  have same : ∀ m, answers m (tr ++ [(c, Event.call input l (Op.create_table n) ())]) = answers m tr := by
    intro m
    rw [answers_snoc]
    rfl
  have tables : ∀ m, (sh.create n fresh).server_tables[m]? = if n = m then some fresh else sh.server_tables[m]? :=
    fun m => getElem?_insert _ _ _ _
  have only : ∀ m d, Function.update gs c (some n) d = some m → (d = c ∧ m = n) ∨ (d ≠ c ∧ gs d = some m) := by
    intro m d pending
    by_cases mine : d = c
    · subst mine
      rw [Function.update_self] at pending
      exact .inl ⟨rfl, (Option.some.inj pending).symm⟩
    · rw [Function.update_of_ne mine] at pending
      exact .inr ⟨mine, pending⟩
  refine ⟨?_, ?_, ?_, ?_, ?_⟩
  · intro m absent
    rw [tables m] at absent
    split at absent
    · cases absent
    · rename_i other
      obtain ⟨unanswered, unowed⟩ := inv.absent m absent
      refine ⟨by rw [same m]; exact unanswered, ?_⟩
      intro d pending
      rcases only m d pending with ⟨_, is_⟩ | ⟨_, before⟩
      · exact other is_.symm
      · exact unowed d before
  · intro m
    rw [same m]
    exact inv.once m
  · intro m d pending
    rw [same m]
    rcases only m d pending with ⟨_, rfl⟩ | ⟨_, before⟩
    · exact (inv.absent m none_).1
    · exact inv.owed m d before
  · intro m d d' pending pending'
    rcases only m d pending with ⟨rfl, rfl⟩ | ⟨_, before⟩
    · rcases only m d' pending' with ⟨rfl, _⟩ | ⟨_, before'⟩
      · rfl
      · exact absurd before' ((inv.absent m none_).2 d')
    · rcases only m d' pending' with ⟨rfl, rfl⟩ | ⟨_, before'⟩
      · exact absurd before ((inv.absent m none_).2 d)
      · exact inv.alone m d d' before before'
  · intro m t d input' l' inside
    have before : (d, Event.call input' l' (Op.find_table m) (some t)) ∈ tr := by
      rcases List.mem_append.mp inside with before | last
      · exact before
      · cases List.mem_singleton.mp last
    have known := inv.found m t d input' l' before
    rw [tables m, if_neg (by rintro rfl; rw [none_] at known; cases known)]
    exact known

private theorem Created.answer (inv : Created gs tr sh) {line : Str} (owed : ∀ n, answersOK l input n → gs c = some n) :
    Created (Function.update gs c none) (tr ++ [(c, .call input l (.write line) ())]) sh := by
  have only : ∀ m d, Function.update gs c none d = some m → d ≠ c ∧ gs d = some m := by
    intro m d pending
    by_cases mine : d = c
    · subst mine
      rw [Function.update_self] at pending
      cases pending
    · rw [Function.update_of_ne mine] at pending
      exact ⟨mine, pending⟩
  have answered : ∀ m, createdOK m (Event.call input l (Op.write line) ()) = true → gs c = some m :=
    fun m ok => owed m (of_decide_eq_true ok)
  refine ⟨?_, ?_, ?_, ?_, ?_⟩
  · intro m absent
    obtain ⟨unanswered, unowed⟩ := inv.absent m absent
    have silent : ¬ createdOK m (Event.call input l (Op.write line) ()) = true := fun ok => unowed c (answered m ok)
    refine ⟨by rw [answers_snoc, if_neg silent]; exact unanswered, ?_⟩
    intro d pending
    exact unowed d (only m d pending).2
  · intro m
    rw [answers_snoc]
    split
    · rename_i ok
      rw [inv.owed m c (answered m ok)]
      exact Nat.le_refl 1
    · exact inv.once m
  · intro m d pending
    obtain ⟨other, before⟩ := only m d pending
    have silent : ¬ createdOK m (Event.call input l (Op.write line) ()) = true :=
      fun ok => other (inv.alone m d c before (answered m ok))
    rw [answers_snoc, if_neg silent]
    exact inv.owed m d before
  · intro m d d' pending pending'
    exact inv.alone m d d' (only m d pending).2 (only m d' pending').2
  · intro m t d input' l' inside
    rcases List.mem_append.mp inside with before | last
    · exact inv.found m t d input' l' before
    · cases List.mem_singleton.mp last

variable {memory : ConnId → Bool} {s : ServerState}

private theorem created_run (run : Run server (fun s _ e => unraced s e = true) (booted memory) tr s) :
    ∃ gs, Created gs tr s.shared ∧ ∀ c, discipline.Fits (s.threads c) (gs c) := by
  refine Discipline.sound ?_ ?_ ?_ ?_ ?_ run
  · rintro input l _ _ rfl rfl
    exact ensures_iteration
  · intro gs tr s c l input inv _ idle
    refine ⟨gs c, rfl, ?_⟩
    rw [Function.update_eq_self]
    exact inv.still (fun _ => rfl) rfl (by intro n t input l same; cases same)
  · intro gs tr s c choice input l op r after inv fresh_ node exec
    have exec : Server.exec c choice op s.shared = some (r, after) := exec
    have quiet (tables : after.server_tables = s.shared.server_tables)
        (silent : ∀ n, createdOK n (.call input l op r) = false)
        (finds : ∀ n t input' l', (Event.call input l op r : ServerEvent) = .call input' l' (.find_table n) (some t) →
          s.shared.server_tables[n]? = some t) :
        Created (Function.update gs c (gs c)) (tr ++ [(c, .call input l op r)]) after := by
      rw [Function.update_eq_self]
      exact inv.still silent tables finds
    cases op with
    | create_table n =>
      obtain ⟨_, rfl⟩ := exec_create exec
      exact ⟨some n, rfl, inv.create (Option.isNone_iff_eq_none.mp fresh_) node.1⟩
    | write line =>
      obtain rfl := exec_write exec
      exact ⟨none, rfl, inv.answer node⟩
    | find_table n =>
      obtain ⟨rfl, rfl⟩ := exec_find exec
      refine ⟨gs c, rfl, quiet rfl (fun _ => rfl) ?_⟩
      intro m t input' l' same
      obtain ⟨_, _, sameOp, sameResult⟩ := Event.call.inj same
      cases sameOp
      exact eq_of_heq sameResult
    | _ =>
      refine ⟨gs c, rfl, quiet (exec_tables exec (by intro n same; cases same)) (fun _ => rfl) ?_⟩
      intro n t input' l' same
      cases same
  · intro gs tr s c input l r inv _ _
    exact inv.still (fun _ => rfl) rfl (by intro n t input l same; cases same)
  · refine ⟨fun _ => none, ⟨?_, ?_, ?_, ?_, ?_⟩, fun _ => rfl⟩
    · intro n _; exact ⟨rfl, by intro c same; cases same⟩
    · intro n; exact Nat.zero_le 1
    · intro n c same; cases same
    · intro n c d same; cases same
    · intro n t c input l inside; cases inside

/-- At most one CREATE of a name is answered OK; what a look-up of a name has returned,
    every later look-up of it returns, and the name still stands for. -/
theorem creation_unique (run : Run server (fun s _ e => unraced s e = true) (booted memory) tr s) :
    (∀ n, (answers n tr).length ≤ 1) ∧
    (∀ n t r c d input input' l l' before between after,
      tr = before ++ (c, Event.call input l (Op.find_table n) (some t)) :: between ++
        (d, Event.call input' l' (Op.find_table n) r) :: after → r = some t) ∧
    ∀ n t c input l, (c, Event.call input l (Op.find_table n) (some t)) ∈ tr → s.shared.server_tables[n]? = some t := by
  obtain ⟨gs, inv, _⟩ := created_run run
  refine ⟨inv.once, ?_, inv.found⟩
  · intro n t r c d input input' l l' before between after order
    obtain ⟨s₁, s₂, earlier, one, _⟩ := run.upTo order
    obtain ⟨gs, inv, _⟩ := created_run earlier
    have known := inv.found n t c input l (by simp)
    cases one with
    | @call _ _ _ _ _ after choice up here exec =>
      have exec : Server.exec d choice (.find_table n) s₁.shared = some (r, after) := exec
      obtain ⟨same, _⟩ := exec_find exec
      rw [same]
      exact known

/-- Some look-up of the name has returned this table. -/
def looked (n : Str) (t : Addr) (tr : ServerTrace) : Bool :=
  tr.any fun step =>
    match step.2 with
    | .call _ _ (.find_table m) r => m == n && r == some t
    | _ => false

private theorem looked_event {n : Str} {t : Addr} (found : looked n t tr = true) :
    ∃ c input l, (c, Event.call input l (Op.find_table n) (some t)) ∈ tr := by
  obtain ⟨⟨c, e⟩, inside, matches_⟩ := List.any_eq_true.mp found
  simp only at matches_
  split at matches_
  · rename_i input l m r
    simp only [Bool.and_eq_true, beq_iff_eq] at matches_
    obtain ⟨rfl, rfl⟩ := matches_
    exact ⟨c, input, l, inside⟩
  · cases matches_

/-- One client creates a table; another one finds it and cannot create it again. -/
def creatingOnce : List (ConnId × Action Input Addr) :=
  turn 0 "LOGIN ann\n" 2 0 ++ turn 1 "LOGIN bob\n" 2 0 ++ turn 0 "CREATE a\n" 4 7 ++ turn 1 "GET a k\n" 7 0 ++
    turn 1 "CREATE a\n" 3 0

theorem creation_unique_once : ∃ (tr : ServerTrace) (s : ServerState), (answers (lit "a") tr).length = 1 ∧
    (answers (lit "a") tr).length ≤ 1 ∧ s.shared.server_tables[lit "a"]? = some 7 := by
  have shown : (execute server (fun s _ => unraced s) creatingOnce (booted fun _ => false)).any (fun r =>
      (answers (lit "a") r.1).length == 1 && looked (lit "a") 7 r.1) = true := by
    decide +kernel
  obtain ⟨tr, s, run, holds⟩ := run_of_check shown
  simp only [Bool.and_eq_true, beq_iff_eq] at holds
  obtain ⟨c, input, l, found⟩ := looked_event holds.2
  exact ⟨tr, s, holds.1, (creation_unique run).1 _, (creation_unique run).2.2 _ 7 c input l found⟩

/-- A second client looks the name up, creates the table and uses it between the
    look-up of the first client and its `create_table`. -/
def creatingTwice : List (ConnId × Action Input Addr) :=
  turn 0 "LOGIN ann\n" 2 0 ++ turn 1 "LOGIN bob\n" 2 0 ++ turn 0 "CREATE a\n" 1 0 ++ turn 1 "CREATE a\n" 4 1 ++
    turn 1 "GET a k\n" 7 0 ++ List.replicate 3 (0, .advance 2)

/-- Both are answered OK, and the table that the second client has used is lost. -/
theorem creation_raced :
    (¬ ∀ tr s, Run server anyStep (booted fun _ => false) tr s → ∀ n, (answers n tr).length ≤ 1) ∧
    ¬ ∀ tr s, Run server anyStep (booted fun _ => false) tr s → ∀ n t c input l,
      (c, Event.call input l (Op.find_table n) (some t)) ∈ tr → s.shared.server_tables[n]? = some t := by
  have shown : (execute server noCheck creatingTwice (booted fun _ => false)).any (fun r =>
      (answers (lit "a") r.1).length == 2 && looked (lit "a") 1 r.1 &&
        r.2.shared.server_tables[lit "a"]? == some 2) = true := by
    decide +kernel
  obtain ⟨tr, s, run, holds⟩ := run_of_check shown
  simp only [Bool.and_eq_true, beq_iff_eq] at holds
  obtain ⟨⟨both, found⟩, last⟩ := holds
  constructor
  · intro always
    have one := always tr s run.any (lit "a")
    omega
  · intro always
    obtain ⟨c, input, l, inside⟩ := looked_event found
    have kept := always tr s run.any (lit "a") 1 c input l inside
    rw [last] at kept
    exact absurd kept (by decide)

end TableServer.Creation
