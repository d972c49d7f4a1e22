import TableServer.Alone
import TableServer.Creation
import TableServer.Rollback

/-!
A client that works alone gets the same from its requests inside one transaction as
outside. Two sessions are compared step by step: the committed map of every table
outside is the pending map over the committed one inside.
-/

namespace TableServer.Autocommit
open TableServer.Bytes TableServer.Messages TableServer.Serialization TableServer.Stores TableServer.Numbers
open TableServer.Connection TableServer.Server TableServer.Requests TableServer.Tokens TableServer.Rollback
open Resumption Interleaving

variable {c : ConnId} {l l' lt : Local} {sh sh' sht : Shared} {t : Addr} {tb tbt : Table} {m : Message} {input : Input}
  {calls : List (Call Op Res)}

/-- The lines that the calls have written. -/
def sent (calls : List (Call Op Res)) : List Str := calls.filterMap writtenLine

/-- A response that says OK or DATA. -/
def positive (line : Str) : Bool := line == lit "OK\n" || (lit "DATA ").isPrefixOf line

@[simp] theorem sent_append (calls more : List (Call Op Res)) : sent (calls ++ more) = sent calls ++ sent more :=
  List.filterMap_append

private theorem positive_head {line : Str} (yes : positive line = true) :
    line.head? = some 79 ∨ line.head? = some 68 := by
  unfold positive at yes
  rcases Bool.or_eq_true_iff.mp yes with ok | data
  · rw [beq_iff_eq.mp ok]
    exact .inl (by decide)
  · obtain ⟨rest, rfl⟩ := List.isPrefixOf_iff_prefix.mp data
    exact .inr (by simp [lit])

/-- A failure is no such response. -/
theorem negative_failed {what line : Str} (run : encode ⟨.FAILED, [what]⟩ = .ok line) : positive line = false := by
  obtain ⟨rfl, _⟩ := encode_ok run
  by_contra yes
  have head := positive_head (Bool.eq_true_of_not_eq_false yes)
  have first : (encodedLine ⟨.FAILED, [what]⟩).head? = some 70 := by
    simp [encodedLine, messageTypeToString, lit]
  rw [first] at head
  rcases head with same | same <;> exact absurd same (by decide)

private theorem server_call {op : Op} {k : Res op → Iteration} {r : Except Fault Bool}
    (alone : Alone server c (.call l op k) sh calls (.done r l') sh') :
    ∃ fresh result after rest, exec c fresh op sh = some (result, after) ∧ calls = ⟨op, result⟩ :: rest ∧
      Alone server c (k result) after rest (.done r l') sh' :=
  alone_call alone

private theorem alone_responding {keep keep' : Bool}
    (alone : Alone server c (responding keep l) sh calls (.done (.ok keep') l') sh') :
    ∃ line, encode l.response = .ok line ∧ calls = [⟨.write line, ()⟩] ∧ keep' = keep ∧ l' = l ∧ sh' = sh := by
  unfold responding at alone
  cases run : encode l.response with
  | error e =>
    rw [run] at alone
    obtain ⟨_, same, _⟩ := alone_done.mp alone
    cases same
  | ok line =>
    rw [run] at alone
    obtain ⟨_, ⟨⟩, _, _, exec, rfl, rest⟩ := server_call alone
    obtain rfl := exec_write exec
    obtain ⟨rfl, same, rfl⟩ := alone_done.mp rest
    cases same
    exact ⟨line, rfl, rfl, rfl, rfl, rfl⟩

private theorem responding_alone {line : Str} (keep : Bool) (run : encode l.response = .ok line) (sh : Shared) :
    Alone server c (responding keep l) sh [⟨.write line, ()⟩] (.done (.ok keep) l) sh := by
  unfold responding
  rw [run]
  exact .step 0 rfl (.refl _ _)

/-- A request that fails outside a transaction gets no positive response. -/
theorem failed_negative {what : Str} (outside : l.transaction_mode = false)
    (alone : Alone server c (settle (.error (.thrown (.OperationException what))) l) sh calls (.done (.ok true) l') sh')
    (positives : ∀ line ∈ sent calls, positive line = true) : False := by
  rw [settle, outside, if_neg (by decide)] at alone
  obtain ⟨line, run, rfl, _⟩ := alone_responding alone
  have yes := positives line (by simp [sent, writtenLine])
  rw [negative_failed run] at yes
  cases yes

/-! ## Two sessions that agree -/

/-- A table outside (`tb`) and inside (`tbt`) the transaction of `c`. -/
structure Overlaid (c : ConnId) (locked : Bool) (tb tbt : Table) : Prop where
  name : tbt.m_name = tb.m_name
  free : tb.m_mutex = none
  clean : tb.tempMap = ∅
  mutex : tbt.m_mutex = if locked then some c else none
  pending : locked = false → tbt.tempMap = ∅
  same : tbt.overlay = tb.overlay

/-- The members and the store of a session outside a transaction and of one inside. -/
structure Agrees (c : ConnId) (l : Local) (sh : Shared) (lt : Local) (sht : Shared) : Prop where
  login : l.logged_in = true
  logged : lt.logged_in = true
  outside : l.transaction_mode = false
  inside : lt.transaction_mode = true
  unlocked : l.locked_tables.addrs = []
  stack : lt.client_stack.stk = l.client_stack.stk
  tables : sht.server_tables = sh.server_tables
  heap : ∀ t, Option.Rel (Overlaid c (lt.locked_tables.contains t)) (sh.heap t) (sht.heap t)
  known : ∀ t, lt.locked_tables.contains t = true → ∃ tbt, sht.heap t = some tbt

private theorem Agrees.table (agrees : Agrees c l sh lt sht) (here : sh.heap t = some tb) :
    ∃ tbt, sht.heap t = some tbt ∧ Overlaid c (lt.locked_tables.contains t) tb tbt := by
  have both := agrees.heap t
  rw [here] at both
  cases found : sht.heap t with
  | none => rw [found] at both; cases both
  | some tbt =>
    rw [found] at both
    cases both with
    | some overlaid => exact ⟨tbt, rfl, overlaid⟩

private theorem Agrees.absent (agrees : Agrees c l sh lt sht) (none_ : sh.heap t = none) : sht.heap t = none := by
  have both := agrees.heap t
  rw [none_] at both
  cases found : sht.heap t with
  | none => rfl
  | some tbt => rw [found] at both; cases both

private theorem withLocked_contains (l : Local) (t u : Addr) :
    (l.withLocked t).locked_tables.contains u = (u == t || l.locked_tables.contains u) := by
  rw [Bool.eq_iff_iff]
  simp [Local.withLocked, TableSet.contains, TableSet.insert, TableSet.mem_insertAddr]

/-- A table after `commit_changes` and `unlock`. -/
def finished (tb : Table) : Table := { tb.commit_changes with m_mutex := none }

@[simp] theorem put_put (sh : Shared) (t : Addr) (a b : Table) : (sh.put t a).put t b = sh.put t b := by
  simp [Shared.put]

private theorem alone_locking {after : Local → Iteration} (outside : l.transaction_mode = false)
    (alone : Alone server c ((locking t l after).bind settle) sh calls (.done (.ok true) l') sh') :
    ∃ tb rest, sh.heap t = some tb ∧ calls = ⟨.lock t, ()⟩ :: rest ∧
      Alone server c ((after l).bind settle) (sh.put t { tb with m_mutex := some c }) rest
        (.done (.ok true) l') sh' := by
  rw [locking, outside, if_neg (by decide)] at alone
  obtain ⟨_, ⟨⟩, _, rest, exec, rfl, later⟩ := server_call alone
  obtain ⟨tb, here, _, rfl⟩ := exec_lock exec
  exact ⟨tb, rest, here, rfl, later⟩

private theorem alone_autocommitting (outside : l.transaction_mode = false) (here : sh.heap t = some tb)
    (alone : Alone server c ((autocommitting t l (.done (.ok true) (l.respond .OK []))).bind settle) sh calls
      (.done (.ok true) l') sh') :
    sent calls = [lit "OK\n"] ∧ l' = l.respond .OK [] ∧ sh' = sh.put t (finished tb) := by
  rw [autocommitting, outside, if_neg (by decide)] at alone
  obtain ⟨_, ⟨⟩, _, rest, commit, rfl, alone⟩ := server_call alone
  obtain ⟨tb₁, here₁, rfl⟩ := exec_commit commit
  obtain ⟨_, ⟨⟩, _, rest, unlock, rfl, alone⟩ := server_call alone
  obtain ⟨tb₂, here₂, rfl⟩ := exec_unlock unlock
  obtain rfl : tb = tb₁ := Option.some.inj (here.symm.trans here₁)
  rw [put_self] at here₂
  cases here₂
  have alone : Alone server c (responding true (l.respond .OK [])) _ rest _ sh' := alone
  obtain ⟨line, run, rfl, _, rfl, rfl⟩ := alone_responding alone
  have same : line = lit "OK\n" := Except.ok.inj (run.symm.trans ok_encoded)
  exact ⟨by rw [same]; rfl, rfl, by rw [put_put]; rfl⟩

private theorem autocommitting_alone (inside : lt.transaction_mode = true) :
    Alone server c ((autocommitting t lt (.done (.ok true) (lt.respond .OK []))).bind settle) sht
      [⟨.write (lit "OK\n"), ()⟩] (.done (.ok true) (lt.respond .OK [])) sht := by
  rw [autocommitting, if_pos inside]
  exact responding_alone (l := lt.respond .OK []) true ok_encoded sht

/-- The members and the store of a session that has entered a table: it is locked, and
    otherwise as it was. -/
structure Entered (c : ConnId) (lt : Local) (sht : Shared) (t : Addr) (tbt : Table) (lt₁ : Local) (sht₁ : Shared) :
    Prop where
  logged : lt₁.logged_in = lt.logged_in
  mode : lt₁.transaction_mode = lt.transaction_mode
  stack : lt₁.client_stack = lt.client_stack
  locked : ∀ u, lt₁.locked_tables.contains u = (u == t || lt.locked_tables.contains u)
  tables : sht₁.server_tables = sht.server_tables
  here : sht₁.heap t = some { tbt with m_mutex := some c }
  others : ∀ u, u ≠ t → sht₁.heap u = sht.heap u

/-- Alone, a transaction gets every table it wants. -/
theorem locking_alone (agrees : Agrees c l sh lt sht) (here : sht.heap t = some tbt)
    (overlaid : Overlaid c (lt.locked_tables.contains t) tb tbt) :
    ∃ lt₁ sht₁, Entered c lt sht t tbt lt₁ sht₁ ∧
      ∀ (after : Local → Iteration) (calls : List (Call Op Res)) (q : Iteration) (sh' : Shared),
        Alone server c ((after lt₁).bind settle) sht₁ calls q sh' →
        ∃ calls', Alone server c ((locking t lt after).bind settle) sht calls' q sh' ∧ sent calls' = sent calls := by
  cases locked : lt.locked_tables.contains t with
  | true =>
    have held : tbt.m_mutex = some c := by rw [overlaid.mutex, if_pos locked]
    refine ⟨lt, sht, ⟨rfl, rfl, rfl, ?_, rfl, ?_, fun _ _ => rfl⟩, ?_⟩
    · intro u
      by_cases same : u = t
      · rw [same, locked]
        simp
      · simp [same]
    · rw [here, ← held]
    · intro after calls q sh' alone
      refine ⟨calls, ?_, rfl⟩
      rw [locking, if_pos agrees.inside, if_pos locked]
      exact alone
  | false =>
    have free : tbt.m_mutex = none := by rw [overlaid.mutex, locked]; rfl
    refine ⟨lt.withLocked t, sht.put t { tbt with m_mutex := some c }, ⟨rfl, rfl, rfl, withLocked_contains lt t, rfl,
      put_self _ _ _, fun u other => put_other _ other _⟩, ?_⟩
    intro after calls q sh' alone
    refine ⟨⟨.trylock t, true⟩ :: calls, ?_, rfl⟩
    rw [locking, if_pos agrees.inside, locked, if_neg (by decide)]
    have exec : Server.exec c 0 (.trylock t) sht = some (true, sht.put t { tbt with m_mutex := some c }) := by
      simp [Server.exec, here, free]
    exact .step 0 exec alone

/-- After a request on a table the sessions agree again, when its values do. -/
theorem Agrees.accessed {lt₁ : Local} {sht₁ : Shared} {tb' tbt' : Table} {stk : List Str}
    (agrees : Agrees c l sh lt sht) (entered : Entered c lt sht t tbt lt₁ sht₁) (overlaid : Overlaid c true tb' tbt') :
    Agrees c ((l.withStack stk).respond .OK []) (sh.put t tb') ((lt₁.withStack stk).respond .OK [])
      (sht₁.put t tbt') := by
  refine ⟨agrees.login, entered.logged.trans agrees.logged, agrees.outside, entered.mode.trans agrees.inside,
    agrees.unlocked, rfl, entered.tables.trans agrees.tables, ?_, ?_⟩
  · intro u
    have contains := entered.locked u
    by_cases same : u = t
    · subst same
      rw [put_self, put_self]
      refine .some ?_
      have yes : ((lt₁.withStack stk).respond .OK []).locked_tables.contains u = true := by
        rw [beq_self_eq_true, Bool.true_or] at contains
        exact contains
      rw [yes]
      exact overlaid
    · rw [put_other _ same, put_other _ same, entered.others u same]
      have kept : ((lt₁.withStack stk).respond .OK []).locked_tables.contains u = lt.locked_tables.contains u := by
        rw [beq_false_of_ne same, Bool.false_or] at contains
        exact contains
      rw [kept]
      exact agrees.heap u
  · intro u inside
    by_cases same : u = t
    · exact ⟨tbt', by rw [same, put_self]⟩
    · have before : lt.locked_tables.contains u = true := by
        have contains := entered.locked u
        rw [beq_false_of_ne same, Bool.false_or] at contains
        exact contains.symm.trans inside
      rw [put_other _ same, entered.others u same]
      exact agrees.known u before

/-! ## Each kind of request -/

/-- The transaction answers an input the same and the sessions agree again. -/
def Mirrors (c : ConnId) (input : Input) (calls : List (Call Op Res)) (l : Local) (sh : Shared) (lt : Local)
    (sht : Shared) : Prop :=
  ∃ calls' lt' sht', Alone server c (chat_with_client input lt) sht calls' (.done (.ok true) lt') sht' ∧
    sent calls' = sent calls ∧ Agrees c l sh lt' sht'

/-- A request on a table that has been answered positively has found and locked it, and
    inside a transaction it gets to the same table. -/
theorem agrees_onTable {n : Str} {use : Addr → Local → Iteration} (agrees : Agrees c l sh lt sht)
    (alone : Alone server c ((onTable n l use).bind settle) sh calls (.done (.ok true) l') sh') :
    ∃ t tb tbt rest lt₁ sht₁, Overlaid c (lt.locked_tables.contains t) tb tbt ∧ Entered c lt sht t tbt lt₁ sht₁ ∧
      sent calls = sent rest ∧
      Alone server c ((use t l).bind settle) (sh.put t { tb with m_mutex := some c }) rest (.done (.ok true) l') sh' ∧
      ∀ calls q sh', Alone server c ((use t lt₁).bind settle) sht₁ calls q sh' →
        ∃ calls', Alone server c ((onTable n lt use).bind settle) sht calls' q sh' ∧ sent calls' = sent calls := by
  obtain ⟨_, found, after, rest, find, whole, later⟩ := server_call alone
  obtain ⟨name, rfl⟩ := exec_find find
  rw [whole]
  cases found with
  | none =>
    have refused : Alone server c (responding false (l.respond .ERROR [tableMissing])) _ rest
        (.done (.ok true) l') sh' := later
    obtain ⟨_, _, _, keep, _⟩ := alone_responding refused
    cases keep
  | some t =>
    obtain ⟨tb, rest, here, rfl, used⟩ := alone_locking agrees.outside later
    obtain ⟨tbt, there, overlaid⟩ := agrees.table here
    obtain ⟨lt₁, sht₁, entered, enter⟩ := locking_alone agrees there overlaid
    refine ⟨t, tb, tbt, rest, lt₁, sht₁, overlaid, entered, rfl, used, ?_⟩
    intro calls q sh' alone
    obtain ⟨calls', run, same⟩ := enter (use t) calls q sh' alone
    have found : Server.exec c 0 (.find_table n) sht = some (some t, sht) := by
      simp [Server.exec, agrees.tables, name]
    exact ⟨⟨.find_table n, some t⟩ :: calls', .step 0 found run, same⟩

/-- A table that is committed and unlocked at once, and one that the transaction keeps. -/
theorem overlaid_committed (name : tbt.m_name = tb.m_name) (held : tbt.m_mutex = some c)
    (same : tbt.overlay = tb.overlay) :
    Overlaid c true (finished tb) tbt where
  name := name
  free := rfl
  clean := rfl
  mutex := held
  pending h := by cases h
  same := same.trans (Table.commit_overlay tb).symm

private theorem agrees_get {n k : Str} (asked : requestOf input = some ⟨.GET, [n, k]⟩) (agrees : Agrees c l sh lt sht)
    (alone : Alone server c (chat_with_client input l) sh calls (.done (.ok true) l') sh') :
    Mirrors c input calls l' sh' lt sht := by
  have program : ∀ l : Local, l.logged_in = true →
      chat_with_client input l = (onTable n l fun t => reading t k).bind settle := fun l login =>
    request_run asked (by simp) login
  rw [program l agrees.login] at alone
  obtain ⟨t, tb, tbt, rest, lt₁, sht₁, overlaid, entered, same, used, enter⟩ := agrees_onTable agrees alone
  obtain ⟨_, _, _, rest, get, rfl, later⟩ := server_call used
  obtain ⟨tb₁, here, rfl, rfl⟩ := exec_get get
  rw [put_self] at here
  cases here
  obtain ⟨ok, rfl, rfl⟩ := alone_autocommitting (l := l.withStack (_ :: l.client_stack.stk)) agrees.outside
    (put_self _ _ _) later
  have value : Table.read { tbt with m_mutex := some c } k = Table.read { tb with m_mutex := some c } k := by
    rw [Table.read_overlay, Table.read_overlay]
    exact congrArg (fun o => o.getD []) (congrFun overlaid.same k)
  have stack : lt₁.client_stack.stk = l.client_stack.stk := by rw [entered.stack, agrees.stack]
  have got : Server.exec c 0 (.get t k) sht₁ = some (.ok (Table.read { tb with m_mutex := some c } k),
      sht₁.put t (Table.touch { tbt with m_mutex := some c } k)) := by
    simp only [Server.exec, entered.here, Option.map_some, Table.get_eq, value]
  obtain ⟨calls', run, sameCalls⟩ := enter _ _ _ (.step 0 got (autocommitting_alone (entered.mode.trans agrees.inside)))
  rw [← program lt agrees.logged] at run
  refine ⟨calls', _, _, run, ?_, ?_⟩
  · rw [sameCalls, same]
    exact ok.symm
  · rw [put_put, put_put, stack]
    refine agrees.accessed entered (overlaid_committed ?_ (Table.touch_mutex _ _) ?_)
    · rw [Table.touch_name, Table.touch_name]
      exact overlaid.name
    · funext j
      have both : ∀ i, Table.overlay { tbt with m_mutex := some c } i = Table.overlay { tb with m_mutex := some c } i :=
        congrFun overlaid.same
      rw [Table.touch_overlay, Table.touch_overlay, both k, both j]

/-- What a table shows once a value has been set in it. -/
theorem set_overlaid {k v : Str} (overlaid : Overlaid c (lt.locked_tables.contains t) tb tbt) :
    Overlaid c true (finished (Table.set { tb with m_mutex := some c } k v))
      (Table.set { tbt with m_mutex := some c } k v) := by
  refine overlaid_committed overlaid.name rfl ?_
  funext j
  have both : Table.overlay { tbt with m_mutex := some c } j = Table.overlay { tb with m_mutex := some c } j :=
    congrFun overlaid.same j
  rw [Table.set_overlay, Table.set_overlay, both]

private theorem agrees_set {n k : Str} (asked : requestOf input = some ⟨.SET, [n, k]⟩) (agrees : Agrees c l sh lt sht)
    (alone : Alone server c (chat_with_client input l) sh calls (.done (.ok true) l') sh')
    (positives : ∀ line ∈ sent calls, positive line = true) : Mirrors c input calls l' sh' lt sht := by
  have program : ∀ l : Local, l.logged_in = true →
      chat_with_client input l = (onTable n l fun t => writing t k).bind settle := fun l login =>
    request_run asked (by simp) login
  rw [program l agrees.login] at alone
  obtain ⟨t, tb, tbt, rest, lt₁, sht₁, overlaid, entered, same, used, enter⟩ := agrees_onTable agrees alone
  have stack : lt₁.client_stack.stk = l.client_stack.stk := by rw [entered.stack, agrees.stack]
  rw [same] at positives
  cases values : l.client_stack.stk with
  | nil =>
    rw [writing, values] at used
    exact (failed_negative agrees.outside used positives).elim
  | cons v below =>
    rw [values] at stack
    rw [writing, values] at used
    obtain ⟨_, ⟨⟩, _, rest, set, rfl, later⟩ := server_call used
    obtain ⟨tb₁, here, rfl⟩ := exec_set set
    rw [put_self] at here
    cases here
    obtain ⟨ok, rfl, rfl⟩ := alone_autocommitting (l := l.withStack below) agrees.outside (put_self _ _ _) later
    have done : Server.exec c 0 (.set t k v) sht₁ =
        some ((), sht₁.put t (Table.set { tbt with m_mutex := some c } k v)) := by
      simp only [Server.exec, entered.here, Option.map_some]
    have mode : (lt₁.withStack below).transaction_mode = true := entered.mode.trans agrees.inside
    have wrote : Alone server c ((writing t k lt₁).bind settle) sht₁ (⟨.set t k v, ()⟩ :: [⟨.write (lit "OK\n"), ()⟩])
        (.done (.ok true) ((lt₁.withStack below).respond .OK []))
        (sht₁.put t (Table.set { tbt with m_mutex := some c } k v)) := by
      rw [writing, stack]
      exact .step 0 done (autocommitting_alone mode)
    obtain ⟨calls', run, sameCalls⟩ := enter _ _ _ wrote
    rw [← program lt agrees.logged] at run
    refine ⟨calls', _, _, run, ?_, ?_⟩
    · rw [sameCalls, same]
      exact ok.symm
    · rw [put_put, put_put]
      exact agrees.accessed entered (set_overlaid overlaid)

/-- The requests that use nothing but the operand stack. -/
def operates (t : MessageType) : Bool := [.PUSH, .POP, .TOP, .ADD, .SUB, .MUL, .DIV].contains t

/-- Two ends of one request, in two sessions: the same answer and stack, or the first
    session fails. -/
def SameEnd (l lt : Local) (one two : Except Fault Bool × Local) : Prop :=
  (∃ stk t args, one = (.ok true, (l.withStack stk).respond t args) ∧
      two = (.ok true, (lt.withStack stk).respond t args)) ∨
    (one.2.transaction_mode = l.transaction_mode ∧
      (one.1 = .error .undefined ∨ ∃ what, one.1 = .error (.thrown (.OperationException what))))

private theorem arithmetically_same (same : lt.client_stack.stk = l.client_stack.stk)
    (operation : Int → Int → Option Int) : SameEnd l lt (arithmetically operation l) (arithmetically operation lt) := by
  unfold arithmetically
  rw [same]
  cases operands l.client_stack.stk with
  | none => exact .inr ⟨rfl, .inr ⟨_, rfl⟩⟩
  | some xy =>
    obtain ⟨x, y⟩ := xy
    dsimp only
    cases operation x y with
    | none => exact .inr ⟨rfl, .inl rfl⟩
    | some z => exact .inl ⟨_, _, _, rfl, rfl⟩

/-- What a request on the operand stack comes to depends on the stack alone. -/
theorem quietly_same (same : lt.client_stack.stk = l.client_stack.stk) (kind : operates m.m_message_type = true) :
    SameEnd l lt (quietly m l) (quietly m lt) := by
  obtain ⟨type, args⟩ := m
  simp only [operates, List.contains_eq_mem, List.mem_cons, List.not_mem_nil, or_false, decide_eq_true_eq] at kind
  rcases kind with rfl | rfl | rfl | rfl | rfl | rfl | rfl
  · refine .inl ⟨_, _, _, rfl, ?_⟩
    simp only [quietly, same]
  · simp only [quietly, same]
    cases l.client_stack.stk with
    | nil => exact .inr ⟨rfl, .inr ⟨_, rfl⟩⟩
    | cons v rest => exact .inl ⟨rest, _, _, rfl, rfl⟩
  · have unchanged : l.withStack l.client_stack.stk = l ∧ lt.withStack l.client_stack.stk = lt := by
      rw [Local.withStack_self, ← same, Local.withStack_self]
      exact ⟨rfl, rfl⟩
    simp only [quietly, same]
    cases values : l.client_stack.stk with
    | nil => exact .inr ⟨rfl, .inr ⟨_, rfl⟩⟩
    | cons v rest =>
      rw [values] at unchanged
      refine .inl ⟨v :: rest, .DATA, [v], ?_, ?_⟩
      · rw [unchanged.1]
      · rw [unchanged.2]
  · exact arithmetically_same same add
  · exact arithmetically_same same sub
  · exact arithmetically_same same mul
  · exact arithmetically_same same div

private theorem agrees_quiet (asked : requestOf input = some m) (kind : operates m.m_message_type = true)
    (agrees : Agrees c l sh lt sht)
    (alone : Alone server c (chat_with_client input l) sh calls (.done (.ok true) l') sh')
    (positives : ∀ line ∈ sent calls, positive line = true) : Mirrors c input calls l' sh' lt sht := by
  have quiet : usesTables m.m_message_type = false := by
    revert kind
    cases m.m_message_type <;> decide
  have other : m.m_message_type ≠ .LOGIN := by
    intro login
    rw [login] at kind
    cases kind
  have program : ∀ l : Local, l.logged_in = true →
      chat_with_client input l = settle (quietly m l).1 (quietly m l).2 := by
    intro l login
    rw [request_run asked other login, requesting_quiet quiet, Prog.bind_done]
  rw [program l agrees.login] at alone
  rcases quietly_same agrees.stack kind with ⟨stk, type, args, one, two⟩ | ⟨mode, undefined | ⟨what, failing⟩⟩
  · rw [one] at alone
    have alone : Alone server c (responding true ((l.withStack stk).respond type args)) sh calls
        (.done (.ok true) l') sh' := alone
    obtain ⟨line, run, rfl, _, rfl, rfl⟩ := alone_responding alone
    refine ⟨_, (lt.withStack stk).respond type args, sht, ?_, rfl, agrees.login, agrees.logged, agrees.outside,
      agrees.inside, agrees.unlocked, rfl, agrees.tables, agrees.heap, agrees.known⟩
    rw [program lt agrees.logged, two]
    exact responding_alone (l := (lt.withStack stk).respond type args) true run sht
  · rw [undefined] at alone
    have thrown : Alone server c (settle (.error .undefined) (quietly m l).2) sh calls (.done (.ok true) l') sh' :=
      alone
    obtain ⟨_, same, _⟩ := alone_done.mp thrown
    cases same
  · rw [failing] at alone
    exact (failed_negative (mode.trans agrees.outside) alone positives).elim

/-! ## The whole transaction -/

/-- The requests of which the sequence is made. -/
def sequenceTypes : List MessageType := [.PUSH, .POP, .TOP, .ADD, .SUB, .MUL, .DIV, .GET, .SET]

private theorem agrees_step (asked : requestOf input = some m) (kind : m.m_message_type ∈ sequenceTypes)
    (agrees : Agrees c l sh lt sht)
    (alone : Alone server c (chat_with_client input l) sh calls (.done (.ok true) l') sh')
    (positives : ∀ line ∈ sent calls, positive line = true) : Mirrors c input calls l' sh' lt sht := by
  rcases request_forms (request_valid asked) with ⟨n, rfl⟩ | ⟨n, k, rfl⟩ | ⟨n, k, rfl⟩ | rfl | quiet
  · simp [sequenceTypes] at kind
  · exact agrees_get asked agrees alone
  · exact agrees_set asked agrees alone positives
  · simp [sequenceTypes] at kind
  · refine agrees_quiet asked ?_ agrees alone positives
    revert kind quiet
    cases m.m_message_type <;> decide

/-- The members after BEGIN. -/
def begun (l : Local) : Local := { l.respond .OK [] with transaction_mode := true }

private theorem begin_alone (asked : requestOf input = some ⟨.BEGIN, []⟩) (login : l.logged_in = true) (sh : Shared) :
    Alone server c (chat_with_client input l) sh [⟨.write (lit "OK\n"), ()⟩] (.done (.ok true) (begun l)) sh := by
  rw [request_run asked (by simp) login]
  exact responding_alone (l := begun l) true ok_encoded sh

private theorem agrees_begun (quiescent : Quiescent sh) (login : l.logged_in = true)
    (outside : l.transaction_mode = false) (unlocked : l.locked_tables.addrs = []) : Agrees c l sh (begun l) sh := by
  have none_ : ∀ t, (begun l).locked_tables.contains t = false := by
    intro t
    have same : (begun l).locked_tables.addrs = [] := unlocked
    simp [TableSet.contains, same]
  refine ⟨login, login, outside, rfl, unlocked, rfl, rfl, ?_, ?_⟩
  · intro t
    rw [none_ t]
    cases here : sh.heap t with
    | none => exact .none
    | some tb =>
      have clean := quiescent.clean t tb here
      have free := quiescent.free t tb here
      exact .some ⟨rfl, free, clean, free, fun _ => clean, rfl⟩
  · intro t inside
    rw [none_ t] at inside
    cases inside

/-- Committing and unlocking one table after another. -/
theorem releasing_alone {tables : List Addr} (distinct : tables.Nodup)
    (known : ∀ t ∈ tables, ∃ tb, sh.heap t = some tb) (after : Iteration) :
    ∃ sh₁ calls, sh₁.server_tables = sh.server_tables ∧
      (∀ u, sh₁.heap u = if u ∈ tables then (sh.heap u).map finished else sh.heap u) ∧ sent calls = [] ∧
      ∀ more q sh', Alone server c after sh₁ more q sh' →
        Alone server c (releasing .commit l after tables) sh (calls ++ more) q sh' := by
  induction tables generalizing sh with
  | nil => exact ⟨sh, [], rfl, fun u => by simp, rfl, fun more q sh' alone => alone⟩
  | cons t rest ih =>
    obtain ⟨fresh, distinct⟩ := List.nodup_cons.mp distinct
    obtain ⟨tb, here⟩ := known t List.mem_cons_self
    have others : ∀ u ∈ rest, (sh.put t (finished tb)).heap u = sh.heap u := by
      intro u inside
      refine put_other sh ?_ _
      rintro rfl
      exact fresh inside
    have later : ∀ u ∈ rest, ∃ tb', (sh.put t (finished tb)).heap u = some tb' := by
      intro u inside
      rw [others u inside]
      exact known u (List.mem_cons_of_mem _ inside)
    obtain ⟨sh₁, calls, tables, heap, silent, run⟩ := ih distinct later
    refine ⟨sh₁, ⟨.commit_changes t, ()⟩ :: ⟨.unlock t, ()⟩ :: calls, tables, ?_, silent, ?_⟩
    · intro u
      rw [heap u]
      by_cases same : u = t
      · subst same
        rw [if_neg fresh, if_pos List.mem_cons_self, put_self, here]
        rfl
      · rw [put_other sh same]
        simp [same]
    · intro more q sh' alone
      have commit : Server.exec c 0 (.commit_changes t) sh = some ((), sh.put t tb.commit_changes) := by
        simp [Server.exec, here]
      have unlock : Server.exec c 0 (.unlock t) (sh.put t tb.commit_changes) = some ((), sh.put t (finished tb)) := by
        simp [Server.exec, finished]
      exact .step 0 commit (.step 0 unlock (run more q sh' alone))

/-- What a transaction leaves of a table is the table outside. -/
theorem Overlaid.finish {locked : Bool} (overlaid : Overlaid c locked tb tbt) :
    (if locked then finished tbt else tbt) = tb := by
  obtain ⟨name, theMap, tempMap, mutex⟩ := tb
  have clean : tempMap = ∅ := overlaid.clean
  have free : mutex = none := overlaid.free
  subst clean free
  have stored : tbt.commit_changes.theMap = theMap := by
    refine Std.ExtTreeMap.ext_getElem? fun k => ?_
    have outside : Table.overlay ⟨name, theMap, ∅, none⟩ k = theMap[k]? := Table.overlay_of_clean rfl k
    rw [← Table.overlay_of_clean (Table.commit_temp tbt), Table.commit_overlay, overlaid.same, outside]
  cases locked with
  | true =>
    have parts : finished tbt = ⟨tbt.m_name, tbt.commit_changes.theMap, ∅, none⟩ := rfl
    rw [if_pos rfl, parts, stored, overlaid.name]
  | false =>
    have pending : tbt.tempMap = ∅ := overlaid.pending rfl
    have same : tbt.commit_changes.theMap = tbt.theMap := by
      rw [Table.commit_changes, pending]
      rfl
    obtain ⟨name', theMap', tempMap', mutex'⟩ := tbt
    have name := overlaid.name
    have free := overlaid.mutex
    simp only at name free pending same stored
    subst pending
    rw [if_neg (by decide), ← stored, same, name, free]
    rfl

/-- Once its tables are committed and unlocked the store of the transaction is the one outside. -/
theorem Agrees.released {sh₁ : Shared} (agrees : Agrees c l sh lt sht) (tables : sh₁.server_tables = sht.server_tables)
    (heap : ∀ u, sh₁.heap u = if u ∈ lt.locked_tables.addrs then (sht.heap u).map finished else sht.heap u) :
    sh₁ = sh := by
  have cells : sh₁.heap = sh.heap := by
    funext u
    rw [heap u]
    cases here : sh.heap u with
    | none =>
      rw [agrees.absent here]
      simp
    | some tb =>
      obtain ⟨tbt, there, overlaid⟩ := agrees.table here
      rw [there, ← overlaid.finish, Option.map_some]
      by_cases member : u ∈ lt.locked_tables.addrs
      · simp [TableSet.contains, member]
      · simp [TableSet.contains, member]
  have names := tables.trans agrees.tables
  cases sh₁
  cases sh
  cases names
  cases cells
  rfl

private theorem commit_alone (asked : requestOf input = some ⟨.COMMIT, []⟩) (agrees : Agrees c l sh lt sht) :
    ∃ calls, Alone server c (chat_with_client input lt) sht calls (.done (.ok true) (lt.released.respond .OK [])) sh ∧
      sent calls = [lit "OK\n"] := by
  have distinct : lt.locked_tables.addrs.Nodup := lt.locked_tables.sorted.imp Nat.ne_of_lt
  have known : ∀ t ∈ lt.locked_tables.addrs, ∃ tb, sht.heap t = some tb := by
    intro t inside
    exact agrees.known t (by simpa [TableSet.contains] using inside)
  obtain ⟨sh₁, calls, tables, heap, silent, run⟩ :=
    releasing_alone (c := c) (l := lt) distinct known (responding true (lt.released.respond .OK []))
  obtain rfl : sh₁ = sh := agrees.released tables heap
  refine ⟨calls ++ [⟨.write (lit "OK\n"), ()⟩], ?_, ?_⟩
  · rw [request_run asked (by simp) agrees.logged, requesting, releasing_bind]
    exact run _ _ _ (responding_alone (l := lt.released.respond .OK []) true ok_encoded sh₁)
  · rw [sent_append, silent]
    rfl

/-- Inside a transaction every sequence of the requests goes on as outside. -/
theorem agrees_session {inputs : List Input} (session : Session server c inputs l sh calls l' sh')
    (kinds : ∀ input ∈ inputs, ∃ m, requestOf input = some m ∧ m.m_message_type ∈ sequenceTypes)
    (positives : ∀ line ∈ sent calls, positive line = true) (agrees : Agrees c l sh lt sht) :
    ∃ calls' lt' sht', Session server c inputs lt sht calls' lt' sht' ∧ sent calls' = sent calls ∧
      Agrees c l' sh' lt' sht' := by
  induction session with
  | nil l sh => exact ⟨[], lt, sht, .nil _ _, rfl, agrees⟩
  | @snoc inputs input l l₁ l₂ sh sh₁ sh₂ calls more before one ih =>
    obtain ⟨calls', lt', sht', session', same, agrees'⟩ :=
      ih (fun d inside => kinds d (by simp [inside])) (fun line inside => positives line (by simp [inside])) agrees
    obtain ⟨m, asked, kind⟩ := kinds input (by simp)
    obtain ⟨more', lt'', sht'', run, sameMore, agrees''⟩ :=
      agrees_step asked kind agrees' one (fun line inside => positives line (by simp [inside]))
    refine ⟨calls' ++ more', lt'', sht'', session'.snoc run, ?_, agrees''⟩
    rw [sent_append, sent_append, same, sameMore]

/-! ## The runs of a client that works alone -/

variable {start s s' : ServerState} {tr tr' : ServerTrace} {begin_ commit : Input}

private theorem determined : Determined server c Creation.NoCreate := by
  intro l op sh choice choice' x y kind one two
  have same : Server.exec c choice op sh = Server.exec c choice' op sh := by
    cases op with
    | create_table name => exact kind.elim
    | _ => rfl
  exact Option.some.inj (one.symm.trans (same.trans two))

private theorem calls_asked (asked : requestOf input = some m) (other : m.m_message_type ≠ .CREATE) (l : Local) :
    (chat_with_client input l).Calls Creation.NoCreate := by
  refine Creation.calls_iteration ?_ l
  intro n create
  rw [asked] at create
  cases create
  exact other rfl

/-- What a run of `c` that wraps the inputs of another one in a transaction must share with it. -/
structure Transacted (c : ConnId) (tr : ServerTrace) (s : ServerState) (tr' : ServerTrace) (s' : ServerState) :
    Prop where
  answers : sent (called tr') = lit "OK\n" :: (sent (called tr) ++ [lit "OK\n"])
  stack : (members (s'.threads c)).client_stack = (members (s.threads c)).client_stack
  tables : s'.shared = s.shared
  free : ∀ t, holder s'.shared t = none
  unlocked : (members (s'.threads c)).locked_tables.addrs = []

private theorem transacted_session {inputs : List Input} (quiescent : Quiescent sh) (login : l.logged_in = true)
    (outside : l.transaction_mode = false) (unlocked : l.locked_tables.addrs = [])
    (session : Session server c inputs l sh calls l' sh')
    (kinds : ∀ input ∈ inputs, ∃ m, requestOf input = some m ∧ m.m_message_type ∈ sequenceTypes)
    (positives : ∀ line ∈ sent calls, positive line = true)
    (begins : requestOf begin_ = some ⟨.BEGIN, []⟩) (commits : requestOf commit = some ⟨.COMMIT, []⟩) :
    ∃ calls' lt, Session server c (begin_ :: (inputs ++ [commit])) l sh calls' lt sh' ∧
      sent calls' = lit "OK\n" :: (sent calls ++ [lit "OK\n"]) ∧ lt.client_stack = l'.client_stack ∧
      lt.locked_tables.addrs = [] ∧ ∀ t, holder sh' t = none := by
  obtain ⟨middle, lt, sht, within, same, agrees⟩ :=
    agrees_session session kinds positives (agrees_begun quiescent login outside unlocked)
  obtain ⟨last, run, closing⟩ := commit_alone commits agrees
  have opening : Session server c [begin_] l sh _ (begun l) sh := session_one (begin_alone begins login sh)
  refine ⟨_, _, (opening.append within).snoc run, ?_, ValueStack.ext agrees.stack, rfl, ?_⟩
  · rw [sent_append, sent_append, same, closing]
    rfl
  · intro t
    rw [holder]
    cases here : sh'.heap t with
    | none => rfl
    | some tb =>
      obtain ⟨_, _, overlaid⟩ := agrees.table here
      exact overlaid.free

/-- A sequence of requests that are all answered OK or DATA comes to the same, and leaves
    the same tables, when it is sent between BEGIN and COMMIT. -/
theorem transaction_agrees (quiescent : Quiescent start.shared) (up : start.aborted = none)
    (here : start.threads c = .reading l) (login : l.logged_in = true) (outside : l.transaction_mode = false)
    (unlocked : l.locked_tables.addrs = []) (run : Run server (only c) start tr s) (back : s.threads c = .reading l')
    (kinds : ∀ input ∈ received tr, ∃ m, requestOf input = some m ∧ m.m_message_type ∈ sequenceTypes)
    (positives : ∀ line ∈ sent (called tr), positive line = true)
    (begins : requestOf begin_ = some ⟨.BEGIN, []⟩) (commits : requestOf commit = some ⟨.COMMIT, []⟩) :
    (∃ tr' s' lt, Run server (only c) start tr' s' ∧ received tr' = begin_ :: (received tr ++ [commit]) ∧
      s'.threads c = .reading lt) ∧
    ∀ tr' s' lt, Run server (only c) start tr' s' → received tr' = begin_ :: (received tr ++ [commit]) →
      s'.threads c = .reading lt → Transacted c tr s tr' s' := by
  obtain ⟨calls, lt, session, answers, stack, emptied, free⟩ :=
    transacted_session quiescent login outside unlocked (session_of_run run here back) kinds positives begins commits
  constructor
  · obtain ⟨tr', s', run', got, _, reads, _⟩ := run_of_session session up rfl here
    exact ⟨tr', s', lt, run', got, reads⟩
  · intro tr' s' lt' run' got reads
    have session' := session_of_run run' here reads
    rw [got] at session'
    have plain : ∀ input ∈ begin_ :: (received tr ++ [commit]), ∀ l,
        (chat_with_client input l).Calls Creation.NoCreate := by
      intro input inside
      rcases List.mem_cons.mp inside with rfl | inside
      · exact calls_asked begins (by simp)
      rcases List.mem_append.mp inside with inside | last
      · obtain ⟨m, asked, kind⟩ := kinds input inside
        refine calls_asked asked ?_
        intro create
        simp [create, sequenceTypes] at kind
      · rw [List.mem_singleton.mp last]
        exact calls_asked commits (by simp)
    obtain ⟨same, rfl, store⟩ := session'.unique determined plain session
    refine ⟨by rw [same, answers], ?_, store, ?_, ?_⟩
    · rw [reads, back]
      exact stack
    · rw [store]
      exact free
    · rw [reads]
      exact emptied

/-- A store with one table, in which nothing is kept yet. -/
def oneTable : Shared := Shared.initial.create (lit "a") 0

private theorem oneTable_quiescent : Quiescent oneTable := initial_quiescent.create rfl

/-- A client, logged in, adds one to a key that is not there yet and looks at it. -/
def counting : List (ConnId × Action Input Addr) :=
  turn 0 "PUSH 0\n" 2 0 ++ turn 0 "SET a k\n" 7 0 ++ turn 0 "GET a j\n" 7 0 ++ turn 0 "POP\n" 2 0 ++
    turn 0 "GET a k\n" 7 0 ++ turn 0 "PUSH 1\n" 2 0 ++ turn 0 "ADD\n" 2 0 ++ turn 0 "TOP\n" 2 0 ++
    turn 0 "SET a k\n" 7 0

def inSequence (input : Input) : Bool := (requestOf input).any fun m => sequenceTypes.contains m.m_message_type

def isReading : Thread Local Input Fault Op Res → Bool
  | .reading _ => true
  | _ => false

theorem transaction_agrees_counting : ∃ tr s tr' s', sent (called tr) = List.map lit ["OK\n", "OK\n", "OK\n", "OK\n",
      "OK\n", "OK\n", "OK\n", "DATA 1\n", "OK\n"] ∧
    Transacted 0 tr s tr' s' := by
  have shown : (execute server (fun _ c _ => c == 0) counting (opened oneTable fun _ => true)).any (fun r =>
      isReading (r.2.threads 0) && (received r.1).all inSequence && (sent (called r.1)).all positive &&
        sent (called r.1) == List.map lit
          ["OK\n", "OK\n", "OK\n", "OK\n", "OK\n", "OK\n", "OK\n", "DATA 1\n", "OK\n"]) =
      true := by
    decide +kernel
  obtain ⟨tr, s, run, holds⟩ := run_of_check shown
  simp only [Bool.and_eq_true, List.all_eq_true, beq_iff_eq] at holds
  obtain ⟨⟨⟨reads, kinds⟩, positives⟩, lines⟩ := holds
  obtain ⟨l', back⟩ : ∃ l', s.threads 0 = .reading l' := by
    cases here : s.threads 0 with
    | reading l' => exact ⟨l', rfl⟩
    | running input p => rw [here] at reads; cases reads
    | exited l' => rw [here] at reads; cases reads
  have asked : ∀ input ∈ received tr, ∃ m, requestOf input = some m ∧ m.m_message_type ∈ sequenceTypes := by
    intro input inside
    obtain ⟨m, asked, kind⟩ := (Option.any_eq_true _ _).mp (kinds input inside)
    exact ⟨m, asked, by simpa using kind⟩
  have alone : Run server (only 0) (opened oneTable fun _ => true) tr s :=
    run.mono fun _ _ _ _ _ _ mine => beq_iff_eq.mp mine
  have begins : requestOf (rio_readlineb (lit "BEGIN\n")) = some ⟨.BEGIN, []⟩ := by decide +kernel
  have commits : requestOf (rio_readlineb (lit "COMMIT\n")) = some ⟨.COMMIT, []⟩ := by decide +kernel
  obtain ⟨⟨tr', s', lt, run', got, reads'⟩, all⟩ :=
    transaction_agrees oneTable_quiescent rfl rfl rfl rfl rfl alone back asked positives begins commits
  exact ⟨tr, s, tr', s', lines, all tr' s' lt run' got reads'⟩

end TableServer.Autocommit
