import TableServer.Requests

/-!
How a worker uses the mutexes: a phase for every point of an iteration, saying
which tables the worker has locked and in which of them it may have written, and
the proof that every iteration goes through the phases in order. Nothing here
depends on what other workers do.
-/

namespace TableServer.Locking
open TableServer.Bytes TableServer.Messages TableServer.Serialization TableServer.Stores TableServer.Connection
open TableServer.Server TableServer.Requests TableServer.Tokens
open Resumption Interleaving

/-- How far a worker is with the tables it has locked. -/
inductive Phase where
  /-- Between requests, or inside a transaction: the tables of the transaction. -/
  | holding (tables : List Addr)
  /-- Outside a transaction, the table just locked, and whether the request will find
      its stack empty. -/
  | locked (t : Addr) (empty : Bool)
  | accessed (t : Addr)
  | committed (t : Addr)
  /-- At the end of a transaction, before the next table and with the others to go. -/
  | releasing (ending : Ending) (t : Addr) (rest : List Addr)
  | finished (ending : Ending) (t : Addr) (rest : List Addr)

namespace Phase

def tables : Phase → List Addr
  | holding L => L
  | locked t _ => [t]
  | accessed t => [t]
  | committed t => [t]
  | releasing _ t rest => t :: rest
  | finished _ t rest => t :: rest

/-- The tables that may have pending writes. -/
def dirty : Phase → List Addr
  | holding L => L
  | locked _ _ => []
  | accessed t => [t]
  | committed _ => []
  | releasing _ t rest => t :: rest
  | finished _ _ rest => rest

def release (ending : Ending) : List Addr → Phase
  | [] => holding []
  | t :: rest => releasing ending t rest

@[simp] theorem holding_tables (L : List Addr) : (holding L).tables = L := rfl
@[simp] theorem locked_tables (t : Addr) (empty : Bool) : (locked t empty).tables = [t] := rfl
@[simp] theorem accessed_tables (t : Addr) : (accessed t).tables = [t] := rfl
@[simp] theorem committed_tables (t : Addr) : (committed t).tables = [t] := rfl
@[simp] theorem releasing_tables (ending : Ending) (t : Addr) (R : List Addr) :
    (releasing ending t R).tables = t :: R := rfl
@[simp] theorem finished_tables (ending : Ending) (t : Addr) (R : List Addr) :
    (finished ending t R).tables = t :: R := rfl
@[simp] theorem holding_dirty (L : List Addr) : (holding L).dirty = L := rfl
@[simp] theorem locked_dirty (t : Addr) (empty : Bool) : (locked t empty).dirty = [] := rfl
@[simp] theorem accessed_dirty (t : Addr) : (accessed t).dirty = [t] := rfl
@[simp] theorem committed_dirty (t : Addr) : (committed t).dirty = [] := rfl
@[simp] theorem releasing_dirty (ending : Ending) (t : Addr) (R : List Addr) :
    (releasing ending t R).dirty = t :: R := rfl
@[simp] theorem finished_dirty (ending : Ending) (t : Addr) (R : List Addr) : (finished ending t R).dirty = R := rfl

@[simp] theorem release_tables (ending : Ending) (R : List Addr) : (release ending R).tables = R := by
  cases R <;> rfl

@[simp] theorem release_dirty (ending : Ending) (R : List Addr) : (release ending R).dirty = R := by
  cases R <;> rfl

theorem dirty_sub (g : Phase) : ∀ t ∈ g.dirty, t ∈ g.tables := by
  intro t member
  cases g with
  | holding L => exact member
  | locked u empty => cases member
  | accessed u => exact member
  | committed u => cases member
  | releasing ending u rest => exact member
  | finished ending u rest => exact List.mem_cons_of_mem _ member

/-- A step of a worker on a table that it has locked and keeps locked. -/
structure Accesses (t : Addr) (g g' : Phase) : Prop where
  inside : t ∈ g.tables
  tables : g'.tables = g.tables
  dirty : ∀ u, u ≠ t → u ∈ g.dirty → u ∈ g'.dirty
  moved : ∀ u empty, g' ≠ locked u empty

theorem accesses_locked (t : Addr) (empty : Bool) : Accesses t (locked t empty) (accessed t) :=
  ⟨by simp, rfl, by simp, by simp⟩

theorem accesses_holding {t : Addr} {L : List Addr} (inside : t ∈ L) : Accesses t (holding L) (holding L) :=
  ⟨inside, rfl, fun _ _ => id, by simp⟩

theorem accesses_accessed (t : Addr) : Accesses t (accessed t) (committed t) :=
  ⟨by simp, rfl, by simp, by simp⟩

theorem accesses_releasing (ending : Ending) (t : Addr) (R : List Addr) :
    Accesses t (releasing ending t R) (finished ending t R) :=
  ⟨by simp, rfl, fun u other inside => (List.mem_cons.mp inside).resolve_left other, by simp⟩

end Phase

/-- A request that locks a table outside a transaction and then fails, without
    unlocking it: a SET while the stack is empty. -/
def forgets (input : Input) (l : Local) : Bool :=
  (requestOf input).any (·.m_message_type = .SET) && l.client_stack.stk.isEmpty

/-- Reading a COMMIT starts the release of the tables. -/
def take (g : Phase) (l : Local) (input : Input) : Phase :=
  match g with
  | .holding L =>
    if l.logged_in && (requestOf input).any (·.m_message_type = .COMMIT) then .release .commit L else .holding L
  | g => g

/-- The phase after an operation. -/
def next (input : Input) (g : Phase) (l : Local) (op : Op) (r : Res op) : Phase :=
  match g with
  | .holding L =>
    match op, r with
    | .lock t, _ => .locked t (forgets input l)
    | .trylock t, true => .holding (TableSet.insertAddr t L)
    | .trylock _, false => .release .rollback L
    | _, _ => .holding L
  | .locked t _ =>
    match op with
    | .write _ => .holding []
    | _ => .accessed t
  | .accessed t => .committed t
  | .committed _ => .holding []
  | .releasing ending t rest => .finished ending t rest
  | .finished ending _ rest => .release ending rest

theorem take_tables (g : Phase) (l : Local) (input : Input) : (take g l input).tables = g.tables := by
  cases g with
  | holding L => simp only [take]; split <;> simp
  | _ => rfl

theorem take_dirty (g : Phase) (l : Local) (input : Input) : (take g l input).dirty = g.dirty := by
  cases g with
  | holding L => simp only [take]; split <;> simp
  | _ => rfl

/-- What the members say in each phase. -/
structure Consistent (l : Local) (g : Phase) : Prop where
  outside : l.transaction_mode = false → l.locked_tables.addrs = []
  known : l.locked_tables.addrs ≠ [] → l.logged_in = true
  phase : match g with
    | .holding L => L = l.locked_tables.addrs
    | .locked _ _ => l.transaction_mode = false
    | .accessed _ => l.transaction_mode = false
    | .committed _ => l.transaction_mode = false
    | .releasing _ t rest => ∃ before, l.locked_tables.addrs = before ++ t :: rest
    | .finished _ t rest => ∃ before, l.locked_tables.addrs = before ++ t :: rest

/-- Which operations a worker calls in a phase. -/
def Allowed (g : Phase) (l : Local) : Op → Prop
  | .find_table _ => ∃ L, g = .holding L
  | .create_table _ => ∃ L, g = .holding L
  | .lock _ => g = .holding [] ∧ l.transaction_mode = false
  | .trylock t => ∃ L, g = .holding L ∧ t ∉ L
  | .unlock t => g = .committed t ∨ ∃ ending rest, g = .finished ending t rest
  | .get t _ => (∃ empty, g = .locked t empty) ∨ ∃ L, g = .holding L ∧ t ∈ L
  | .set t _ _ => (∃ empty, g = .locked t empty) ∨ ∃ L, g = .holding L ∧ t ∈ L
  | .commit_changes t => g = .accessed t ∨ ∃ rest, g = .releasing .commit t rest
  | .rollback_changes t => ∃ rest, g = .releasing .rollback t rest
  | .write _ => (∃ L, g = .holding L) ∨ ∃ t, g = .locked t true

/-- The requests after which the loop goes on, unless they stumble on a table's name. -/
def keepsOpen (t : MessageType) : Bool :=
  t != .NONE && t != .OK && t != .FAILED && t != .ERROR && t != .DATA && t != .BYE

/-- With tables locked, the connection reads a request that does not end it. -/
def StaysOpen (l : Local) (input : Input) : Prop :=
  l.locked_tables.addrs ≠ [] → (requestOf input).any (fun m => keepsOpen m.m_message_type) = true

instance (l : Local) (input : Input) : Decidable (StaysOpen l input) := inferInstanceAs (Decidable (_ → _))

/-- With tables locked, a CREATE finds no table and a GET or SET finds one. -/
def FindsWanted (input : Input) (l : Local) (found : Bool) : Prop :=
  l.locked_tables.addrs ≠ [] → found = !(requestOf input).any (·.m_message_type = .CREATE)

instance (input : Input) (l : Local) (found : Bool) : Decidable (FindsWanted input l found) :=
  inferInstanceAs (Decidable (_ → _))

def WellReturned (polite : Prop) (input : Input) (l : Local) (op : Op) (r : Res op) : Prop :=
  match op, r with
  | .get _ _, r => ∃ v, r = .ok v
  | .find_table _, r => polite → FindsWanted input l r.isSome
  | _, _ => True

/-- The discipline of the mutexes. `polite` stands for a client that does not leave
    in the middle of a transaction. -/
def discipline (polite : Prop) : Discipline Phase Local Input Fault Op Res where
  rest l g := g = .holding l.locked_tables.addrs ∧ Consistent l g
  gone l g := g = .holding l.locked_tables.addrs ∧ Consistent l g ∧ (polite → l.locked_tables.addrs = [])
  failed _ l g := Consistent l g ∧ ((∃ L, g = .holding L) ∨ ∃ t, g = .locked t true)
  node _ g l op := Consistent l g ∧ Allowed g l op
  take g l input g' := g' = take g l input ∧ (polite → StaysOpen l input)
  next input g l op r g' := g' = next input g l op r ∧ WellReturned polite input l op r

variable {polite : Prop} {input : Input}

private theorem Consistent.congr {l l' : Local} {g : Phase} (consistent : Consistent l g)
    (tables : l'.locked_tables = l.locked_tables) (login : l'.logged_in = l.logged_in)
    (mode : l'.transaction_mode = l.transaction_mode) : Consistent l' g := by
  obtain ⟨outside, known, phase⟩ := consistent
  refine ⟨?_, ?_, ?_⟩
  · rw [mode, tables]; exact outside
  · rw [login, tables]; exact known
  · rw [mode, tables]; exact phase

theorem Consistent.tables {l : Local} {L : List Addr} (consistent : Consistent l (.holding L)) :
    L = l.locked_tables.addrs := consistent.phase

private theorem Consistent.respond {l : Local} {g : Phase} (consistent : Consistent l g) (t : MessageType)
    (args : List Str) : Consistent (l.respond t args) g := consistent.congr rfl rfl rfl

private theorem Consistent.withStack {l : Local} {g : Phase} (consistent : Consistent l g) (stk : List Str) :
    Consistent (l.withStack stk) g := consistent.congr rfl rfl rfl

/-- Outside a transaction no table is in `locked_tables`. -/
theorem Consistent.change {l : Local} {g g' : Phase} (consistent : Consistent l g)
    (mode : l.transaction_mode = false) (phase : g' = .holding [] ∨ (∃ t empty, g' = .locked t empty) ∨
      (∃ t, g' = .accessed t) ∨ ∃ t, g' = .committed t) : Consistent l g' := by
  refine ⟨consistent.outside, consistent.known, ?_⟩
  rcases phase with rfl | ⟨t, empty, rfl⟩ | ⟨t, rfl⟩ | ⟨t, rfl⟩
  · exact (consistent.outside mode).symm
  · exact mode
  · exact mode
  · exact mode

private theorem consistent_released (l : Local) : Consistent l.released (.holding []) :=
  ⟨fun _ => rfl, fun some_ => absurd rfl some_, rfl⟩

/-- The release of a part of `locked_tables` at its end. -/
theorem Consistent.release {l : Local} {L : List Addr} (consistent : Consistent l (.holding L)) (ending : Ending) :
    Consistent l (.release ending L) := by
  cases L with
  | nil => exact consistent
  | cons t rest => exact ⟨consistent.outside, consistent.known, [], consistent.phase.symm⟩

/-- How a request may end. -/
def Ended (polite : Prop) (r : Except Fault Bool) (l : Local) (g : Phase) : Prop :=
  Consistent l g ∧
  match r with
  | .ok keep => (∃ L, g = .holding L) ∧ (polite → keep = false → l.locked_tables.addrs = [])
  | .error (.thrown (.OperationException _)) => (∃ L, g = .holding L) ∨ ∃ t, g = .locked t true
  | .error (.thrown (.FailedTransaction _)) => g = .release .rollback l.locked_tables.addrs
  | .error (.thrown (.InvalidMessage _)) => (∃ L, g = .holding L) ∧ (polite → l.locked_tables.addrs = [])
  | .error (.thrown (.CommException _)) => (∃ L, g = .holding L) ∧ (polite → l.locked_tables.addrs = [])
  | .error _ => ∃ L, g = .holding L

private theorem ensures_responding {keep : Bool} {l : Local} {g : Phase} (consistent : Consistent l g)
    (at_ : (∃ L, g = .holding L) ∨ ∃ t, g = .locked t true)
    (closing : polite → keep = false → l.locked_tables.addrs = []) :
    (discipline polite).Ensures input (discipline polite).outcome (responding keep l) g := by
  unfold responding
  split
  · refine ⟨⟨consistent, at_⟩, ?_⟩
    rintro r g' ⟨rfl, _⟩
    have rested : next input g l (.write _) r = .holding l.locked_tables.addrs ∧
        Consistent l (next input g l (.write _) r) := by
      rcases at_ with ⟨L, rfl⟩ | ⟨t, rfl⟩
      · have same := consistent.tables
        exact ⟨congrArg _ same, consistent⟩
      · have none_ := consistent.outside consistent.phase
        exact ⟨congrArg _ none_.symm, consistent.change consistent.phase (.inl rfl)⟩
    cases keep with
    | true => exact rested
    | false => exact ⟨rested.1, rested.2, fun polite => closing polite rfl⟩
  · exact ⟨consistent, at_⟩

private theorem ensures_releasing {α : Type} {post : Except Fault α → Local → Phase → Prop} (ending : Ending)
    {l : Local} {after : Program α} (outside : l.transaction_mode = false → l.locked_tables.addrs = [])
    (known : l.locked_tables.addrs ≠ [] → l.logged_in = true) {R : List Addr}
    (part : ∃ before, l.locked_tables.addrs = before ++ R)
    (then_ : (discipline polite).Ensures input post after (.holding [])) :
    (discipline polite).Ensures input post (releasing ending l after R) (.release ending R) := by
  induction R with
  | nil => exact then_
  | cons t rest ih =>
    have finishes : Allowed (.releasing ending t rest) l (ending.op t) := by
      cases ending
      · exact .inr ⟨rest, rfl⟩
      · exact ⟨rest, rfl⟩
    refine ⟨⟨⟨outside, known, part⟩, finishes⟩, ?_⟩
    rintro _ g' ⟨rfl, _⟩
    refine ⟨⟨⟨outside, known, part⟩, .inr ⟨ending, rest, rfl⟩⟩, ?_⟩
    rintro _ g' ⟨rfl, _⟩
    obtain ⟨before, all⟩ := part
    exact ih ⟨before ++ [t], by simpa using all⟩

private theorem ensures_settle {r : Except Fault Bool} {l : Local} {g : Phase} (ended : Ended polite r l g) :
    (discipline polite).Ensures input (discipline polite).outcome (settle r l) g := by
  obtain ⟨consistent, ended⟩ := ended
  rcases r with (e | _) | keep
  · cases e with
    | OperationException what =>
      rw [settle]
      split
      · exact ⟨consistent, ended⟩
      · exact ensures_responding (consistent.respond _ _) ended (by intro _ closes; cases closes)
    | FailedTransaction what =>
      obtain rfl := ended
      refine ensures_releasing .rollback consistent.outside consistent.known ⟨[], rfl⟩ ?_
      exact ensures_responding ((consistent_released l).respond _ _) (.inl ⟨_, rfl⟩) (by intro _ closes; cases closes)
    | InvalidMessage what =>
      exact ensures_responding (consistent.respond _ _) (.inl ended.1) (fun polite _ => ended.2 polite)
    | CommException what =>
      exact ensures_responding (consistent.respond _ _) (.inl ended.1) (fun polite _ => ended.2 polite)
    | out_of_range => exact ⟨consistent, .inl ended⟩
    | invalid_argument => exact ⟨consistent, .inl ended⟩
    | runtime_error what => exact ⟨consistent, .inl ended⟩
  · exact ⟨consistent, .inl ended⟩
  · exact ensures_responding consistent (.inl ended.1) ended.2

variable {l : Local} {m : Message}

private theorem ensures_creating {n : Str} (asked : requestOf input = some ⟨.CREATE, [n]⟩)
    (consistent : Consistent l (.holding l.locked_tables.addrs)) :
    (discipline polite).Ensures input (Ended polite) (creating n l) (.holding l.locked_tables.addrs) := by
  refine ⟨⟨consistent, _, rfl⟩, ?_⟩
  rintro found _ ⟨rfl, wanted⟩
  cases found with
  | some t =>
    refine ⟨consistent, ⟨_, rfl⟩, ?_⟩
    intro polite
    by_contra some_
    have := wanted polite some_
    simp [asked] at this
  | none =>
    refine ⟨⟨consistent, _, rfl⟩, ?_⟩
    rintro _ _ ⟨rfl, _⟩
    exact ⟨consistent.respond _ _, ⟨_, rfl⟩, by intro _ closes; cases closes⟩

/-- Once a table is locked: outside a transaction, or as one of its tables. -/
def Locked (input : Input) (t : Addr) (l : Local) (g : Phase) : Prop :=
  Consistent l g ∧
    ((l.transaction_mode = false ∧ g = .locked t (forgets input l)) ∨
      (l.transaction_mode = true ∧ t ∈ l.locked_tables.addrs ∧ g = .holding l.locked_tables.addrs))

private theorem ensures_locking (t : Addr) {after : Local → Iteration} (login : l.logged_in = true)
    (consistent : Consistent l (.holding l.locked_tables.addrs))
    (then_ : ∀ l' g, l'.client_stack = l.client_stack → Locked input t l' g →
      (discipline polite).Ensures input (Ended polite) (after l') g) :
    (discipline polite).Ensures input (Ended polite) (locking t l after) (.holding l.locked_tables.addrs) := by
  unfold locking
  cases mode : l.transaction_mode with
  | false =>
    have none_ := consistent.outside mode
    refine ⟨⟨consistent, congrArg _ none_, mode⟩, ?_⟩
    rintro _ _ ⟨rfl, _⟩
    exact then_ l _ rfl ⟨consistent.change mode (.inr (.inl ⟨_, _, rfl⟩)), .inl ⟨mode, rfl⟩⟩
  | true =>
    simp only [if_true]
    by_cases inside : l.locked_tables.contains t = true
    · rw [if_pos inside]
      exact then_ l _ rfl ⟨consistent, .inr ⟨mode, by simpa [TableSet.contains] using inside, rfl⟩⟩
    · rw [if_neg inside]
      refine ⟨⟨consistent, _, rfl, by simpa [TableSet.contains] using inside⟩, ?_⟩
      rintro got _ ⟨rfl, _⟩
      cases got with
      | true =>
        have same : (l.withLocked t).locked_tables.addrs = TableSet.insertAddr t l.locked_tables.addrs := rfl
        refine then_ (l.withLocked t) _ rfl ⟨⟨?_, ?_, same.symm⟩, .inr ⟨mode, ?_, congrArg _ same.symm⟩⟩
        · intro off; exact absurd (mode.symm.trans off) (by decide)
        · intro _; exact login
        · rw [same]; exact TableSet.mem_insertAddr.mpr (.inl rfl)
      | false => exact ⟨consistent.release .rollback, rfl⟩

/-- After a get or a set has been done, up to the response. -/
theorem ensures_autocommitting {t : Addr} {g : Phase} (consistent : Consistent l g)
    (done : (l.transaction_mode = false ∧ g = .accessed t) ∨
      (l.transaction_mode = true ∧ g = .holding l.locked_tables.addrs)) :
    (discipline polite).Ensures input (Ended polite)
      (autocommitting t l (.done (.ok true) (l.respond .OK []))) g := by
  unfold autocommitting
  rcases done with ⟨mode, rfl⟩ | ⟨mode, rfl⟩
  · rw [mode]
    refine ⟨⟨consistent, .inl rfl⟩, ?_⟩
    rintro _ _ ⟨rfl, _⟩
    refine ⟨⟨consistent.change mode (.inr (.inr (.inr ⟨t, rfl⟩))), .inl rfl⟩, ?_⟩
    rintro _ _ ⟨rfl, _⟩
    exact ⟨(consistent.change mode (.inl rfl)).respond _ _, ⟨_, rfl⟩, by intro _ closes; cases closes⟩
  · rw [mode]
    exact ⟨consistent.respond _ _, ⟨_, rfl⟩, by intro _ closes; cases closes⟩

private theorem ensures_reading {t : Addr} {k : Str} {g : Phase} (locked : Locked input t l g) :
    (discipline polite).Ensures input (Ended polite) (reading t k l) g := by
  obtain ⟨consistent, where_⟩ := locked
  rcases where_ with ⟨mode, rfl⟩ | ⟨mode, inside, rfl⟩
  · refine ⟨⟨consistent, .inl ⟨_, rfl⟩⟩, ?_⟩
    rintro _ _ ⟨rfl, v, rfl⟩
    exact ensures_autocommitting ((consistent.change mode (.inr (.inr (.inl ⟨t, rfl⟩)))).withStack _) (.inl ⟨mode, rfl⟩)
  · refine ⟨⟨consistent, .inr ⟨_, rfl, inside⟩⟩, ?_⟩
    rintro _ _ ⟨rfl, v, rfl⟩
    exact ensures_autocommitting (consistent.withStack _) (.inr ⟨mode, rfl⟩)

private theorem ensures_writing {t : Addr} {n k : Str} {g : Phase} (asked : requestOf input = some ⟨.SET, [n, k]⟩)
    (locked : Locked input t l g) : (discipline polite).Ensures input (Ended polite) (writing t k l) g := by
  obtain ⟨consistent, where_⟩ := locked
  unfold writing
  split
  · rename_i empty
    refine ⟨consistent, ?_⟩
    rcases where_ with ⟨mode, rfl⟩ | ⟨mode, inside, rfl⟩
    · exact .inr ⟨t, by simp [forgets, asked, empty]⟩
    · exact .inl ⟨_, rfl⟩
  · rcases where_ with ⟨mode, rfl⟩ | ⟨mode, inside, rfl⟩
    · refine ⟨⟨consistent.withStack _, .inl ⟨_, rfl⟩⟩, ?_⟩
      rintro _ _ ⟨rfl, _⟩
      exact ensures_autocommitting ((consistent.change mode (.inr (.inr (.inl ⟨t, rfl⟩)))).withStack _)
        (.inl ⟨mode, rfl⟩)
    · refine ⟨⟨consistent.withStack _, .inr ⟨_, rfl, inside⟩⟩, ?_⟩
      rintro _ _ ⟨rfl, _⟩
      exact ensures_autocommitting (consistent.withStack _) (.inr ⟨mode, rfl⟩)

private theorem ensures_onTable {n : Str} {use : Addr → Local → Iteration}
    (wanted : (requestOf input).any (·.m_message_type = .CREATE) = false)
    (login : l.logged_in = true) (consistent : Consistent l (.holding l.locked_tables.addrs))
    (then_ : ∀ t l' g, Locked input t l' g → (discipline polite).Ensures input (Ended polite) (use t l') g) :
    (discipline polite).Ensures input (Ended polite) (onTable n l use) (.holding l.locked_tables.addrs) := by
  refine ⟨⟨consistent, _, rfl⟩, ?_⟩
  rintro found _ ⟨rfl, finds⟩
  cases found with
  | none =>
    refine ⟨consistent, ⟨_, rfl⟩, ?_⟩
    intro polite
    by_contra some_
    have := finds polite some_
    simp [wanted] at this
  | some t => exact ensures_locking t login consistent (fun l' g _ locked => then_ t l' g locked)

private theorem arithmetically_ended (operation : Int → Int → Option Int)
    (consistent : Consistent l (.holding l.locked_tables.addrs)) :
    Ended polite (arithmetically operation l).1 (arithmetically operation l).2 (.holding l.locked_tables.addrs) := by
  unfold arithmetically
  split
  · exact ⟨consistent.withStack _, .inl ⟨_, rfl⟩⟩
  · split
    · exact ⟨consistent.withStack _, _, rfl⟩
    · exact ⟨(consistent.withStack _).respond _ _, ⟨_, rfl⟩, by intro _ closes; cases closes⟩

private theorem quietly_ended (quiet : usesTables m.m_message_type = false) (notLogin : m.m_message_type ≠ .LOGIN)
    (asked : requestOf input = some m) (stays : polite → StaysOpen l input)
    (consistent : Consistent l (.holding l.locked_tables.addrs)) :
    Ended polite (quietly m l).1 (quietly m l).2 (.holding l.locked_tables.addrs) := by
  have leaves : keepsOpen m.m_message_type = false → polite → l.locked_tables.addrs = [] := by
    intro closing polite
    by_contra some_
    have keeps := stays polite some_
    rw [asked, Option.any_some, closing] at keeps
    cases keeps
  obtain ⟨t, args⟩ := m
  have refused : keepsOpen t = false → Ended polite (.error (.thrown (.InvalidMessage (lit "Invalid message sent")))) l
      (.holding l.locked_tables.addrs) := fun closing => ⟨consistent, ⟨_, rfl⟩, leaves closing⟩
  have goesOn : ∀ l', Consistent l' (.holding l.locked_tables.addrs) → Ended polite (.ok true) l'
      (.holding l.locked_tables.addrs) := fun l' kept => ⟨kept, ⟨_, rfl⟩, by intro _ closes; cases closes⟩
  cases t with
  | CREATE => cases quiet
  | GET => cases quiet
  | SET => cases quiet
  | COMMIT => cases quiet
  | LOGIN => exact absurd rfl notLogin
  | PUSH => exact goesOn _ ((consistent.withStack _).respond _ _)
  | POP =>
    unfold quietly
    cases l.client_stack.stk with
    | nil => exact ⟨consistent, .inl ⟨_, rfl⟩⟩
    | cons v rest => exact goesOn _ ((consistent.withStack _).respond _ _)
  | TOP =>
    unfold quietly
    cases l.client_stack.stk with
    | nil => exact ⟨consistent, .inl ⟨_, rfl⟩⟩
    | cons v rest => exact goesOn _ (consistent.respond _ _)
  | ADD => exact arithmetically_ended _ consistent
  | MUL => exact arithmetically_ended _ consistent
  | SUB => exact arithmetically_ended _ consistent
  | DIV => exact arithmetically_ended _ consistent
  | BEGIN => exact goesOn _ ⟨(fun off => Bool.noConfusion off), consistent.known, consistent.phase⟩
  | BYE => exact ⟨consistent.respond _ _, ⟨_, rfl⟩, fun polite _ => leaves rfl polite⟩
  | NONE => exact refused rfl
  | OK => exact refused rfl
  | FAILED => exact refused rfl
  | ERROR => exact refused rfl
  | DATA => exact refused rfl

/-- The phase in which the handler of a request starts. -/
theorem ensures_requesting (valid : m.is_valid = true) (notLogin : m.m_message_type ≠ .LOGIN)
    (asked : requestOf input = some m) (login : l.logged_in = true) (stays : polite → StaysOpen l input)
    (consistent : Consistent l (.holding l.locked_tables.addrs)) :
    (discipline polite).Ensures input (Ended polite) (requesting m l)
      (take (.holding l.locked_tables.addrs) l input) := by
  have taken : take (.holding l.locked_tables.addrs) l input =
      if m.m_message_type = .COMMIT then .release .commit l.locked_tables.addrs
      else .holding l.locked_tables.addrs := by
    simp [take, login, asked]
  rw [taken]
  rcases request_forms valid with ⟨n, rfl⟩ | ⟨n, k, rfl⟩ | ⟨n, k, rfl⟩ | rfl | quiet
  · exact ensures_creating asked consistent
  · exact ensures_onTable (by simp [asked]) login consistent (fun t l' g locked => ensures_reading locked)
  · exact ensures_onTable (by simp [asked]) login consistent (fun t l' g locked => ensures_writing asked locked)
  · refine ensures_releasing .commit consistent.outside consistent.known ⟨[], rfl⟩ ?_
    exact ⟨(consistent_released l).respond _ _, ⟨_, rfl⟩, by intro _ closes; cases closes⟩
  · rw [requesting_quiet quiet, if_neg (by intro commit; rw [commit] at quiet; cases quiet)]
    exact quietly_ended quiet notLogin asked stays consistent

/-- Every iteration follows the discipline. -/
theorem ensures_iteration {g g' : Phase} (rests : (discipline polite).rest l g)
    (taken : (discipline polite).take g l input g') :
    (discipline polite).Ensures input (discipline polite).outcome (chat_with_client input l) g' := by
  obtain ⟨rfl, consistent⟩ := rests
  obtain ⟨rfl, stays⟩ := taken
  rw [chat_run]
  have refused : requestOf input = none → ∀ e what, (e = .InvalidMessage what ∨ e = .CommException what) →
      (discipline polite).Ensures input (discipline polite).outcome (settle (.error (.thrown e)) l)
        (take (.holding l.locked_tables.addrs) l input) := by
    intro none_ e what kind
    have unread : polite → l.locked_tables.addrs = [] := by
      intro polite
      by_contra some_
      have keeps := stays polite some_
      rw [none_] at keeps
      cases keeps
    have same : take (.holding l.locked_tables.addrs) l input = .holding l.locked_tables.addrs := by
      simp [take, none_]
    rw [same]
    rcases kind with rfl | rfl
    · exact ensures_settle ⟨consistent, ⟨_, rfl⟩, unread⟩
    · exact ensures_settle ⟨consistent, ⟨_, rfl⟩, unread⟩
  cases input with
  | closed => exact refused rfl _ readError (.inr rfl)
  | line buf =>
    rcases line_cases buf with ⟨failed, _⟩ | ⟨failed, _⟩ | ⟨failed, _⟩ | ⟨m, parsed, _⟩
    · simp only [iteration, failed]
      have same : take (.holding l.locked_tables.addrs) l (.line buf) = .holding l.locked_tables.addrs := by
        simp [take, requestOf_error failed]
      rw [same]
      exact ensures_settle ⟨consistent, _, rfl⟩
    · simp only [iteration, failed]
      exact refused (requestOf_error failed) _ _ (.inl rfl)
    · simp only [iteration, failed]
      exact refused (requestOf_error failed) _ _ (.inl rfl)
    · have asked : requestOf (.line buf) = some m := requestOf_decode parsed
      have valid := (decode_accepted parsed).2.2
      simp only [iteration, parsed]
      by_cases login : m.m_message_type = .LOGIN
      · have same : take (.holding l.locked_tables.addrs) l (.line buf) = .holding l.locked_tables.addrs := by
          simp [take, asked, login]
        rw [if_pos login, same]
        exact ensures_responding ⟨consistent.outside, fun _ => rfl, consistent.phase⟩ (.inl ⟨_, rfl⟩)
          (by intro _ closes; cases closes)
      · rw [if_neg login]
        by_cases in_ : l.logged_in = true
        · rw [if_pos in_]
          exact Discipline.ensures_bind (ensures_requesting valid login asked in_ stays consistent)
            (fun r l g ended => ensures_settle ended)
        · have out : l.logged_in = false := Bool.eq_false_of_not_eq_true in_
          have none_ : l.locked_tables.addrs = [] := by
            by_contra some_
            exact in_ (consistent.known some_)
          have same : take (.holding l.locked_tables.addrs) l (.line buf) = .holding l.locked_tables.addrs := by
            simp [take, out]
          rw [if_neg in_, same]
          exact ensures_settle ⟨consistent, ⟨_, rfl⟩, fun _ => none_⟩

end TableServer.Locking
