import TableServer.Counters
import TableServer.Sessions

/-!
The workers of `incr_value` clients with and without `-t` on the same key. A client without a
transaction gives the table back between its GET and its SET, and writes over what others
have stored in between: their increments are lost. Yet whatever a worker has read or stored
is the first number plus at most one for each of the commits.
-/

namespace TableServer.Updates
open TableServer.Bytes TableServer.Messages TableServer.Serialization TableServer.Stores TableServer.Numbers
open TableServer.Connection TableServer.Server TableServer.Requests TableServer.Tokens TableServer.Login
open TableServer.Dialogue TableServer.Values TableServer.Increment TableServer.Rio TableServer.Clients
open TableServer.Replies TableServer.World TableServer.Exits TableServer.Insisting TableServer.Counters
open TableServer.Sessions
open Resumption Interleaving

variable {l : Local} {input : Input} {table key : Str} {a : Addr} {x : Int}

/-- How far a connection is with the table, with the number that it has read. -/
inductive Place where
  | outside
  | locked
  | read (x : Int)
  /-- The number has been read, and the table is not locked. -/
  | between (x : Int)
  | written (x : Int)
  | committed
  | unlocked
  /-- The lock was refused, and the client does not know it yet. -/
  | refused
  | failed

namespace Place

/-- The connection has locked the table. -/
def holds : Place → Bool
  | locked | read _ | written _ | committed => true
  | _ => false

/-- The connection has committed its number. -/
def counted : Place → Bool
  | committed | unlocked => true
  | _ => false

/-- All responses so far have been OK. -/
def live : Place → Bool
  | failed => false
  | _ => true

/-- The connection has not got the lock. -/
def denied : Place → Bool
  | refused | failed => true
  | _ => false

/-- The number that the connection has read, up to its commit. -/
def number : Place → Option Int
  | read x | between x | written x => some x
  | _ => none

/-- What the connection has written and not committed. -/
def pending : Place → Option Str
  | written x => some (to_string (x + 1))
  | _ => none

def lock : Place → Place
  | outside => locked
  | between x => read x
  | p => p

/-- A commit after which nothing is pending; the one of a GET has nothing to commit. -/
def commit : Place → Place
  | written _ => committed
  | p => p

def unlock : Place → Place
  | read x => between x
  | committed => unlocked
  | p => p

end Place

/-- A client with or without a transaction, how many of its requests have been answered OK,
    and how far its connection is with the table. -/
structure Updater where
  useTransaction : Bool
  answered : Nat
  place : Place

def Updater.goTo (u : Updater) (place : Place) : Updater := { u with place := place }

/-- After a response. -/
def Updater.replied (u : Updater) : Updater :=
  match u.place with
  | .refused => u.goTo .failed
  | .failed => u
  | _ => { u with answered := u.answered + 1 }

section
variable {us : ConnId → Updater} {u' : Updater} {place : Place} {c : ConnId} {clients : Finset ConnId} {tb tb' : Table}
  {v : Int} {n n' : Nat}

/-- The connections that have committed their number. -/
def updated (clients : Finset ConnId) (us : ConnId → Updater) : Finset ConnId :=
  clients.filter fun c => (us c).place.counted = true

/-- A number that `v` can have become by at most `n` increments. -/
def GrownBy (v : Int) (n : Nat) (x : Int) : Prop := v ≤ x ∧ x ≤ v + n

/-- The table, after `n` commits. -/
structure Kept (key : Str) (v : Int) (us : ConnId → Updater) (n : Nat) (tb : Table) : Prop where
  stored : ∃ x, tb.theMap[key]? = some (to_string x) ∧ GrownBy v n x ∧ (0 < n → v < x)
  held : ∀ c, (us c).place.holds = true ↔ tb.m_mutex = some c
  pending : tb.tempMap[key]? = tb.m_mutex.bind fun c => (us c).place.pending
  numbers : ∀ c x, (us c).place.number = some x → GrownBy v n x

/-- Two places at which a connection has done the same to the table. -/
structure Level (p q : Place) : Prop where
  holds : p.holds = q.holds
  pending : p.pending = q.pending
  number : p.number = q.number
  counted : p.counted = q.counted

private theorem GrownBy.more {x : Int} (reached : GrownBy v n x) (more : n ≤ n') : GrownBy v n' x := by
  unfold GrownBy at reached ⊢
  omega

private theorem pending_holds {p : Place} (outside : p.holds = false) : p.pending = none := by
  cases p with
  | written x => cases outside
  | _ => rfl

/-- Nobody else has locked a table that is free or that `c` has locked. -/
theorem Kept.alone (kept : Kept key v us n tb) (mine : tb.m_mutex = none ∨ tb.m_mutex = some c) {d : ConnId}
    (other : d ≠ c) : (us d).place.holds = false := by
  by_contra yes
  have byD := (kept.held d).mp (Bool.eq_true_of_not_eq_false yes)
  rcases mine with free | byC
  · rw [free] at byD
    cases byD
  · rw [byC] at byD
    exact other (Option.some.inj byD).symm

/-- What a connection has locked, and what is pending there is its own. -/
theorem Kept.locked (kept : Kept key v us n tb) (at_ : (us c).place = place) (inside : place.holds = true) :
    tb.m_mutex = some c ∧ tb.tempMap[key]? = place.pending := by
  subst at_
  have byC := (kept.held c).mp inside
  exact ⟨byC, by rw [kept.pending, byC]; rfl⟩

/-- Nothing is pending in a table that is free. -/
theorem Kept.clean (kept : Kept key v us n tb) (free : tb.m_mutex = none) : tb.tempMap[key]? = none := by
  rw [kept.pending, free]
  rfl

private theorem Kept.number (kept : Kept key v us n tb) (at_ : (us c).place = place) :
    ∀ x, place.number = some x → GrownBy v n x := by
  subst at_
  exact kept.numbers c

/-- The table after a step of a connection that has locked it before or locks it then. -/
theorem Kept.move (kept : Kept key v us n tb) (mine : tb.m_mutex = none ∨ tb.m_mutex = some c) (more : n ≤ n')
    (stored : ∃ x, tb'.theMap[key]? = some (to_string x) ∧ GrownBy v n' x ∧ (0 < n' → v < x))
    (mutex : tb'.m_mutex = if u'.place.holds then some c else none) (pending : tb'.tempMap[key]? = u'.place.pending)
    (number : ∀ x, u'.place.number = some x → GrownBy v n' x) : Kept key v (Function.update us c u') n' tb' := by
  refine ⟨stored, ?_, ?_, ?_⟩
  · intro d
    by_cases same : d = c
    · rw [same, Function.update_self, mutex]
      by_cases locked : u'.place.holds = true
      · simp [locked]
      · simp [locked]
    · rw [Function.update_of_ne same, kept.alone mine same, mutex]
      constructor
      · intro no
        cases no
      · intro byD
        split at byD
        · exact absurd (Option.some.inj byD).symm same
        · cases byD
  · rw [pending, mutex]
    by_cases locked : u'.place.holds = true
    · simp [locked]
    · simp [locked, pending_holds (Bool.eq_false_of_not_eq_true locked)]
  · exact (Function.forall_update_iff us fun _ u => ∀ x, u.place.number = some x → GrownBy v n' x).mpr
      ⟨number, fun d _ x had => (kept.numbers d x had).more more⟩

/-- The table when a connection moves on without it. -/
theorem Kept.still (kept : Kept key v us n tb) (level : Level u'.place (us c).place) :
    Kept key v (Function.update us c u') n tb := by
  have same {β : Type} (f : Place → β) (here : f u'.place = f (us c).place) :
      ∀ d, f (Function.update us c u' d).place = f (us d).place :=
    (Function.forall_update_iff us fun d u => f u.place = f (us d).place).mpr ⟨here, fun _ _ => rfl⟩
  refine ⟨kept.stored, ?_, ?_, ?_⟩
  · intro d
    rw [same Place.holds level.holds]
    exact kept.held d
  · simp only [same Place.pending level.pending]
    exact kept.pending
  · intro d x had
    rw [same Place.number level.number] at had
    exact kept.numbers d x had

private theorem updated_same (same : u'.place.counted = (us c).place.counted) :
    updated clients (Function.update us c u') = updated clients us := by
  have stays : ∀ d, (Function.update us c u' d).place.counted = (us d).place.counted :=
    (Function.forall_update_iff us fun d u => u.place.counted = (us d).place.counted).mpr ⟨same, fun _ _ => rfl⟩
  refine Finset.filter_congr ?_
  intro d _
  rw [stays]

/-- What a connection has been told, by its place. -/
def Hears (u : Updater) (lines : List Str) : Prop :=
  match u.place with
  | .failed => lines.all isOK = false
  | _ => lines.all isOK = true ∧ lines.length = u.answered

theorem hears_live {u : Updater} {lines : List Str} (live : u.place.live = true) :
    Hears u lines ↔ lines.all isOK = true ∧ lines.length = u.answered := by
  obtain ⟨useTransaction, answered, place⟩ := u
  cases place with
  | failed => cases live
  | _ => exact Iff.rfl

end

/-! ## The invariant -/

/-- The store and the trace after any steps of the clients. -/
structure Updating (useTransaction : ConnId → Bool) (table key : Str) (a : Addr) (v : Int) (clients : Finset ConnId)
    (us : ConnId → Updater) (tr : ServerTrace) (sh : Shared) : Prop where
  named : sh.server_tables[table]? = some a
  kept : ∃ tb, sh.heap a = some tb ∧ Kept key v us (updated clients us).card tb
  told : ∀ c, Hears (us c) (responses c tr)
  leavers : LeaveOnly (fun c => (us c).place.counted = true) tr
  kinds : ∀ c, (us c).useTransaction = useTransaction c
  denied : ∀ c, (us c).place.denied = true → (us c).useTransaction = true

section
variable {us : ConnId → Updater} {u' : Updater} {place place' : Place} {c : ConnId} {clients : Finset ConnId}
  {tb tb' : Table} {v : Int} {tr : ServerTrace} {sh sh' : Shared} {e : ServerEvent} {op : Op} {r : Res op}
  {fresh : Addr} {useTransaction : ConnId → Bool}

private theorem Updating.there (inv : Updating useTransaction table key a v clients us tr sh)
    (here : sh.heap a = some tb) : Kept key v us (updated clients us).card tb := by
  obtain ⟨tb', here', kept⟩ := inv.kept
  obtain rfl : tb' = tb := Option.some.inj (here'.symm.trans here)
  exact kept

/-- A step of a connection that reads no request. -/
theorem Updating.step (inv : Updating useTransaction table key a v clients us tr sh)
    (unread : ∀ l input, e ≠ .recv l input) (told : Hears u' (responses c (tr ++ [(c, e)])))
    (further : (us c).place.counted = true → u'.place.counted = true)
    (kind : u'.useTransaction = (us c).useTransaction) (denied : u'.place.denied = true → u'.useTransaction = true)
    (tables : sh'.server_tables = sh.server_tables) (there : sh'.heap a = some tb')
    (kept : Kept key v (Function.update us c u') (updated clients (Function.update us c u')).card tb') :
    Updating useTransaction table key a v clients (Function.update us c u') (tr ++ [(c, e)]) sh' := by
  refine ⟨by rw [tables]; exact inv.named, ⟨tb', there, kept⟩, ?_, ?_, ?_, ?_⟩
  · refine (Function.forall_update_iff us fun d u => Hears u (responses d (tr ++ [(c, e)]))).mpr ⟨told, ?_⟩
    intro d other
    rw [responses_other (Ne.symm other)]
    exact inv.told d
  · refine inv.leavers.step (further_update (f := fun u : Updater => u.place.counted) further) ?_
    intro l input same
    exact absurd same (unread l input)
  · exact (Function.forall_update_iff us fun d u => u.useTransaction = useTransaction d).mpr
      ⟨kind.trans (inv.kinds c), fun d _ => inv.kinds d⟩
  · exact (Function.forall_update_iff us fun _ u => u.place.denied = true → u.useTransaction = true).mpr
      ⟨denied, fun d _ => inv.denied d⟩

/-- A step on the table, or past it, of a connection that has only been told OK. -/
theorem Updating.work (inv : Updating useTransaction table key a v clients us tr sh) (at_ : (us c).place = place)
    (other : ∀ line, op ≠ .write line) (live : place.live = true) (live' : place'.live = true)
    (further : place.counted = true → place'.counted = true)
    (denied : place'.denied = true → (us c).useTransaction = true) (tables : sh'.server_tables = sh.server_tables)
    (there : sh'.heap a = some tb') (kept : Kept key v (Function.update us c ((us c).goTo place'))
      (updated clients (Function.update us c ((us c).goTo place'))).card tb') :
    Updating useTransaction table key a v clients (Function.update us c ((us c).goTo place'))
      (tr ++ [(c, .call input l op r)]) sh' := by
  subst at_
  refine inv.step (by rintro _ _ ⟨⟩) ?_ further rfl denied tables there kept
  rw [responses_silent (silent_call other), hears_live live']
  exact (hears_live live).mp (inv.told c)

/-- Such a step that commits no number. -/
theorem Updating.use (inv : Updating useTransaction table key a v clients us tr sh) (at_ : (us c).place = place)
    (other : ∀ line, op ≠ .write line) (live : place.live = true) (live' : place'.live = true)
    (same : place'.counted = place.counted) (denied : place'.denied = true → (us c).useTransaction = true)
    (tables : sh'.server_tables = sh.server_tables) (there : sh'.heap a = some tb')
    (kept : Kept key v (Function.update us c ((us c).goTo place')) (updated clients us).card tb') :
    Updating useTransaction table key a v clients (Function.update us c ((us c).goTo place'))
      (tr ++ [(c, .call input l op r)]) sh' := by
  subst at_
  have stays : updated clients (Function.update us c ((us c).goTo place')) = updated clients us := updated_same same
  refine inv.work rfl other live live' (by rw [same]; exact id) denied tables there ?_
  rwa [stays]

/-- A step that tells the client nothing and leaves its connection and the store as they are. -/
theorem Updating.quiet (inv : Updating useTransaction table key a v clients us tr sh)
    (silent : ∀ input l line r, e ≠ .call input l (.write line) r)
    (last : ∀ l input, e = .recv l input → requestOf input = some ⟨.BYE, []⟩ → (us c).place.counted = true) :
    Updating useTransaction table key a v clients us (tr ++ [(c, e)]) sh := by
  refine ⟨inv.named, inv.kept, ?_, inv.leavers.step (fun _ => id) last, inv.kinds, inv.denied⟩
  intro d
  rw [responses_silent silent]
  exact inv.told d

/-! ## Every run of the server -/

variable {memory : ConnId → Bool} {username : ConnId → Str} {s : ServerState}

end

end TableServer.Updates
