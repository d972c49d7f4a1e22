import TableServer.LockSafety

/-!
`server_loop` and the life of its connections: `accept` gives a descriptor, the connection
is constructed, a thread is started for it or not, the thread runs the worker, and the
destructor closes the descriptor. The workers of the connections that have come so far run
as those of a server whose connections are all there from the beginning.
-/

namespace TableServer.Accepting
open TableServer.Bytes TableServer.Stores TableServer.Connection TableServer.Server
open Interleaving

/-! ## The process -/

/-- Where `server_loop` is: before `accept`, before the construction of a `ClientConnection`,
    before `pthread_create`, or before the `delete` after it has failed. -/
inductive Loop where
  | accepting
  | accepted (client_fd : Nat)
  | constructed (client : ConnId)
  | unstarted (client : ConnId)

/-- What has become of a `ClientConnection`, with its `m_client_fd`. -/
inductive Life where
  | unborn
  | constructed (m_client_fd : Nat)
  | working (m_client_fd : Nat)
  | destroyed

/-- The descriptor that a connection has not closed yet. -/
def Life.fd : Life → Option Nat
  | .constructed fd | .working fd => some fd
  | .unborn | .destroyed => none

structure Daemon where
  /-- The store and the workers of the connections that have been constructed. -/
  server : ServerState
  ssock_fd : Nat
  loop : Loop
  lives : ConnId → Life
  /-- The descriptors that are open. -/
  fds : Nat → Bool
  cerr : List Str

def log_error (what : Str) : Str := lit "Error: " ++ what ++ lit "\n"

/-- `main` up to the loop, by what `open_listenfd` returns: the process, or its exit code and
    its complaints. `inherited` are the descriptors that are open at its start. -/
def main (argv : List Str) (open_listenfd : Int) (inherited : Nat → Bool) (memory : ConnId → Bool) :
    Except (Nat × List Str) Daemon :=
  match argv with
  | [_, _port] =>
    if open_listenfd < 0 then
      .error (1, [log_error (lit "Failed to open listen socket"), log_error (lit "Fatal error starting server")])
    else
      let ssock_fd := open_listenfd.toNat
      .ok ⟨booted memory, ssock_fd, .accepting, fun _ => .unborn, Function.update inherited ssock_fd true, []⟩
  | _ => .error (1, [lit "Usage: ./server <port>\n"])

/-- What happens in the process. -/
inductive Deed where
  | refused
  | accepted (fd : Nat)
  | constructed (c : ConnId) (logged_in : Bool)
  | started (c : ConnId)
  | unstarted (c : ConnId)
  | deleted (c : ConnId) (fd : Nat)
  | worked (c : ConnId) (e : ServerEvent)
  | ended (c : ConnId) (fd : Nat)

/-- One step: of the loop, as long as no exception has brought the process down, of a worker, or
    the end of a worker's thread. The kernel gives no descriptor that is open. -/
inductive Step (d : Daemon) : Deed → Daemon → Prop where
  | refused (up : d.server.aborted = none) (here : d.loop = .accepting) :
      Step d .refused { d with cerr := d.cerr ++ [log_error (lit "Error accepting client connection")] }
  | accepted {fd : Nat} (up : d.server.aborted = none) (here : d.loop = .accepting) (closed : d.fds fd = false) :
      Step d (.accepted fd) { d with loop := .accepted fd, fds := Function.update d.fds fd true }
  /-- The constructor leaves `logged_in` as it finds it in memory. -/
  | constructed {fd : Nat} {c : ConnId} {logged_in : Bool} (up : d.server.aborted = none) (here : d.loop = .accepted fd)
      (fresh : d.lives c = .unborn) :
      Step d (.constructed c logged_in)
        { d with loop := .constructed c, lives := Function.update d.lives c (.constructed fd)
                 server.threads := Function.update d.server.threads c (.reading (Local.create logged_in)) }
  | started {fd : Nat} {c : ConnId} (up : d.server.aborted = none) (here : d.loop = .constructed c)
      (life : d.lives c = .constructed fd) :
      Step d (.started c) { d with loop := .accepting, lives := Function.update d.lives c (.working fd) }
  | unstarted {c : ConnId} (up : d.server.aborted = none) (here : d.loop = .constructed c) :
      Step d (.unstarted c)
        { d with loop := .unstarted c, cerr := d.cerr ++ [log_error (lit "Could not create client thread")] }
  | deleted {fd : Nat} {c : ConnId} (up : d.server.aborted = none) (here : d.loop = .unstarted c)
      (life : d.lives c = .constructed fd) :
      Step d (.deleted c fd)
        { d with loop := .accepting, lives := Function.update d.lives c .destroyed
                 fds := Function.update d.fds fd false }
  | worked {fd : Nat} {c : ConnId} {e : ServerEvent} {s : ServerState} (life : d.lives c = .working fd)
      (step : Interleaving.Step server d.server c e s) : Step d (.worked c e) { d with server := s }
  | ended {fd : Nat} {c : ConnId} {l : Local} (up : d.server.aborted = none) (life : d.lives c = .working fd)
      (finished : d.server.threads c = .exited l) :
      Step d (.ended c fd)
        { d with lives := Function.update d.lives c .destroyed, fds := Function.update d.fds fd false }

inductive Run (start : Daemon) : List Deed → Daemon → Prop where
  | start : Run start [] start
  | step {deeds : List Deed} {d d' : Daemon} {deed : Deed} (run : Run start deeds d) (step : Step d deed d') :
      Run start (deeds ++ [deed]) d'

/-- What the kernel, the loop or a worker does next. -/
inductive Order where
  | refuse
  | accept (fd : Nat)
  | construct (c : ConnId) (logged_in : Bool)
  | start
  | unstart
  | delete
  | work (c : ConnId) (a : Action Input Addr)
  | finish (c : ConnId)

/-- The step of the loop, if it stands where the order has it. -/
def loop? (d : Daemon) (order : Order) : Option (Deed × Daemon) :=
  match order, d.loop with
  | .refuse, .accepting =>
    some (.refused, { d with cerr := d.cerr ++ [log_error (lit "Error accepting client connection")] })
  | .accept fd, .accepting =>
    if d.fds fd = false then
      some (.accepted fd, { d with loop := .accepted fd, fds := Function.update d.fds fd true })
    else none
  | .construct c logged_in, .accepted fd =>
    match d.lives c with
    | .unborn => some (.constructed c logged_in,
        { d with loop := .constructed c, lives := Function.update d.lives c (.constructed fd)
                 server.threads := Function.update d.server.threads c (.reading (Local.create logged_in)) })
    | _ => none
  | .start, .constructed c =>
    match d.lives c with
    | .constructed fd =>
      some (.started c, { d with loop := .accepting, lives := Function.update d.lives c (.working fd) })
    | _ => none
  | .unstart, .constructed c => some (.unstarted c,
      { d with loop := .unstarted c, cerr := d.cerr ++ [log_error (lit "Could not create client thread")] })
  | .delete, .unstarted c =>
    match d.lives c with
    | .constructed fd => some (.deleted c fd,
        { d with loop := .accepting, lives := Function.update d.lives c .destroyed
                 fds := Function.update d.fds fd false })
    | _ => none
  | _, _ => none

/-- The step of a worker, or the end of its thread. -/
def worker? (d : Daemon) (order : Order) : Option (Deed × Daemon) :=
  match order with
  | .work c a =>
    match d.lives c with
    | .working _ => (Interleaving.step? server d.server c a).map fun r => (.worked c r.1, { d with server := r.2 })
    | _ => none
  | .finish c =>
    match d.lives c, d.server.threads c with
    | .working fd, .exited _ => some (.ended c fd,
        { d with lives := Function.update d.lives c .destroyed, fds := Function.update d.fds fd false })
    | _, _ => none
  | _ => none

def step? (d : Daemon) (order : Order) : Option (Deed × Daemon) :=
  match d.server.aborted with
  | none => (loop? d order).orElse fun _ => worker? d order
  | some _ => none

def execute : List Order → Daemon → Option (List Deed × Daemon)
  | [], d => some ([], d)
  | order :: more, d =>
    match step? d order with
    | some (deed, d') => (execute more d').map fun r => (deed :: r.1, r.2)
    | none => none

private theorem step_of_loop? {d d' : Daemon} {order : Order} {deed : Deed} (up : d.server.aborted = none)
    (taken : loop? d order = some (deed, d')) : Step d deed d' := by
  unfold loop? at taken
  split at taken
  · rename_i here
    cases taken
    exact .refused up here
  · rename_i here
    split at taken
    · rename_i closed
      cases taken
      exact .accepted up here closed
    · cases taken
  · rename_i here
    split at taken
    · rename_i fresh
      cases taken
      exact .constructed up here fresh
    · cases taken
  · rename_i here
    split at taken
    · rename_i life
      cases taken
      exact .started up here life
    · cases taken
  · rename_i here
    cases taken
    exact .unstarted up here
  · rename_i here
    split at taken
    · rename_i life
      cases taken
      exact .deleted up here life
    · cases taken
  · cases taken

private theorem step_of_worker? {d d' : Daemon} {order : Order} {deed : Deed} (up : d.server.aborted = none)
    (taken : worker? d order = some (deed, d')) : Step d deed d' := by
  unfold worker? at taken
  split at taken
  · split at taken
    · rename_i life
      obtain ⟨⟨e, s⟩, one, same⟩ := Option.map_eq_some_iff.mp taken
      cases same
      exact .worked life (Interleaving.step_of_step? one)
    · cases taken
  · split at taken
    · rename_i life finished
      cases taken
      exact .ended up life finished
    · cases taken
  · cases taken

private theorem step_of_step? {d d' : Daemon} {order : Order} {deed : Deed} (taken : step? d order = some (deed, d')) :
    Step d deed d' := by
  unfold step? at taken
  split at taken
  · rename_i up
    cases loop : loop? d order with
    | some moved =>
      rw [loop] at taken
      cases taken
      exact step_of_loop? up loop
    | none =>
      rw [loop] at taken
      exact step_of_worker? up taken
  · cases taken

private theorem run_of_execute {start d d' : Daemon} {orders : List Order} {before deeds : List Deed}
    (run : Run start before d) (taken : execute orders d = some (deeds, d')) : Run start (before ++ deeds) d' := by
  induction orders generalizing before d deeds with
  | nil =>
    simp only [execute, Option.some.injEq, Prod.mk.injEq] at taken
    obtain ⟨rfl, rfl⟩ := taken
    simpa using run
  | cons order more ih =>
    rw [execute] at taken
    split at taken
    · rename_i deed middle one
      obtain ⟨⟨rest, last⟩, later, same⟩ := Option.map_eq_some_iff.mp taken
      cases same
      have tail := ih (run.step (step_of_step? one)) later
      simpa using tail
    · cases taken

/-- The server with the descriptors of a shell. -/
def launched : Daemon where
  server := booted fun _ => false
  ssock_fd := 3
  loop := .accepting
  lives _ := .unborn
  fds := Function.update (fun fd => decide (fd < 3)) 3 true
  cerr := []

private theorem main_launched :
    main [lit "./server", lit "8080"] 3 (fun fd => decide (fd < 3)) (fun _ => false) = .ok launched := rfl

/-- One client is refused, the next hangs up while no thread can be created for the third, and
    the fourth gets the descriptor of the second. -/
def coming : List Order :=
  [.refuse, .accept 4, .construct 0 false, .start, .accept 5, .construct 1 true, .unstart, .work 0 (.recv .closed),
    .delete,
    .work 0 (.advance 0), .work 0 (.advance 0), .finish 0, .accept 4]

private theorem coming_run {check : List Deed × Daemon → Bool} (shown : (execute coming launched).any check = true) :
    ∃ deeds d, Run launched deeds d ∧ check (deeds, d) = true := by
  obtain ⟨⟨deeds, d⟩, taken, holds⟩ := (Option.any_eq_true check (execute coming launched)).mp shown
  exact ⟨deeds, d, run_of_execute .start taken, holds⟩

/-- What the workers have done. -/
def work (deeds : List Deed) : ServerTrace := deeds.filterMap fun deed =>
  match deed with
  | .worked c e => some (c, e)
  | _ => none

/-- The process as it enters the loop. -/
structure Starts (start : Daemon) (inherited : Nat → Bool) : Prop where
  calm : ∃ memory, start.server = booted memory
  loop : start.loop = .accepting
  lives : ∀ c, start.lives c = .unborn
  fds : ∀ fd, start.fds fd = true ↔ inherited fd = true ∨ fd = start.ssock_fd

private theorem main_starts {argv : List Str} {listenfd : Int} {inherited : Nat → Bool} {memory : ConnId → Bool}
    {start : Daemon} (enters : main argv listenfd inherited memory = .ok start) : Starts start inherited := by
  unfold main at enters
  split at enters
  · split at enters
    · cases enters
    · cases enters
      refine ⟨⟨memory, rfl⟩, rfl, fun _ => rfl, fun fd => ?_⟩
      by_cases same : fd = listenfd.toNat
      · simp [same]
      · simp [same]
  · cases enters

variable {start d d' : Daemon} {deeds : List Deed} {deed : Deed} {inherited : Nat → Bool} {c : ConnId}

/-! ## Descriptors -/

/-- A descriptor that the process has not got from `accept`. -/
def Own (start : Daemon) (inherited : Nat → Bool) (fd : Nat) : Prop := inherited fd = true ∨ fd = start.ssock_fd

/-- Whose the descriptors are. -/
structure Tidy (start : Daemon) (inherited : Nat → Bool) (d : Daemon) : Prop where
  held : ∀ c fd, (d.lives c).fd = some fd → d.fds fd = true ∧ ¬ Own start inherited fd ∧ d.loop ≠ .accepted fd
  apart : ∀ c c' fd, (d.lives c).fd = some fd → (d.lives c').fd = some fd → c = c'
  pending : ∀ fd, d.loop = .accepted fd → d.fds fd = true ∧ ¬ Own start inherited fd
  own : ∀ fd, Own start inherited fd → d.fds fd = true
  used : ∀ fd, d.fds fd = true → Own start inherited fd ∨ d.loop = .accepted fd ∨ ∃ c, (d.lives c).fd = some fd

private theorem Starts.tidy (starts : Starts start inherited) : Tidy start inherited start := by
  have unborn : ∀ c fd, (start.lives c).fd ≠ some fd := by
    intro c fd
    rw [starts.lives c]
    simp [Life.fd]
  refine ⟨?_, ?_, ?_, fun fd own => (starts.fds fd).mpr own, fun fd opened => .inl ((starts.fds fd).mp opened)⟩
  · exact fun c fd has => absurd has (unborn c fd)
  · exact fun c c' fd has => absurd has (unborn c fd)
  · intro fd pending
    rw [starts.loop] at pending
    cases pending

/-- A step that opens and closes nothing, and leaves every connection its descriptor. -/
theorem Tidy.same (tidy : Tidy start inherited d) (fds : d'.fds = d.fds) (lives : ∀ c, (d'.lives c).fd = (d.lives c).fd)
    (loop : ∀ fd, d'.loop = .accepted fd ↔ d.loop = .accepted fd) : Tidy start inherited d' := by
  obtain ⟨held, apart, pending, own, used⟩ := tidy
  constructor
  · intro c fd has
    rw [lives] at has
    rw [fds]
    simpa [loop] using held c fd has
  · intro c c' fd has has'
    rw [lives] at has has'
    exact apart c c' fd has has'
  · intro fd here
    rw [fds]
    exact pending fd ((loop fd).mp here)
  · rwa [fds]
  · intro fd opened
    rw [fds] at opened
    simpa [lives, loop] using used fd opened

/-- A step in which a connection closes its descriptor. -/
theorem Tidy.close {fd : Nat} (tidy : Tidy start inherited d) (life : (d.lives c).fd = some fd)
    (fds : d'.fds = Function.update d.fds fd false) (lives : d'.lives = Function.update d.lives c .destroyed)
    (loop : ∀ fd, d'.loop = .accepted fd ↔ d.loop = .accepted fd) : Tidy start inherited d' := by
  obtain ⟨held, apart, pending, own, used⟩ := tidy
  obtain ⟨_, taken, later⟩ := held c fd life
  have gone : ∀ c' fd', (d'.lives c').fd = some fd' → c' ≠ c ∧ (d.lives c').fd = some fd' ∧ fd' ≠ fd := by
    intro c' fd' has
    rw [lives] at has
    by_cases mine : c' = c
    · rw [mine, Function.update_self] at has
      cases has
    · rw [Function.update_of_ne mine] at has
      refine ⟨mine, has, ?_⟩
      rintro rfl
      exact mine (apart c' c fd' has life)
  constructor
  · intro c' fd' has
    obtain ⟨_, before, other⟩ := gone c' fd' has
    rw [fds, Function.update_of_ne other]
    simpa [loop] using held c' fd' before
  · intro c₁ c₂ fd' has has'
    exact apart c₁ c₂ fd' (gone c₁ fd' has).2.1 (gone c₂ fd' has').2.1
  · intro fd' here
    have before := (loop fd').mp here
    have other : fd' ≠ fd := by
      rintro rfl
      exact later before
    rw [fds, Function.update_of_ne other]
    exact pending fd' before
  · intro fd' mine
    have other : fd' ≠ fd := by
      rintro rfl
      exact taken mine
    rw [fds, Function.update_of_ne other]
    exact own fd' mine
  · intro fd' opened
    rw [fds] at opened
    by_cases same : fd' = fd
    · rw [same, Function.update_self] at opened
      cases opened
    · rw [Function.update_of_ne same] at opened
      rcases used fd' opened with mine | before | ⟨c', has⟩
      · exact .inl mine
      · exact .inr (.inl ((loop fd').mpr before))
      · refine .inr (.inr ⟨c', ?_⟩)
        have other : c' ≠ c := by
          rintro rfl
          rw [life] at has
          exact same (Option.some.inj has).symm
        rw [lives, Function.update_of_ne other]
        exact has

private theorem tidy_step (tidy : Tidy start inherited d) (step : Step d deed d') : Tidy start inherited d' := by
  cases step with
  | refused up here => exact tidy.same rfl (fun _ => rfl) (fun _ => Iff.rfl)
  | @accepted fd up here closed =>
    obtain ⟨held, apart, pending, own, used⟩ := tidy
    have unused : ∀ fd', d.fds fd' = true → fd' ≠ fd := by
      rintro fd' opened rfl
      rw [closed] at opened
      cases opened
    have free : ¬ Own start inherited fd := fun mine => unused fd (own fd mine) rfl
    constructor
    · intro c fd' has
      obtain ⟨opened, taken, _⟩ := held c fd' has
      have other := unused fd' opened
      simp only [Function.update_of_ne other]
      exact ⟨opened, taken, by rintro ⟨⟩; exact other rfl⟩
    · exact apart
    · rintro fd' ⟨⟩
      exact ⟨Function.update_self .., free⟩
    · intro fd' mine
      have opened := own fd' mine
      simp only [Function.update_of_ne (unused fd' opened)]
      exact opened
    · intro fd' opened
      by_cases same : fd' = fd
      · exact .inr (.inl (by rw [same]))
      · simp only [Function.update_of_ne same] at opened
        rcases used fd' opened with mine | before | connection
        · exact .inl mine
        · rw [here] at before
          cases before
        · exact .inr (.inr connection)
  | @constructed fd c logged_in up here fresh =>
    obtain ⟨held, apart, pending, own, used⟩ := tidy
    have before : ∀ c' fd', (Function.update d.lives c (.constructed fd) c').fd = some fd' →
        (c' = c ∧ fd' = fd) ∨ (d.lives c').fd = some fd' ∧ fd' ≠ fd := by
      intro c' fd' has
      by_cases mine : c' = c
      · rw [mine, Function.update_self] at has
        exact .inl ⟨mine, (Option.some.inj has).symm⟩
      · rw [Function.update_of_ne mine] at has
        refine .inr ⟨has, ?_⟩
        rintro rfl
        exact (held c' fd' has).2.2 here
    constructor
    · intro c' fd' has
      refine ⟨?_, ?_, by rintro ⟨⟩⟩
      · rcases before c' fd' has with ⟨_, rfl⟩ | ⟨has', _⟩
        · exact (pending fd' here).1
        · exact (held c' fd' has').1
      · rcases before c' fd' has with ⟨_, rfl⟩ | ⟨has', _⟩
        · exact (pending fd' here).2
        · exact (held c' fd' has').2.1
    · intro c₁ c₂ fd' has₁ has₂
      rcases before c₁ fd' has₁ with ⟨rfl, rfl⟩ | ⟨old₁, other⟩
      · rcases before c₂ fd' has₂ with ⟨rfl, _⟩ | ⟨_, other⟩
        · rfl
        · exact absurd rfl other
      · rcases before c₂ fd' has₂ with ⟨_, same⟩ | ⟨old₂, _⟩
        · exact absurd same other
        · exact apart c₁ c₂ fd' old₁ old₂
    · rintro fd' ⟨⟩
    · exact own
    · intro fd' opened
      rcases used fd' opened with mine | accepted | ⟨c', has⟩
      · exact .inl mine
      · rw [here] at accepted
        cases accepted
        exact .inr (.inr ⟨c, by simp [Life.fd]⟩)
      · refine .inr (.inr ⟨c', ?_⟩)
        show (Function.update d.lives c (.constructed fd) c').fd = some fd'
        have other : c' ≠ c := by
          rintro rfl
          rw [fresh] at has
          cases has
        rw [Function.update_of_ne other]
        exact has
  | @started fd c up here life =>
    refine tidy.same rfl ?_ ?_
    · refine (Function.forall_update_iff d.lives fun c' life' => life'.fd = (d.lives c').fd).mpr ⟨?_, fun _ _ => rfl⟩
      rw [life]
      rfl
    · intro fd'
      simp [here]
  | unstarted up here => exact tidy.same rfl (fun _ => rfl) (fun fd => by simp [here])
  | @deleted fd c up here life =>
    exact tidy.close (c := c) (by rw [life]; rfl) rfl rfl fun fd' => by simp [here]
  | worked life step => exact tidy.same rfl (fun _ => rfl) (fun _ => Iff.rfl)
  | @ended fd c l up life finished =>
    exact tidy.close (c := c) (by rw [life]; rfl) rfl rfl fun _ => Iff.rfl

private theorem tidy_run (starts : Starts start inherited) (run : Run start deeds d) : Tidy start inherited d := by
  induction run with
  | start => exact starts.tidy
  | step _ step ih => exact tidy_step ih step

def opens (fd : Nat) : Deed → Bool
  | .accepted fd' => fd' == fd
  | _ => false

def closes (fd : Nat) : Deed → Bool
  | .deleted _ fd' => fd' == fd
  | .ended _ fd' => fd' == fd
  | _ => false

/-- As often as a descriptor has been accepted it has been closed, but for the time that it is open. -/
theorem closed_once (starts : Starts start inherited) (run : Run start deeds d) (fd : Nat)
    (foreign : ¬ Own start inherited fd) :
    deeds.countP (opens fd) = deeds.countP (closes fd) + (d.fds fd).toNat := by
  induction run with
  | start =>
    have closed : start.fds fd = false := by
      by_contra opened
      exact foreign ((starts.fds fd).mp (Bool.eq_true_of_not_eq_false opened))
    simp [closed]
  | @step deeds d d' deed run step ih =>
    have tidy := tidy_run starts run
    rw [List.countP_append, List.countP_append]
    cases step with
    | refused | constructed | started | unstarted | worked => simpa [opens, closes] using ih
    | @accepted fd' up here closed =>
      by_cases same : fd' = fd
      · subst same
        rw [closed] at ih
        simp only [Function.update_self]
        simpa [opens, closes] using ih
      · simp only [Function.update_of_ne (Ne.symm same)]
        simpa [opens, closes, same] using ih
    | @deleted fd' c up here life =>
      have opened := (tidy.held c fd' (by rw [life]; rfl)).1
      by_cases same : fd' = fd
      · subst same
        rw [opened] at ih
        simp only [Function.update_self]
        simpa [opens, closes] using ih
      · simp only [Function.update_of_ne (Ne.symm same)]
        simpa [opens, closes, same] using ih
    | @ended fd' c l up life finished =>
      have opened := (tidy.held c fd' (by rw [life]; rfl)).1
      by_cases same : fd' = fd
      · subst same
        rw [opened] at ih
        simp only [Function.update_self]
        simpa [opens, closes] using ih
      · simp only [Function.update_of_ne (Ne.symm same)]
        simpa [opens, closes, same] using ih

/-- Whose the descriptors are, and what has become of them. -/
structure Descriptors (start : Daemon) (inherited : Nat → Bool) (deeds : List Deed) (d : Daemon) : Prop where
  /-- The descriptor of a connection that is not destroyed is open, and it is nobody else's. -/
  mine : ∀ c fd, (d.lives c).fd = some fd → d.fds fd = true ∧ ¬ Own start inherited fd ∧
    ∀ c', (d.lives c').fd = some fd → c' = c
  /-- None is left open: each is the process's own, a connection's, or just accepted. -/
  used : ∀ fd, d.fds fd = true → Own start inherited fd ∨ d.loop = .accepted fd ∨ ∃ c, (d.lives c).fd = some fd
  /-- The process closes none of its own. -/
  own : ∀ fd, Own start inherited fd → d.fds fd = true
  /-- Each of the others is closed once for each time that it was accepted, and later. -/
  once : ∀ fd, ¬ Own start inherited fd →
    deeds.countP (opens fd) = deeds.countP (closes fd) + (d.fds fd).toNat

/-- In every run of the server, whichever threads cannot be created and however connections
    end, no descriptor is leaked, closed twice, or used by a connection that it is not of. -/
theorem descriptors {argv : List Str} {listenfd : Int} {memory : ConnId → Bool}
    (enters : main argv listenfd inherited memory = .ok start) (run : Run start deeds d) :
    Descriptors start inherited deeds d := by
  have starts := main_starts enters
  have tidy := tidy_run starts run
  refine ⟨?_, tidy.used, tidy.own, closed_once starts run⟩
  intro c fd has
  obtain ⟨opened, foreign, _⟩ := tidy.held c fd has
  exact ⟨opened, foreign, fun c' has' => tidy.apart c' c fd has' has⟩

theorem descriptors_coming : ∃ deeds d, Descriptors launched (fun fd => decide (fd < 3)) deeds d ∧
    (d.fds 4 && !d.fds 5 && deeds.countP (opens 4) == 2 && deeds.countP (closes 5) == 1) = true := by
  have shown : (execute coming launched).any (fun r =>
      r.2.fds 4 && !r.2.fds 5 && r.1.countP (opens 4) == 2 && r.1.countP (closes 5) == 1) = true := by
    decide +kernel
  obtain ⟨deeds, d, run, holds⟩ := coming_run shown
  exact ⟨deeds, d, descriptors main_launched run, holds⟩

/-! ## The workers -/

/-- What the constructors have found in memory. -/
def found (deeds : List Deed) (c : ConnId) : Bool := deeds.any fun deed =>
  match deed with
  | .constructed c' logged_in => c' == c && logged_in
  | _ => false

private theorem stays_born (step : Step d deed d') (born : d.lives c ≠ .unborn) : d'.lives c ≠ .unborn := by
  have changed : ∀ {c' : ConnId} {life : Life}, life ≠ .unborn → Function.update d.lives c' life c ≠ .unborn := by
    intro c' life new
    by_cases mine : c = c'
    · rw [mine, Function.update_self]
      exact new
    · rw [Function.update_of_ne mine]
      exact born
  cases step with
  | refused | accepted | unstarted | worked => exact born
  | constructed | started | deleted | ended => exact changed (by simp)

private theorem found_snoc (deeds : List Deed) (c c' : ConnId) (logged_in : Bool) :
    found (deeds ++ [.constructed c' logged_in]) c = (found deeds c || (c' == c && logged_in)) := by
  simp [found]

/-- No connection is constructed twice. -/
theorem constructed_once (run : Run start deeds d) :
    (∀ c logged_in, .constructed c logged_in ∈ deeds → d.lives c ≠ .unborn) ∧
      ∀ c logged_in, .constructed c logged_in ∈ deeds → found deeds c = logged_in := by
  induction run with
  | start => exact ⟨by simp, by simp⟩
  | @step deeds d d' deed run step ih =>
    obtain ⟨born, known⟩ := ih
    by_cases new : ∃ c logged_in, deed = .constructed c logged_in
    · obtain ⟨c, logged_in, rfl⟩ := new
      cases step with
      | constructed up here fresh =>
        have unknown : found deeds c = false := by
          rw [found, List.any_eq_false]
          intro deed inside
          cases deed with
          | constructed c' logged_in' =>
            have other : c' ≠ c := by
              rintro rfl
              exact born c' logged_in' inside fresh
            simp [other]
          | _ => simp
        constructor
        · intro c' logged_in' inside
          rcases List.mem_append.mp inside with before | last
          · exact stays_born (.constructed up here fresh) (born c' logged_in' before)
          · cases List.mem_singleton.mp last
            simp
        · intro c' logged_in' inside
          rw [found_snoc]
          rcases List.mem_append.mp inside with before | last
          · have other : c ≠ c' := by
              rintro rfl
              exact born c logged_in' before fresh
            simp [other, known c' logged_in' before]
          · cases List.mem_singleton.mp last
            simp [unknown]
    · have old : ∀ c logged_in, .constructed c logged_in ∈ deeds ++ [deed] → .constructed c logged_in ∈ deeds := by
        intro c logged_in inside
        exact (List.mem_append.mp inside).resolve_right fun last =>
          new ⟨c, logged_in, (List.mem_singleton.mp last).symm⟩
      have same : ∀ c, found (deeds ++ [deed]) c = found deeds c := by
        intro c
        rw [found, found, List.any_append]
        cases deed with
        | constructed c' logged_in => exact absurd ⟨c', logged_in, rfl⟩ new
        | _ => simp
      refine ⟨fun c logged_in inside => stays_born step (born c logged_in (old c logged_in inside)), ?_⟩
      intro c logged_in inside
      rw [same]
      exact known c logged_in (old c logged_in inside)

/-- The state of a server whose connections have all been there from the beginning: those that
    have not been constructed have not moved. -/
structure Stands (memory : ConnId → Bool) (s : ServerState) (d : Daemon) : Prop where
  shared : s.shared = d.server.shared
  aborted : s.aborted = d.server.aborted
  born : ∀ c, d.lives c ≠ .unborn → s.threads c = d.server.threads c
  unborn : ∀ c, d.lives c = .unborn → s.threads c = .reading (Local.create (memory c))

/-- A step that the loop takes, or the end of a thread. -/
theorem Stands.same {memory : ConnId → Bool} {s : ServerState} (stands : Stands memory s d)
    (server : d'.server = d.server) (lives : ∀ c, d'.lives c = .unborn ↔ d.lives c = .unborn) : Stands memory s d' := by
  obtain ⟨shared, aborted, born, unborn⟩ := stands
  refine ⟨by rw [server, shared], by rw [server, aborted], ?_, fun c none_ => unborn c ((lives c).mp none_)⟩
  intro c some_
  rw [server]
  exact born c fun none_ => some_ ((lives c).mpr none_)

/-- A step of one worker. -/
theorem Stands.moved {memory : ConnId → Bool} {s : ServerState} (stands : Stands memory s d)
    (life : d.lives c ≠ .unborn)
    (shared : Shared) (t : Thread Local Input Fault Op Res) (aborted : Option (ConnId × Fault)) :
    Stands memory ⟨shared, Function.update s.threads c t, aborted⟩
      { d with server := ⟨shared, Function.update d.server.threads c t, aborted⟩ } := by
  refine ⟨rfl, rfl, ?_, ?_⟩
  · intro c' some_
    by_cases mine : c' = c
    · subst mine
      simp
    · simp only [Function.update_of_ne mine]
      exact stands.born c' some_
  · intro c' none_
    have other : c' ≠ c := by
      rintro rfl
      exact life none_
    simp only [Function.update_of_ne other]
    exact stands.unborn c' none_

/-- A worker of the process takes the steps that it takes among connections that have all been
    there from the beginning. -/
theorem step_stands {memory : ConnId → Bool} {s : ServerState} {s' : ServerState} {e : ServerEvent}
    (stands : Stands memory s d) (life : d.lives c ≠ .unborn) (step : Interleaving.Step server d.server c e s') :
    ∃ s₁, Interleaving.Step server s c e s₁ ∧ Stands memory s₁ { d with server := s' } := by
  have mine := stands.born c life
  obtain ⟨shared, threads, aborted⟩ := s
  obtain rfl : shared = d.server.shared := stands.shared
  obtain rfl : aborted = d.server.aborted := stands.aborted
  cases step with
  | recv up here => exact ⟨_, .recv up (mine.trans here), stands.moved life _ _ _⟩
  | call choice up here exec => exact ⟨_, .call choice up (mine.trans here) exec, stands.moved life _ _ _⟩
  | again up here => exact ⟨_, .again up (mine.trans here), stands.moved life _ _ _⟩
  | exit up here => exact ⟨_, .exit up (mine.trans here), stands.moved life _ _ _⟩
  | abort up here => exact ⟨_, .abort up (mine.trans here), ⟨rfl, rfl, stands.born, stands.unborn⟩⟩

private theorem update_unborn {life : Life} (old : d.lives c ≠ .unborn) (new : life ≠ .unborn) (c' : ConnId) :
    Function.update d.lives c life c' = .unborn ↔ d.lives c' = .unborn := by
  by_cases mine : c' = c
  · subst mine
    simp [old, new]
  · rw [Function.update_of_ne mine]

/-- What the workers do in a run of the process is a run of the server of which all claims are made. -/
theorem workers_run (starts : Starts start inherited) (run : Run start deeds d) (memory : ConnId → Bool)
    (agrees : ∀ c logged_in, .constructed c logged_in ∈ deeds → memory c = logged_in) :
    ∃ s, Interleaving.Run server anyStep (booted memory) (work deeds) s ∧ Stands memory s d := by
  induction run with
  | start =>
    obtain ⟨before, calm⟩ := starts.calm
    refine ⟨booted memory, .start, ⟨by rw [calm]; rfl, by rw [calm]; rfl, ?_, fun _ _ => rfl⟩⟩
    intro c some_
    exact absurd (starts.lives c) some_
  | @step deeds d d' deed earlier step ih =>
    obtain ⟨s, workers, stands⟩ := ih fun c logged_in inside => agrees c logged_in (List.mem_append_left _ inside)
    have idle (quiet : work [deed] = []) : work (deeds ++ [deed]) = work deeds := by
      rw [work, List.filterMap_append]
      exact (congrArg _ quiet).trans (List.append_nil _)
    cases step with
    | refused up here => exact ⟨s, by rw [idle rfl]; exact workers, stands.same rfl fun _ => Iff.rfl⟩
    | accepted up here closed => exact ⟨s, by rw [idle rfl]; exact workers, stands.same rfl fun _ => Iff.rfl⟩
    | unstarted up here => exact ⟨s, by rw [idle rfl]; exact workers, stands.same rfl fun _ => Iff.rfl⟩
    | @constructed fd c logged_in up here fresh =>
      refine ⟨s, by rw [idle rfl]; exact workers, ⟨stands.shared, stands.aborted, ?_, ?_⟩⟩
      · intro c' some_
        by_cases mine : c' = c
        · subst mine
          simp only [Function.update_self]
          rw [stands.unborn c' fresh, agrees c' logged_in (by simp)]
        · simp only [Function.update_of_ne mine] at some_ ⊢
          exact stands.born c' some_
      · intro c' none_
        by_cases mine : c' = c
        · subst mine
          simp at none_
        · simp only [Function.update_of_ne mine] at none_
          exact stands.unborn c' none_
    | @started fd c up here life =>
      exact ⟨s, by rw [idle rfl]; exact workers, stands.same rfl (update_unborn (by rw [life]; simp) (by simp))⟩
    | @deleted fd c up here life =>
      exact ⟨s, by rw [idle rfl]; exact workers, stands.same rfl (update_unborn (by rw [life]; simp) (by simp))⟩
    | @ended fd c l up life finished =>
      exact ⟨s, by rw [idle rfl]; exact workers, stands.same rfl (update_unborn (by rw [life]; simp) (by simp))⟩
    | @worked fd c e s' life step =>
      obtain ⟨s₁, one, after⟩ := step_stands stands (by rw [life]; simp) step
      refine ⟨s₁, ?_, after⟩
      have more : work (deeds ++ [.worked c e]) = work deeds ++ [(c, e)] := by simp [work]
      rw [more]
      exact workers.step one trivial

/-- Whatever `accept`, `pthread_create` and the memory of new connections do, the workers of
    the process run as in a server whose connections are all there from the beginning: what
    holds of every such run holds of the process. -/
theorem process_refines {argv : List Str} {listenfd : Int} {memory : ConnId → Bool}
    (enters : main argv listenfd inherited memory = .ok start) (run : Run start deeds d) :
    ∃ s, Interleaving.Run server anyStep (booted (found deeds)) (work deeds) s ∧ Stands (found deeds) s d :=
  workers_run (main_starts enters) run (found deeds) (constructed_once run).2

theorem process_refines_coming : ∃ deeds d s, Interleaving.Run server anyStep (booted (found deeds)) (work deeds) s ∧
    Stands (found deeds) s d ∧ ((work deeds).length == 3 && found deeds 1 && !found deeds 0) = true := by
  have shown : (execute coming launched).any (fun r =>
      (work r.1).length == 3 && found r.1 1 && !found r.1 0) = true := by
    decide +kernel
  obtain ⟨deeds, d, run, holds⟩ := coming_run shown
  obtain ⟨s, workers, stands⟩ := process_refines main_launched run
  exact ⟨deeds, d, s, workers, stands, holds⟩

end TableServer.Accepting
