import TableServer.Exits

/-!
Clients that go on only after an OK, at the two ends of their connections: as long as the
server is up, their workers read their requests in their order and no others, and no client
finds its connection closed before its last response.
-/

namespace TableServer.Insisting
open TableServer.Bytes TableServer.Messages TableServer.Serialization TableServer.Stores TableServer.Connection
open TableServer.Server TableServer.Requests TableServer.Login TableServer.Dialogue TableServer.Values
open TableServer.Increment TableServer.Rio TableServer.Clients TableServer.Replies TableServer.World TableServer.Exits
open Resumption Interleaving

variable {l : Local} {input : Input} {m : Message} {ms : List Message}

section
variable {program client : Client} {calls : List (Call ClientOp ClientRes)} {read said : List Str} {hung : Bool}
  {up down : Str} {thread : Thread Local Input Fault Op Res}

end

/-- What arrives on a connection after a trace from a client with the requests `ms`: its next
    one, as long as all responses were OK, and otherwise it has stopped. -/
def Comes (ms : List Message) (c : ConnId) (tr : ServerTrace) (input : Input) : Prop :=
  if (responses c tr).all isOK then requestOf input = ms[(responses c tr).length]? else input = .closed

/-- All that the workers read is what their clients send. -/
def ComesInOrder (scripts : ConnId → List Message) (tr : ServerTrace) : Prop :=
  ∀ before c l input after, tr = before ++ (c, .recv l input) :: after → Comes (scripts c) c before input

/-- Every connection that has been asked for the end is one of `P`. -/
def LeaveOnly (P : ConnId → Prop) (tr : ServerTrace) : Prop :=
  ∀ c l input, (c, .recv l input) ∈ tr → requestOf input = some ⟨.BYE, []⟩ → P c

section
variable {memory : ConnId → Bool} {clients : Finset ConnId} {sh : Shared} {scripts : ConnId → List Message}
  {programs : ConnId → Client} {h : History} {w : Processes} {c : ConnId} {tr : ServerTrace} {e : ServerEvent}

theorem ComesInOrder.shorter {step : ConnId × ServerEvent} (arrives : ComesInOrder scripts (tr ++ [step])) :
    ComesInOrder scripts tr := by
  intro before c l input after cut
  exact arrives before c l input (after ++ [step]) (by rw [cut]; simp)

theorem ComesInOrder.last (arrives : ComesInOrder scripts (tr ++ [(c, .recv l input)])) :
    Comes (scripts c) c tr input :=
  arrives tr c l input [] rfl

private theorem ComesInOrder.step (arrives : ComesInOrder scripts tr)
    (last : ∀ l input, e = .recv l input → Comes (scripts c) c tr input) : ComesInOrder scripts (tr ++ [(c, e)]) := by
  intro before d l input after cut
  rcases List.eq_nil_or_concat after with rfl | ⟨init, final, rfl⟩
  · obtain ⟨rfl, same⟩ := List.append_inj' cut rfl
    cases same
    exact last l input rfl
  · rw [List.concat_eq_append] at cut
    have cut : tr ++ [(c, e)] = (before ++ (d, .recv l input) :: init) ++ [final] := by simpa using cut
    obtain ⟨rfl, _⟩ := List.append_inj' cut rfl
    exact arrives before d l input init rfl

theorem LeaveOnly.step {P P' : ConnId → Prop} (leavers : LeaveOnly P tr) (further : ∀ d, P d → P' d)
    (last : ∀ l input, e = .recv l input → requestOf input = some ⟨.BYE, []⟩ → P' c) :
    LeaveOnly P' (tr ++ [(c, e)]) := by
  intro d l input inside bye
  rcases List.mem_append.mp inside with before | now
  · exact further d (leavers d l input before bye)
  · obtain ⟨rfl, same⟩ := Prod.mk.inj (List.mem_singleton.mp now)
    exact last l input same.symm bye

/-- What one connection has done stays done when it goes further. -/
theorem further_update {Ghost : Type} {gs : ConnId → Ghost} {g' : Ghost} {f : Ghost → Bool}
    (further : f (gs c) = true → f g' = true) : ∀ d, f (gs d) = true → f (Function.update gs c g' d) = true :=
  (Function.forall_update_iff gs fun d g => f (gs d) = true → f g = true).mpr ⟨further, fun _ _ => id⟩

end

end TableServer.Insisting
