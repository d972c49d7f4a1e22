import TableServer.Insisting
import TableServer.Outcomes

/-!
`incr_value -t` from end to end: the processes of any number of clients, their
connections, and the server. The server never goes down, no client is left waiting, and the
number in the table has grown by one for each client that exits with 0.
-/

namespace TableServer.Counters
open TableServer.Bytes TableServer.Messages TableServer.Serialization TableServer.Stores TableServer.Numbers
open TableServer.Connection TableServer.Server TableServer.Requests TableServer.Tokens TableServer.Login
open TableServer.Dialogue TableServer.Values TableServer.Increment TableServer.Rio TableServer.Clients
open TableServer.Replies TableServer.World TableServer.Exits TableServer.Insisting
open Resumption Interleaving

variable {l : Local} {input : Input} {m : Message} {g g' : Ghost} {table key : Str} {a : Addr} {op : Op} {r : Res op}

/-- The discipline of `adding`, of which no exception leaves. -/
def counting (table key : Str) (a : Addr) : Discipline Ghost Local Input Fault Op Res where
  rest l g := Standing a l g ∧ Outcomes.Sound l
  gone _ _ := True
  failed _ _ _ := False
  node _ g _ op := Allowed table key a g op
  take g _ input g' := g' = g ∧ Expects table key g input
  next _ g _ op r g' := Moves a g op r g'

section
variable {memory : ConnId → Bool} {tr : ServerTrace} {s : ServerState} {username : ConnId → Str} {v : Int}
  {clients : Finset ConnId} {sh : Shared} {gs : ConnId → Ghost}

end

section
variable {memory useTransaction : ConnId → Bool} {username : ConnId → Str} {v : Int} {clients : Finset ConnId}
  {sh : Shared} {programs : ConnId → Client} {h : History} {w : Processes} {c : ConnId} {tr : ServerTrace}
  {grown : Finset ConnId → Shared → Prop}

/-- Every client is an `incr_value` of the same key, in a transaction or not, with arguments
    that fit the format. -/
structure Increments (useTransaction : ConnId → Bool) (username : ConnId → Str) (table key : Str)
    (programs : ConnId → Client) : Prop where
  program : ∀ c, ∃ hostname port con, programs c =
    incr_value ((if useTransaction c then [lit "-t"] else []) ++ [hostname, port, username c, table, key]) con
  wireable : ∀ c, ∀ m ∈ increments (useTransaction c) (username c) table key, Wireable m

private theorem Increments.increment (starts : Increments useTransaction username table key programs) (c : ConnId) :
    ∃ con, programs c = increment (useTransaction c) (username c) table key con := by
  obtain ⟨hostname, port, con, same⟩ := starts.program c
  refine ⟨con, same.trans ?_⟩
  cases useTransaction c <;> rfl

private theorem Increments.polite (starts : Increments useTransaction username table key programs) (c : ConnId) :
    Polite (programs c) := by
  obtain ⟨con, same⟩ := starts.increment c
  have unbroken : ∀ m ∈ increments (useTransaction c) (username c) table key, ∀ a ∈ m.m_args, newline ∉ a :=
    fun m inside a member broken => (((starts.wireable c m inside).bare a member).2 newline broken).2.1 rfl
  have cell := unbroken ⟨.GET, [table, key]⟩ (by simp [increments])
  rw [same]
  exact polite_increment _ (unbroken ⟨.LOGIN, [username c]⟩ (by simp [increments]) _ (by simp))
    ⟨cell table (by simp), cell key (by simp)⟩ con

end

end TableServer.Counters
