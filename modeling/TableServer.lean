import TableServer.RoundTrip
import TableServer.Tokens
import TableServer.Interleaving
import TableServer.Numbers
import TableServer.Stores
import TableServer.Connection
import TableServer.Server
import TableServer.Requests
import TableServer.Locking
import TableServer.Exclusion
import TableServer.LockSafety
import TableServer.Creation
import TableServer.Values
import TableServer.Outcomes
import TableServer.Responses
import TableServer.Rollback
import TableServer.Serializability
import TableServer.Transactions
import TableServer.Serial
import TableServer.Lines
import TableServer.Reference
import TableServer.Validity
import TableServer.Login
import TableServer.Alone
import TableServer.Autocommit
import TableServer.Untouched
import TableServer.Increment
import TableServer.Versions
import TableServer.Operands
import TableServer.Dialogue
import TableServer.Footprint
import TableServer.Grammar
import TableServer.Accepting
import TableServer.Clients
import TableServer.Counters
import TableServer.Draining
import TableServer.Progress
import TableServer.Cells
import TableServer.Growth
