import JoinServer.Queries
import JoinServer.NameBinding
import JoinServer.Trace
import JoinServer.Locking
import JoinServer.Commands
import JoinServer.Lib.Lines
import JoinServer.Protocol
import JoinServer.Outstanding
import JoinServer.Framing
import JoinServer.Output
import JoinServer.Lib.OuterJoin
import JoinServer.Lib.Products
import JoinServer.Revealed
import JoinServer.Reordering
import JoinServer.Accepting
import JoinServer.Exhausted
import JoinServer.Sending
import JoinServer.Scheduling
import JoinServer.Draining
import JoinServer.Threads
import JoinServer.Constructed
import JoinServer.Slices
import JoinServer.Adequacy
import JoinServer.Undisturbed
import JoinServer.Answering
import JoinServer.Accounting
import JoinServer.Changes
