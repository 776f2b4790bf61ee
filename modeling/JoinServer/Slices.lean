import JoinServer.Server
import JoinServer.Lib.Runs

namespace JoinServer.Slices

open JoinServer.Lib.Runs
open JoinServer.Store JoinServer.Server JoinServer.Server.Session

variable {s s' : Session} {a : Act}

/-- What one run of a read handler takes out of `streambuf`: the bytes and the
count it ran with. -/
structure Slice where
  count : Nat
  bytes : Bytes

def Slice.command (p : Slice) : Option String :=
  if 1 < p.count then some (String.ofList (p.bytes.take (p.count - 1))) else none

end JoinServer.Slices
