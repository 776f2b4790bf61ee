import JoinServer.Commands
import JoinServer.Lib.Lines

namespace JoinServer.Server

open JoinServer.Lib.Lines JoinServer.Store JoinServer.Commands

abbrev Bytes := List Char

/-- An outstanding `async_write`. It has the address and the length of
`reply_`, and is intact as long as `reply_` was not modified since. -/
structure Write where
  length : Nat
  sent : Nat
  intact : Bool
  fits : sent ≤ length
  deriving DecidableEq

namespace Write

def spoil (w : Write) : Write := { w with intact := false }

def advance (w : Write) (k : Nat) (h : w.sent + k ≤ w.length) : Write :=
  { w with sent := w.sent + k, fits := h }

end Write

/-- A session with its outstanding operations. A read is `none` while it waits
for bytes and `some n` once it found a delimiter and its handler is ready to
run with `bytes_transferred = n`. The last seven fields record the run. -/
structure Session where
  storage : Storage
  streambuf : Bytes
  reply : Bytes
  reads : List (Option Nat)
  writes : List Write
  received : Bytes
  executed : List String
  printed : List String
  delivered : Bytes
  clobbered : Bool
  skipped : Nat
  failed : Bool

namespace Session

def new (storage : Storage) : Session where
  storage := storage
  streambuf := []
  reply := []
  reads := []
  writes := []
  received := []
  executed := []
  printed := []
  delivered := []
  clobbered := false
  skipped := 0
  failed := false

/-- Any modification of `reply_`: an assignment, `append` or `clear`. -/
def setReply (s : Session) (text : Bytes) : Session :=
  { s with
    reply := text
    writes := s.writes.map Write.spoil
    clobbered := s.clobbered || !s.writes.isEmpty }

/-- `async_write` may send its first bytes before it returns. -/
def doWrite (s : Session) (early : Nat) : Session :=
  { s with
    writes := s.writes ++ [⟨s.reply.length, min early s.reply.length, true, Nat.min_le_right _ _⟩]
    delivered := s.delivered ++ s.reply.take early }

/-- `async_read_until` looks at what is buffered before it waits. It is assumed
of asio that several reads on one `streambuf` all append what they receive, and
that each looks for the delimiter from the start of the buffer. -/
def doRead (s : Session) : Session := { s with reads := s.reads ++ [firstLine '\n' s.streambuf] }

/-- The early bytes of a prompt are left to a later `transmit`: nothing
modifies `reply` between the two. -/
def prompt (s : Session) : Session := (s.setReply "> ".toList).doWrite 0

def start (s : Session) : Session := s.prompt.doRead

def runCommand (s : Session) (n early : Nat) : Session :=
  let command := String.ofList (s.streambuf.take (n - 1))
  let result := execute s.storage command
  let s := { s with
    streambuf := s.streambuf.drop n
    storage := result.2
    executed := s.executed ++ [command]
    printed := s.printed ++ [result.1.print] }
  let s := s.setReply result.1.print.toList
  let s := s.setReply (s.reply ++ ['\n'])
  (s.doWrite early).prompt

def skipLine (s : Session) (n : Nat) : Session :=
  { s with streambuf := s.streambuf.drop n, skipped := s.skipped + 1 }

/-- The handler of `async_read_until`. Its iterator `begin + n` has no meaning
past the end of the buffer. -/
def readHandler (s : Session) (n early : Nat) : Option Session :=
  if 1 < n then
    if n ≤ s.streambuf.length then some (s.runCommand n early) else none
  else some (s.skipLine n)

def writeHandler (s : Session) : Session := (s.setReply []).doRead

section Fields

variable (s : Session) (n early : Nat)

@[simp] theorem runCommand_reads : (s.runCommand n early).reads = s.reads := rfl

@[simp] theorem runCommand_skipped : (s.runCommand n early).skipped = s.skipped := rfl

@[simp] theorem runCommand_executed : (s.runCommand n early).executed =
    s.executed ++ [String.ofList (s.streambuf.take (n - 1))] := rfl

@[simp] theorem runCommand_writes_length :
    (s.runCommand n early).writes.length = s.writes.length + 2 := by
  simp [runCommand, prompt, doWrite, setReply]

@[simp] theorem runCommand_clobbered : (s.runCommand n early).clobbered = true := by
  simp [runCommand, prompt, doWrite, setReply]

@[simp] theorem writeHandler_reads :
    s.writeHandler.reads = s.reads ++ [firstLine '\n' s.streambuf] := rfl

@[simp] theorem writeHandler_writes_length :
    s.writeHandler.writes.length = s.writes.length := by
  simp [writeHandler, doRead, setReply]

end Fields

end Session

/-- What can happen to one of the outstanding reads or writes, by its index. A
handler that runs sends `early` bytes of its reply at once, and a read that
fails transfers no bytes. Other sessions may use the store. -/
inductive Act
  | receive (i : Nat) (chunk : Bytes)
  | handleRead (i early : Nat)
  | transmit (j : Nat) (bytes : Bytes)
  | handleWrite (j : Nat)
  | failRead (i : Nat)
  | failWrite (j : Nat)
  | others (storage : Storage)

namespace Session

/-- There is no next state when the action is not possible, and none when the
behaviour of the code is undefined, which ends the run. What a write reads from
a modified `reply_` is not specified. -/
def step (s : Session) : Act → Option Session
  | .receive i chunk =>
    if s.reads[i]? = some none ∧ chunk ≠ [] then
      some { s with
        streambuf := s.streambuf ++ chunk
        received := s.received ++ chunk
        reads := s.reads.set i (firstLine '\n' (s.streambuf ++ chunk)) }
    else none
  | .handleRead i early =>
    match s.reads[i]? with
    | some (some n) => readHandler { s with reads := s.reads.eraseIdx i } n early
    | _ => none
  | .transmit j bytes =>
    match s.writes[j]? with
    | some w =>
      if h : w.sent + bytes.length ≤ w.length ∧
          (w.intact → bytes = (s.reply.drop w.sent).take bytes.length) then
        some { s with
          writes := s.writes.set j (w.advance bytes.length h.1)
          delivered := s.delivered ++ bytes }
      else none
    | none => none
  | .handleWrite j =>
    match s.writes[j]? with
    | some w =>
      if w.sent = w.length then some (writeHandler { s with writes := s.writes.eraseIdx j })
      else none
    | none => none
  | .failRead i =>
    if s.reads[i]? = some none then
      readHandler { s with reads := s.reads.eraseIdx i, failed := true } 0 0
    else none
  | .failWrite j =>
    if j < s.writes.length then
      some { s with writes := s.writes.eraseIdx j, failed := true }
    else none
  | .others storage => some { s with storage := storage }

inductive Next (s : Session) : Act → Session → Prop
  | receive {i : Nat} {chunk : Bytes} (hi : s.reads[i]? = some none) :
    Next s (.receive i chunk) { s with
      streambuf := s.streambuf ++ chunk
      received := s.received ++ chunk
      reads := s.reads.set i (firstLine '\n' (s.streambuf ++ chunk)) }
  | command {i early n : Nat} (hi : s.reads[i]? = some (some n)) (hn : 1 < n) :
    Next s (.handleRead i early) (runCommand { s with reads := s.reads.eraseIdx i } n early)
  | emptyLine {i early n : Nat} (hi : s.reads[i]? = some (some n)) (hn : n ≤ 1) :
    Next s (.handleRead i early) (skipLine { s with reads := s.reads.eraseIdx i } n)
  | transmit {j : Nat} {bytes : Bytes} {w : Write} (hj : s.writes[j]? = some w)
      (hlen : w.sent + bytes.length ≤ w.length)
      (hbytes : w.intact → bytes = (s.reply.drop w.sent).take bytes.length) :
    Next s (.transmit j bytes) { s with
      writes := s.writes.set j (w.advance bytes.length hlen)
      delivered := s.delivered ++ bytes }
  | written {j : Nat} {w : Write} (hj : s.writes[j]? = some w) (hsent : w.sent = w.length) :
    Next s (.handleWrite j) (writeHandler { s with writes := s.writes.eraseIdx j })
  | failRead {i : Nat} (hi : s.reads[i]? = some none) :
    Next s (.failRead i) (skipLine { s with reads := s.reads.eraseIdx i, failed := true } 0)
  | failWrite {j : Nat} (hj : j < s.writes.length) :
    Next s (.failWrite j) { s with writes := s.writes.eraseIdx j, failed := true }
  | others (storage : Storage) : Next s (.others storage) { s with storage := storage }

theorem next_of_step {s s' : Session} {a : Act} (h : s.step a = some s') : Next s a s' := by
  cases a with
  | receive i chunk =>
    obtain ⟨⟨hi, -⟩, rfl⟩ := by simpa [step] using h
    exact .receive hi
  | handleRead i early =>
    simp only [step] at h
    split at h
    next n hi =>
      unfold readHandler at h
      split_ifs at h with hn hlen
      · cases h
        exact .command hi hn
      · cases h
        exact .emptyLine hi (Nat.le_of_not_lt hn)
    next => cases h
  | transmit j bytes =>
    simp only [step] at h
    split at h
    next w hj =>
      split_ifs at h with hw
      cases h
      exact .transmit hj hw.1 hw.2
    next => cases h
  | handleWrite j =>
    simp only [step] at h
    split at h
    next w hj =>
      split_ifs at h with hw
      cases h
      exact .written hj hw
    next => cases h
  | failRead i =>
    obtain ⟨hi, rfl⟩ := by simpa [step, readHandler] using h
    exact .failRead hi
  | failWrite j =>
    obtain ⟨hj, rfl⟩ := by simpa [step] using h
    exact .failWrite hj
  | others storage =>
    cases h
    exact .others storage

theorem count_unique {s : Session} {i n n' : Nat} (h : s.reads[i]? = some (some n))
    (h' : s.reads[i]? = some (some n')) : n = n' :=
  Option.some.inj (Option.some.inj (h.symm.trans h'))

theorem next_storage {s s' : Session} {a : Act} (h : Next s a s') :
    s'.storage = s.storage ∨ a = .others s'.storage := by
  cases h with
  | command hi hn => exact .inl (execute_storage _ _)
  | others storage => exact .inr rfl
  | receive | emptyLine | transmit | written | failRead | failWrite => exact .inl rfl

end Session

end JoinServer.Server
