import SystemProgramming.FileServerReplies
import SystemProgramming.Transition

/-!
# A client and its child server

The client writes the header and the text of a command to the one FIFO, and reads
messages from the other until it has a final one; the child server reads a request, writes
its messages header by header and body by body, and may stop for an answer in between. The
two run side by side. A write of at most `PIPE_BUF` bytes is atomic, a longer one may
arrive in parts, and a `read` takes what is there: a client that finds less than it asked
for is out of step from then on. Writes succeed; a FIFO is as long as need be.
-/
namespace SystemProgramming.FileServer
open SystemProgramming.Transition SystemProgramming.Strtok SystemProgramming.LineReader
  SystemProgramming.LockTable

/-- What the client writes: a request header, the text of a command with its NUL, and
the answer to a question. -/
inductive Packet where
  | header (dataSize : ℕ)
  | command (cmd : Text)
  | answer (yesOrNo : Bool)
  deriving DecidableEq, Repr

/-- Where the client is: it asks for a command, has written its header, waits for a
header or a body, asks for an answer, has read `RESP_DISCONNECT`; or it has read less than
a message, or something else, or found the FIFO closed. -/
inductive Client where
  | prompt
  | writing (line : CommandLine)
  | header
  | body (stat : RespStatus) (dataSize : ℕ)
  | approving
  | disconnected
  | lost

/-- What the child server does when it has written its messages. -/
inductive Next where
  | ready (s : Session)
  | request (s : Session) (dataSize : ℕ)
  | asking (k : Kernel) (s : Session) (cmd : Text) (asked : List Message)
  | closed

/-- The writes that a child server has still to make, and what follows them. -/
structure ChildServer where
  out : List (List Cell)
  next : Next

/-- What a user sees of a session: the commands typed, the messages, and the answers. -/
inductive Seen where
  | typed (cmd : Text)
  | heard (m : Message)
  | answered (yesOrNo : Bool)
  deriving DecidableEq, Repr

structure Link where
  client : Client
  toServer : List Packet
  toClient : List Cell
  server : ChildServer
  seen : List Seen

/-- The actions: those of the user, of the client, and of the server. -/
inductive Move where
  | type (line : CommandLine)
  | sendCommand
  | readHeader
  | readBody
  | approve (resp : Option Bool)
  | readRequest
  | serve (k : Kernel)
  | put (cells : ℕ)
  | readAnswer

/-- The header and the body of a message, each in one write. -/
def Message.writes (m : Message) : List (List Cell) :=
  [.header m.stat m.body.length] :: (if m.body = [] then [] else [m.body.map .byte])

/-- What follows a message that has been read. -/
def afterMessage : RespStatus → Client
  | .cont => .header
  | .approve => .approving
  | .disconnect => .disconnected
  | _ => .prompt

def byteOf : Cell → Option Char
  | .byte c => some c
  | .header _ _ => none

/-- The server leaves its loop behind these commands. -/
def leaves (cmd : Text) : Bool :=
  commandOf (parseCommand cmd).cmd = some .quit ∨
    commandOf (parseCommand cmd).cmd = some .killServer

def isQuestion (m : Message) : Bool := m.stat = .approve

/-- A request that has been read is served up to its end or its question. -/
def ChildServer.serve (s : Session) (k : Kernel) (cmd : Text) : Option ChildServer :=
  (serverRequest k s cmd false).map fun t =>
    ⟨t.sent.flatMap Message.writes,
      if t.sent.any isQuestion then .asking k s cmd t.sent
      else if leaves cmd then .closed else .ready t⟩

/-- What is left of a request behind its question. -/
def ChildServer.resume (s : Session) (k : Kernel) (cmd : Text) (asked : List Message)
    (yesOrNo : Bool) : Option ChildServer :=
  (serverRequest k s cmd yesOrNo).map fun t =>
    ⟨(t.sent.drop asked.length).flatMap Message.writes, .ready t⟩

def linkStep (l : Link) : Move → Option Link
  | .type line =>
    match l.client with
    | .prompt => some { l with
        client := .writing line
        toServer := l.toServer ++ [.header (line.text.length + 1)]
        seen := l.seen ++ [.typed line.text] }
    | _ => none
  | .sendCommand =>
    match l.client with
    | .writing line =>
      some { l with client := .header, toServer := l.toServer ++ [.command line.text] }
    | _ => none
  | .readHeader =>
    match l.client, l.toClient with
    | .header, .header stat dataSize :: cells =>
      if stat = .disconnect ∨ dataSize = 0 then
        some { l with
          client := afterMessage stat
          toClient := cells
          seen := l.seen ++ [.heard ⟨stat, []⟩] }
      else some { l with client := .body stat dataSize, toClient := cells }
    | .header, .byte _ :: _ => some { l with client := .lost }
    | .header, [] =>
      match l.server.next with
      | .closed => if l.server.out = [] then some { l with client := .lost } else none
      | _ => none
    | _, _ => none
  | .readBody =>
    match l.client, l.toClient with
    | .body stat dataSize, c :: cells =>
      match ((c :: cells).take dataSize).mapM byteOf with
      | some body =>
        if body.length < dataSize then some { l with client := .lost }
        else some { l with
          client := afterMessage stat
          toClient := (c :: cells).drop dataSize
          seen := l.seen ++ [.heard ⟨stat, body⟩] }
      | none => some { l with client := .lost }
    | _, _ => none
  | .approve resp =>
    match l.client with
    | .approving => some { l with
        -- the end of the input counts as no
        client := if resp = some true then .header else .prompt
        toServer := l.toServer ++ [.answer (resp.getD false)]
        seen := l.seen ++ [.answered (resp.getD false)] }
    | _ => none
  | .readRequest =>
    match l.server, l.toServer with
    | ⟨[], .ready s⟩, .header dataSize :: packets =>
      some { l with toServer := packets, server := ⟨[], .request s dataSize⟩ }
    | _, _ => none
  | .serve k =>
    match l.server, l.toServer with
    | ⟨[], .request s dataSize⟩, .command cmd :: packets =>
      if cmd.length + 1 = dataSize then
        (ChildServer.serve s k cmd).map fun server =>
          { l with toServer := packets, server := server }
      else none
    | _, _ => none
  | .put cells =>
    match l.server.out with
    | write :: out =>
      if cells = write.length then
        some { l with
          toClient := l.toClient ++ write
          server := { l.server with out := out } }
      else if pipeBuf < write.length ∧ 0 < cells ∧ cells < write.length then
        some { l with
          toClient := l.toClient ++ write.take cells
          server := { l.server with out := write.drop cells :: out } }
      else none
    | [] => none
  | .readAnswer =>
    match l.server, l.toServer with
    | ⟨[], .asking k s cmd asked⟩, .answer yesOrNo :: packets =>
      (ChildServer.resume s k cmd asked yesOrNo).map fun server =>
        { l with toServer := packets, server := server }
    | _, _ => none

/-- The client is at its prompt and the server waits for a request. -/
def connected (s : Session) : Link := ⟨.prompt, [], [], ⟨[], .ready s⟩, []⟩

end SystemProgramming.FileServer
