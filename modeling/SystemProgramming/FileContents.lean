import SystemProgramming.ReadersWriters
import SystemProgramming.LineReader
import SystemProgramming.ByteFile

/-!
# The content of a server file

Child servers handle requests on one file and use one lock for it. Each system
call that matters to the file is a step, and so is each statement of the region
functions; how a call ends is the choice of its environment. `cmd_copy` opens its
destination before it enters the region. The destination of an upload is the
server file; so is that of a download when the client works in the directory of
the server. Counters of bytes are unbounded here.
-/
namespace SystemProgramming.FileContents
open SystemProgramming.Transition SystemProgramming.ReadersWriters
open SystemProgramming.LineReader (Text buffSize)
open SystemProgramming.ByteFile (writeAt)

/-- The requests, with a line number or none; `here` tells that the client of a
download works in the directory of the server. -/
inductive Request where
  | readF (lineNo : Option ℕ)
  | writeT (lineNo : Option ℕ) (str : Text)
  | upload
  | download (here : Bool)
  deriving DecidableEq, Repr

/-- The request uses the writer region. -/
def Request.svWrite : Request → Bool
  | .writeT _ _ | .upload => true
  | .readF _ | .download _ => false

/-- `cmd_copy` writes to the server file. -/
def Request.toServer : Request → Bool
  | .upload | .download true => true
  | _ => false

/-- What a child does inside its region. The read and the write offset of a copy agree,
since the loop ends when a write is not complete. -/
inductive Task where
  | seek (lineNo pos lineCount : ℕ)
  | nextLine (pos : ℕ)
  | sendPiece (pos : ℕ)
  | writeString (pos : Option ℕ) (str : Text)
  | copyRead (pos : ℕ)
  | copyWrite (pos : ℕ) (piece : Text)
  | finished
  deriving DecidableEq, Repr

/-- The next system call of a child server, or the region function it executes; `size`
is what `fstat` said. -/
inductive Handler where
  | idle
  | openSource (r : Request)
  | fstat (r : Request)
  | createDest (r : Request)
  | approve (r : Request)
  | truncateDest (r : Request)
  | findSfile (r : Request) (size : ℕ)
  | enter (r : Request) (size : ℕ)
  | inside (r : Request) (size : ℕ) (task : Task)
  | leave (r : Request)
  | dead
  deriving DecidableEq, Repr

/-- `disk` is the file, if it exists. -/
structure State (ι : Type*) where
  lock : ReadersWriters.State ι
  handler : ι → Handler
  disk : Option Text

/-- A file that does not exist has no content. -/
def State.content {ι : Type*} (s : State ι) : Text := s.disk.getD []

def State.put {ι : Type*} [DecidableEq ι] (s : State ι) (i : ι) (h : Handler) : State ι :=
  { s with handler := Function.update s.handler i h }

def Request.afterOpen : Request → Handler
  | .readF lineNo => .fstat (.readF lineNo)
  | .writeT lineNo str => .findSfile (.writeT lineNo str) 0
  | r => .createDest r

/-- `seek_line` returns at once for the first line. -/
def Request.firstTask : Request → Task
  | .readF none => .sendPiece 0
  | .readF (some lineNo) => if lineNo = 1 then .nextLine 0 else .seek lineNo 0 1
  | .writeT none str => .writeString none str
  | .writeT (some lineNo) str =>
    if lineNo = 1 then .writeString (some 0) str else .seek lineNo 0 1
  | _ => .copyRead 0

/-- What follows `seek_line`. -/
def Request.afterSeek (r : Request) (pos : ℕ) : Task :=
  match r with
  | .writeT _ str => .writeString (some pos) str
  | _ => .nextLine pos

/-- One system call inside the region on a file with the given content: the new content
and what is next. `ok` tells whether the call succeeds, `n` how many bytes it
transfers, and `data` what a file on the client's side delivers. A child goes on
or stops after a `read` of `cmd_readF` that fails. -/
def taskStep (content : Text) (r : Request) (size : ℕ) (ok : Bool) (n : ℕ) (data : Text) :
    Task → Option (Text × Task)
  | .seek lineNo pos lineCount =>
    match if ok then content[pos]? else none with
    | none => some (content, .finished)
    | some c => some (content,
        if c = '\n' ∧ lineCount + 1 = lineNo then r.afterSeek (pos + 1)
        else .seek lineNo (pos + 1) (if c = '\n' then lineCount + 1 else lineCount))
  | .nextLine pos =>
    match if ok then content[pos]? else none with
    | none => some (content, .finished)
    | some c => some (content, if c = '\n' then .finished else .nextLine (pos + 1))
  | .sendPiece pos =>
    if ok = false then some (content, if n = 0 then .finished else .sendPiece pos)
    else if content.drop pos = [] then some (content, .finished)
    else if n = 0 ∨ buffSize < n then none
    else some (content,
      if pos + ((content.drop pos).take n).length < size then
        .sendPiece (pos + ((content.drop pos).take n).length)
      else .finished)
  | .writeString pos str =>
    some (if ok then writeAt content (pos.getD content.length) (str.take n) else content,
      .finished)
  | .copyRead pos =>
    let piece := if r.svWrite then data else (content.drop pos).take n
    if ok = false ∨ r.svWrite = true ∧ data = [] ∨ r.svWrite = false ∧ content.drop pos = [] then
      some (content, .finished)
    else if piece = [] ∨ buffSize < piece.length then none
    else some (content, .copyWrite pos piece)
  | .copyWrite pos piece =>
    some (if ok = true ∧ r.toServer = true then writeAt content pos (piece.take n) else content,
      if ok = true ∧ piece.length ≤ n then .copyRead (pos + piece.length) else .finished)
  | .finished => none

/-- Child `i` makes its next system call. -/
def callStep {ι : Type*} [DecidableEq ι] (s : State ι) (i : ι) (ok : Bool) (n : ℕ) (data : Text) :
    Option (State ι) :=
  match s.handler i with
  | .openSource r =>
    some (s.put i (if ok = true ∧ (r = .upload ∨ s.disk.isSome = true) then r.afterOpen
      else .idle))
  | .fstat r => some (s.put i (if ok then .findSfile r s.content.length else .idle))
  | .createDest r =>
    if ok = true ∧ ¬ (r.toServer = true ∧ s.disk.isSome = true) then
      some { s.put i (.findSfile r 0) with disk := if r.toServer then some [] else s.disk }
    else some (s.put i (.approve r))
  | .approve r => some (s.put i (if ok then .truncateDest r else .idle))
  | .truncateDest r =>
    if ok then some { s.put i (.findSfile r 0) with disk := if r.toServer then some [] else s.disk }
    else some (s.put i .idle)
  | .findSfile r size =>
    if ok then (ReadersWriters.step s.lock (if r.svWrite then .writer i else .reader i)).map
      fun lock => { s.put i (.enter r size) with lock := lock }
    else some (s.put i .idle)
  | .inside r size task =>
    (taskStep s.content r size ok n data task).map fun next =>
      { s.put i (.inside r size next.2) with disk := some next.1 }
  | _ => none

/-- Where a child is after a statement of a region function that leads it to `pc`. -/
def Handler.afterExec (h : Handler) (pc : Pc) : Handler :=
  match h with
  | .enter r size =>
    if pc = .reading ∨ pc = .writing then .inside r size r.firstTask else .enter r size
  | .inside r _ _ => .leave r
  | .leave r => if pc = .idle then .idle else .leave r
  | h => h

/-- The child executes a statement of a region function. -/
def Handler.inRegionCode : Handler → Bool
  | .enter _ _ | .inside _ _ .finished | .leave _ => true
  | _ => false

/-- An idle child receives a request; a child makes its next system call, executes its
next statement of a region function, or is ended by a signal. -/
inductive Act (ι : Type*) where
  | request (i : ι) (r : Request)
  | call (i : ι) (ok : Bool) (n : ℕ) (data : Text)
  | exec (i : ι)
  | kill (i : ι)

def Act.child {ι : Type*} : Act ι → ι
  | .request i _ | .call i _ _ _ | .exec i | .kill i => i

def step {ι : Type*} [DecidableEq ι] (s : State ι) : Act ι → Option (State ι)
  | .request i r => if s.handler i = .idle then some (s.put i (.openSource r)) else none
  | .call i ok n data => callStep s i ok n data
  | .exec i =>
    if (s.handler i).inRegionCode then
      (ReadersWriters.step s.lock (.exec i)).map fun lock =>
        { s.put i ((s.handler i).afterExec (lock.pc i)) with lock := lock }
    else none
  | .kill i => some (s.put i .dead)

/-- A file with the given name, if it exists, and no request yet. -/
def init (ι : Type*) (fname : Text) (disk : Option Text) : State ι where
  lock := ReadersWriters.init ι fname
  handler := fun _ => .idle
  disk := disk

/-- The action opens the server file with `O_TRUNC`. -/
def truncates {ι : Type*} (s : State ι) : Act ι → Bool
  | .call i ok _ _ => match s.handler i with
    | .truncateDest r => ok && r.toServer
    | _ => false
  | _ => false

/-- The server file is truncated only when it has no content. -/
def TruncatesEmpty {ι : Type*} (s : State ι) (a : Act ι) : Prop :=
  truncates s a = true → s.content = []

instance {ι : Type*} (s : State ι) (a : Act ι) : Decidable (TruncatesEmpty s a) :=
  inferInstanceAs (Decidable (_ → _))

end SystemProgramming.FileContents
