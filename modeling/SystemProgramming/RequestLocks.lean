import SystemProgramming.FileServerReplies

/-!
# The lock of a file across one request

A request is handled by a child server that nobody interrupts, so that its region
functions run through or block. Each call of `write` may end the child by a
signal: `SIGPIPE` when the client has closed its FIFO. What matters about a
request is how it ends and what it leaves in the table of locks. A handler that
writes outside its buffers, or overflows a counter, has no defined end.
-/
namespace SystemProgramming.RequestLocks
open SystemProgramming.ReadersWriters SystemProgramming.LineReader
open SystemProgramming.LockTable (SafeDir getSfile addSfile)
open SystemProgramming.FileServer (errMsgLen approveQuestion SeekCounts seekLine_spec)

/-- What one call of `write` answers: as many bytes as asked for, fewer, an error, or
a signal ends the child. -/
inductive WriteAnswer where
  | whole
  | short
  | failed
  | killed
  deriving DecidableEq, Repr

/-- The calls of `write` number `i`, …, `i + n - 1`, stopping at the first one that
does not write everything. -/
def writeAll (answer : ℕ → WriteAnswer) : ℕ → ℕ → WriteAnswer
  | _, 0 => .whole
  | i, n + 1 => match answer i with
    | .whole => writeAll answer (i + 1) n
    | a => a

/-- What the system calls of a request answer, those on semaphores apart, which
succeed. `reads` are the lengths that calls of `read` with a whole buffer return, up
to the one that returns zero; a call that fails is `none`. The writes go to the FIFO
before the handler ends, to a file, and to the FIFO with the error response. -/
structure Calls where
  openFile : Option File
  fstat : Bool
  semInit : Bool
  reads : List (Option ℕ)
  realloc : ℕ → Bool
  createNew : Bool
  overwrite : Option Bool
  truncate : Bool
  fifo : ℕ → WriteAnswer
  file : ℕ → WriteAnswer
  errorFifo : ℕ → WriteAnswer
  status : ℤ

/-- How the child is done with a handler. -/
inductive End where
  | returned (status : ℤ)
  | killed
  deriving DecidableEq, Repr

inductive Outcome where
  | undefined
  | blocked
  | ended (e : End) (after : SafeDir)
  deriving DecidableEq, Repr

/-- A region function without interruption, from the statement `pc`; `none` when it
blocks. -/
def callRegion : ℕ → SafeFile → Pc → Option SafeFile
  | 0, _, _ => none
  | n + 1, f, pc => (f.exec pc).bind fun r =>
    if r.2.inFunction then callRegion n r.1 r.2 else some r.1

/-- No region function has more statements. -/
def regionStatements : ℕ := 8

/-- Call a region function of entry `k`. -/
def callEntry (sdir : SafeDir) (k : ℕ) (pc : Pc) : Option SafeDir :=
  (sdir.files[k]?).bind fun f => (callRegion regionStatements f pc).map fun f' =>
    { sdir with files := sdir.files.set k f' }

/-- `writer_enter_region` or `reader_enter_region` -/
def enterRegion (sdir : SafeDir) (k : ℕ) (svWrite : Bool) : Option SafeDir :=
  callEntry sdir k (if svWrite then .wrWaitWmutex else .rdWaitReadTry)

/-- `writer_exit_region` or `reader_exit_region` -/
def exitRegion (sdir : SafeDir) (k : ℕ) (svWrite : Bool) : Option SafeDir :=
  callEntry sdir k (if svWrite then .writing else .reading)

/-- What all handlers share: they enter a region, do something there that touches no
lock, and leave the region again unless they were ended in it. -/
def inRegion (sdir : SafeDir) (k : ℕ) (svWrite : Bool) (body : Option End) : Outcome :=
  match enterRegion sdir k svWrite with
  | none => .blocked
  | some entered => match body with
    | none => .undefined
    | some .killed => .ended .killed entered
    | some (.returned status) => match exitRegion entered k svWrite with
      | none => .blocked
      | some left => .ended (.returned status) left

/-- What is done outside the region with the status of a handler. -/
def Outcome.andThen (o : Outcome) (f : ℤ → End) : Outcome :=
  match o with
  | .ended (.returned status) after => .ended (f status) after
  | o => o

/-- A header and a body. -/
def writeResponse (answer : ℕ → WriteAnswer) (i : ℕ) : End :=
  match writeAll answer i 2 with
  | .whole => .returned 0
  | .killed => .killed
  | _ => .returned (-1)

/-- `get_sfile`, and `add_sfile` when that finds nothing. -/
def findSfile (c : Calls) (sdir : SafeDir) (name : Text) : Option (SafeDir × ℕ) :=
  match getSfile sdir name with
  | some k => some (sdir, k)
  | none => addSfile sdir name c.semInit

/-- Find the entry of a file and run `body` in its region. -/
def withSfile (c : Calls) (sdir : SafeDir) (name : Text) (svWrite : Bool) (body : Option End) :
    Outcome :=
  match findSfile c sdir name with
  | none => .ended (.returned (-1)) sdir
  | some (sdir, k) => inRegion sdir k svWrite body

/-- The branch of `cmd_readF` that sends one line. -/
def readLine (c : Calls) (f : File) (lineNo : ℕ) : Option End :=
  (seekLine f lineNo).bind fun
    | .error _ => some (.returned (-1))
    | .ok (_, rest) => (readNextLine c.realloc f.readError rest).map fun
      | none => .returned (-1)
      | some _ => writeResponse c.fifo 0

/-- What is added to `num_read`: for a `read` that fails the largest `size_t`, which
`int` arithmetic takes for `-1`, as it does in the comparison of `write_response`. -/
def dataSize : Option ℕ → ℤ
  | some n => n
  | none => -1

/-- The loop of `cmd_readF`. -/
def readWhole (c : Calls) (size : ℕ) : List (Option ℕ) → ℤ → ℕ → End
  | [], _, _ => .returned c.status
  | r :: reads, numRead, i => match writeResponse c.fifo i with
    | .killed => .killed
    | .returned status =>
      if status = -1 then .returned (-1)
      else if (numRead + dataSize r).bmod (2 ^ 32) < size then
        readWhole c size reads ((numRead + dataSize r).bmod (2 ^ 32)) (i + 2)
      else .returned c.status

def cmdReadF (c : Calls) (sdir : SafeDir) (srcFile : Text) (lineNo : ℤ) : Outcome :=
  match c.openFile with
  | none => .ended (.returned (-1)) sdir
  | some f =>
    if c.fstat = false then .ended (.returned (-1)) sdir
    else withSfile c sdir srcFile false
      (if 0 < lineNo then readLine c f lineNo.toNat else some (readWhole c f.size c.reads 0 0))

/-- The string is written to the file, and the answer to the FIFO; both times the
status ends up as zero. -/
def writeString (c : Calls) : End :=
  match c.file 0 with
  | .killed => .killed
  | .failed => .returned 0
  | _ => match writeResponse c.fifo 0 with
    | .killed => .killed
    | .returned _ => .returned 0

def cmdWriteT (c : Calls) (sdir : SafeDir) (srcFile : Text) (lineNo : ℤ) : Outcome :=
  match c.openFile with
  | none => .ended (.returned (-1)) sdir
  | some f => withSfile c sdir srcFile true
    (if 0 < lineNo then (seekLine f lineNo.toNat).map fun
      | .error _ => .returned (-1)
      | .ok _ => writeString c
    else some (writeString c))

/-- The loop of `copy_file`. -/
def copyLoop (c : Calls) : List (Option ℕ) → ℕ → End
  | some _ :: reads, i => match c.file i with
    | .whole => copyLoop c reads (i + 1)
    | .killed => .killed
    | _ => .returned (-1)
  | _, _ => .returned 0

/-- `cmd_copy` once both files are open, with `i` writes to the FIFO behind it. -/
def copyOpened (c : Calls) (sdir : SafeDir) (srcFile : Text) (svWrite : Bool) (i : ℕ) : Outcome :=
  (withSfile c sdir srcFile svWrite (some (copyLoop c c.reads 0))).andThen fun status =>
    if status = -1 then .returned (-1) else writeResponse c.fifo i

def cmdCopy (c : Calls) (sdir : SafeDir) (srcFile : Text) (svWrite : Bool) : Outcome :=
  match c.openFile with
  | none => .ended (.returned (-1)) sdir
  | some _ =>
    if c.createNew then copyOpened c sdir srcFile svWrite 0
    else if errMsgLen ≤ (approveQuestion srcFile).length then .undefined
    else match writeResponse c.fifo 0 with
      | .killed => .ended .killed sdir
      | .returned status =>
        if status = -1 then .ended (.returned (-1)) sdir
        else match c.overwrite with
          | none => .ended (.returned (-1)) sdir
          | some false => .ended (.returned 0) sdir
          | some true =>
            if c.truncate = false then .ended (.returned (-1)) sdir
            else copyOpened c sdir srcFile svWrite 2

inductive Request where
  | readF (srcFile : Text) (lineNo : ℤ)
  | writeT (srcFile : Text) (lineNo : ℤ)
  | upload (srcFile : Text)
  | download (srcFile : Text)
  deriving DecidableEq, Repr

def Request.srcFile : Request → Text
  | .readF srcFile _ | .writeT srcFile _ | .upload srcFile | .download srcFile => srcFile

def handle (c : Calls) (sdir : SafeDir) : Request → Outcome
  | .readF srcFile lineNo => cmdReadF c sdir srcFile lineNo
  | .writeT srcFile lineNo => cmdWriteT c sdir srcFile lineNo
  | .upload srcFile => cmdCopy c sdir srcFile true
  | .download srcFile => cmdCopy c sdir srcFile false

/-- One round of the loop of `server_request`; a status of `-1` is answered by an
error response. -/
def serverRequest (c : Calls) (sdir : SafeDir) (r : Request) : Outcome :=
  (handle c sdir r).andThen fun status =>
    if status = -1 then match writeResponse c.errorFifo 0 with
      | .killed => .killed
      | .returned _ => .returned status
    else .returned status

end SystemProgramming.RequestLocks
