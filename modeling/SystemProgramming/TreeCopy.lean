import SystemProgramming.ByteFile
import SystemProgramming.CopyBuffer

/-!
# Copying a whole tree

The copy program with its file system: `traverse_directory` over the calls that
it makes, one activation a frame, and `copy_file_contents` with its reads and
writes. The threads and the buffer are those of `CopyBuffer`, whose manager is
in `scan` while it traverses. Paths are absolute, shorter than `PATH_MAX` and
free of links, and `readdir` is the order in which a directory lists its names.
The counters do not overflow.
-/
namespace SystemProgramming.TreeCopy
open SystemProgramming.Transition SystemProgramming.ByteFile
open SystemProgramming.CopyBuffer (FileInformation)

/-- The name of a directory entry. -/
abbrev Name := { a : List Char // '/' ∉ a }

abbrev Path := List Name

/-- The string of a path. -/
def text (p : Path) : List Char := p.flatMap fun a => '/' :: a.val

def isDot (a : Name) : Bool := a.val = ['.'] ∨ a.val = ['.', '.']

inductive Node where
  | dir
  | file (content : List Char)
  | fifo
  deriving DecidableEq, Repr

abbrev FileSystem := Path → Option Node

structure OpenFile where
  path : Path
  offset : ℕ
  deriving DecidableEq, Repr

/-- An activation of `traverse_directory`, with the entries it has yet to read. -/
structure Frame where
  srcDir : Path
  dstDir : Path
  entries : List Name
  deriving DecidableEq, Repr

/-- The next call of `traverse_directory`, with the paths that it is about. -/
inductive TravPc where
  | opendir (srcDir dstDir : Path)
  | mkdir (srcDir dstDir : Path)
  | readdir
  | stat (srcPath dstPath : Path)
  | openSrc (srcPath dstPath : Path)
  | openDst (srcPath dstPath : Path) (srcFd : ℤ)
  | mkfifo (dstPath : Path)
  | returned
  deriving DecidableEq, Repr

/-- The process and its files. In `piece` is what a worker has read and not yet
written, and nothing before a `read`. -/
structure World (n : ℕ) where
  proc : CopyBuffer.State n
  fs : FileSystem
  fds : ℤ → Option OpenFile
  frames : List Frame
  trav : TravPc
  piece : Fin n → List Char
  numDirectories : ℕ
  numFifoFiles : ℕ

def bufsize : ℕ := 4096

/-- `exit` ends all threads. -/
def World.exit {n : ℕ} (w : World n) : World n :=
  { w with proc := { w.proc with main := .exited } }

/-- A thread executes a statement of `CopyBuffer`. -/
def World.call {n : ℕ} (w : World n) (a : CopyBuffer.Act n) : Option (World n) :=
  (CopyBuffer.step w.proc a).map fun s => { w with proc := s }

def World.create {n : ℕ} (w : World n) (p : Path) (node : Node) : World n :=
  { w with fs := Function.update w.fs p (some node) }

def World.setFd {n : ℕ} (w : World n) (fd : ℤ) (o : Option OpenFile) : World n :=
  { w with fds := Function.update w.fds fd o }

def World.close {n : ℕ} (w : World n) (fd : ℤ) : World n := w.setFd fd none

/-- Nothing has the path, and its directory exists. -/
def World.vacant {n : ℕ} (w : World n) (p : Path) : Bool :=
  w.fs p = none ∧ w.fs p.dropLast = some .dir

/-- A call of `open` returns a descriptor that is not in use. -/
def World.unused {n : ℕ} (w : World n) (fd : ℤ) : Bool := 0 ≤ fd ∧ w.fds fd = none

/-- `O_WRONLY | O_CREAT | O_TRUNC` fits a regular file, or a new one. -/
def World.writable {n : ℕ} (w : World n) (p : Path) : Bool :=
  match w.fs p with
  | none => w.vacant p
  | some (.file _) => true
  | _ => false

/-- The loop over the entries starts. -/
def World.enter {n : ℕ} (w : World n) (readdir : Path → List Name) (s d : Path) : World n :=
  { w with frames := ⟨s, d, readdir s⟩ :: w.frames, trav := .readdir }

/-- The activation returns to the loop of its caller. -/
def World.leave {n : ℕ} (w : World n) : World n :=
  { w with
    frames := w.frames.tail
    trav := if w.frames.tail = [] then .returned else .readdir }

/-- The manager executes the next call of the traversal; `ok` is whether the call
succeeds and `fd` what an `open` returns. -/
def World.traverse {n : ℕ} (readdir : Path → List Name) (w : World n) (ok : Bool) (fd : ℤ) :
    Option (World n) :=
  match w.trav with
  | .opendir s d =>
    if ok then
      if w.fs s = some .dir then some { w with trav := .mkdir s d } else none
    else some w.exit
  | .mkdir s d =>
    if ok then
      if w.vacant d then some ((w.create d .dir).enter readdir s d) else none
    else if w.fs d = none then some w.exit
    else some (w.enter readdir s d)
  | .readdir =>
    match w.frames with
    | [] => none
    | ⟨_, _, []⟩ :: _ => some w.leave
    | ⟨s, d, a :: es⟩ :: frames =>
      if isDot a then some { w with frames := ⟨s, d, es⟩ :: frames }
      else some { w with
        frames := ⟨s, d, es⟩ :: frames
        trav := .stat (s ++ [a]) (d ++ [a]) }
  | .stat s d =>
    if ok then
      match w.fs s with
      | none => none
      | some .dir => some { w with
          trav := .opendir s d
          numDirectories := w.numDirectories + 1 }
      | some (.file _) => some { w with trav := .openSrc s d }
      | some .fifo => some { w with trav := .mkfifo d, numFifoFiles := w.numFifoFiles + 1 }
    else some { w with trav := .readdir }
  | .openSrc s d =>
    if ok then
      if w.unused fd then some { w.setFd fd (some ⟨s, 0⟩) with trav := .openDst s d fd } else none
    else some { w with trav := .readdir }
  | .openDst s d srcFd =>
    if ok then
      if w.unused fd ∧ w.writable d then
        ({ (w.create d (.file [])).setFd fd (some ⟨d, 0⟩) with trav := .readdir } : World n).call
          (.tryAdd ⟨srcFd, fd, text s, text d⟩)
      else none
    else some { w.close srcFd with trav := .readdir }
  | .mkfifo d =>
    if ok then
      if w.vacant d then some { w.create d .fifo with trav := .readdir } else none
    else some { w with trav := .readdir }
  | .returned => w.call .endTraversal

/-- The manager executes its next statement outside the traversal; after a file
that it drops it breaks out of the loop. -/
def World.manager {n : ℕ} (w : World n) (c : Option (Fin n)) : Option (World n) :=
  match w.proc.manager with
  | .dropClose f => ((w.close f.srcFd).close f.dstFd).leave.call (.manager c)
  | _ => w.call (.manager c)

/-- A descriptor of a regular file, with its content. -/
def World.regular {n : ℕ} (w : World n) (fd : ℤ) : Option (OpenFile × List Char) :=
  match w.fds fd with
  | none => none
  | some o =>
    match w.fs o.path with
    | some (.file content) => some (o, content)
    | _ => none

/-- `read` returns between one byte and what the buffer takes of the rest of the
file, and zero at its end. -/
def World.read {n : ℕ} (w : World n) (i : Fin n) (f : FileInformation) (ok : Bool) (nread : ℕ) :
    Option (World n) :=
  if ok then
    match w.regular f.srcFd with
    | none => none
    | some (o, content) =>
      if nread = 0 ∧ content.length ≤ o.offset then w.call (.worker i 0)
      else if 0 < nread ∧ nread ≤ bufsize ∧ o.offset + nread ≤ content.length then
        some { w.setFd f.srcFd (some ⟨o.path, o.offset + nread⟩) with
          piece := Function.update w.piece i ((content.drop o.offset).take nread) }
      else none
  else w.call (.worker i 0)

/-- A failed or a short write ends the process. -/
def World.write {n : ℕ} (w : World n) (i : Fin n) (f : FileInformation) (ok : Bool) :
    Option (World n) :=
  if ok then
    match w.regular f.dstFd with
    | none => none
    | some (o, content) =>
      ({ (w.create o.path (.file (writeAt content o.offset (w.piece i)))).setFd f.dstFd
          (some ⟨o.path, o.offset + (w.piece i).length⟩) with
        piece := Function.update w.piece i [] } : World n).call (.worker i (w.piece i).length)
  else some w.exit

/-- Worker `i` executes its next statement; `nread` is what a `read` returns. -/
def World.worker {n : ℕ} (w : World n) (i : Fin n) (ok : Bool) (nread : ℕ) : Option (World n) :=
  match w.proc.worker i with
  | .copy f => if w.piece i = [] then w.read i f ok nread else w.write i f ok
  | .closeSrc f => (w.close f.srcFd).call (.worker i 0)
  | .closeDst f => (w.close f.dstFd).call (.worker i 0)
  | _ => w.call (.worker i 0)

inductive Act (n : ℕ) where
  | traverse (ok : Bool) (fd : ℤ)
  | manager (c : Option (Fin n))
  | worker (i : Fin n) (ok : Bool) (nread : ℕ)
  | main
  | sigint
  | spuriousManager
  | spuriousWorker (i : Fin n)

def step {n : ℕ} (readdir : Path → List Name) (w : World n) (a : Act n) : Option (World n) :=
  match a with
  | .traverse ok fd =>
    if w.proc.main ≠ .exited ∧ w.proc.manager = .scan then w.traverse readdir ok fd else none
  | .manager c => w.manager c
  | .worker i ok nread => if w.proc.main ≠ .exited then w.worker i ok nread else none
  | .main => w.call .main
  | .sigint => w.call .sigint
  | .spuriousManager => w.call .spuriousManager
  | .spuriousWorker i => w.call (.spuriousWorker i)

def init (n size : ℕ) (junk : ℕ → FileInformation) (fs : FileSystem) (src dst : Path) :
    World n where
  proc := CopyBuffer.init n size junk
  fs := fs
  fds := fun _ => none
  frames := []
  trav := .opendir src dst
  piece := fun _ => []
  numDirectories := 0
  numFifoFiles := 0

/-- `mkdir` is about to find the directory. -/
def World.mkdirFinds {n : ℕ} (w : World n) : Bool :=
  match w.trav with
  | .mkdir _ d => w.fs d = some .dir
  | _ => false

/-- No signal comes and all calls succeed, where `mkdir` may find a directory. -/
def Succeeds {n : ℕ} (w : World n) : Act n → Prop
  | .traverse ok _ => ok = true ∨ w.mkdirFinds = true
  | .worker _ ok _ => ok = true
  | .sigint => False
  | _ => True

instance {n : ℕ} (w : World n) : (a : Act n) → Decidable (Succeeds w a)
  | .traverse .. => inferInstanceAs (Decidable (_ ∨ _))
  | .worker .. => inferInstanceAs (Decidable (_ = _))
  | .sigint => inferInstanceAs (Decidable False)
  | .manager _ | .main | .spuriousManager | .spuriousWorker _ => inferInstanceAs (Decidable True)

/-- The source directory holds a finite tree: `nodes` are the paths below it, and
`readdir` lists each of its directories. -/
structure SourceTree (readdir : Path → List Name) (fs : FileSystem) (src : Path)
    (nodes : Finset Path) : Prop where
  root : fs src = some .dir
  mem_nodes : ∀ r, r ∈ nodes ↔ r ≠ [] ∧ fs (src ++ r) ≠ none
  parent : ∀ r a, fs (src ++ (r ++ [a])) ≠ none → fs (src ++ r) = some .dir
  lists : ∀ r, fs (src ++ r) = some .dir → (readdir (src ++ r)).Nodup ∧
    ∀ a, a ∈ (readdir (src ++ r)).filter (fun a => !isDot a) ↔ fs (src ++ (r ++ [a])) ≠ none

end SystemProgramming.TreeCopy
