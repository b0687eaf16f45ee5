import SystemProgramming.Transition
import SystemProgramming.RingBuffer
import SystemProgramming.Monitor

/-!
# The multi-threaded copy program with a barrier

A manager traverses a directory and hands opened files to workers through a
bounded buffer. The buffer, the flag `done` and the counters are protected by
one mutex; the manager waits on `buffer_not_full` and the workers wait on
`buffer_not_empty`. The main thread joins the others, and its handler of SIGINT
raises `done` as well. Every statement that touches shared data is one step.
The directory itself is left open: the manager may try any sequence of files.
A write failure ends the process, so such a run just stops.
-/
namespace SystemProgramming.CopyBuffer
open SystemProgramming.Transition SystemProgramming.RingBuffer SystemProgramming.Monitor

structure FileInformation where
  srcFd : ℤ
  dstFd : ℤ
  srcName : List Char
  dstName : List Char
  deriving DecidableEq, Repr

/-- The cells hold junk until they are written. -/
structure Buffer where
  data : ℕ → FileInformation
  size : ℕ
  count : ℤ
  head : ℕ
  tail : ℕ

def initializeBuffer (junk : ℕ → FileInformation) (size : ℕ) : Buffer := ⟨junk, size, 0, 0, 0⟩

def Buffer.isEmpty (b : Buffer) : Bool := b.count = 0

def Buffer.isFull (b : Buffer) : Bool := b.count = b.size

def Buffer.add (b : Buffer) (f : FileInformation) : Buffer :=
  { b with
    data := Function.update b.data b.tail f
    tail := (b.tail + 1) % b.size
    count := b.count + 1 }

def Buffer.get (b : Buffer) : FileInformation × Buffer :=
  (b.data b.head, { b with head := (b.head + 1) % b.size, count := b.count - 1 })

/-- The next statement of the manager. In `scan` it is between two regular files
of the traversal; `drop` are the statements after it has seen `done`, and `end`
those of `manager_function` after the traversal. -/
inductive ManagerPc where
  | scan
  | lock (f : FileInformation)
  | test (f : FileInformation)
  | waiting (f : FileInformation)
  | woken (f : FileInformation)
  | add (f : FileInformation)
  | signal
  | unlock
  | dropUnlock (f : FileInformation)
  | dropClose (f : FileInformation)
  | endLock
  | endDone
  | endBroadcast
  | endUnlock
  | arrive
  | barrier
  | finished
  deriving DecidableEq, Repr

/-- The next statement of a worker. In `copy` it is about to call `read`; the
three statements after it add the bytes of one `read` to the total. -/
inductive WorkerPc where
  | lock
  | test
  | waiting
  | woken
  | leaveUnlock
  | get
  | signal (f : FileInformation)
  | unlock (f : FileInformation)
  | copy (f : FileInformation)
  | bytesLock (f : FileInformation) (nread : ℕ)
  | bytesAdd (f : FileInformation) (nread : ℕ)
  | bytesUnlock (f : FileInformation)
  | closeSrc (f : FileInformation)
  | closeDst (f : FileInformation)
  | countLock
  | count
  | countUnlock
  | arrive
  | barrier
  | finished
  deriving DecidableEq, Repr

/-- The main thread joins the manager and the workers; `sig` are the statements
of `signal_handler`, which also ends with `cleanup` and `exit`. -/
inductive MainPc where
  | joinManager
  | joinWorker (k : ℕ)
  | sigLock
  | sigDone
  | sigBroadcast
  | sigUnlock
  | sigJoin (k : ℕ)
  | cleanup
  | exited
  deriving DecidableEq, Repr

inductive Thread (n : ℕ) where
  | manager
  | worker (i : Fin n)
  | main
  deriving DecidableEq, Repr

/-- The shared data, the program counters, the number of threads at the barrier,
and a record of the calls: the arguments of `buffer_add`, the results of
`buffer_get` with the caller, and what each worker has copied and closed. -/
structure State (n : ℕ) where
  buffer : Buffer
  mutex : Option (Thread n)
  done : Bool
  numFilesCopied : ℕ
  totalBytesCopied : ℕ
  arrived : ℕ
  manager : ManagerPc
  worker : Fin n → WorkerPc
  main : MainPc
  added : List FileInformation
  taken : List (Fin n × FileInformation)
  copied : Fin n → List FileInformation
  closed : Fin n → List FileInformation

def WorkerPc.waits : WorkerPc → Bool
  | .waiting => true
  | _ => false

def WorkerPc.wake (_ : WorkerPc) : WorkerPc := .woken

/-- A thread that locks the mutex goes on at `s'`, one that finds it locked blocks. -/
def State.lock {n : ℕ} (s : State n) (t : Thread n) (s' : State n) : Option (State n) :=
  if s.mutex = none then some { s' with mutex := some t } else none

/-- The manager executes its next statement; a signal wakes the worker `w`. -/
def managerStep {n : ℕ} (s : State n) (w : Option (Fin n)) : Option (State n) :=
  match s.manager with
  | .scan => none
  | .lock f => s.lock .manager { s with manager := .test f }
  | .test f =>
    if s.buffer.isFull ∧ ¬ s.done then some { s with mutex := none, manager := .waiting f }
    else if s.done then some { s with manager := .dropUnlock f }
    else some { s with manager := .add f }
  | .waiting _ => none
  | .woken f => s.lock .manager { s with manager := .test f }
  | .add f =>
    some { s with buffer := s.buffer.add f, manager := .signal, added := s.added ++ [f] }
  | .signal => (Monitor.signal WorkerPc.waits WorkerPc.wake s.worker w).map fun pc =>
      { s with worker := pc, manager := .unlock }
  | .unlock => some { s with mutex := none, manager := .scan }
  | .dropUnlock f => some { s with mutex := none, manager := .dropClose f }
  | .dropClose _ => some { s with manager := .scan }
  | .endLock => s.lock .manager { s with manager := .endDone }
  | .endDone => some { s with done := true, manager := .endBroadcast }
  | .endBroadcast => some { s with
      worker := broadcast WorkerPc.waits WorkerPc.wake s.worker
      manager := .endUnlock }
  | .endUnlock => some { s with mutex := none, manager := .arrive }
  | .arrive => some { s with arrived := s.arrived + 1, manager := .barrier }
  | .barrier => if s.arrived = n + 1 then some { s with manager := .finished } else none
  | .finished => none

/-- The signal of a worker is for the manager, the only thread that waits for room. -/
def ManagerPc.wake : ManagerPc → ManagerPc
  | .waiting f => .woken f
  | pc => pc

def State.setWorker {n : ℕ} (s : State n) (i : Fin n) (q : WorkerPc) : State n :=
  { s with worker := Function.update s.worker i q }

/-- Worker `i` executes its next statement; a `read` returns `nread` bytes, and
zero stands for the end of the file or an error. -/
def workerStep {n : ℕ} (s : State n) (i : Fin n) (nread : ℕ) : Option (State n) :=
  match s.worker i with
  | .lock => s.lock (.worker i) (s.setWorker i .test)
  | .test =>
    if s.buffer.isEmpty ∧ ¬ s.done then some { s.setWorker i .waiting with mutex := none }
    else if s.buffer.isEmpty ∧ s.done then some (s.setWorker i .leaveUnlock)
    else some (s.setWorker i .get)
  | .waiting => none
  | .woken => s.lock (.worker i) (s.setWorker i .test)
  | .leaveUnlock => some { s.setWorker i .arrive with mutex := none }
  | .get =>
    some { s.setWorker i (.signal s.buffer.get.1) with
      buffer := s.buffer.get.2
      taken := s.taken ++ [(i, s.buffer.get.1)] }
  | .signal f => some { s.setWorker i (.unlock f) with manager := s.manager.wake }
  | .unlock f => some { s.setWorker i (.copy f) with mutex := none }
  | .copy f =>
    if nread = 0 then some { s.setWorker i (.closeSrc f) with
      copied := Function.update s.copied i (s.copied i ++ [f]) }
    else some (s.setWorker i (.bytesLock f nread))
  | .bytesLock f k => s.lock (.worker i) (s.setWorker i (.bytesAdd f k))
  | .bytesAdd f k =>
    some { s.setWorker i (.bytesUnlock f) with totalBytesCopied := s.totalBytesCopied + k }
  | .bytesUnlock f => some { s.setWorker i (.copy f) with mutex := none }
  | .closeSrc f => some (s.setWorker i (.closeDst f))
  | .closeDst f =>
    some { s.setWorker i .countLock with
      closed := Function.update s.closed i (s.closed i ++ [f]) }
  | .countLock => s.lock (.worker i) (s.setWorker i .count)
  | .count => some { s.setWorker i .countUnlock with numFilesCopied := s.numFilesCopied + 1 }
  | .countUnlock => some { s.setWorker i .lock with mutex := none }
  | .arrive => some { s.setWorker i .barrier with arrived := s.arrived + 1 }
  | .barrier => if s.arrived = n + 1 then some (s.setWorker i .finished) else none
  | .finished => none

/-- The main thread executes its next statement; joining worker `k` blocks until
that worker has finished. -/
def mainStep {n : ℕ} (s : State n) : Option (State n) :=
  match s.main with
  | .joinManager =>
    if s.manager = .finished then some { s with main := .joinWorker 0 } else none
  | .joinWorker k =>
    if h : k < n then
      if s.worker ⟨k, h⟩ = .finished then some { s with main := .joinWorker (k + 1) } else none
    else some { s with main := .cleanup }
  | .sigLock => s.lock .main { s with main := .sigDone }
  | .sigDone => some { s with done := true, main := .sigBroadcast }
  | .sigBroadcast => some { s with
      worker := broadcast WorkerPc.waits WorkerPc.wake s.worker
      main := .sigUnlock }
  | .sigUnlock => some { s with mutex := none, main := .sigJoin 0 }
  | .sigJoin k =>
    if h : k < n then
      if s.worker ⟨k, h⟩ = .finished then some { s with main := .sigJoin (k + 1) } else none
    else some { s with main := .cleanup }
  | .cleanup => some { s with main := .exited }
  | .exited => none

/-- The traversal comes to a file or ends; a thread executes its next statement;
SIGINT arrives; a waiting thread wakes up although nobody has signalled. -/
inductive Act (n : ℕ) where
  | tryAdd (f : FileInformation)
  | endTraversal
  | manager (w : Option (Fin n))
  | worker (i : Fin n) (nread : ℕ)
  | main
  | sigint
  | spuriousManager
  | spuriousWorker (i : Fin n)

/-- SIGINT is blocked in its handler. -/
def move {n : ℕ} (s : State n) : Act n → Option (State n)
  | .tryAdd f => if s.manager = .scan then some { s with manager := .lock f } else none
  | .endTraversal => if s.manager = .scan then some { s with manager := .endLock } else none
  | .manager w => managerStep s w
  | .worker i nread => workerStep s i nread
  | .main => mainStep s
  | .sigint =>
    match s.main with
    | .joinManager | .joinWorker _ | .cleanup => some { s with main := .sigLock }
    | _ => none
  | .spuriousManager => some { s with manager := s.manager.wake }
  | .spuriousWorker i => if s.worker i = .waiting then some (s.setWorker i .woken) else none

/-- One step of the process, which ends all threads when it exits. -/
def step {n : ℕ} (s : State n) (a : Act n) : Option (State n) :=
  if s.main = .exited then none else move s a

def init (n size : ℕ) (junk : ℕ → FileInformation) : State n where
  buffer := initializeBuffer junk size
  mutex := none
  done := false
  numFilesCopied := 0
  totalBytesCopied := 0
  arrived := 0
  manager := .scan
  worker := fun _ => .lock
  main := .joinManager
  added := []
  taken := []
  copied := fun _ => []
  closed := fun _ => []

abbrev Reachable {n : ℕ} (size : ℕ) (junk : ℕ → FileInformation) (s : State n) : Prop :=
  Reach step always (init n size junk) s

end SystemProgramming.CopyBuffer
