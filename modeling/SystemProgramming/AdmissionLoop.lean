import Mathlib.Data.List.Perm.Basic
import SystemProgramming.WaitQueue

/-!
# The admission loop of the server

The main loop of the server accepts registrations, forks one child server for
each admitted client, queues the clients that have to wait, and reaps children
when `SIGCHILD` is set. The model keeps its statements apart, so that children
terminate between any two of them: a termination makes the child reapable and
sets the flag. The array of live pids is the C array with its two loops.
-/
namespace SystemProgramming.AdmissionLoop
open SystemProgramming.Transition SystemProgramming.WaitQueue

structure ProcessArray where
  size : ℕ
  capacity : ℤ
  pids : List ℕ
  deriving DecidableEq, Repr

/-- The pids in use, `pids[0..size)`. -/
def ProcessArray.live (plist : ProcessArray) : List ℕ := plist.pids.take plist.size

/-- Append a pid; refused with -1 when the array is full. -/
def addPidList (plist : ProcessArray) (pid : ℕ) : ProcessArray × ℤ :=
  if (plist.size : ℤ) = plist.capacity then (plist, -1)
  else ({ plist with pids := plist.pids.set plist.size pid, size := plist.size + 1 }, 0)

/-- The index of a pid among those in use. -/
def findPidList (plist : ProcessArray) (pid : ℕ) : Option ℕ :=
  plist.live.findIdx? (fun p => p == pid)

/-- The loop that moves `count` cells behind cell `i` down by one. -/
def shiftDown (pids : List ℕ) (i : ℕ) : ℕ → List ℕ
  | 0 => pids
  | count + 1 => shiftDown (pids.set i (pids.getD (i + 1) 0)) (i + 1) count

/-- Remove a pid, keeping the order of the others; -1 when it is not in use. -/
def removePidList (plist : ProcessArray) (pid : ℕ) : ProcessArray × ℤ :=
  match findPidList plist pid with
  | none => (plist, -1)
  | some target =>
    ({ plist with
        size := plist.size - 1
        pids := shiftDown plist.pids target (plist.size - 1 - target) }, 0)

lemma length_shiftDown (pids : List ℕ) (i count : ℕ) :
    (shiftDown pids i count).length = pids.length := by
  induction count generalizing pids i with
  | zero => rfl
  | succ count ih => simp [shiftDown, ih]

lemma getElem?_shiftDown (pids : List ℕ) (i count j : ℕ) (h : i + count < pids.length) :
    (shiftDown pids i count)[j]? = if i ≤ j ∧ j < i + count then pids[j + 1]? else pids[j]? := by
  induction count generalizing pids i with
  | zero =>
    rw [if_neg (by omega)]
    rfl
  | succ count ih =>
    rw [shiftDown, ih _ _ (by simp; omega)]
    simp only [List.getElem?_set]
    by_cases hij : i = j
    · subst hij
      rw [if_neg (by omega), if_pos rfl, if_pos (by omega), if_pos (by omega)]
      simp [List.getElem?_eq_getElem (show i + 1 < pids.length by omega)]
    · split_ifs <;> first | rfl | omega

/-- The pid array was allocated for `capacity` pids and holds no more. -/
structure ProcessArray.Wf (plist : ProcessArray) : Prop where
  length_eq : (plist.pids.length : ℤ) = plist.capacity
  size_le : plist.size ≤ plist.pids.length

lemma ProcessArray.Wf.length_live {plist : ProcessArray} (h : plist.Wf) :
    plist.live.length = plist.size := by
  simp [ProcessArray.live, h.size_le]

/-- With room left the pid is appended. -/
theorem addPidList_spec {plist : ProcessArray} (h : plist.Wf)
    (hroom : (plist.size : ℤ) < plist.capacity) (pid : ℕ) :
    (addPidList plist pid).2 = 0 ∧ (addPidList plist pid).1.Wf ∧
      (addPidList plist pid).1.live = plist.live ++ [pid] := by
  have hl := h.length_eq
  have hs := h.size_le
  unfold addPidList
  rw [if_neg (by omega)]
  refine ⟨rfl, ⟨by simpa using hl, by simp only [List.length_set]; omega⟩, ?_⟩
  unfold ProcessArray.live
  dsimp only
  rw [List.take_add_one, List.getElem?_set_self (by omega), List.take_set_of_le (Nat.le_refl _)]
  rfl

/-- A pid in use is removed. -/
theorem removePidList_spec {plist : ProcessArray} (h : plist.Wf) {pid : ℕ}
    (hmem : pid ∈ plist.live) :
    (removePidList plist pid).2 = 0 ∧ (removePidList plist pid).1.Wf ∧
      (removePidList plist pid).1.live = plist.live.erase pid := by
  have hl := h.length_eq
  have hs := h.size_le
  have hlive := h.length_live
  have hfind : findPidList plist pid = some (plist.live.idxOf pid) := by
    unfold findPidList List.idxOf
    exact List.findIdx?_eq_some_of_exists ⟨pid, hmem, by simp⟩
  have hlt := List.idxOf_lt_length_iff.mpr hmem
  have herase := List.erase_eq_eraseIdx_of_idxOf (l := plist.live) (a := pid) rfl
  generalize plist.live.idxOf pid = target at hfind hlt herase
  unfold removePidList
  rw [hfind, herase]
  refine ⟨rfl, ⟨by simpa [length_shiftDown] using hl, by simp only [length_shiftDown]; omega⟩, ?_⟩
  apply List.ext_getElem?
  intro j
  simp only [ProcessArray.live, List.getElem?_take, List.getElem?_eraseIdx]
  rw [getElem?_shiftDown _ _ _ _ (by omega)]
  split_ifs <;> first | rfl | omega

/-- A registration as the client writes it: `wait` is 1 for `connect` and 0 for
`tryConnect`. -/
structure ClientInfo where
  pid : ℕ
  wait : ℤ
  cwd : List Char
  deriving DecidableEq, Repr

/-- The next statement of the main loop. The two calls of `createChildProcess`
share their statements; the flag tells whether the client comes from the queue. The
`open` of a client's FIFO waits until the client opens the other end. -/
inductive Pc where
  | readFifo
  | openFifo (client : ClientInfo)
  | dispatch (client : ClientInfo)
  | refuse (client : ClientInfo)
  | fork (queued : Bool) (client : ClientInfo)
  | add (queued : Bool) (pid : ℕ)
  | testInt
  | testChild
  | clear
  | waitpid
  | remove (pid : ℕ)
  | testQueue
  | take
  | shutdown
  | exited
  deriving DecidableEq, Repr

/-- The server and its children: `running` and `zombies` are the forked and not
yet reaped children that have not, and have, terminated. -/
structure Server where
  pc : Pc
  processArray : ProcessArray
  processQueue : Queue ClientInfo
  running : List ℕ
  zombies : List ℕ
  sigchild : Bool
  sigintt : Bool
  clientId : ℕ

def Server.children (s : Server) : List ℕ := s.running ++ s.zombies

/-- The turn told to a client: zero means that it is served at once. -/
def clientTurn (s : Server) : ℤ :=
  if (s.processArray.size : ℤ) < s.processArray.capacity ∧ s.processQueue.size = 0 then 0
  else s.processArray.capacity + s.processQueue.size

/-- The statements whose outcome the environment does not choose, the
allocations apart. An unchecked allocation that fails ends the server. -/
def Server.run (s : Server) (m : Mallocs ClientInfo) : Option Server :=
  match s.pc with
  | .dispatch client =>
    some { s with pc :=
      if clientTurn s = 0 then (if m.item then .fork false client else .exited)
      else .refuse client }
  | .refuse client =>
    if client.wait = 0 then some { s with pc := .testInt }
    else (enqueue s.processQueue client m).map fun r =>
      { s with processQueue := r.1, pc := .testInt }
  | .add queued pid =>
    some { s with
      processArray := (addPidList s.processArray pid).1
      clientId := s.clientId + 1
      pc := if queued then .readFifo else .testInt }
  | .testInt => some { s with pc := if s.sigintt then .shutdown else .testChild }
  | .testChild => some { s with pc := if s.sigchild then .clear else .readFifo }
  | .clear => some { s with sigchild := false, pc := .waitpid }
  | .remove pid =>
    some { s with processArray := (removePidList s.processArray pid).1, pc := .waitpid }
  | .testQueue => some { s with pc := if 0 < s.processQueue.size then .take else .readFifo }
  | .take =>
    some { s with
      processQueue := (dequeue s.processQueue).1
      pc := match (dequeue s.processQueue).2 with
        | none => .exited
        | some client => .fork true client }
  | _ => none

/-- What the environment contributes: registrations read from the FIFO (or a
short read, or none), the client that opens its FIFO, the pid of a fork, the child
`waitpid` reports, children that terminate, SIGINT, and calls whose failure ends the
server. -/
inductive Act where
  | register (client : ClientInfo)
  | discard
  | noRegistration
  | clientOpens
  | run (m : Mallocs ClientInfo)
  | fork (pid : ℕ)
  | reap (pid : ℕ)
  | reapNone
  | terminate (pid : ℕ)
  | sigint
  | fail

/-- Calls of the loop that end the server with `err_exit`. -/
def Pc.mayFail : Pc → Bool
  | .openFifo _ | .dispatch _ | .fork _ _ => true
  | _ => false

def step (s : Server) : Act → Option Server
  | .register client => if s.pc = .readFifo then some { s with pc := .openFifo client } else none
  | .discard => if s.pc = .readFifo then some s else none
  | .noRegistration => if s.pc = .readFifo then some { s with pc := .testInt } else none
  | .clientOpens =>
    match s.pc with
    | .openFifo client => some { s with pc := .dispatch client }
    | _ => none
  | .run m => s.run m
  | .fork pid =>
    match s.pc with
    | .fork queued _ =>
      if pid ∈ s.children then none
      else some { s with running := pid :: s.running, pc := .add queued pid }
    | _ => none
  | .reap pid =>
    if pid ∈ s.zombies then
      match s.pc with
      | .waitpid => some { s with zombies := s.zombies.erase pid, pc := .remove pid }
      | .shutdown => some { s with zombies := s.zombies.erase pid }
      | _ => none
    else none
  | .reapNone => if s.pc = .waitpid ∧ s.zombies = [] then some { s with pc := .testQueue } else none
  | .terminate pid =>
    if pid ∈ s.running then
      some { s with
        running := s.running.erase pid
        zombies := pid :: s.zombies
        sigchild := true }
    else none
  | .sigint => some { s with sigintt := true }
  | .fail => if s.pc.mayFail then some { s with pc := .exited } else none

/-- `main` before its first iteration; the pid array holds what its memory held. -/
def init (maxClient : ℤ) (junk : ℕ → ℕ) : Server where
  pc := .readFifo
  processArray := ⟨0, maxClient, (List.range maxClient.toNat).map junk⟩
  processQueue := emptyQueue
  running := []
  zombies := []
  sigchild := false
  sigintt := false
  clientId := 0

abbrev Reachable (maxClient : ℤ) (junk : ℕ → ℕ) (s : Server) : Prop :=
  Reach step always (init maxClient junk) s

/-- The child forked and not yet added to the array. -/
def Pc.adding : Pc → List ℕ
  | .add _ pid => [pid]
  | _ => []

/-- The child reaped and not yet removed from the array. -/
def Pc.removing : Pc → List ℕ
  | .remove pid => [pid]
  | _ => []

/-- Room for children at each statement, for `n` unreaped children of which `z`
have terminated, and `q` waiting clients. A flag that is set while no child is
to be reaped is stale: it was raised by a child already reaped, whose slot is
still free. -/
def Room (capacity : ℤ) (n z q : ℕ) (sigchild : Bool) : Pc → Prop
  | .readFifo | .openFifo _ | .dispatch _ =>
    n ≤ capacity ∧ (sigchild = true → z = 0 → n < capacity) ∧ (q ≠ 0 → n ≠ 0)
  | .refuse _ =>
    n ≤ capacity ∧ (sigchild = true → z = 0 → n < capacity) ∧ n ≠ 0
  | .fork false _ => n < capacity ∧ q = 0
  | .add false _ => n ≤ capacity ∧ q = 0
  | .testInt | .testChild =>
    n ≤ capacity ∧ (sigchild = true → z = 0 → q ≠ 0 → n < capacity) ∧ (q ≠ 0 → n ≠ 0)
  | .clear =>
    n ≤ capacity ∧ sigchild = true ∧ (z = 0 → q ≠ 0 → n < capacity)
  | .waitpid | .remove _ =>
    n ≤ capacity ∧ (sigchild = true → n < capacity + z) ∧
      (q ≠ 0 → n < capacity + z ∧ (sigchild = true → n + 1 < capacity + z))
  | .testQueue =>
    n ≤ capacity ∧ (sigchild = true → z = 0 → n < capacity) ∧
      (q ≠ 0 → n < capacity ∧ (sigchild = true → z = 0 → n + 1 < capacity))
  | .take => n < capacity ∧ (sigchild = true → z = 0 → n + 1 < capacity)
  | .fork true _ => n < capacity ∧ (sigchild = true → z = 0 → n + 1 < capacity)
  | .add true _ => n ≤ capacity ∧ n ≠ 0 ∧ (sigchild = true → z = 0 → n < capacity)
  | .shutdown | .exited => n ≤ capacity

/-- The reaping loop is running: only there a terminated child may be left while
the flag is clear. -/
def Pc.reaping : Pc → Bool
  | .waitpid | .remove _ => true
  | _ => false

structure Inv (maxClient : ℤ) (s : Server) : Prop where
  capacity_eq : s.processArray.capacity = maxClient
  array : s.processArray.Wf
  queue : WaitQueue.Wf s.processQueue
  nodup : s.children.Nodup
  listed : s.pc ≠ .shutdown →
    (s.pc.adding ++ s.processArray.live).Perm (s.pc.removing ++ s.children)
  signal : s.pc.reaping = false → s.zombies ≠ [] → s.sigchild = true
  room : Room maxClient s.children.length s.zombies.length s.processQueue.size s.sigchild s.pc

theorem inv_init {maxClient : ℤ} (hmax : 1 ≤ maxClient) (junk : ℕ → ℕ) :
    Inv maxClient (init maxClient junk) where
  capacity_eq := rfl
  array := ⟨by simp [init]; omega, by simp [init]⟩
  queue := wf_empty
  nodup := by simp [init, Server.children]
  listed := by simp [init, Pc.adding, Pc.removing, ProcessArray.live, Server.children]
  signal := by simp [init]
  room := by
    simp [init, Room, emptyQueue, Server.children]
    omega

lemma terminate_perm {running zombies : List ℕ} {pid : ℕ} (h : pid ∈ running) :
    (running.erase pid ++ pid :: zombies).Perm (running ++ zombies) :=
  List.perm_middle.trans ((List.perm_cons_erase h).symm.append_right zombies)

lemma reap_perm {running zombies : List ℕ} {pid : ℕ} (h : pid ∈ zombies) :
    (pid :: (running ++ zombies.erase pid)).Perm (running ++ zombies) :=
  List.perm_middle.symm.trans ((List.perm_cons_erase h).symm.append_left running)

/-- A child terminates at any statement: it becomes reapable and sets the flag. -/
lemma Inv.terminate {maxClient : ℤ} {s : Server} (h : Inv maxClient s) {pid : ℕ}
    (hp : pid ∈ s.running) :
    Inv maxClient { s with
      running := s.running.erase pid, zombies := pid :: s.zombies, sigchild := true } := by
  have hperm : (s.running.erase pid ++ pid :: s.zombies).Perm (s.running ++ s.zombies) :=
    terminate_perm hp
  have hlen := hperm.length_eq
  have hroom := h.room
  refine ⟨h.capacity_eq, h.array, h.queue, hperm.nodup_iff.mpr h.nodup,
    fun hpc => (h.listed hpc).trans (hperm.symm.append_left _), fun _ _ => rfl, ?_⟩
  unfold Server.children at hroom ⊢
  rw [hlen]
  dsimp only
  generalize (s.running ++ s.zombies).length = n at hroom
  cases hpc : s.pc with
  | fork queued _ | add queued _ =>
    cases queued <;> simp only [hpc, Room, List.length_cons] at hroom ⊢ <;> grind
  | _ =>
    simp only [hpc, Room, List.length_cons] at hroom ⊢
    grind

/-- `waitpid` or `wait` reports a terminated child. -/
lemma Inv.reap {maxClient : ℤ} {s t : Server} (h : Inv maxClient s) {pid : ℕ}
    (hst : step s (.reap pid) = some t) : Inv maxClient t := by
  simp only [step] at hst
  split at hst
  · rename_i hp
    have hperm : (pid :: (s.running ++ s.zombies.erase pid)).Perm (s.running ++ s.zombies) :=
      reap_perm hp
    have hlen := hperm.length_eq
    have hz := List.length_erase_of_mem hp
    have hpos := List.length_pos_of_mem hp
    have hnd := (List.nodup_cons.mp (hperm.nodup_iff.mpr h.nodup)).2
    have hroom := h.room
    rw [List.length_cons] at hlen
    split at hst
    · rename_i hpc
      cases hst
      have hlisted := h.listed (by simp [hpc])
      simp only [hpc, Pc.adding, Pc.removing, List.nil_append] at hlisted
      refine ⟨h.capacity_eq, h.array, h.queue, hnd, fun _ => hlisted.trans hperm.symm,
        by simp [Pc.reaping], ?_⟩
      simp only [hpc, Room, Server.children] at hroom ⊢
      grind
    · rename_i hpc
      cases hst
      refine ⟨h.capacity_eq, h.array, h.queue, hnd, fun hne => absurd hpc hne, ?_, ?_⟩
      · intro _ hne
        apply h.signal (by simp [hpc, Pc.reaping])
        rintro he
        simp [he] at hp
      · simp only [hpc, Room, Server.children] at hroom ⊢
        omega
    · cases hst
  · cases hst

/-- A fork from either branch of the loop. -/
lemma Inv.fork {maxClient : ℤ} {s t : Server} (h : Inv maxClient s) {pid : ℕ}
    (hst : step s (.fork pid) = some t) : Inv maxClient t := by
  simp only [step] at hst
  split at hst
  · rename_i queued client hpc
    split at hst
    · cases hst
    · rename_i hnew
      cases hst
      have hlisted := h.listed (by simp [hpc])
      have hroom := h.room
      simp only [hpc, Pc.adding, Pc.removing, List.nil_append] at hlisted
      refine ⟨h.capacity_eq, h.array, h.queue, List.nodup_cons.mpr ⟨hnew, h.nodup⟩,
        fun _ => hlisted.cons pid, fun _ => h.signal (by simp [hpc, Pc.reaping]), ?_⟩
      cases queued <;>
        simp only [hpc, Room, Server.children, List.cons_append, List.length_cons] at hroom ⊢ <;>
        grind
  · cases hst

/-- The array holds as many pids as there are unreaped children, at the statements
where none is being added or removed. -/
lemma Inv.size_eq {maxClient : ℤ} {s : Server} (h : Inv maxClient s)
    (hpc : s.pc ≠ .shutdown) (ha : s.pc.adding = []) (hr : s.pc.removing = []) :
    s.processArray.size = s.children.length := by
  have hlen := (h.listed hpc).length_eq
  rwa [ha, hr, List.nil_append, List.nil_append, h.array.length_live] at hlen

/-- `add_pid_list` finds room for the child just forked. -/
lemma Inv.add_spec {maxClient : ℤ} {s : Server} (h : Inv maxClient s) {queued : Bool} {pid : ℕ}
    (hpc : s.pc = .add queued pid) :
    (addPidList s.processArray pid).2 = 0 ∧ (addPidList s.processArray pid).1.Wf ∧
      (addPidList s.processArray pid).1.live.Perm s.children := by
  have hlisted := h.listed (by simp [hpc])
  simp only [hpc, Pc.adding, Pc.removing, List.nil_append, List.singleton_append] at hlisted
  have hlen := hlisted.length_eq
  rw [List.length_cons, h.array.length_live] at hlen
  have hn : (s.children.length : ℤ) ≤ maxClient := by
    have hroom := h.room
    rw [hpc] at hroom
    cases queued <;> exact hroom.1
  obtain ⟨hret, hwf, hlive⟩ := addPidList_spec h.array
    (by rw [h.capacity_eq]; omega) pid
  exact ⟨hret, hwf, hlive ▸ (List.perm_append_singleton pid _).trans hlisted⟩

/-- `remove_pid_list` finds the child just reaped. -/
lemma Inv.remove_spec {maxClient : ℤ} {s : Server} (h : Inv maxClient s) {pid : ℕ}
    (hpc : s.pc = .remove pid) :
    (removePidList s.processArray pid).2 = 0 ∧ (removePidList s.processArray pid).1.Wf ∧
      (removePidList s.processArray pid).1.live.Perm s.children := by
  have hlisted := h.listed (by simp [hpc])
  simp only [hpc, Pc.adding, Pc.removing, List.nil_append, List.singleton_append] at hlisted
  obtain ⟨hret, hwf, hlive⟩ := removePidList_spec h.array
    (hlisted.mem_iff.mpr List.mem_cons_self)
  refine ⟨hret, hwf, ?_⟩
  rw [hlive]
  simpa using hlisted.erase pid

/-- A statement that leaves the children, the array and the queue alone keeps the
invariant when the bookkeeping of the new statement agrees. -/
lemma Inv.goto {maxClient : ℤ} {s : Server} (h : Inv maxClient s) {pc : Pc}
    (hs : s.pc ≠ .shutdown) (ha : pc.adding = s.pc.adding) (hr : pc.removing = s.pc.removing)
    (hsig : s.pc.reaping = true → pc.reaping = true ∨ s.zombies = [])
    (hroom : Room maxClient s.children.length s.zombies.length s.processQueue.size s.sigchild pc) :
    Inv maxClient { s with pc := pc } := by
  refine ⟨h.capacity_eq, h.array, h.queue, h.nodup, fun _ => ?_, ?_, hroom⟩
  · have hlisted := h.listed hs
    rwa [← ha, ← hr] at hlisted
  · intro hp hz
    cases hre : s.pc.reaping with
    | false => exact h.signal hre hz
    | true => rcases hsig hre with hp' | hz' <;> simp_all

lemma Inv.run {maxClient : ℤ} (hmax : 1 ≤ maxClient) {s t : Server} (h : Inv maxClient s)
    {m : Mallocs ClientInfo} (hst : s.run m = some t) : Inv maxClient t := by
  have hroom := h.room
  unfold Server.run at hst
  cases hpc : s.pc with
  | dispatch client =>
    simp only [hpc] at hst hroom
    cases hst
    have hsize := h.size_eq (by simp [hpc]) (by simp [hpc, Pc.adding]) (by simp [hpc, Pc.removing])
    have hcap := h.capacity_eq
    split_ifs with hturn hmem
    · refine h.goto ?_ ?_ ?_ ?_ ?_
      all_goals simp only [hpc, Pc.adding, Pc.removing, Pc.reaping, Room, clientTurn] at *
      all_goals grind
    · refine h.goto ?_ ?_ ?_ ?_ ?_
      all_goals simp only [hpc, Pc.adding, Pc.removing, Pc.reaping, Room] at *
      all_goals grind
    · refine h.goto ?_ ?_ ?_ ?_ ?_
      all_goals simp only [hpc, Pc.adding, Pc.removing, Pc.reaping, Room, clientTurn] at *
      all_goals grind
  | refuse client =>
    simp only [hpc] at hst hroom
    split_ifs at hst with hwait
    · cases hst
      refine h.goto ?_ ?_ ?_ ?_ ?_
      all_goals simp only [hpc, Pc.adding, Pc.removing, Pc.reaping, Room] at *
      all_goals grind
    · obtain ⟨r, hr, hwf⟩ := h.queue.enqueue client m
      rw [hr] at hst
      cases hst
      have hlisted := h.listed (by simp [hpc])
      simp only [hpc, Pc.adding, Pc.removing] at hlisted
      refine ⟨h.capacity_eq, h.array, hwf, h.nodup, fun _ => hlisted,
        fun _ => h.signal (by simp [hpc, Pc.reaping]), ?_⟩
      simp only [Room, Server.children] at hroom ⊢
      grind
  | add queued pid =>
    simp only [hpc] at hst hroom
    cases hst
    obtain ⟨-, hwf, hlive⟩ := h.add_spec hpc
    refine ⟨?_, hwf, h.queue, h.nodup, fun _ => ?_, fun _ => h.signal (by simp [hpc, Pc.reaping]),
      ?_⟩
    · rw [← h.capacity_eq]
      unfold addPidList
      split_ifs <;> rfl
    · cases queued <;> exact hlive
    · cases queued <;> simp only [Room, Server.children] at hroom ⊢ <;> grind
  | testInt | testChild | testQueue =>
    simp only [hpc] at hst hroom
    cases hst
    split_ifs
    all_goals
      refine h.goto ?_ ?_ ?_ ?_ ?_
    all_goals simp only [hpc, Pc.adding, Pc.removing, Pc.reaping, Room] at *
    all_goals grind
  | clear =>
    simp only [hpc] at hst hroom
    cases hst
    have hlisted := h.listed (by simp [hpc])
    simp only [hpc, Pc.adding, Pc.removing] at hlisted
    refine ⟨h.capacity_eq, h.array, h.queue, h.nodup, fun _ => hlisted, by simp [Pc.reaping], ?_⟩
    simp only [Room, Server.children] at hroom ⊢
    grind
  | remove pid =>
    simp only [hpc] at hst hroom
    cases hst
    obtain ⟨-, hwf, hlive⟩ := h.remove_spec hpc
    refine ⟨?_, hwf, h.queue, h.nodup, fun _ => hlive,
      by simp [Pc.reaping], hroom⟩
    rw [← h.capacity_eq]
    unfold removePidList
    split <;> rfl
  | take =>
    simp only [hpc] at hst hroom
    cases hst
    have hlisted := h.listed (by simp [hpc])
    have hsignal := h.signal (by simp [hpc, Pc.reaping])
    simp only [hpc, Pc.adding, Pc.removing] at hlisted
    refine ⟨h.capacity_eq, h.array, h.queue.dequeue, h.nodup, fun _ => ?_, fun _ => hsignal, ?_⟩
    · cases (dequeue s.processQueue).2 <;> exact hlisted
    · cases (dequeue s.processQueue).2 <;> simp only [Room, Server.children] at hroom ⊢ <;> grind
  | readFifo | openFifo _ | fork _ _ | waitpid | shutdown | exited => simp [hpc] at hst

theorem Inv.step {maxClient : ℤ} (hmax : 1 ≤ maxClient) {s t : Server} (h : Inv maxClient s)
    {a : Act} (hst : step s a = some t) : Inv maxClient t := by
  have hroom := h.room
  cases a with
  | run m => exact h.run hmax hst
  | fork pid => exact h.fork hst
  | reap pid => exact h.reap hst
  | terminate pid =>
    simp only [AdmissionLoop.step] at hst
    split at hst
    · cases hst
      exact h.terminate ‹_›
    · cases hst
  | sigint =>
    cases hst
    exact ⟨h.capacity_eq, h.array, h.queue, h.nodup, h.listed, h.signal, h.room⟩
  | discard =>
    simp only [AdmissionLoop.step] at hst
    split at hst <;> cases hst
    exact h
  | register client | noRegistration =>
    simp only [AdmissionLoop.step] at hst
    split at hst
    · rename_i hpc
      cases hst
      refine h.goto ?_ ?_ ?_ ?_ ?_
      all_goals simp only [hpc, Pc.adding, Pc.removing, Pc.reaping, Room] at *
      all_goals grind
    · cases hst
  | clientOpens =>
    simp only [AdmissionLoop.step] at hst
    split at hst
    · rename_i client hpc
      cases hst
      refine h.goto ?_ ?_ ?_ ?_ ?_
      all_goals simp only [hpc, Pc.adding, Pc.removing, Pc.reaping, Room] at *
      all_goals grind
    · cases hst
  | reapNone =>
    simp only [AdmissionLoop.step] at hst
    split at hst
    · rename_i hcond
      obtain ⟨hpc, hz⟩ := hcond
      cases hst
      refine h.goto ?_ ?_ ?_ ?_ ?_
      all_goals simp only [hpc, hz, Pc.adding, Pc.removing, Pc.reaping, Room] at *
      all_goals grind
    · cases hst
  | fail =>
    simp only [AdmissionLoop.step] at hst
    split at hst
    · rename_i hfail
      cases hst
      cases hpc : s.pc with
      | openFifo _ | dispatch _ =>
        refine h.goto ?_ ?_ ?_ ?_ ?_
        all_goals simp only [hpc, Pc.adding, Pc.removing, Pc.reaping, Room] at *
        all_goals grind
      | fork queued _ =>
        cases queued
        all_goals refine h.goto ?_ ?_ ?_ ?_ ?_
        all_goals simp only [hpc, Pc.adding, Pc.removing, Pc.reaping, Room] at *
        all_goals grind
      | _ => simp [hpc, Pc.mayFail] at hfail
    · cases hst

theorem reachable_inv {maxClient : ℤ} (hmax : 1 ≤ maxClient) {junk : ℕ → ℕ} {s : Server}
    (hr : Reachable maxClient junk s) : Inv maxClient s :=
  Reach.invariant hr (inv_init hmax junk) fun _ _ _ h _ hst => h.step hmax hst

lemma room_children_le {capacity : ℤ} {n z q : ℕ} {sigchild : Bool} {pc : Pc}
    (h : Room capacity n z q sigchild pc) : n ≤ capacity := by
  cases pc with
  | fork queued _ | add queued _ => cases queued <;> simp only [Room] at h <;> omega
  | _ =>
    simp only [Room] at h
    omega

/-- Admission never oversubscribes: there are never more than `maxClient` forked
and unreaped children; the array lists exactly these, each once, except between
`fork` and `add_pid_list`, between `waitpid` and `remove_pid_list`, and once the
server shuts down; adding and removing a pid never fails. -/
theorem admission_bounded {maxClient : ℤ} (hmax : 1 ≤ maxClient) {junk : ℕ → ℕ} {s : Server}
    (hr : Reachable maxClient junk s) :
    s.children.length ≤ maxClient ∧
      (s.pc ≠ .shutdown → s.pc.adding = [] → s.pc.removing = [] →
        s.processArray.live.Nodup ∧ ∀ pid, pid ∈ s.processArray.live ↔ pid ∈ s.children) ∧
      (∀ queued pid, s.pc = .add queued pid → (addPidList s.processArray pid).2 = 0) ∧
      (∀ pid, s.pc = .remove pid → (removePidList s.processArray pid).2 = 0) := by
  have h := reachable_inv hmax hr
  refine ⟨room_children_le h.room, ?_, fun _ _ hpc => (h.add_spec hpc).1,
    fun _ hpc => (h.remove_spec hpc).1⟩
  intro hpc ha hrm
  have hlisted := h.listed hpc
  rw [ha, hrm, List.nil_append, List.nil_append] at hlisted
  exact ⟨hlisted.nodup_iff.mpr h.nodup, fun _ => hlisted.mem_iff⟩

/-- Two clients are served at once and a third waits; both children terminate in
one round, the second while the first is being reaped, and the flag is left stale
when the third client is served. -/
theorem admission_bounded_stale_flag : ∃ s : Server, s.sigchild = true ∧ s.zombies = [] ∧
    s.children = [13] ∧ (s.children.length : ℤ) ≤ 2 ∧ s.processArray.live.Nodup := by
  have hr : Reachable 2 (fun _ => 0) _ := reach_of_run
    [.register ⟨7, 1, []⟩, .clientOpens, .run ⟨none, true⟩, .fork 11, .run ⟨none, true⟩,
      .run ⟨none, true⟩, .run ⟨none, true⟩, .register ⟨8, 1, []⟩, .clientOpens, .run ⟨none, true⟩,
      .fork 12, .run ⟨none, true⟩, .run ⟨none, true⟩, .run ⟨none, true⟩, .register ⟨9, 1, []⟩,
      .clientOpens, .run ⟨none, true⟩, .run ⟨some fun _ => none, true⟩, .terminate 11,
      .run ⟨none, true⟩, .run ⟨none, true⟩, .run ⟨none, true⟩, .reap 11, .terminate 12,
      .run ⟨none, true⟩, .reap 12, .run ⟨none, true⟩, .reapNone, .run ⟨none, true⟩,
      .run ⟨none, true⟩, .fork 13, .run ⟨none, true⟩] rfl
  have h := admission_bounded (by decide) hr
  exact ⟨_, rfl, rfl, rfl, h.1, (h.2.1 (by decide) rfl rfl).1⟩

/-- No lost wake-up: at the top of the loop an unreaped terminated child means
that the flag is set, and a waiting client that some child is left to exit. -/
theorem no_lost_wakeup {maxClient : ℤ} (hmax : 1 ≤ maxClient) {junk : ℕ → ℕ} {s : Server}
    (hr : Reachable maxClient junk s) (htop : s.pc = .readFifo) :
    (s.zombies ≠ [] → s.sigchild = true) ∧ (s.processQueue.size ≠ 0 → s.children ≠ []) := by
  have h := reachable_inv hmax hr
  have hroom := h.room
  simp only [htop, Room] at hroom
  refine ⟨h.signal (by simp [htop, Pc.reaping]), fun hq hnil => ?_⟩
  exact hroom.2.2 hq (by simp [hnil])

/-- A second client waits while the only child is still running. -/
theorem no_lost_wakeup_waiting_client : ∃ s : Server, s.processQueue.size = 1 ∧
    s.zombies = [11] ∧ s.sigchild = true ∧ s.children ≠ [] := by
  have hr : Reachable 1 (fun _ => 0) _ := reach_of_run
    [.register ⟨7, 1, []⟩, .clientOpens, .run ⟨none, true⟩, .fork 11, .run ⟨none, true⟩,
      .run ⟨none, true⟩, .run ⟨none, true⟩, .register ⟨8, 1, []⟩, .clientOpens, .run ⟨none, true⟩,
      .run ⟨some fun _ => none, true⟩, .run ⟨none, true⟩, .run ⟨none, true⟩, .terminate 11] rfl
  have h := no_lost_wakeup (by decide) hr rfl
  exact ⟨_, rfl, rfl, h.1 (by decide), h.2 (by decide)⟩

end SystemProgramming.AdmissionLoop
