import SystemProgramming.CopyBuffer

/-!
# Every file of the copy buffer is copied once

The invariant says who owns the mutex, that the buffer is a ring that holds the
files added and not yet taken, that nobody adds once `done` is up and a worker
has left, and how far every worker has got with the files it has taken.
-/
namespace SystemProgramming.CopyBuffer
open SystemProgramming.Transition SystemProgramming.RingBuffer SystemProgramming.Monitor

/-- Between the return of a lock call or a wait and the next unlock or wait. -/
def ManagerPc.inside : ManagerPc → Bool
  | .test _ | .add _ | .signal | .unlock | .dropUnlock _ | .endDone | .endBroadcast
  | .endUnlock => true
  | _ => false

def WorkerPc.inside : WorkerPc → Bool
  | .test | .leaveUnlock | .get | .signal _ | .unlock _ | .bytesAdd _ _ | .bytesUnlock _ | .count
  | .countUnlock => true
  | _ => false

def MainPc.inside : MainPc → Bool
  | .sigDone | .sigBroadcast | .sigUnlock => true
  | _ => false

def State.inside {n : ℕ} (s : State n) : Thread n → Bool
  | .manager => s.manager.inside
  | .worker i => (s.worker i).inside
  | .main => s.main.inside

/-- The worker has seen that the buffer is empty and `done` is up. -/
def WorkerPc.left : WorkerPc → Bool
  | .leaveUnlock | .arrive | .barrier | .finished => true
  | _ => false

/-- The file a worker has taken and not yet copied. -/
def WorkerPc.uncopied : WorkerPc → List FileInformation
  | .signal f | .unlock f | .copy f | .bytesLock f _ | .bytesAdd f _ | .bytesUnlock f => [f]
  | _ => []

/-- The file a worker has taken and not yet closed. -/
def WorkerPc.unclosed : WorkerPc → List FileInformation
  | .closeSrc f | .closeDst f => [f]
  | pc => pc.uncopied

/-- The worker has taken a file and not yet counted it. -/
def WorkerPc.uncounted : WorkerPc → Bool
  | .countLock | .count => true
  | pc => !pc.unclosed.isEmpty

/-- What a worker has still to do for the file it has taken. -/
def WorkerPc.leftover (pc : WorkerPc) : List FileInformation × List FileInformation × Bool :=
  (pc.uncopied, pc.unclosed, pc.uncounted)

/-- The files in the buffer, oldest first. -/
def Buffer.files (b : Buffer) : List FileInformation := window b.data b.size b.head b.count.toNat

structure Buffer.Wf (b : Buffer) : Prop where
  head_lt : b.head < b.size
  count_nonneg : 0 ≤ b.count
  count_le : b.count ≤ b.size
  tail_eq : (b.tail : ℤ) = (b.head + b.count) % b.size

lemma Buffer.Wf.tail_eq_nat {b : Buffer} (h : b.Wf) :
    b.tail = (b.head + b.count.toNat) % b.size := by
  have htail := h.tail_eq
  rw [← Int.toNat_of_nonneg h.count_nonneg] at htail
  exact_mod_cast htail

/-- `buffer_add` on a buffer that is not full appends the file. -/
lemma Buffer.Wf.add {b : Buffer} (h : b.Wf) (hroom : b.count ≠ b.size) (f : FileInformation) :
    (b.add f).Wf ∧ (b.add f).files = b.files ++ [f] := by
  have hle := h.count_le
  have hnn := h.count_nonneg
  have hnat : (b.count + 1).toNat = b.count.toNat + 1 := by omega
  constructor
  · refine ⟨h.head_lt, by simp only [Buffer.add]; omega, by simp only [Buffer.add]; omega, ?_⟩
    have hrear : (b.tail + 1) % b.size = (b.head + (b.count.toNat + 1)) % b.size := by
      rw [h.tail_eq_nat, rear_push]
    simp only [Buffer.add, hrear]
    push_cast
    rw [Int.toNat_of_nonneg hnn]
  · have hpush : window (b.add f).data b.size b.head (b.count.toNat + 1) =
        window b.data b.size b.head b.count.toNat ++
          [(b.add f).data ((b.head + b.count.toNat) % b.size)] := by
      apply window_push (by omega)
      intro i hi
      rw [← h.tail_eq_nat] at hi
      exact Function.update_of_ne hi ..
    have hcell : (b.add f).data b.tail = f := Function.update_self ..
    rw [← h.tail_eq_nat, hcell] at hpush
    simpa only [Buffer.files, Buffer.add, hnat] using hpush

/-- `buffer_get` on a buffer that is not empty removes the oldest file. -/
lemma Buffer.Wf.get {b : Buffer} (h : b.Wf) (hne : b.count ≠ 0) :
    b.get.2.Wf ∧ b.files = b.get.1 :: b.get.2.files := by
  have hle := h.count_le
  have hnn := h.count_nonneg
  have hhead := h.head_lt
  have hnat : b.count.toNat = (b.count - 1).toNat + 1 := by omega
  constructor
  · refine ⟨Nat.mod_lt _ (by omega), by simp only [Buffer.get]; omega,
      by simp only [Buffer.get]; omega, ?_⟩
    simp only [Buffer.get, h.tail_eq]
    push_cast
    rw [Int.emod_add_emod]
    congr 1
    omega
  · rw [Buffer.files, hnat]
    exact window_pop b.data _ h.head_lt

lemma wf_initializeBuffer {size : ℕ} (hsize : 0 < size) (junk : ℕ → FileInformation) :
    (initializeBuffer junk size).Wf := by
  refine ⟨hsize, le_rfl, ?_, ?_⟩ <;> simp [initializeBuffer]

/-- What worker `i` has got from `buffer_get`, in order. -/
def State.takenBy {n : ℕ} (s : State n) (i : Fin n) : List FileInformation :=
  (s.taken.filter fun r => r.1 = i).map Prod.snd

structure Inv {n : ℕ} (s : State n) : Prop where
  owns : Owns s.mutex s.inside
  wf : s.buffer.Wf
  sequence : s.added = s.taken.map Prod.snd ++ s.buffer.files
  adding : ∀ f, s.manager = .add f → s.done = false ∧ s.buffer.count ≠ s.buffer.size
  getting : ∀ i, s.worker i = .get → s.buffer.count ≠ 0
  left : ∀ i, (s.worker i).left = true → s.done = true ∧ s.buffer.count = 0
  copied : ∀ i, s.takenBy i = s.copied i ++ (s.worker i).uncopied
  closed : ∀ i, s.takenBy i = s.closed i ++ (s.worker i).unclosed
  counted : s.numFilesCopied + census WorkerPc.uncounted s.worker = s.taken.length

theorem inv_init (n : ℕ) {size : ℕ} (hsize : 0 < size) (junk : ℕ → FileInformation) :
    Inv (init n size junk) where
  owns := owns_none.mpr fun t => by cases t <;> rfl
  wf := wf_initializeBuffer hsize junk
  sequence := by simp [init, Buffer.files, initializeBuffer]
  adding := fun f hf => by cases hf
  getting := fun i hi => by cases hi
  left := by simp [init, WorkerPc.left]
  copied := fun i => rfl
  closed := fun i => rfl
  counted := by
    have hzero : census WorkerPc.uncounted (init n size junk).worker = 0 :=
      census_eq_zero fun i => rfl
    rw [hzero]
    rfl

/-- The manager moves without touching the buffer. -/
lemma Inv.moveManager {n : ℕ} {s : State n} (h : Inv s) {p : ManagerPc}
    (hp : s.manager = p) (q : ManagerPc) (m : Option (Thread n)) (arrived : ℕ)
    (hm : Handover .manager p.inside q.inside s.mutex m)
    (hadd : ∀ f, q = .add f → s.done = false ∧ s.buffer.count ≠ s.buffer.size) :
    Inv { s with mutex := m, manager := q, arrived := arrived } := by
  subst hp
  refine ⟨h.owns.move .manager ?_ hm, h.wf, h.sequence, hadd, h.getting, h.left, h.copied,
    h.closed, h.counted⟩
  intro t ht
  cases t with
  | manager => exact absurd rfl ht
  | _ => rfl

/-- The main thread moves without raising the flag. -/
lemma Inv.moveMain {n : ℕ} {s : State n} (h : Inv s) {p : MainPc} (hp : s.main = p)
    (q : MainPc) (m : Option (Thread n)) (hm : Handover .main p.inside q.inside s.mutex m) :
    Inv { s with mutex := m, main := q } := by
  subst hp
  refine ⟨h.owns.move .main ?_ hm, h.wf, h.sequence, h.adding, h.getting, h.left, h.copied,
    h.closed, h.counted⟩
  intro t ht
  cases t with
  | main => exact absurd rfl ht
  | _ => rfl

/-- Raising the flag is harmless while nobody is about to add. -/
lemma Inv.raise {n : ℕ} {s : State n} (h : Inv s) (hadd : ∀ f, s.manager ≠ .add f) :
    Inv { s with done := true } :=
  ⟨h.owns, h.wf, h.sequence, fun f hf => absurd hf (hadd f), h.getting,
    fun i hi => ⟨rfl, (h.left i hi).2⟩, h.copied, h.closed, h.counted⟩

/-- A worker moves without touching the buffer. What it adds to its record of
copied and closed files and to the counter is what it has no longer to do. -/
lemma Inv.progress {n : ℕ} {s : State n} (h : Inv s) {i : Fin n} {p : WorkerPc}
    (hp : s.worker i = p) (q : WorkerPc) (m : Option (Thread n)) (c d : List FileInformation)
    (k total arrived : ℕ) (hm : Handover (.worker i) p.inside q.inside s.mutex m)
    (hget : q = .get → s.buffer.count ≠ 0)
    (hleft : q.left = true → s.done = true ∧ s.buffer.count = 0)
    (hcopied : c ++ q.uncopied = s.copied i ++ p.uncopied)
    (hclosed : d ++ q.unclosed = s.closed i ++ p.unclosed)
    (hcounted : k + q.uncounted.toNat = s.numFilesCopied + p.uncounted.toNat) :
    Inv { s with
      mutex := m, worker := Function.update s.worker i q
      copied := Function.update s.copied i c, closed := Function.update s.closed i d
      numFilesCopied := k, totalBytesCopied := total, arrived := arrived } := by
  subst hp
  have hcensus := census_update WorkerPc.uncounted s.worker i q
  have hsame := h.counted
  refine ⟨h.owns.move (.worker i) ?_ (by simpa [State.inside] using hm), h.wf, h.sequence,
    h.adding, ?_, ?_, ?_, ?_, ?_⟩
  · intro t ht
    cases t with
    | worker j =>
      have hji : j ≠ i := fun hji => ht (hji ▸ rfl)
      simp [State.inside, hji]
    | _ => rfl
  · intro j hj
    rcases eq_or_ne j i with rfl | hji
    · exact hget (by simpa using hj)
    · exact h.getting j (by simpa [hji] using hj)
  · intro j hj
    rcases eq_or_ne j i with rfl | hji
    · exact hleft (by simpa using hj)
    · exact h.left j (by simpa [hji] using hj)
  · intro j
    rcases eq_or_ne j i with rfl | hji
    · simpa [State.takenBy, hcopied] using h.copied j
    · simpa [State.takenBy, hji] using h.copied j
  · intro j
    rcases eq_or_ne j i with rfl | hji
    · simpa [State.takenBy, hclosed] using h.closed j
    · simpa [State.takenBy, hji] using h.closed j
  · dsimp only
    omega

/-- A worker moves without touching the buffer, the counter and the record. -/
lemma Inv.moveWorker {n : ℕ} {s : State n} (h : Inv s) {i : Fin n} {p : WorkerPc}
    (hp : s.worker i = p) (q : WorkerPc) (m : Option (Thread n)) (total arrived : ℕ)
    (hm : Handover (.worker i) p.inside q.inside s.mutex m)
    (hget : q = .get → s.buffer.count ≠ 0)
    (hleft : q.left = true → s.done = true ∧ s.buffer.count = 0)
    (hleftover : q.leftover = p.leftover) :
    Inv { s with
      mutex := m, worker := Function.update s.worker i q, totalBytesCopied := total
      arrived := arrived } := by
  simp only [WorkerPc.leftover, Prod.mk.injEq] at hleftover
  obtain ⟨hcopied, hclosed, hcounted⟩ := hleftover
  have hmove := h.progress hp q m (s.copied i) (s.closed i) s.numFilesCopied total arrived hm hget
    hleft (by rw [hcopied]) (by rw [hclosed]) (by rw [hcounted])
  rwa [Function.update_eq_self, Function.update_eq_self] at hmove

/-- A wake-up of workers changes nothing but who waits. -/
lemma Inv.woken {n : ℕ} {s : State n} (h : Inv s) {pc : Fin n → WorkerPc}
    (hw : Woken WorkerPc.waits WorkerPc.wake s.worker pc) : Inv { s with worker := pc } := by
  have hcase : ∀ p : WorkerPc, p.waits = true → p = .waiting := by
    intro p hp
    cases p <;> simp_all [WorkerPc.waits]
  have heq : ∀ {γ : Type} (f : WorkerPc → γ), f .woken = f .waiting →
      ∀ i, f (pc i) = f (s.worker i) := by
    intro γ f hf i
    apply hw.map_eq f
    intro p hp
    rw [hcase p hp]
    exact hf
  refine ⟨h.owns.congr ?_, h.wf, h.sequence, h.adding, ?_, ?_, ?_, ?_, ?_⟩
  · intro t
    cases t with
    | worker j => exact heq WorkerPc.inside rfl j
    | _ => rfl
  · intro i hi
    rcases hw i with hsame | ⟨-, hnew⟩
    · exact h.getting i (hsame ▸ hi)
    · cases hi.symm.trans hnew
  · intro i hi
    exact h.left i (by rw [← heq WorkerPc.left rfl i]; exact hi)
  · intro i
    dsimp only
    rw [heq WorkerPc.uncopied rfl i]
    exact h.copied i
  · intro i
    dsimp only
    rw [heq WorkerPc.unclosed rfl i]
    exact h.closed i
  · have hcensus : census WorkerPc.uncounted pc = census WorkerPc.uncounted s.worker := by
      simp only [census, heq WorkerPc.uncounted rfl]
    dsimp only
    rw [hcensus]
    exact h.counted

/-- The manager calls `buffer_add`; no worker has left, as `done` is not up. -/
lemma Inv.add {n : ℕ} {s : State n} (h : Inv s) {f : FileInformation} (hp : s.manager = .add f) :
    Inv { s with buffer := s.buffer.add f, manager := .signal, added := s.added ++ [f] } := by
  obtain ⟨hdone, hroom⟩ := h.adding f hp
  obtain ⟨hwf, hfiles⟩ := h.wf.add hroom f
  have hin : s.inside .manager = true := by simp [State.inside, hp, ManagerPc.inside]
  refine ⟨h.owns.congr ?_, hwf, ?_, ?_, ?_, ?_, h.copied, h.closed, h.counted⟩
  · intro t
    cases t with
    | manager => simp [State.inside, hp, ManagerPc.inside]
    | _ => rfl
  · rw [hfiles, h.sequence, List.append_assoc]
  · intro g hg
    cases hg
  · intro i hi
    have hout := h.owns.unique hin (u := .worker i) (by
      simp only [State.inside]
      rw [hi]
      rfl)
    cases hout
  · intro i hi
    exact absurd (h.left i hi).1 (by simp [hdone])

/-- A worker calls `buffer_get`: the oldest file leaves the buffer and becomes
the worker's, and as the buffer was not empty nobody has left. -/
lemma Inv.get {n : ℕ} {s : State n} (h : Inv s) {i : Fin n} (hp : s.worker i = .get) :
    Inv { s.setWorker i (.signal s.buffer.get.1) with
      buffer := s.buffer.get.2, taken := s.taken ++ [(i, s.buffer.get.1)] } := by
  have hne := h.getting i hp
  obtain ⟨hwf, hfiles⟩ := h.wf.get hne
  have hin : s.inside (.worker i) = true := by simp [State.inside, hp, WorkerPc.inside]
  have hcensus := census_update WorkerPc.uncounted s.worker i (.signal s.buffer.get.1)
  have hsame := h.counted
  have hclosed := h.closed i
  have hcopied := h.copied i
  rw [hp] at hcensus hclosed hcopied
  refine ⟨h.owns.congr ?_, hwf, ?_, ?_, ?_, ?_, ?_, ?_, ?_⟩
  · intro t
    cases t with
    | worker j =>
      rcases eq_or_ne j i with rfl | hji
      · simp [State.inside, State.setWorker, hp, WorkerPc.inside]
      · simp [State.inside, State.setWorker, hji]
    | _ => rfl
  · rw [State.setWorker, h.sequence, hfiles]
    simp
  · intro f hf
    have hout := h.owns.unique hin (u := .manager) (by
      simp only [State.inside]
      rw [show s.manager = .add f from hf]
      rfl)
    cases hout
  · intro j hj
    rcases eq_or_ne j i with rfl | hji
    · simp [State.setWorker] at hj
    · have hjget : s.worker j = .get := by simpa [State.setWorker, hji] using hj
      have hsingle := h.owns.unique hin (u := .worker j) (by
        simp [State.inside, hjget, WorkerPc.inside])
      exact absurd (Thread.worker.inj hsingle).symm hji
  · intro j hj
    rcases eq_or_ne j i with rfl | hji
    · simp [State.setWorker, WorkerPc.left] at hj
    · exact absurd (h.left j (by simpa [State.setWorker, hji] using hj)).2 hne
  · intro j
    rcases eq_or_ne j i with rfl | hji
    · simpa [State.takenBy, State.setWorker, WorkerPc.uncopied] using hcopied
    · simpa [State.takenBy, State.setWorker, hji, hji.symm] using h.copied j
  · intro j
    rcases eq_or_ne j i with rfl | hji
    · simpa [State.takenBy, State.setWorker, WorkerPc.uncopied, WorkerPc.unclosed] using hclosed
    · simpa [State.takenBy, State.setWorker, hji, hji.symm] using h.closed j
  · simp only [WorkerPc.uncounted, WorkerPc.unclosed, WorkerPc.uncopied] at hcensus
    simp only [State.setWorker, List.length_append, List.length_singleton]
    simp at hcensus
    omega

/-- A lock call only succeeds on a free mutex. -/
lemma lock_eq_some {n : ℕ} {s s' u : State n} {t : Thread n} (h : s.lock t s' = some u) :
    s.mutex = none ∧ u = { s' with mutex := some t } := by
  unfold State.lock at h
  split_ifs at h with hfree
  cases h
  exact ⟨hfree, rfl⟩

lemma Inv.managerStep {n : ℕ} {s t : State n} {w : Option (Fin n)} (h : Inv s)
    (hst : managerStep s w = some t) : Inv t := by
  cases hp : s.manager with
  | scan | waiting _ | finished => simp [CopyBuffer.managerStep, hp] at hst
  | lock _ | woken _ | endLock =>
    simp only [CopyBuffer.managerStep, hp] at hst
    obtain ⟨hfree, rfl⟩ := lock_eq_some hst
    exact h.moveManager hp _ _ _ (by rw [hfree]; exact .lock) (by simp)
  | test f =>
    simp only [CopyBuffer.managerStep, hp] at hst
    split_ifs at hst with hfull hdone
    · cases hst
      exact h.moveManager hp _ _ _ (.unlock _) (by simp)
    · cases hst
      exact h.moveManager hp _ _ _ (.keep _ _) (by simp)
    · cases hst
      refine h.moveManager hp _ _ _ (.keep _ _) fun g _ => ?_
      simpa [hdone, Buffer.isFull] using hfull
  | add f =>
    simp only [CopyBuffer.managerStep, hp] at hst
    cases hst
    exact h.add hp
  | signal =>
    simp only [CopyBuffer.managerStep, hp, Option.map_eq_some_iff] at hst
    obtain ⟨pc, hpc, rfl⟩ := hst
    have hmove := h.moveManager hp .unlock s.mutex s.arrived (.keep _ _) (by simp)
    exact hmove.woken (woken_signal hpc)
  | unlock | dropUnlock _ | endUnlock =>
    simp only [CopyBuffer.managerStep, hp] at hst
    cases hst
    exact h.moveManager hp _ _ _ (.unlock _) (by simp)
  | dropClose _ | arrive =>
    simp only [CopyBuffer.managerStep, hp] at hst
    cases hst
    exact h.moveManager hp _ _ _ (.keep _ _) (by simp)
  | endDone =>
    simp only [CopyBuffer.managerStep, hp] at hst
    cases hst
    have hmove := h.moveManager hp .endBroadcast s.mutex s.arrived (.keep _ _) (by simp)
    exact hmove.raise (by simp)
  | endBroadcast =>
    simp only [CopyBuffer.managerStep, hp] at hst
    cases hst
    have hmove := h.moveManager hp .endUnlock s.mutex s.arrived (.keep _ _) (by simp)
    exact hmove.woken (woken_broadcast _ _ _)
  | barrier =>
    simp only [CopyBuffer.managerStep, hp] at hst
    split_ifs at hst
    cases hst
    exact h.moveManager hp _ _ _ (.keep _ _) (by simp)

/-- A signal for the manager changes nothing but whether it waits. -/
lemma Inv.wakeManager {n : ℕ} {s : State n} (h : Inv s) :
    Inv { s with manager := s.manager.wake } := by
  cases hp : s.manager with
  | waiting f => exact h.moveManager hp (.woken f) _ _ (.keep _ _) (by simp)
  | _ =>
    simp only [ManagerPc.wake]
    rw [← hp]
    exact h

lemma Inv.workerStep {n : ℕ} {s t : State n} {i : Fin n} {nread : ℕ} (h : Inv s)
    (hst : workerStep s i nread = some t) : Inv t := by
  cases hp : s.worker i with
  | waiting | finished => simp [CopyBuffer.workerStep, hp] at hst
  | lock | woken | bytesLock _ _ | countLock =>
    simp only [CopyBuffer.workerStep, hp] at hst
    obtain ⟨hfree, rfl⟩ := lock_eq_some hst
    exact h.moveWorker hp _ _ _ _ (by rw [hfree]; exact .lock) (by simp)
      (by simp [WorkerPc.left]) rfl
  | test =>
    simp only [CopyBuffer.workerStep, hp] at hst
    split_ifs at hst with hempty hleave
    · cases hst
      exact h.moveWorker hp _ _ _ _ (.unlock _) (by simp)
        (by simp [WorkerPc.left]) rfl
    · cases hst
      have hdone : s.done = true ∧ s.buffer.count = 0 := by
        simpa [Buffer.isEmpty, and_comm] using hleave
      exact h.moveWorker hp _ _ _ _ (.keep _ _) (by simp)
        (fun _ => hdone) rfl
    · cases hst
      have hne : s.buffer.count ≠ 0 := by
        intro hzero
        cases hd : s.done <;> simp_all [Buffer.isEmpty]
      exact h.moveWorker hp _ _ _ _ (.keep _ _) (fun _ => hne)
        (by simp [WorkerPc.left]) rfl
  | leaveUnlock =>
    simp only [CopyBuffer.workerStep, hp] at hst
    cases hst
    exact h.moveWorker hp _ _ _ _ (.unlock _) (by simp)
      (fun _ => h.left i (by rw [hp]; rfl)) rfl
  | get =>
    simp only [CopyBuffer.workerStep, hp] at hst
    cases hst
    exact h.get hp
  | signal f =>
    simp only [CopyBuffer.workerStep, hp] at hst
    cases hst
    have hmove := h.moveWorker hp (.unlock f) s.mutex s.totalBytesCopied s.arrived (.keep _ _)
      (by simp) (by simp [WorkerPc.left]) rfl
    exact hmove.wakeManager
  | unlock _ | bytesUnlock _ | countUnlock =>
    simp only [CopyBuffer.workerStep, hp] at hst
    cases hst
    exact h.moveWorker hp _ _ _ _ (.unlock _) (by simp)
      (by simp [WorkerPc.left]) rfl
  | copy f =>
    simp only [CopyBuffer.workerStep, hp] at hst
    split_ifs at hst
    · cases hst
      have hmove := h.progress hp (.closeSrc f) s.mutex (s.copied i ++ [f]) (s.closed i)
        s.numFilesCopied s.totalBytesCopied s.arrived (.keep _ _) (by simp)
        (by simp [WorkerPc.left]) (by simp [WorkerPc.uncopied]) rfl rfl
      rwa [Function.update_eq_self] at hmove
    · cases hst
      exact h.moveWorker hp _ _ _ _ (.keep _ _) (by simp)
        (by simp [WorkerPc.left]) rfl
  | bytesAdd _ _ | closeSrc _ =>
    simp only [CopyBuffer.workerStep, hp] at hst
    cases hst
    exact h.moveWorker hp _ _ _ _ (.keep _ _) (by simp)
      (by simp [WorkerPc.left]) rfl
  | closeDst f =>
    simp only [CopyBuffer.workerStep, hp] at hst
    cases hst
    have hmove := h.progress hp .countLock s.mutex (s.copied i) (s.closed i ++ [f])
      s.numFilesCopied s.totalBytesCopied s.arrived (.keep _ _) (by simp)
      (by simp [WorkerPc.left]) rfl
      (by simp [WorkerPc.unclosed, WorkerPc.uncopied]) rfl
    rwa [Function.update_eq_self] at hmove
  | count =>
    simp only [CopyBuffer.workerStep, hp] at hst
    cases hst
    have hmove := h.progress hp .countUnlock s.mutex (s.copied i) (s.closed i)
      (s.numFilesCopied + 1) s.totalBytesCopied s.arrived (.keep _ _) (by simp)
      (by simp [WorkerPc.left]) rfl rfl rfl
    rwa [Function.update_eq_self, Function.update_eq_self] at hmove
  | arrive =>
    simp only [CopyBuffer.workerStep, hp] at hst
    cases hst
    exact h.moveWorker hp _ _ _ _ (.keep _ _) (by simp)
      (fun _ => h.left i (by rw [hp]; rfl)) rfl
  | barrier =>
    simp only [CopyBuffer.workerStep, hp] at hst
    split_ifs at hst
    cases hst
    exact h.moveWorker hp _ _ _ _ (.keep _ _) (by simp)
      (fun _ => h.left i (by rw [hp]; rfl)) rfl

lemma Inv.mainStep {n : ℕ} {s t : State n} (h : Inv s) (hst : mainStep s = some t) : Inv t := by
  cases hp : s.main with
  | exited => simp [CopyBuffer.mainStep, hp] at hst
  | joinManager =>
    simp only [CopyBuffer.mainStep, hp] at hst
    split_ifs at hst
    cases hst
    exact h.moveMain hp _ _ (.keep _ _)
  | joinWorker k | sigJoin k =>
    simp only [CopyBuffer.mainStep, hp] at hst
    split_ifs at hst
    all_goals cases hst
    all_goals exact h.moveMain hp _ _ (.keep _ _)
  | sigLock =>
    simp only [CopyBuffer.mainStep, hp] at hst
    obtain ⟨hfree, rfl⟩ := lock_eq_some hst
    exact h.moveMain hp _ _ (by rw [hfree]; exact .lock)
  | sigDone =>
    simp only [CopyBuffer.mainStep, hp] at hst
    cases hst
    have hmove := h.moveMain hp .sigBroadcast s.mutex (.keep _ _)
    apply hmove.raise
    intro f hf
    have hout := h.owns.unique (t := .main) (u := .manager) (by
      simp [State.inside, hp, MainPc.inside]) (by
      simp only [State.inside]
      rw [show s.manager = .add f from hf]
      rfl)
    cases hout
  | sigBroadcast =>
    simp only [CopyBuffer.mainStep, hp] at hst
    cases hst
    have hmove := h.moveMain hp .sigUnlock s.mutex (.keep _ _)
    exact hmove.woken (woken_broadcast _ _ _)
  | sigUnlock =>
    simp only [CopyBuffer.mainStep, hp] at hst
    cases hst
    exact h.moveMain hp _ _ (.unlock _)
  | cleanup =>
    simp only [CopyBuffer.mainStep, hp] at hst
    cases hst
    exact h.moveMain hp _ _ (.keep _ _)

/-- The handler starts where `main` waits or cleans up. -/
lemma sigint_eq_some {n : ℕ} {s t : State n} (hst : move s .sigint = some t) :
    (s.main = .joinManager ∨ (∃ k, s.main = .joinWorker k) ∨ s.main = .cleanup) ∧
      t = { s with main := .sigLock } := by
  simp only [move] at hst
  split at hst
  case h_1 hp => exact ⟨Or.inl hp, (Option.some.inj hst).symm⟩
  case h_2 k hp => exact ⟨Or.inr (Or.inl ⟨k, hp⟩), (Option.some.inj hst).symm⟩
  case h_3 hp => exact ⟨Or.inr (Or.inr hp), (Option.some.inj hst).symm⟩
  case h_4 => cases hst

theorem Inv.step {n : ℕ} {s t : State n} {a : Act n} (h : Inv s) (hst : step s a = some t) :
    Inv t := by
  simp only [CopyBuffer.step] at hst
  split_ifs at hst with hexit
  cases a with
  | tryAdd f | endTraversal =>
    simp only [move] at hst
    split_ifs at hst with hp
    cases hst
    exact h.moveManager hp _ _ _ (.keep _ _) (by simp)
  | manager w => exact h.managerStep hst
  | worker i nread => exact h.workerStep hst
  | main => exact h.mainStep hst
  | sigint =>
    obtain ⟨hp, rfl⟩ := sigint_eq_some hst
    rcases hp with hp | ⟨k, hp⟩ | hp
    all_goals exact h.moveMain hp _ _ (.keep _ _)
  | spuriousManager =>
    cases hst
    exact h.wakeManager
  | spuriousWorker i =>
    simp only [move] at hst
    split_ifs at hst with hp
    cases hst
    exact h.woken (woken_update (by rw [hp]; rfl))

theorem reachable_inv {n size : ℕ} {junk : ℕ → FileInformation} (hsize : 0 < size) {s : State n}
    (hr : Reachable size junk s) : Inv s :=
  hr.invariant (inv_init n hsize junk) fun _ _ _ h _ hst => h.step hst

/-- No statement resizes the buffer or lowers the flag, and only `buffer_add` adds. -/
structure Frame {n : ℕ} (s t : State n) : Prop where
  size_eq : t.buffer.size = s.buffer.size
  done : s.done = true → t.done = true
  added : t.added = s.added ∨ ∃ f, s.manager = .add f

lemma frame_of_managerStep {n : ℕ} {s t : State n} {w : Option (Fin n)}
    (hst : managerStep s w = some t) : Frame s t := by
  simp only [managerStep] at hst
  split at hst
  case h_6 f hp =>
    cases hst
    exact ⟨rfl, id, Or.inr ⟨f, hp⟩⟩
  case h_7 hp =>
    obtain ⟨pc, -, rfl⟩ := Option.map_eq_some_iff.mp hst
    exact ⟨rfl, id, Or.inl rfl⟩
  all_goals try split_ifs at hst
  all_goals first
    | (obtain ⟨-, rfl⟩ := lock_eq_some hst; exact ⟨rfl, id, Or.inl rfl⟩)
    | (cases hst; exact ⟨rfl, id, Or.inl rfl⟩)
    | (cases hst; exact ⟨rfl, fun _ => rfl, Or.inl rfl⟩)
    | cases hst

lemma frame_of_workerStep {n : ℕ} {s t : State n} {i : Fin n} {nread : ℕ}
    (hst : workerStep s i nread = some t) : Frame s t := by
  simp only [workerStep] at hst
  split at hst
  all_goals try split_ifs at hst
  all_goals first
    | (obtain ⟨-, rfl⟩ := lock_eq_some hst; exact ⟨rfl, id, Or.inl rfl⟩)
    | (cases hst; exact ⟨rfl, id, Or.inl rfl⟩)
    | cases hst

lemma frame_of_mainStep {n : ℕ} {s t : State n} (hst : mainStep s = some t) : Frame s t := by
  simp only [mainStep] at hst
  split at hst
  all_goals try split_ifs at hst
  all_goals first
    | (obtain ⟨-, rfl⟩ := lock_eq_some hst; exact ⟨rfl, id, Or.inl rfl⟩)
    | (cases hst; exact ⟨rfl, id, Or.inl rfl⟩)
    | (cases hst; exact ⟨rfl, fun _ => rfl, Or.inl rfl⟩)
    | cases hst

lemma frame_of_step {n : ℕ} {s t : State n} {a : Act n} (hst : step s a = some t) :
    Frame s t := by
  simp only [step] at hst
  split_ifs at hst
  cases a with
  | manager w => exact frame_of_managerStep hst
  | worker i nread => exact frame_of_workerStep hst
  | main => exact frame_of_mainStep hst
  | _ =>
    simp only [move] at hst
    try split at hst
    all_goals first
      | (cases hst; exact ⟨rfl, id, Or.inl rfl⟩)
      | cases hst

/-- Once the flag is up, `buffer_add` is not called any more. -/
lemma Inv.added_eq {n : ℕ} {s t : State n} (h : Inv s) (hdone : s.done = true) (hf : Frame s t) :
    t.added = s.added := by
  rcases hf.added with hadded | ⟨f, hp⟩
  · exact hadded
  · simp [(h.adding f hp).1] at hdone

/-- What holds in every reachable state of a process with a buffer of the given
size. The last field is about a process that has workers: then, when all have
left, every file added was taken by one of them, and each worker has copied and
closed just what it has taken. -/
structure CopiedOnce {n : ℕ} (size : ℕ) (s : State n) : Prop where
  taken_prefix : s.taken.map Prod.snd <+: s.added
  count_bounds : 0 ≤ s.buffer.count ∧ s.buffer.count ≤ size
  tail_eq : (s.buffer.tail : ℤ) = (s.buffer.head + s.buffer.count) % size
  no_late_add : ∀ i, (s.worker i).left = true → ∀ t, Reach step always s t → t.added = s.added
  complete : 0 < n → (∀ i, (s.worker i).left = true) →
    s.buffer.count = 0 ∧ s.taken.map Prod.snd = s.added ∧
    (∀ i, s.copied i = s.takenBy i ∧ s.closed i = s.takenBy i) ∧
    s.numFilesCopied = s.added.length

/-- A worker that has left its loop has nothing left to do. -/
lemma leftover_of_left {pc : WorkerPc} (h : pc.left = true) : pc.leftover = ([], [], false) := by
  cases pc <;> simp_all [WorkerPc.left, WorkerPc.leftover, WorkerPc.uncopied, WorkerPc.unclosed,
    WorkerPc.uncounted]

lemma Inv.no_late_add {n : ℕ} {s t : State n} (h : Inv s) {i : Fin n}
    (hi : (s.worker i).left = true) (hr : Reach CopyBuffer.step always s t) :
    t.added = s.added := by
  have hkeep : Inv t ∧ t.done = true ∧ t.added = s.added := by
    apply hr.invariant (P := fun t => Inv t ∧ t.done = true ∧ t.added = s.added)
    · exact ⟨h, (h.left i hi).1, rfl⟩
    · rintro u a v ⟨hinv, hdone, hadded⟩ - hst
      have hf := frame_of_step hst
      exact ⟨hinv.step hst, hf.done hdone, (hinv.added_eq hdone hf).trans hadded⟩
  exact hkeep.2.2

lemma Inv.complete {n : ℕ} {s : State n} (h : Inv s) (hn : 0 < n)
    (hall : ∀ i, (s.worker i).left = true) :
    s.buffer.count = 0 ∧ s.taken.map Prod.snd = s.added ∧
    (∀ i, s.copied i = s.takenBy i ∧ s.closed i = s.takenBy i) ∧
    s.numFilesCopied = s.added.length := by
  have hempty : s.buffer.count = 0 := (h.left ⟨0, hn⟩ (hall _)).2
  have hsequence : s.taken.map Prod.snd = s.added := by
    rw [h.sequence, Buffer.files, hempty]
    simp
  have hnothing : ∀ i, (s.worker i).leftover = ([], [], false) := fun i => leftover_of_left (hall i)
  simp only [WorkerPc.leftover, Prod.mk.injEq] at hnothing
  have hcensus : census WorkerPc.uncounted s.worker = 0 := census_eq_zero fun i => (hnothing i).2.2
  refine ⟨hempty, hsequence, fun i => ⟨?_, ?_⟩, ?_⟩
  · have hcopied := h.copied i
    rw [(hnothing i).1, List.append_nil] at hcopied
    exact hcopied.symm
  · have hclosed := h.closed i
    rw [(hnothing i).2.1, List.append_nil] at hclosed
    exact hclosed.symm
  · have hcounted := h.counted
    rw [← hsequence, List.length_map]
    omega

/-- Every file handed to the buffer is copied once: in every run, whatever the
manager tries to add and whenever SIGINT comes. -/
theorem copied_once {n size : ℕ} {junk : ℕ → FileInformation} (hsize : 0 < size) {s : State n}
    (hr : Reachable size junk s) : CopiedOnce size s := by
  have h := reachable_inv hsize hr
  have hsz : s.buffer.size = size :=
    hr.invariant (P := fun s => s.buffer.size = size) rfl fun _ _ _ hu _ hst =>
      (frame_of_step hst).size_eq.trans hu
  exact {
    taken_prefix := ⟨_, h.sequence.symm⟩
    count_bounds := ⟨h.wf.count_nonneg, hsz ▸ h.wf.count_le⟩
    tail_eq := hsz ▸ h.wf.tail_eq
    no_late_add := fun i hi t ht => h.no_late_add hi ht
    complete := h.complete }

/-- One worker takes a file; SIGINT comes, and it leaves after copying the file. -/
theorem copied_once_interrupted : ∃ s : State 1, s.main = .sigJoin 0 ∧
    s.worker 0 = .barrier ∧ s.manager = .dropUnlock ⟨5, 6, ['b'], ['d']⟩ ∧
    s.added = [⟨3, 4, ['a'], ['c']⟩] ∧ CopiedOnce 1 s := by
  have hr : Reachable (n := 1) 1 (fun _ => ⟨0, 0, [], []⟩) _ := reach_of_run
    [.tryAdd ⟨3, 4, ['a'], ['c']⟩, .manager none, .manager none, .manager none, .manager none,
      .manager none, .worker 0 0, .worker 0 0, .worker 0 0, .worker 0 0, .worker 0 0, .sigint,
      .main, .main, .main, .main, .worker 0 7, .worker 0 0, .worker 0 0, .worker 0 0, .worker 0 0,
      .worker 0 0, .worker 0 0, .worker 0 0, .worker 0 0, .worker 0 0, .worker 0 0, .worker 0 0,
      .worker 0 0, .worker 0 0, .tryAdd ⟨5, 6, ['b'], ['d']⟩, .manager none, .manager none] rfl
  exact ⟨_, by rfl, by rfl, by rfl, by rfl, copied_once (by decide) hr⟩

/-- A process without workers: the manager adds a file, and nobody is left to copy
it, although every worker there is has left its loop. -/
theorem no_workers_leave_file : ∃ s : State 0, Reachable 1 (fun _ => ⟨0, 0, [], []⟩) s ∧
    (∀ i, (s.worker i).left = true) ∧ s.added = [⟨3, 4, ['a'], ['c']⟩] ∧
    s.buffer.count = 1 ∧ s.numFilesCopied = 0 := by
  refine ⟨_, reach_of_run [.tryAdd ⟨3, 4, ['a'], ['c']⟩, .manager none, .manager none,
    .manager none] rfl, ?_, by rfl, by rfl, by rfl⟩
  intro i
  exact i.elim0

end SystemProgramming.CopyBuffer
