import SystemProgramming.CopyBufferInvariant

/-!
# The copy buffer never gets stuck and is torn down last

The second invariant of the copy buffer says that no wake-up is lost: files in
the buffer have a worker that will come for them, a manager that waits for room
finds the buffer full or a worker about to signal, and nobody waits for files
after the flag was raised and announced. With the count of the threads at the
barrier it yields a thread that can step, and that nobody uses the buffer any
more once `cleanup` starts.
-/
namespace SystemProgramming.CopyBuffer
open SystemProgramming.Transition SystemProgramming.Monitor

/-- The worker will come to the buffer without being signalled. -/
def WorkerPc.active : WorkerPc → Bool
  | .waiting => false
  | pc => !pc.left

def WorkerPc.arrived : WorkerPc → Bool
  | .barrier | .finished => true
  | _ => false

def ManagerPc.arrived : ManagerPc → Bool
  | .barrier | .finished => true
  | _ => false

/-- The manager has raised the flag at the end of its traversal. -/
def ManagerPc.ended : ManagerPc → Bool
  | .endBroadcast | .endUnlock | .arrive | .barrier | .finished => true
  | _ => false

/-- How many workers the main thread has joined. -/
def MainPc.joined (n : ℕ) : MainPc → ℕ
  | .joinWorker k | .sigJoin k => k
  | .cleanup | .exited => n
  | _ => 0

structure Live {n : ℕ} (s : State n) : Prop where
  served : 0 < s.buffer.count → s.manager = .signal ∨ ∃ i, (s.worker i).active = true
  room : ∀ f, s.manager = .waiting f →
    s.buffer.count = s.buffer.size ∨ ∃ i g, s.worker i = .signal g
  called : ∀ i, s.worker i = .waiting →
    s.done = false ∨ s.manager = .endBroadcast ∨ s.main = .sigBroadcast
  ended : s.manager.ended = true → s.done = true
  arrived : s.arrived = s.manager.arrived.toNat + census WorkerPc.arrived s.worker
  opened : s.manager = .finished ∨ (∃ i, s.worker i = .finished) →
    s.manager.arrived = true ∧ ∀ i, (s.worker i).arrived = true
  joined : ∀ i : Fin n, i.val < s.main.joined n → s.worker i = .finished

theorem live_init (n size : ℕ) (junk : ℕ → FileInformation) : Live (init n size junk) where
  served := by simp [init, initializeBuffer]
  room := fun f hf => by cases hf
  called := fun i hi => by cases hi
  ended := fun h => by cases h
  arrived := by
    have hzero : census WorkerPc.arrived (init n size junk).worker = 0 :=
      census_eq_zero fun i => rfl
    rw [hzero]
    rfl
  opened := by simp [init]
  joined := fun i hi => absurd hi (Nat.not_lt_zero _)

/-- The barrier is full when everybody has arrived. -/
lemma Live.arrived_eq_iff {n : ℕ} {s : State n} (h : Live s) :
    s.arrived = n + 1 ↔ s.manager.arrived = true ∧ ∀ i, (s.worker i).arrived = true := by
  have harrived := h.arrived
  have hle := census_le_card WorkerPc.arrived s.worker
  have hfull := census_eq_card_iff (p := WorkerPc.arrived) (f := s.worker)
  rw [Fintype.card_fin] at hle hfull
  rw [← hfull]
  cases hm : s.manager.arrived <;> simp only [hm, Bool.toNat_false, Bool.toNat_true] at harrived
  · simp
    omega
  · simp
    omega

/-- The manager moves without touching the buffer. -/
lemma Live.moveManager {n : ℕ} {s : State n} (h : Live s) {p : ManagerPc} (hp : s.manager = p)
    (q : ManagerPc) (m : Option (Thread n)) (d : Bool) (a : ℕ)
    (hsignal : p = .signal → 0 < s.buffer.count → ∃ i, (s.worker i).active = true)
    (hcall : p = .endBroadcast → ∀ i, s.worker i ≠ .waiting)
    (hwait : ∀ f, q = .waiting f → s.buffer.count = s.buffer.size)
    (hdone : d = true → s.done = true ∨ q = .endBroadcast)
    (hend : q.ended = true → d = true)
    (ha : a + p.arrived.toNat = s.arrived + q.arrived.toNat)
    (hq : p.arrived = true → q.arrived = true)
    (hopen : q = .finished → ∀ i, (s.worker i).arrived = true) :
    Live { s with mutex := m, done := d, arrived := a, manager := q } := by
  subst hp
  have harrived := h.arrived
  refine ⟨fun hcount => ?_, fun f hf => Or.inl (hwait f hf), fun i hi => ?_, hend, ?_, ?_, h.joined⟩
  · rcases h.served hcount with hs | hactive
    · exact Or.inr (hsignal hs hcount)
    · exact Or.inr hactive
  · rcases h.called i hi with hs | hs | hs
    · cases hd : d with
      | false => exact Or.inl rfl
      | true =>
        rcases hdone hd with hs' | hs'
        · simp [hs] at hs'
        · exact Or.inr (Or.inl hs')
    · exact absurd hi (hcall hs i)
    · exact Or.inr (Or.inr hs)
  · dsimp only
    omega
  · rintro (hfin | hfin)
    · rw [show q = .finished from hfin]
      exact ⟨rfl, hopen hfin⟩
    · exact ⟨hq (h.opened (Or.inr hfin)).1, (h.opened (Or.inr hfin)).2⟩

/-- A worker moves without touching the buffer. -/
lemma Live.moveWorker {n : ℕ} {s : State n} (h : Live s) {i : Fin n} {p : WorkerPc}
    (hp : s.worker i = p) (q : WorkerPc) (m : Option (Thread n)) (a k total : ℕ)
    (c d : Fin n → List FileInformation)
    (hidle : p.active = true → q.active = true ∨ s.buffer.count = 0)
    (hsignal : ∀ f, s.manager = .waiting f → ∀ g, p ≠ .signal g)
    (hwait : q = .waiting → s.done = false)
    (ha : a + p.arrived.toNat = s.arrived + q.arrived.toNat)
    (hq : p.arrived = true → q.arrived = true)
    (hopen : q = .finished → s.arrived = n + 1) (hfin : p ≠ .finished) :
    Live { s with
      mutex := m, worker := Function.update s.worker i q, arrived := a
      numFilesCopied := k, totalBytesCopied := total, copied := c, closed := d } := by
  subst hp
  have harrived := h.arrived
  have hcensus := census_update WorkerPc.arrived s.worker i q
  refine ⟨fun hcount => ?_, fun f hf => ?_, fun j hj => ?_, h.ended, ?_, fun hopened => ?_,
    fun j hj => ?_⟩
  · rcases h.served hcount with hs | ⟨j, hj⟩
    · exact Or.inl hs
    · rcases eq_or_ne j i with rfl | hji
      · exact Or.inr ⟨j, by simpa using (hidle hj).resolve_right hcount.ne'⟩
      · exact Or.inr ⟨j, by simpa [hji] using hj⟩
  · rcases h.room f hf with hfull | ⟨j, g, hj⟩
    · exact Or.inl hfull
    · rcases eq_or_ne j i with rfl | hji
      · exact absurd hj (hsignal f hf g)
      · exact Or.inr ⟨j, g, by simpa [hji] using hj⟩
  · rcases eq_or_ne j i with rfl | hji
    · exact Or.inl (hwait (by simpa using hj))
    · exact h.called j (by simpa [hji] using hj)
  · dsimp only
    omega
  · have hall : s.manager.arrived = true ∧ ∀ j, (s.worker j).arrived = true := by
      rcases hopened with hs | ⟨j, hj⟩
      · exact h.opened (Or.inl hs)
      · rcases eq_or_ne j i with rfl | hji
        · exact h.arrived_eq_iff.mp (hopen (by simpa using hj))
        · exact h.opened (Or.inr ⟨j, by simpa [hji] using hj⟩)
    refine ⟨hall.1, fun j => ?_⟩
    rcases eq_or_ne j i with rfl | hji
    · simpa using hq (hall.2 j)
    · simpa [hji] using hall.2 j
  · rcases eq_or_ne j i with rfl | hji
    · exact absurd (h.joined j hj) hfin
    · simpa [hji] using h.joined j hj

/-- The main thread moves. -/
lemma Live.moveMain {n : ℕ} {s : State n} (h : Live s) {p : MainPc} (hp : s.main = p)
    (q : MainPc) (m : Option (Thread n)) (d : Bool)
    (hcall : p = .sigBroadcast → ∀ i, s.worker i ≠ .waiting)
    (hdone : d = true → s.done = true ∨ q = .sigBroadcast) (hkeep : s.done = true → d = true)
    (hjoined : ∀ i : Fin n, i.val < q.joined n → s.worker i = .finished) :
    Live { s with mutex := m, done := d, main := q } := by
  subst hp
  refine ⟨h.served, h.room, fun i hi => ?_, fun he => hkeep (h.ended he), h.arrived, h.opened,
    hjoined⟩
  rcases h.called i hi with hs | hs | hs
  · cases hd : d with
    | false => exact Or.inl rfl
    | true =>
      rcases hdone hd with hs' | hs'
      · simp [hs] at hs'
      · exact Or.inr (Or.inr hs')
  · exact Or.inr (Or.inl hs)
  · exact absurd hi (hcall hs i)

lemma eq_waiting {pc : WorkerPc} (h : pc.waits = true) : pc = .waiting := by
  cases pc <;> simp_all [WorkerPc.waits]

/-- Waking workers makes them come to the buffer and changes nothing else. -/
lemma Live.woken {n : ℕ} {s : State n} (h : Live s) {pc : Fin n → WorkerPc}
    (hw : Woken WorkerPc.waits WorkerPc.wake s.worker pc) : Live { s with worker := pc } := by
  have hcase : ∀ i, pc i = s.worker i ∨ s.worker i = .waiting ∧ pc i = .woken := by
    intro i
    rcases hw i with heq | ⟨hi, heq⟩
    · exact Or.inl heq
    · exact Or.inr ⟨eq_waiting hi, heq⟩
  have hsame : ∀ i q, q ≠ .waiting → q ≠ .woken → (pc i = q ↔ s.worker i = q) := by
    intro i q hq hq'
    rcases hcase i with heq | ⟨hi, heq⟩
    · rw [heq]
    · simp [hi, heq, hq.symm, hq'.symm]
  have harr : ∀ i, (pc i).arrived = (s.worker i).arrived := by
    intro i
    rcases hcase i with heq | ⟨hi, heq⟩
    · rw [heq]
    · rw [hi, heq]
      rfl
  have hcensus : census WorkerPc.arrived pc = census WorkerPc.arrived s.worker := by
    simp only [census, harr]
  refine ⟨fun hcount => ?_, fun f hf => ?_, fun i hi => ?_, h.ended, ?_, fun hopened => ?_,
    fun i hi => (hsame i .finished (by simp) (by simp)).mpr (h.joined i hi)⟩
  · refine (h.served hcount).imp_right fun hactive => ?_
    obtain ⟨i, hi⟩ := hactive
    refine ⟨i, ?_⟩
    change (pc i).active = true
    rcases hcase i with heq | ⟨-, heq⟩
    · rw [heq]
      exact hi
    · rw [heq]
      rfl
  · refine (h.room f hf).imp_right fun hsignal => ?_
    obtain ⟨i, g, hi⟩ := hsignal
    exact ⟨i, g, (hsame i (.signal g) (by simp) (by simp)).mpr hi⟩
  · rcases hcase i with heq | ⟨-, heq⟩
    · exact h.called i (heq.symm.trans hi)
    · cases hi.symm.trans heq
  · exact hcensus ▸ h.arrived
  · have hfin : s.manager = .finished ∨ ∃ i, s.worker i = .finished := by
      rcases hopened with hm | ⟨i, hi⟩
      · exact Or.inl hm
      · exact Or.inr ⟨i, (hsame i .finished (by simp) (by simp)).mp hi⟩
    have hall := h.opened hfin
    exact ⟨hall.1, fun i => (harr i).trans (hall.2 i)⟩

lemma broadcast_ne_waiting {n : ℕ} {pc : Fin n → WorkerPc} (i : Fin n) :
    broadcast WorkerPc.waits WorkerPc.wake pc i ≠ .waiting := by
  unfold broadcast
  split_ifs with hw
  · simp [WorkerPc.wake]
  · exact fun hw' => hw (by rw [hw']; rfl)

/-- A signal wakes a worker when one waits, and otherwise nobody waits. -/
lemma active_of_signal {n : ℕ} (hn : 0 < n) {s : State n} {pc : Fin n → WorkerPc}
    {w : Option (Fin n)} (hpc : Monitor.signal WorkerPc.waits WorkerPc.wake s.worker w = some pc)
    (hleft : ∀ i, (s.worker i).left = false) : ∃ i, (pc i).active = true := by
  cases w with
  | some i =>
    simp only [Monitor.signal] at hpc
    split_ifs at hpc with hi
    cases hpc
    exact ⟨i, by simp [WorkerPc.wake, WorkerPc.active, WorkerPc.left]⟩
  | none =>
    simp only [Monitor.signal] at hpc
    split_ifs at hpc with hi
    cases hpc
    have hwaits := hi ⟨0, hn⟩
    have hleft := hleft ⟨0, hn⟩
    refine ⟨⟨0, hn⟩, ?_⟩
    cases hpc : s.worker ⟨0, hn⟩ <;> simp_all [WorkerPc.waits, WorkerPc.active]

/-- The buffer is replaced by one that has a thread to come for its files and its
room. -/
lemma Live.rebuffer {n : ℕ} {s : State n} (h : Live s) (b : Buffer)
    (added : List FileInformation) (taken : List (Fin n × FileInformation))
    (hserved : 0 < b.count → s.manager = .signal ∨ ∃ i, (s.worker i).active = true)
    (hroom : ∀ f, s.manager = .waiting f → b.count = b.size ∨ ∃ i g, s.worker i = .signal g) :
    Live { s with buffer := b, added := added, taken := taken } :=
  ⟨hserved, hroom, h.called, h.ended, h.arrived, h.opened, h.joined⟩

lemma Live.wakeManager {n : ℕ} {s : State n} (h : Live s) :
    Live { s with manager := s.manager.wake } := by
  cases hp : s.manager with
  | waiting f =>
    refine h.moveManager hp (.woken f) _ _ _ ?_ ?_ ?_ ?_ ?_ ?_ ?_ ?_
    all_goals simp +contextual [ManagerPc.ended, ManagerPc.arrived]
  | _ =>
    simp only [ManagerPc.wake]
    rw [← hp]
    exact h

lemma Live.managerStep {n : ℕ} (hn : 0 < n) {s t : State n} {w : Option (Fin n)} (h : Live s)
    (hi : Inv s) (hst : managerStep s w = some t) : Live t := by
  have hended := h.ended
  cases hp : s.manager with
  | scan | waiting _ | finished => simp [CopyBuffer.managerStep, hp] at hst
  | lock _ | woken _ | endLock =>
    simp only [CopyBuffer.managerStep, hp] at hst
    obtain ⟨-, rfl⟩ := lock_eq_some hst
    refine h.moveManager hp _ _ _ _ ?_ ?_ ?_ ?_ ?_ ?_ ?_ ?_
    all_goals simp +contextual [ManagerPc.ended, ManagerPc.arrived]
  | test f =>
    simp only [CopyBuffer.managerStep, hp] at hst
    split_ifs at hst with hfull hdone
    · cases hst
      refine h.moveManager hp _ _ _ _ ?_ ?_ ?_ ?_ ?_ ?_ ?_ ?_
      all_goals simp +contextual [ManagerPc.ended, ManagerPc.arrived]
      simpa [Buffer.isFull] using hfull.1
    all_goals
      cases hst
      refine h.moveManager hp _ _ _ _ ?_ ?_ ?_ ?_ ?_ ?_ ?_ ?_
      all_goals simp +contextual [ManagerPc.ended, ManagerPc.arrived]
  | add f =>
    simp only [CopyBuffer.managerStep, hp] at hst
    cases hst
    have hmove : Live { s with manager := .signal } := by
      refine h.moveManager hp _ _ _ _ ?_ ?_ ?_ ?_ ?_ ?_ ?_ ?_
      all_goals simp +contextual [ManagerPc.ended, ManagerPc.arrived]
    exact hmove.rebuffer _ _ _ (fun _ => Or.inl rfl) (by simp)
  | signal =>
    simp only [CopyBuffer.managerStep, hp, Option.map_eq_some_iff] at hst
    obtain ⟨pc, hpc, rfl⟩ := hst
    refine (h.woken (woken_signal hpc)).moveManager hp _ _ _ _ ?_ ?_ ?_ ?_ ?_ ?_ ?_ ?_
    · intro _ hcount
      refine active_of_signal hn hpc fun i => ?_
      by_contra hl
      exact hcount.ne' (hi.left i (by simpa using hl)).2
    all_goals simp +contextual [ManagerPc.ended, ManagerPc.arrived]
  | unlock | dropUnlock _ | dropClose _ =>
    simp only [CopyBuffer.managerStep, hp] at hst
    cases hst
    refine h.moveManager hp _ _ _ _ ?_ ?_ ?_ ?_ ?_ ?_ ?_ ?_
    all_goals simp +contextual [ManagerPc.ended, ManagerPc.arrived]
  | endDone =>
    simp only [CopyBuffer.managerStep, hp] at hst
    cases hst
    refine h.moveManager hp _ _ _ _ ?_ ?_ ?_ ?_ ?_ ?_ ?_ ?_
    all_goals simp +contextual [ManagerPc.ended, ManagerPc.arrived]
  | endBroadcast =>
    simp only [CopyBuffer.managerStep, hp] at hst
    cases hst
    have hdone : s.done = true := hended (by rw [hp]; rfl)
    refine (h.woken (woken_broadcast _ _ _)).moveManager hp _ _ _ _ ?_ ?_ ?_ ?_ ?_ ?_ ?_ ?_
    · simp
    · exact fun _ => broadcast_ne_waiting
    all_goals simp +contextual [ManagerPc.arrived, hdone]
  | endUnlock | arrive =>
    simp only [CopyBuffer.managerStep, hp] at hst
    cases hst
    have hdone : s.done = true := hended (by rw [hp]; rfl)
    refine h.moveManager hp _ _ _ _ ?_ ?_ ?_ ?_ ?_ ?_ ?_ ?_
    all_goals simp +contextual [ManagerPc.arrived, hdone]
  | barrier =>
    simp only [CopyBuffer.managerStep, hp] at hst
    split_ifs at hst with hfull
    cases hst
    have hdone : s.done = true := hended (by rw [hp]; rfl)
    refine h.moveManager hp _ _ _ _ ?_ ?_ ?_ ?_ ?_ ?_ ?_ ?_
    all_goals simp +contextual [ManagerPc.arrived, hdone]
    exact (h.arrived_eq_iff.mp hfull).2

@[simp] lemma setWorker_arrived {n : ℕ} (s : State n) (i : Fin n) (q : WorkerPc) :
    (s.setWorker i q).arrived = s.arrived := rfl

lemma Live.workerStep {n : ℕ} {s t : State n} {i : Fin n} {nread : ℕ} (h : Live s)
    (hst : workerStep s i nread = some t) : Live t := by
  cases hp : s.worker i with
  | waiting | finished => simp [CopyBuffer.workerStep, hp] at hst
  | lock | woken | bytesLock _ _ | countLock =>
    simp only [CopyBuffer.workerStep, hp] at hst
    obtain ⟨-, rfl⟩ := lock_eq_some hst
    refine h.moveWorker hp _ _ _ _ _ _ _ ?_ ?_ ?_ ?_ ?_ ?_ ?_
    all_goals simp [WorkerPc.active, WorkerPc.left, WorkerPc.arrived]
  | test =>
    simp only [CopyBuffer.workerStep, hp] at hst
    split_ifs at hst with hempty hleave
    · cases hst
      have hcount : s.buffer.count = 0 := by simpa [Buffer.isEmpty] using hempty.1
      refine h.moveWorker hp _ _ _ _ _ _ _ ?_ ?_ ?_ ?_ ?_ ?_ ?_
      all_goals simp [WorkerPc.arrived, hcount]
      simpa using hempty.2
    · cases hst
      have hcount : s.buffer.count = 0 := by simpa [Buffer.isEmpty] using hleave.1
      refine h.moveWorker hp _ _ _ _ _ _ _ ?_ ?_ ?_ ?_ ?_ ?_ ?_
      all_goals simp [WorkerPc.arrived, hcount]
    · cases hst
      refine h.moveWorker hp _ _ _ _ _ _ _ ?_ ?_ ?_ ?_ ?_ ?_ ?_
      all_goals simp [WorkerPc.active, WorkerPc.left, WorkerPc.arrived]
  | get =>
    simp only [CopyBuffer.workerStep, hp] at hst
    cases hst
    have hmove : Live (s.setWorker i (.signal s.buffer.get.1)) := by
      refine h.moveWorker hp _ _ _ _ _ _ _ ?_ ?_ ?_ ?_ ?_ ?_ ?_
      all_goals simp [WorkerPc.active, WorkerPc.left, WorkerPc.arrived]
    refine hmove.rebuffer _ _ _ (fun _ => Or.inr ⟨i, ?_⟩) fun _ _ => Or.inr ⟨i, s.buffer.get.1, ?_⟩
    all_goals simp [State.setWorker, WorkerPc.active, WorkerPc.left]
  | signal f =>
    simp only [CopyBuffer.workerStep, hp] at hst
    cases hst
    refine h.wakeManager.moveWorker hp _ _ _ _ _ _ _ ?_ ?_ ?_ ?_ ?_ ?_ ?_
    · simp [WorkerPc.active, WorkerPc.left]
    · intro g hg
      cases hm : s.manager <;> simp [hm, ManagerPc.wake] at hg
    all_goals simp [WorkerPc.arrived]
  | unlock _ | bytesUnlock _ | countUnlock | bytesAdd _ _ | closeSrc _ | closeDst _ | count =>
    simp only [CopyBuffer.workerStep, hp] at hst
    cases hst
    refine h.moveWorker hp _ _ _ _ _ _ _ ?_ ?_ ?_ ?_ ?_ ?_ ?_
    all_goals simp [WorkerPc.active, WorkerPc.left, WorkerPc.arrived]
  | copy f =>
    simp only [CopyBuffer.workerStep, hp] at hst
    split_ifs at hst
    all_goals
      cases hst
      refine h.moveWorker hp _ _ _ _ _ _ _ ?_ ?_ ?_ ?_ ?_ ?_ ?_
      all_goals simp [WorkerPc.active, WorkerPc.left, WorkerPc.arrived]
  | leaveUnlock | arrive =>
    simp only [CopyBuffer.workerStep, hp] at hst
    cases hst
    refine h.moveWorker hp _ _ _ _ _ _ _ ?_ ?_ ?_ ?_ ?_ ?_ ?_
    all_goals simp [WorkerPc.active, WorkerPc.left, WorkerPc.arrived]
  | barrier =>
    simp only [CopyBuffer.workerStep, hp] at hst
    split_ifs at hst with hfull
    cases hst
    refine h.moveWorker hp _ _ _ _ _ _ _ ?_ ?_ ?_ ?_ ?_ ?_ ?_
    all_goals simp [WorkerPc.active, WorkerPc.left, WorkerPc.arrived, hfull]

lemma Live.mainStep {n : ℕ} {s t : State n} (h : Live s) (hst : mainStep s = some t) : Live t := by
  have hjoined := h.joined
  cases hp : s.main with
  | exited => simp [CopyBuffer.mainStep, hp] at hst
  | joinManager =>
    simp only [CopyBuffer.mainStep, hp] at hst
    split_ifs at hst
    cases hst
    exact h.moveMain hp _ _ _ (by simp) Or.inl id (by simp [MainPc.joined])
  | joinWorker k | sigJoin k =>
    simp only [CopyBuffer.mainStep, hp] at hst
    simp only [hp, MainPc.joined] at hjoined
    split_ifs at hst with hk hfin
    · cases hst
      refine h.moveMain hp _ _ _ (by simp) Or.inl id fun i hi => ?_
      rcases Nat.lt_succ_iff_lt_or_eq.mp hi with hlt | heq
      · exact hjoined i hlt
      · rw [← hfin]
        congr 1
        exact Fin.ext heq
    · cases hst
      exact h.moveMain hp _ _ _ (by simp) Or.inl id fun i _ => hjoined i (by omega)
  | sigLock =>
    simp only [CopyBuffer.mainStep, hp] at hst
    obtain ⟨-, rfl⟩ := lock_eq_some hst
    exact h.moveMain hp _ _ _ (by simp) Or.inl id (by simp [MainPc.joined])
  | sigDone =>
    simp only [CopyBuffer.mainStep, hp] at hst
    cases hst
    exact h.moveMain hp _ _ _ (by simp) (by simp) (by simp) (by simp [MainPc.joined])
  | sigBroadcast =>
    simp only [CopyBuffer.mainStep, hp] at hst
    cases hst
    refine (h.woken (woken_broadcast _ _ _)).moveMain hp _ _ _ (fun _ i => ?_) Or.inl id
      (by simp [MainPc.joined])
    exact broadcast_ne_waiting i
  | sigUnlock =>
    simp only [CopyBuffer.mainStep, hp] at hst
    cases hst
    exact h.moveMain hp _ _ _ (by simp) Or.inl id (by simp [MainPc.joined])
  | cleanup =>
    simp only [CopyBuffer.mainStep, hp] at hst
    cases hst
    simp only [hp, MainPc.joined] at hjoined
    exact h.moveMain hp _ _ _ (by simp) Or.inl id hjoined

theorem Live.step {n : ℕ} (hn : 0 < n) {s t : State n} {a : Act n} (h : Live s) (hi : Inv s)
    (hst : step s a = some t) : Live t := by
  simp only [CopyBuffer.step] at hst
  split_ifs at hst with hexit
  cases a with
  | tryAdd f | endTraversal =>
    simp only [move] at hst
    split_ifs at hst with hp
    cases hst
    refine h.moveManager hp _ _ _ _ ?_ ?_ ?_ ?_ ?_ ?_ ?_ ?_
    all_goals simp +contextual [ManagerPc.ended, ManagerPc.arrived]
  | manager w => exact h.managerStep hn hi hst
  | worker i nread => exact h.workerStep hst
  | main => exact h.mainStep hst
  | sigint =>
    obtain ⟨hp, rfl⟩ := sigint_eq_some hst
    rcases hp with hp | ⟨k, hp⟩ | hp
    all_goals exact h.moveMain hp _ _ _ (by simp) Or.inl id (by simp [MainPc.joined])
  | spuriousManager =>
    cases hst
    exact h.wakeManager
  | spuriousWorker i =>
    simp only [move] at hst
    split_ifs at hst with hp
    cases hst
    exact h.woken (woken_update (by rw [hp]; rfl))

theorem reachable_live {n size : ℕ} {junk : ℕ → FileInformation} (hn : 0 < n) (hsize : 0 < size)
    {s : State n} (hr : Reachable size junk s) : Live s := by
  have h : Inv s ∧ Live s := hr.invariant (P := fun s => Inv s ∧ Live s)
    ⟨inv_init n hsize junk, live_init n size junk⟩ fun _ _ _ h _ hst =>
      ⟨h.1.step hst, h.2.step hn h.1 hst⟩
  exact h.2

/-- The traversal and the statements of the threads: what the process does by
itself, without SIGINT and spurious wake-ups. -/
def Act.ofThread {n : ℕ} : Act n → Bool
  | .sigint | .spuriousManager | .spuriousWorker _ => false
  | _ => true

/-- Some thread can take a step. -/
def State.CanStep {n : ℕ} (s : State n) : Prop := ∃ a t, a.ofThread = true ∧ step s a = some t

/-- The manager and all workers have returned, or the process has exited. -/
def State.Finished {n : ℕ} (s : State n) : Prop :=
  s.main = .exited ∨ s.manager = .finished ∧ ∀ i, s.worker i = .finished

lemma canStep_of_move {n : ℕ} {s : State n} (hexit : s.main ≠ .exited) (a : Act n)
    (ha : a.ofThread = true) (hst : ∃ t, move s a = some t) : s.CanStep := by
  obtain ⟨t, ht⟩ := hst
  exact ⟨a, t, ha, by rw [step, if_neg hexit, ht]⟩

lemma lock_of_free {n : ℕ} {s : State n} (s' : State n) (t : Thread n) (hfree : s.mutex = none) :
    s.lock t s' = some { s' with mutex := some t } := if_pos hfree

/-- The manager is stopped only by the mutex, a wait and the barrier. -/
lemma canStep_manager {n : ℕ} {s : State n} (hexit : s.main ≠ .exited)
    (hm : s.mutex = none ∨ s.manager.inside = true) (hw : ∀ f, s.manager ≠ .waiting f)
    (hb : s.manager.arrived = false) : s.CanStep := by
  cases hp : s.manager with
  | scan => exact canStep_of_move hexit .endTraversal rfl ⟨_, if_pos hp⟩
  | waiting f => exact absurd hp (hw f)
  | barrier | finished => simp [hp, ManagerPc.arrived] at hb
  | lock f | woken f | endLock =>
    have hfree : s.mutex = none := hm.resolve_right (by simp [hp, ManagerPc.inside])
    refine canStep_of_move hexit (.manager none) rfl ?_
    simp only [move, managerStep, hp]
    exact ⟨_, lock_of_free _ _ hfree⟩
  | signal =>
    obtain ⟨w, pc, hpc⟩ := exists_signal WorkerPc.waits WorkerPc.wake s.worker
    refine canStep_of_move hexit (.manager w) rfl ?_
    simp only [move, managerStep, hp, hpc]
    exact ⟨_, rfl⟩
  | test f =>
    refine canStep_of_move hexit (.manager none) rfl ?_
    simp only [move, managerStep, hp]
    split_ifs <;> exact ⟨_, rfl⟩
  | _ =>
    refine canStep_of_move hexit (.manager none) rfl ?_
    simp only [move, managerStep, hp]
    exact ⟨_, rfl⟩

/-- A worker is stopped only by the mutex, a wait and the barrier. -/
lemma canStep_worker {n : ℕ} {s : State n} (hexit : s.main ≠ .exited) (i : Fin n)
    (hm : s.mutex = none ∨ (s.worker i).inside = true) (hw : s.worker i ≠ .waiting)
    (hb : (s.worker i).arrived = false) : s.CanStep := by
  refine canStep_of_move hexit (.worker i 0) rfl ?_
  simp only [move, workerStep]
  cases hp : s.worker i with
  | waiting => exact absurd hp hw
  | barrier | finished => simp [hp, WorkerPc.arrived] at hb
  | lock | woken | bytesLock _ _ | countLock =>
    exact ⟨_, lock_of_free _ _ (hm.resolve_right (by simp [hp, WorkerPc.inside]))⟩
  | test =>
    dsimp only
    split_ifs <;> exact ⟨_, rfl⟩
  | _ => exact ⟨_, rfl⟩

lemma canStep_main {n : ℕ} {s : State n} (hm : s.main.inside = true) : s.CanStep := by
  have hexit : s.main ≠ .exited := fun he => by simp [he, MainPc.inside] at hm
  refine canStep_of_move hexit .main rfl ?_
  simp only [move, mainStep]
  cases hp : s.main with
  | sigDone | sigBroadcast | sigUnlock => exact ⟨_, rfl⟩
  | _ => simp [hp, MainPc.inside] at hm

/-- When everybody has arrived at the barrier, who has not passed it can. -/
lemma Live.canStep_barrier {n : ℕ} {s : State n} (h : Live s) (hfin : ¬ s.Finished)
    (hmanager : s.manager.arrived = true) (hworker : ∀ i, (s.worker i).arrived = true) :
    s.CanStep := by
  simp only [State.Finished, not_or, not_and] at hfin
  have hfull := h.arrived_eq_iff.mpr ⟨hmanager, hworker⟩
  by_cases hm : s.manager = .finished
  · obtain ⟨i, hi⟩ := not_forall.mp (hfin.2 hm)
    refine canStep_of_move hfin.1 (.worker i 0) rfl ?_
    have hw := hworker i
    cases hp : s.worker i with
    | barrier =>
      simp only [move, CopyBuffer.workerStep, hp]
      exact ⟨_, if_pos hfull⟩
    | finished => exact absurd hp hi
    | _ => simp [hp, WorkerPc.arrived] at hw
  · refine canStep_of_move hfin.1 (.manager none) rfl ?_
    cases hp : s.manager with
    | barrier =>
      simp only [move, CopyBuffer.managerStep, hp]
      exact ⟨_, if_pos hfull⟩
    | finished => exact absurd hp hm
    | _ => simp [hp, ManagerPc.arrived] at hmanager

/-- With the mutex free somebody can go on: a manager that waits for room leaves a
worker to make some, and nobody waits for files when the manager has arrived. -/
lemma Live.canStep_of_free {n : ℕ} {s : State n} (h : Live s) (hi : Inv s)
    (hfin : ¬ s.Finished) (hfree : s.mutex = none) : s.CanStep := by
  have hexit : s.main ≠ .exited := fun he => hfin (Or.inl he)
  have hout := owns_none.mp (hfree ▸ hi.owns)
  by_contra hstuck
  have hworker : ∀ i, s.worker i = .waiting ∨ (s.worker i).arrived = true := by
    intro i
    by_contra hw
    rw [not_or, Bool.not_eq_true] at hw
    exact hstuck (canStep_worker hexit i (Or.inl hfree) hw.1 hw.2)
  have hmanager : (∃ f, s.manager = .waiting f) ∨ s.manager.arrived = true := by
    by_contra hm
    rw [not_or, Bool.not_eq_true, not_exists] at hm
    exact hstuck (canStep_manager hexit (Or.inl hfree) hm.1 hm.2)
  rcases hmanager with ⟨f, hm⟩ | hm
  · have hfull : s.buffer.count = s.buffer.size := by
      refine (h.room f hm).resolve_right ?_
      rintro ⟨i, g, hg⟩
      have hin := hout (.worker i)
      simp [State.inside, hg, WorkerPc.inside] at hin
    have hpos : 0 < s.buffer.count := by
      have hlt := hi.wf.head_lt
      omega
    rcases h.served hpos with hs | ⟨i, hactive⟩
    · cases hm.symm.trans hs
    · rcases hworker i with hw | hw
      · simp [hw, WorkerPc.active] at hactive
      · cases hp : s.worker i <;> simp_all [WorkerPc.arrived, WorkerPc.active, WorkerPc.left]
  · refine hstuck (h.canStep_barrier hfin hm fun i => (hworker i).resolve_left fun hw => ?_)
    have hdone : s.done = true := h.ended (by cases hp : s.manager <;> simp_all [
      ManagerPc.arrived, ManagerPc.ended])
    rcases h.called i hw with hs | hs | hs
    · simp [hdone] at hs
    · simp [hs, ManagerPc.arrived] at hm
    · have hin := hout .main
      simp [State.inside, hs, MainPc.inside] at hin

/-- The process cannot get stuck: as long as the manager or a worker has not
returned, some thread can take a step, whenever SIGINT came. -/
theorem never_stuck {n size : ℕ} {junk : ℕ → FileInformation} (hn : 0 < n) (hsize : 0 < size)
    {s : State n} (hr : Reachable size junk s) (hfin : ¬ s.Finished) : s.CanStep := by
  have hi := reachable_inv hsize hr
  have h := reachable_live hn hsize hr
  have hexit : s.main ≠ .exited := fun he => hfin (Or.inl he)
  cases hm : s.mutex with
  | none => exact h.canStep_of_free hi hfin hm
  | some t =>
    have hin := (hi.owns t).mp hm
    cases t with
    | manager =>
      refine canStep_manager hexit (Or.inr hin) (fun f hf => ?_) ?_
      · simp [State.inside, hf, ManagerPc.inside] at hin
      · cases hp : s.manager <;> simp_all [State.inside, ManagerPc.inside, ManagerPc.arrived]
    | worker i =>
      refine canStep_worker hexit i (Or.inr hin) (fun hw => ?_) ?_
      · simp [State.inside, hw, WorkerPc.inside] at hin
      · cases hp : s.worker i <;> simp_all [State.inside, WorkerPc.inside, WorkerPc.arrived]
    | main => exact canStep_main hin

/-- The manager waits for room, the worker is about to copy a file, and the main
thread is in the handler and joins the worker. -/
theorem never_stuck_in_handler : ∃ s : State 1, s.main = .sigJoin 0 ∧
    s.manager = .waiting ⟨5, 6, ['b'], ['d']⟩ ∧ s.buffer.count = 1 ∧ s.CanStep := by
  have hr : Reachable (n := 1) 1 (fun _ => ⟨0, 0, [], []⟩) _ := reach_of_run
    [.tryAdd ⟨3, 4, ['a'], ['c']⟩, .manager none, .manager none, .manager none, .manager none,
      .manager none, .tryAdd ⟨5, 6, ['b'], ['d']⟩, .manager none, .manager none, .sigint, .main,
      .main, .main, .main] rfl
  exact ⟨_, by rfl, by rfl, by rfl, never_stuck (by decide) (by decide) hr (by
    rintro (hexit | ⟨hmanager, -⟩)
    · cases hexit
    · cases hmanager)⟩

/-- The next statement locks or unlocks the mutex, waits for, signals or
broadcasts a condition variable, or accesses the buffer. -/
def ManagerPc.usesBuffer : ManagerPc → Bool
  | .scan | .dropClose _ | .endDone | .arrive | .barrier | .finished => false
  | _ => true

def WorkerPc.usesBuffer : WorkerPc → Bool
  | .copy _ | .bytesAdd _ _ | .closeSrc _ | .closeDst _ | .count | .arrive | .barrier
  | .finished => false
  | _ => true

/-- The manager is past its last use of the buffer and the workers have returned. -/
structure Stopped {n : ℕ} (s : State n) : Prop where
  manager : s.manager.arrived = true
  worker : ∀ i, s.worker i = .finished

lemma Stopped.step {n : ℕ} {s t : State n} {a : Act n} (h : Stopped s)
    (hst : step s a = some t) : Stopped t := by
  have hmanager := h.manager
  have hworker := h.worker
  simp only [CopyBuffer.step] at hst
  split_ifs at hst
  cases a with
  | tryAdd f | endTraversal =>
    simp only [move] at hst
    split_ifs at hst with hp
    simp [hp, ManagerPc.arrived] at hmanager
  | manager w =>
    simp only [move, managerStep] at hst
    cases hp : s.manager with
    | barrier =>
      simp only [hp] at hst
      split_ifs at hst
      cases hst
      exact ⟨rfl, hworker⟩
    | finished => simp [hp] at hst
    | _ => simp [hp, ManagerPc.arrived] at hmanager
  | worker i nread => simp [move, workerStep, hworker i] at hst
  | main =>
    simp only [move, mainStep, State.lock] at hst
    split at hst
    case h_5 =>
      cases hst
      exact ⟨hmanager, fun i => by simp [broadcast, hworker i, WorkerPc.waits]⟩
    all_goals try split_ifs at hst
    all_goals first
      | (cases hst; exact ⟨hmanager, hworker⟩)
      | cases hst
  | sigint =>
    simp only [move] at hst
    split at hst
    all_goals first
      | (cases hst; exact ⟨hmanager, hworker⟩)
      | cases hst
  | spuriousManager =>
    cases hst
    refine ⟨?_, hworker⟩
    cases hp : s.manager <;> simp_all [ManagerPc.arrived, ManagerPc.wake]
  | spuriousWorker i => simp [move, hworker i] at hst

/-- When the handler or the main thread comes to `cleanup`, the workers were all
joined, and as they have passed the barrier the manager has reached it. -/
lemma Live.stopped {n : ℕ} (hn : 0 < n) {s : State n} (h : Live s) (hclean : s.main = .cleanup) :
    Stopped s := by
  have hjoined : ∀ i, s.worker i = .finished := fun i => h.joined i (by rw [hclean]; exact i.isLt)
  exact ⟨(h.opened (Or.inr ⟨⟨0, hn⟩, hjoined _⟩)).1, hjoined⟩

/-- Once `cleanup` starts, neither the manager nor a worker uses the mutex, a
condition variable or the buffer any more, in whatever way the run goes on. -/
theorem torn_down_last {n size : ℕ} {junk : ℕ → FileInformation} (hn : 0 < n) (hsize : 0 < size)
    {s t : State n} (hr : Reachable size junk s) (hclean : s.main = .cleanup)
    (hst : Reach step always s t) :
    t.manager.usesBuffer = false ∧ ∀ i, (t.worker i).usesBuffer = false := by
  have hstopped : Stopped t := hst.invariant ((reachable_live hn hsize hr).stopped hn hclean)
    fun _ _ _ h _ hstep => h.step hstep
  constructor
  · have hmanager := hstopped.manager
    cases hp : t.manager <;> simp_all [ManagerPc.arrived, ManagerPc.usesBuffer]
  · intro i
    rw [hstopped.worker i]
    rfl

/-- SIGINT comes while the manager looks for files: the handler joins the worker
and calls `cleanup` while the manager is still at the barrier. -/
theorem torn_down_last_interrupted : ∃ t : State 1, t.manager = .finished ∧ t.main = .cleanup ∧
    t.manager.usesBuffer = false ∧ ∀ i, (t.worker i).usesBuffer = false := by
  have hr : Reachable (n := 1) 1 (fun _ => ⟨0, 0, [], []⟩) _ := reach_of_run
    [.worker 0 0, .worker 0 0, .sigint, .main, .main, .main, .main, .worker 0 0, .worker 0 0,
      .worker 0 0, .worker 0 0, .endTraversal, .manager none, .manager none, .manager none,
      .manager none, .manager none, .worker 0 0, .main, .main] rfl
  exact ⟨_, by rfl, by rfl, torn_down_last (by decide) (by decide) hr (by rfl)
    (reach_of_run [.manager none] rfl)⟩

end SystemProgramming.CopyBuffer
