import SystemProgramming.CopyBufferProgress

/-!
# The copy program without a barrier and its handler

The earlier version of the copy program has no barrier: the manager and the
workers return after their last unlock. Everything else they do is as in the later
version, and so is the handler of SIGINT, which raises `done`, joins the workers,
calls `cleanup`, prints the statistics and exits. It does not join the manager.
SIGINT comes while the main thread waits for the manager.
-/
namespace SystemProgramming.HandlerTeardown
open SystemProgramming.Transition SystemProgramming.CopyBuffer SystemProgramming.Monitor

/-- `tornDown` says that `cleanup` has freed the buffer and destroyed the mutex and
the condition variables. -/
structure Process (n : ℕ) where
  shared : State n
  tornDown : Bool

/-- The manager returns where it would go on to the barrier. -/
def managerStep {n : ℕ} (s : State n) (w : Option (Fin n)) : Option (State n) :=
  match s.manager with
  | .endUnlock => some { s with mutex := none, manager := .finished }
  | _ => CopyBuffer.managerStep s w

/-- A worker returns where it would go on to the barrier. -/
def workerStep {n : ℕ} (s : State n) (i : Fin n) (nread : ℕ) : Option (State n) :=
  match s.worker i with
  | .leaveUnlock => some { s.setWorker i .finished with mutex := none }
  | _ => CopyBuffer.workerStep s i nread

/-- `cleanup` is a statement of its own, before the statistics are printed. -/
def mainStep {n : ℕ} (p : Process n) : Option (Process n) :=
  if p.shared.main = .cleanup ∧ p.tornDown = false then some { p with tornDown := true }
  else (CopyBuffer.mainStep p.shared).map fun s => { p with shared := s }

def move {n : ℕ} (p : Process n) : Act n → Option (Process n)
  | .manager w => (managerStep p.shared w).map fun s => { p with shared := s }
  | .worker i nread => (workerStep p.shared i nread).map fun s => { p with shared := s }
  | .main => mainStep p
  | .sigint =>
    if p.shared.main = .joinManager then
      some { p with shared := { p.shared with main := .sigLock } }
    else none
  | a => (CopyBuffer.move p.shared a).map fun s => { p with shared := s }

/-- One step of the process, which ends all threads when it exits. -/
def step {n : ℕ} (p : Process n) (a : Act n) : Option (Process n) :=
  if p.shared.main = .exited then none else move p a

def init (n size : ℕ) (junk : ℕ → FileInformation) : Process n :=
  ⟨CopyBuffer.init n size junk, false⟩

abbrev Reachable {n : ℕ} (size : ℕ) (junk : ℕ → FileInformation) (p : Process n) : Prop :=
  Reach step always (init n size junk) p

/-- Neither the manager nor a worker is about to use the mutex, a condition variable
or the buffer. -/
def Unused {n : ℕ} (s : State n) : Prop :=
  s.manager.usesBuffer = false ∧ ∀ i, (s.worker i).usesBuffer = false

/-- What a step leaves: a thread that has returned stays so, and the manager does
not come to a barrier. -/
structure Keeps {n : ℕ} (s t : State n) : Prop where
  manager : s.manager = .finished → t.manager = .finished
  worker : ∀ i, s.worker i = .finished → t.worker i = .finished
  barrier : s.manager ≠ .arrive → s.manager ≠ .barrier →
    t.manager ≠ .arrive ∧ t.manager ≠ .barrier

lemma Keeps.of_manager {n : ℕ} {s t : State n} (hm : t.manager = s.manager)
    (hw : ∀ i, s.worker i = .finished → t.worker i = .finished) : Keeps s t :=
  ⟨fun h => hm.trans h, hw, fun ha hb => by rw [hm]; exact ⟨ha, hb⟩⟩

lemma finished_of_woken {n : ℕ} {pc pc' : Fin n → WorkerPc}
    (h : Woken WorkerPc.waits WorkerPc.wake pc pc') (i : Fin n) (hi : pc i = .finished) :
    pc' i = .finished := by
  rcases h i with heq | ⟨hwaits, -⟩
  · rw [heq, hi]
  · simp [hi, WorkerPc.waits] at hwaits

lemma keeps_managerStep {n : ℕ} {s t : State n} {w : Option (Fin n)}
    (hst : managerStep s w = some t) : Keeps s t ∧ t.main = s.main := by
  unfold managerStep at hst
  split at hst
  · cases hst
    exact ⟨⟨fun _ => rfl, fun i hi => hi, by simp⟩, rfl⟩
  · rename_i hend
    cases hp : s.manager with
    | scan | waiting _ | finished => simp [CopyBuffer.managerStep, hp] at hst
    | lock _ | woken _ | endLock =>
      simp only [CopyBuffer.managerStep, hp] at hst
      obtain ⟨-, rfl⟩ := lock_eq_some hst
      exact ⟨⟨by simp [hp], fun i hi => hi, by simp⟩, rfl⟩
    | test _ =>
      simp only [CopyBuffer.managerStep, hp] at hst
      split_ifs at hst <;> cases hst <;>
        exact ⟨⟨by simp [hp], fun i hi => hi, by simp⟩, rfl⟩
    | signal =>
      simp only [CopyBuffer.managerStep, hp] at hst
      obtain ⟨pc, hpc, rfl⟩ := Option.map_eq_some_iff.mp hst
      exact ⟨⟨by simp [hp], finished_of_woken (woken_signal hpc), by simp⟩, rfl⟩
    | endBroadcast =>
      simp only [CopyBuffer.managerStep, hp] at hst
      cases hst
      exact ⟨⟨by simp [hp], finished_of_woken (woken_broadcast _ _ _), by simp⟩, rfl⟩
    | endUnlock => exact absurd hp hend
    | barrier =>
      simp only [CopyBuffer.managerStep, hp] at hst
      split_ifs at hst
      cases hst
      exact ⟨⟨fun _ => rfl, fun i hi => hi, by simp⟩, rfl⟩
    | arrive =>
      simp only [CopyBuffer.managerStep, hp] at hst
      cases hst
      exact ⟨⟨by simp [hp], fun i hi => hi, by simp [hp]⟩, rfl⟩
    | _ =>
      simp only [CopyBuffer.managerStep, hp] at hst
      cases hst
      exact ⟨⟨by simp [hp], fun i hi => hi, by simp⟩, rfl⟩

lemma finished_setWorker {n : ℕ} {s : State n} {i : Fin n} (hi : s.worker i ≠ .finished)
    (q : WorkerPc) (j : Fin n) (hj : s.worker j = .finished) :
    (s.setWorker i q).worker j = .finished := by
  have hji : j ≠ i := by
    rintro rfl
    exact hi hj
  exact (Function.update_of_ne hji _ _).trans hj

lemma keeps_worker {n : ℕ} {s : State n} {i : Fin n} (hi : s.worker i ≠ .finished)
    {t : State n} (q : WorkerPc) (hm : t.manager = s.manager)
    (hw : t.worker = (s.setWorker i q).worker) : Keeps s t :=
  .of_manager hm fun j hj => by rw [hw]; exact finished_setWorker hi q j hj

lemma keeps_workerStep {n : ℕ} {s t : State n} {i : Fin n} {nread : ℕ}
    (hst : workerStep s i nread = some t) : Keeps s t ∧ t.main = s.main := by
  unfold workerStep at hst
  split at hst
  · rename_i hp
    cases hst
    exact ⟨keeps_worker (by simp [hp]) .finished rfl rfl, rfl⟩
  · rename_i hleave
    cases hp : s.worker i with
    | waiting | finished => simp [CopyBuffer.workerStep, hp] at hst
    | lock | woken | bytesLock _ _ | countLock =>
      simp only [CopyBuffer.workerStep, hp] at hst
      obtain ⟨-, rfl⟩ := lock_eq_some hst
      exact ⟨keeps_worker (by simp [hp]) _ rfl rfl, rfl⟩
    | test | copy _ =>
      simp only [CopyBuffer.workerStep, hp] at hst
      split_ifs at hst <;> cases hst <;>
        exact ⟨keeps_worker (by simp [hp]) _ rfl rfl, rfl⟩
    | leaveUnlock => exact absurd hp hleave
    | signal f =>
      simp only [CopyBuffer.workerStep, hp] at hst
      cases hst
      refine ⟨⟨fun hm => ?_, finished_setWorker (by simp [hp]) _, fun ha hb => ?_⟩, rfl⟩
      · simp [hm, ManagerPc.wake]
      · cases hm : s.manager <;> simp_all [ManagerPc.wake]
    | barrier =>
      simp only [CopyBuffer.workerStep, hp] at hst
      split_ifs at hst
      cases hst
      exact ⟨keeps_worker (by simp [hp]) _ rfl rfl, rfl⟩
    | _ =>
      simp only [CopyBuffer.workerStep, hp] at hst
      cases hst
      exact ⟨keeps_worker (by simp [hp]) _ rfl rfl, rfl⟩

/-- Where the main thread is, it has joined so many workers, and no more than there
are. -/
structure Joined {n : ℕ} (s : State n) : Prop where
  worker : ∀ i : Fin n, i.val < s.main.joined n → s.worker i = .finished
  le : s.main.joined n ≤ n
  barrier : s.manager ≠ .arrive ∧ s.manager ≠ .barrier

lemma Joined.keep {n : ℕ} {s t : State n} (h : Joined s) (hk : Keeps s t)
    (hmain : t.main = s.main) : Joined t :=
  ⟨fun i hi => hk.worker i (h.worker i (by rwa [hmain] at hi)), by rw [hmain]; exact h.le,
    hk.barrier h.barrier.1 h.barrier.2⟩

lemma keeps_mainStep {n : ℕ} {s t : State n} (hst : CopyBuffer.mainStep s = some t) :
    Keeps s t := by
  cases hp : s.main with
  | sigBroadcast =>
    simp only [CopyBuffer.mainStep, hp] at hst
    cases hst
    exact .of_manager rfl (finished_of_woken (woken_broadcast _ _ _))
  | sigLock =>
    simp only [CopyBuffer.mainStep, hp] at hst
    obtain ⟨-, rfl⟩ := lock_eq_some hst
    exact .of_manager rfl fun i hi => hi
  | joinManager | joinWorker _ | sigJoin _ =>
    simp only [CopyBuffer.mainStep, hp] at hst
    split_ifs at hst <;> cases hst <;> exact .of_manager rfl fun i hi => hi
  | exited => simp [CopyBuffer.mainStep, hp] at hst
  | _ =>
    simp only [CopyBuffer.mainStep, hp] at hst
    cases hst
    exact .of_manager rfl fun i hi => hi

/-- A join lets the main thread go on behind a worker that has returned. -/
lemma joined_mainStep {n : ℕ} {s t : State n} (hst : CopyBuffer.mainStep s = some t)
    (hle : s.main.joined n ≤ n) : t.main.joined n ≤ n ∧
      ∀ i : Fin n, i.val < t.main.joined n → i.val < s.main.joined n ∨ s.worker i = .finished := by
  cases hp : s.main with
  | joinWorker k | sigJoin k =>
    simp only [CopyBuffer.mainStep, hp] at hst
    simp only [hp, MainPc.joined] at hle ⊢
    split_ifs at hst with hk hfin
    · cases hst
      refine ⟨hk, fun i hi => ?_⟩
      rcases Nat.lt_succ_iff_lt_or_eq.mp hi with hlt | rfl
      · exact Or.inl hlt
      · exact Or.inr hfin
    · cases hst
      exact ⟨le_rfl, fun i _ => Or.inl (by omega)⟩
  | sigLock =>
    simp only [CopyBuffer.mainStep, hp] at hst
    obtain ⟨-, rfl⟩ := lock_eq_some hst
    simp [MainPc.joined]
  | joinManager =>
    simp only [CopyBuffer.mainStep, hp] at hst
    split_ifs at hst
    cases hst
    simp [MainPc.joined]
  | exited => simp [CopyBuffer.mainStep, hp] at hst
  | _ =>
    simp only [CopyBuffer.mainStep, hp] at hst
    cases hst
    simp [MainPc.joined]

lemma Joined.mainStep {n : ℕ} {s t : State n} (h : Joined s)
    (hst : CopyBuffer.mainStep s = some t) : Joined t := by
  have hk := keeps_mainStep hst
  obtain ⟨hle, hjoined⟩ := joined_mainStep hst h.le
  exact ⟨fun i hi => hk.worker i ((hjoined i hi).elim (h.worker i) id), hle,
    hk.barrier h.barrier.1 h.barrier.2⟩

/-- The handler comes to `cleanup` only when the manager has returned. -/
def managerReturned {n : ℕ} (p : Process n) : Act n → Prop
  | .main => p.shared.main = .sigJoin n → p.shared.manager = .finished
  | _ => True

instance {n : ℕ} (p : Process n) (a : Act n) : Decidable (managerReturned p a) :=
  match a with
  | .main =>
    inferInstanceAs (Decidable (p.shared.main = .sigJoin n → p.shared.manager = .finished))
  | .tryAdd _ | .endTraversal | .manager _ | .worker _ _ | .sigint | .spuriousManager
  | .spuriousWorker _ => isTrue trivial

/-- What a step of the process does to the shared state. -/
lemma step_cases {n : ℕ} {p q : Process n} {a : Act n} (hst : step p a = some q) :
    (q = { p with tornDown := true } ∧ p.shared.main = .cleanup) ∨
    (q.tornDown = p.tornDown ∧ a = .main ∧ CopyBuffer.mainStep p.shared = some q.shared ∧
      (p.shared.main = .cleanup → p.tornDown = true)) ∨
    (q.tornDown = p.tornDown ∧ a ≠ .main ∧ Keeps p.shared q.shared ∧
      (q.shared.main = p.shared.main ∨
        p.shared.main = .joinManager ∧ q.shared.main = .sigLock)) := by
  unfold step at hst
  split_ifs at hst with hexit
  cases a with
  | manager w =>
    obtain ⟨t, ht, rfl⟩ := Option.map_eq_some_iff.mp hst
    obtain ⟨hk, hmain⟩ := keeps_managerStep ht
    exact Or.inr (Or.inr ⟨rfl, by simp, hk, Or.inl hmain⟩)
  | worker i nread =>
    obtain ⟨t, ht, rfl⟩ := Option.map_eq_some_iff.mp hst
    obtain ⟨hk, hmain⟩ := keeps_workerStep ht
    exact Or.inr (Or.inr ⟨rfl, by simp, hk, Or.inl hmain⟩)
  | main =>
    simp only [move, mainStep] at hst
    split_ifs at hst with hclean
    · cases hst
      exact Or.inl ⟨rfl, hclean.1⟩
    · obtain ⟨t, ht, rfl⟩ := Option.map_eq_some_iff.mp hst
      refine Or.inr (Or.inl ⟨rfl, rfl, ht, fun hmain => ?_⟩)
      simpa [hmain] using hclean
  | sigint =>
    simp only [move] at hst
    split_ifs at hst with hmain
    cases hst
    exact Or.inr (Or.inr ⟨rfl, by simp, .of_manager rfl fun i hi => hi, Or.inr ⟨hmain, rfl⟩⟩)
  | tryAdd f | endTraversal =>
    simp only [move, CopyBuffer.move] at hst
    obtain ⟨t, ht, rfl⟩ := Option.map_eq_some_iff.mp hst
    split_ifs at ht with hscan
    cases ht
    exact Or.inr (Or.inr ⟨rfl, by simp, ⟨by simp [hscan], fun i hi => hi, by simp⟩, Or.inl rfl⟩)
  | spuriousManager =>
    cases hst
    refine Or.inr (Or.inr ⟨rfl, by simp, ⟨fun hm => ?_, fun i hi => hi, fun ha hb => ?_⟩,
      Or.inl rfl⟩)
    · simp [hm, ManagerPc.wake]
    · cases hm : p.shared.manager <;> simp_all [ManagerPc.wake]
  | spuriousWorker i =>
    simp only [move, CopyBuffer.move] at hst
    obtain ⟨t, ht, rfl⟩ := Option.map_eq_some_iff.mp hst
    split_ifs at ht with hw
    cases ht
    exact Or.inr (Or.inr ⟨rfl, by simp, keeps_worker (by simp [hw]) .woken rfl rfl, Or.inl rfl⟩)

lemma Joined.step {n : ℕ} {p q : Process n} {a : Act n} (h : Joined p.shared)
    (hst : step p a = some q) : Joined q.shared := by
  rcases step_cases hst with ⟨rfl, -⟩ | ⟨-, -, hmain, -⟩ | ⟨-, -, hk, hmain | ⟨-, hmain⟩⟩
  · exact h
  · exact h.mainStep hmain
  · exact h.keep hk hmain
  · refine ⟨?_, ?_, hk.barrier h.barrier.1 h.barrier.2⟩ <;> simp [hmain, MainPc.joined]

lemma joined_init {n size : ℕ} {junk : ℕ → FileInformation} :
    Joined (init n size junk).shared := by
  constructor <;> simp [init, CopyBuffer.init, MainPc.joined]

lemma reachable_joined {n size : ℕ} {junk : ℕ → FileInformation} {p : Process n}
    (hr : Reachable size junk p) : Joined p.shared :=
  Reach.invariant (P := fun p => Joined p.shared) hr joined_init fun _ _ _ h _ hst => h.step hst

/-- The main thread is past its join of the manager, or past the joins of the handler. -/
def past : MainPc → Bool
  | .joinWorker _ | .cleanup | .exited => true
  | _ => false

/-- In a run in which the handler does not overtake the manager, everybody has
returned when the resources are released. -/
structure Returned {n : ℕ} (p : Process n) : Prop where
  joined : Joined p.shared
  manager : past p.shared.main = true → p.shared.manager = .finished
  down : p.tornDown = true → p.shared.main = .cleanup ∨ p.shared.main = .exited

lemma past_mainStep {n : ℕ} {s t : State n} (h : Joined s)
    (hok : s.main = .sigJoin n → s.manager = .finished)
    (hst : CopyBuffer.mainStep s = some t) (ht : past t.main = true) :
    past s.main = true ∨ s.manager = .finished := by
  have hle := h.le
  cases hp : s.main with
  | joinManager =>
    simp only [CopyBuffer.mainStep, hp] at hst
    split_ifs at hst with hfin
    exact Or.inr hfin
  | sigJoin k =>
    simp only [CopyBuffer.mainStep, hp] at hst
    simp only [hp, MainPc.joined] at hle
    split_ifs at hst with hk
    · cases hst
      cases ht
    · obtain rfl : k = n := by omega
      exact Or.inr (hok hp)
  | joinWorker _ | cleanup | exited => exact Or.inl rfl
  | sigLock =>
    simp only [CopyBuffer.mainStep, hp] at hst
    obtain ⟨-, rfl⟩ := lock_eq_some hst
    cases ht
  | _ =>
    simp only [CopyBuffer.mainStep, hp] at hst
    cases hst
    cases ht

lemma Returned.step {n : ℕ} {p q : Process n} {a : Act n} (h : Returned p)
    (hok : managerReturned p a) (hst : step p a = some q) : Returned q := by
  refine ⟨h.joined.step hst, ?_, ?_⟩
  · rcases step_cases hst with ⟨rfl, -⟩ | ⟨-, rfl, hmain, -⟩ | ⟨-, -, hk, hmain | ⟨-, hmain⟩⟩
    · exact h.manager
    · intro ht
      exact (keeps_mainStep hmain).manager
        ((past_mainStep h.joined hok hmain ht).elim h.manager id)
    · rw [hmain]
      exact fun hp => hk.manager (h.manager hp)
    · simp [hmain, past]
  · have hdown := h.down
    rcases step_cases hst with ⟨rfl, hclean⟩ | ⟨heq, -, hmain, -⟩ |
      ⟨heq, -, -, hmain | ⟨hjoin, -⟩⟩
    · exact fun _ => Or.inl hclean
    · intro ht
      rcases hdown (heq ▸ ht) with hclean | hexit
      · simp only [CopyBuffer.mainStep, hclean, Option.some.injEq] at hmain
        rw [← hmain]
        exact Or.inr rfl
      · simp [CopyBuffer.mainStep, hexit] at hmain
    · rwa [heq, hmain]
    · rw [heq]
      intro ht
      simp [hjoin] at hdown
      simp [hdown] at ht

/-- The manager and the workers have returned. -/
def AllReturned {n : ℕ} (p : Process n) : Prop :=
  p.shared.manager = .finished ∧ ∀ i, p.shared.worker i = .finished

lemma AllReturned.step {n : ℕ} {p q : Process n} {a : Act n} (h : AllReturned p)
    (hst : step p a = some q) : AllReturned q := by
  have hkeep (hk : Keeps p.shared q.shared) : AllReturned q :=
    ⟨hk.manager h.1, fun i => hk.worker i (h.2 i)⟩
  rcases step_cases hst with ⟨rfl, -⟩ | ⟨-, -, hmain, -⟩ | ⟨-, -, hk, -⟩
  · exact h
  · exact hkeep (keeps_mainStep hmain)
  · exact hkeep hk

lemma AllReturned.unused {n : ℕ} {p : Process n} (h : AllReturned p) : Unused p.shared :=
  ⟨by rw [h.1]; rfl, fun i => by rw [h.2 i]; rfl⟩

/-- A manager that has not returned when `cleanup` starts goes on to its next use of
the mutex, even behind `cleanup`. -/
lemma exists_use {n : ℕ} {p : Process n} (h : Joined p.shared) (hclean : p.shared.main = .cleanup)
    (hdown : p.tornDown = false) (hback : p.shared.manager ≠ .finished) :
    ∃ q, Reach step always p q ∧ q.tornDown = true ∧ q.shared.manager.usesBuffer = true := by
  have hrun : run step [.main] p = some { p with tornDown := true } := by
    simp [run, step, move, mainStep, hclean, hdown]
  have hreach := reach_of_run _ hrun
  have hbarrier := h.barrier
  cases hp : p.shared.manager with
  | scan =>
    have hnext : run step [.endTraversal] { p with tornDown := true } =
        some ⟨{ p.shared with manager := .endLock }, true⟩ := by
      simp [run, step, move, CopyBuffer.move, hclean, hp]
    exact ⟨_, hreach.trans (reach_of_run _ hnext), rfl, rfl⟩
  | dropClose f =>
    have hnext : run step [.manager none, .endTraversal] { p with tornDown := true } =
        some ⟨{ p.shared with manager := .endLock }, true⟩ := by
      simp [run, step, move, managerStep, CopyBuffer.managerStep, CopyBuffer.move, hclean, hp]
    exact ⟨_, hreach.trans (reach_of_run _ hnext), rfl, rfl⟩
  | endDone =>
    have hnext : run step [.manager none] { p with tornDown := true } =
        some ⟨{ p.shared with done := true, manager := .endBroadcast }, true⟩ := by
      simp [run, step, move, managerStep, CopyBuffer.managerStep, hclean, hp]
    exact ⟨_, hreach.trans (reach_of_run _ hnext), rfl, rfl⟩
  | arrive => exact absurd hp hbarrier.1
  | barrier => exact absurd hp hbarrier.2
  | finished => exact absurd hp hback
  | _ => exact ⟨_, hreach, rfl, by simp [hp, ManagerPc.usesBuffer]⟩

/-- The process tears down last in every run in which the manager has returned when
the handler comes to `cleanup`; and where it has not, it goes on to use what `cleanup`
has released. -/
theorem unused_after_cleanup {n size : ℕ} {junk : ℕ → FileInformation} :
    (∀ p : Process n, Reach step managerReturned (init n size junk) p → p.tornDown = true →
      Unused p.shared) ∧
    ∀ p : Process n, Reachable size junk p → p.shared.main = .cleanup → p.tornDown = false →
      ((∀ q, Reach step always p q → q.tornDown = true → Unused q.shared) ↔
        p.shared.manager = .finished) := by
  constructor
  · intro p hr hdown
    have h : Returned p := Reach.invariant hr
      ⟨joined_init, by simp [init, CopyBuffer.init, past], by simp [init]⟩
      fun _ _ _ h hok hst => h.step hok hst
    have hmain := h.down hdown
    have hall : AllReturned p := by
      refine ⟨h.manager ?_, fun i => h.joined.worker i ?_⟩
      · rcases hmain with hp | hp <;> rw [hp] <;> rfl
      · rcases hmain with hp | hp <;> rw [hp] <;> exact i.isLt
    exact hall.unused
  · intro p hr hclean hdown
    have h := reachable_joined hr
    constructor
    · intro hunused
      by_contra hback
      obtain ⟨q, hq, hqdown, huse⟩ := exists_use h hclean hdown hback
      simp [(hunused q hq hqdown).1] at huse
    · intro hback q hq _
      have hall : AllReturned p := ⟨hback, fun i => h.worker i (by rw [hclean]; exact i.isLt)⟩
      exact AllReturned.unused (hq.invariant hall fun _ _ _ h _ hst => h.step hst)

/-- SIGINT comes when the manager has returned and the main thread has not noticed. -/
theorem unused_after_cleanup_interrupted : ∃ p : Process 1, p.shared.done = true ∧
    p.tornDown = true ∧ Unused p.shared := by
  have hr : Reach step managerReturned (init 1 1 fun _ => ⟨0, 0, [], []⟩) _ :=
    reach_of_checked_run
      [.endTraversal, .manager none, .manager none, .manager none, .manager none, .sigint, .main,
        .main, .main, .main, .worker 0 0, .worker 0 0, .worker 0 0, .main, .main, .main] rfl
  exact ⟨_, by rfl, by rfl, unused_after_cleanup.1 _ hr (by rfl)⟩

/-- SIGINT comes while the manager looks for files. The worker leaves and is joined,
`cleanup` destroys the mutex, and the manager, at the end of its traversal, locks it. -/
theorem locks_destroyed_mutex : ∃ p q : Process 1, Reachable 1 (fun _ => ⟨0, 0, [], []⟩) p ∧
    p.tornDown = true ∧ p.shared.manager = .endLock ∧ step p (.manager none) = some q ∧
    q.shared.mutex = some .manager ∧ ¬ Unused p.shared := by
  refine ⟨_, _, reach_of_run [.sigint, .main, .main, .main, .main, .worker 0 0, .worker 0 0,
    .worker 0 0, .main, .main, .main, .endTraversal] rfl, by rfl, by rfl, rfl, by rfl, ?_⟩
  rintro ⟨hmanager, -⟩
  cases hmanager

end SystemProgramming.HandlerTeardown
