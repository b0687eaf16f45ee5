import Mathlib.Algebra.BigOperators.Fin
import SystemProgramming.CopyBufferProgress

/-!
# Where the opened files are

A file that the manager has opened is in its hand, then in the buffer, then with
one worker, which copies it, closes its source and closes its destination. Most
statements leave every file where it is: they are quiet. While no signal comes
the manager drops nothing, and `done` is up only after the traversal.
-/
namespace SystemProgramming.CopyBuffer
open SystemProgramming.Transition SystemProgramming.Monitor
open scoped BigOperators

/-- The file that the manager has opened and not yet added or closed. -/
def ManagerPc.hand : ManagerPc → List FileInformation
  | .lock f | .test f | .waiting f | .woken f | .add f | .dropUnlock f | .dropClose f => [f]
  | _ => []

/-- The files opened so far, in order. -/
def State.opened {n : ℕ} (s : State n) : List FileInformation := s.added ++ s.manager.hand

/-- The opened files that no worker has taken. -/
def State.waiting {n : ℕ} (s : State n) : List FileInformation :=
  s.buffer.files ++ s.manager.hand

inductive Phase where
  | copying
  | closingSrc
  | closingDst
  deriving DecidableEq, Repr

/-- The file that a worker has taken and not yet closed. -/
def WorkerPc.stage : WorkerPc → Option (Phase × FileInformation)
  | .signal f | .unlock f | .copy f | .bytesLock f _ | .bytesAdd f _ | .bytesUnlock f =>
    some (.copying, f)
  | .closeSrc f => some (.closingSrc, f)
  | .closeDst f => some (.closingDst, f)
  | _ => none

/-- Bytes written and not yet added to the total. -/
def WorkerPc.owed : WorkerPc → ℕ
  | .bytesLock _ k | .bytesAdd _ k => k
  | _ => 0

def State.bytes {n : ℕ} (s : State n) : ℕ := s.totalBytesCopied + ∑ i, (s.worker i).owed

lemma mem_unclosed_of_stage {pc : WorkerPc} {ph : Phase} {f : FileInformation}
    (h : pc.stage = some (ph, f)) : f ∈ pc.unclosed := by
  cases pc <;> simp_all [WorkerPc.stage, WorkerPc.unclosed, WorkerPc.uncopied]

lemma mem_uncopied_of_stage {pc : WorkerPc} {f : FileInformation}
    (h : pc.stage = some (.copying, f)) : f ∈ pc.uncopied := by
  cases pc <;> simp_all [WorkerPc.stage, WorkerPc.uncopied]

lemma Inv.opened_eq {n : ℕ} {s : State n} (h : Inv s) :
    s.opened = s.taken.map Prod.snd ++ s.waiting := by
  rw [State.opened, h.sequence, State.waiting, List.append_assoc]

lemma Inv.takenBy_of_stage {n : ℕ} {s : State n} (h : Inv s) {i : Fin n} {ph : Phase}
    {f : FileInformation} (hf : (s.worker i).stage = some (ph, f)) : f ∈ s.takenBy i := by
  rw [h.closed i]
  exact List.mem_append_right _ (mem_unclosed_of_stage hf)

/-- A file that waits is not one that was taken. -/
lemma Inv.name_ne_of_waiting {n : ℕ} {s : State n} (h : Inv s)
    (hnodup : (s.opened.map FileInformation.srcName).Nodup) {i : Fin n} {f g : FileInformation}
    (hf : f ∈ s.waiting) (hg : g ∈ s.takenBy i) : f.srcName ≠ g.srcName := by
  rw [h.opened_eq, List.map_append, List.nodup_append] at hnodup
  obtain ⟨r, hr, rfl⟩ := List.mem_map.mp hg
  have htaken : r.2 ∈ s.taken.map Prod.snd := List.mem_map_of_mem (List.mem_filter.mp hr).1
  exact (hnodup.2.2 _ (List.mem_map_of_mem htaken) _ (List.mem_map_of_mem hf)).symm

/-- Different workers have taken different files. -/
lemma Inv.name_ne_of_takenBy {n : ℕ} {s : State n} (h : Inv s)
    (hnodup : (s.opened.map FileInformation.srcName).Nodup) {i j : Fin n} (hij : i ≠ j)
    {f g : FileInformation} (hf : f ∈ s.takenBy i) (hg : g ∈ s.takenBy j) :
    f.srcName ≠ g.srcName := by
  rw [h.opened_eq, List.map_append, List.nodup_append, List.map_map] at hnodup
  obtain ⟨r, hr, rfl⟩ := List.mem_map.mp hf
  obtain ⟨q, hq, rfl⟩ := List.mem_map.mp hg
  obtain ⟨hrt, hri⟩ := List.mem_filter.mp hr
  obtain ⟨hqt, hqj⟩ := List.mem_filter.mp hq
  intro heq
  have hrq : r = q := List.inj_on_of_nodup_map hnodup.1 hrt hqt heq
  simp only [decide_eq_true_eq] at hri hqj
  exact hij (by rw [← hri, ← hqj, hrq])

/-- A file that is still being copied was not copied. -/
lemma Inv.name_ne_of_copied {n : ℕ} {s : State n} (h : Inv s)
    (hnodup : (s.opened.map FileInformation.srcName).Nodup) {i j : Fin n} {f g : FileInformation}
    (hf : f ∈ s.copied i) (hg : g ∈ (s.worker j).uncopied) : f.srcName ≠ g.srcName := by
  have hfi : f ∈ s.takenBy i := by
    rw [h.copied i]
    exact List.mem_append_left _ hf
  have hgj : g ∈ s.takenBy j := by
    rw [h.copied j]
    exact List.mem_append_right _ hg
  rcases eq_or_ne i j with rfl | hij
  · have hsub : ((s.takenBy i).map FileInformation.srcName).Nodup := by
      rw [h.opened_eq, List.map_append] at hnodup
      refine (List.nodup_append.mp hnodup).1.sublist ?_
      exact (List.filter_sublist.map Prod.snd).map FileInformation.srcName
    rw [h.copied i, List.map_append, List.nodup_append] at hsub
    exact hsub.2.2 _ (List.mem_map_of_mem hf) _ (List.mem_map_of_mem hg)
  · exact h.name_ne_of_takenBy hnodup hij hfi hgj

/-- All files are where they were. -/
structure Quiet {n : ℕ} (s t : State n) : Prop where
  opened : t.opened = s.opened
  waiting : t.waiting = s.waiting
  stage : ∀ i, (t.worker i).stage = (s.worker i).stage
  copied : t.copied = s.copied
  bytes : t.bytes = s.bytes
  copy : ∀ i f, s.worker i = .copy f → t.worker i = .copy f

lemma Quiet.refl {n : ℕ} (s : State n) : Quiet s s :=
  ⟨rfl, rfl, fun _ => rfl, rfl, rfl, fun _ _ hf => hf⟩

/-- One worker's move changes a sum over the workers by its own contribution. -/
lemma sum_worker {n : ℕ} (g : WorkerPc → ℕ) (pc : Fin n → WorkerPc) (i : Fin n) (q : WorkerPc) :
    ∑ j, g (Function.update pc i q j) + g (pc i) = ∑ j, g (pc j) + g q := by
  have hrest : ∑ j ∈ Finset.univ.erase i, g (Function.update pc i q j) =
      ∑ j ∈ Finset.univ.erase i, g (pc j) := by
    apply Finset.sum_congr rfl
    intro j hj
    rw [Function.update_of_ne (Finset.ne_of_mem_erase hj)]
  rw [← Finset.add_sum_erase _ _ (Finset.mem_univ i),
    ← Finset.add_sum_erase _ (fun j => g (pc j)) (Finset.mem_univ i), hrest,
    Function.update_self]
  omega

/-- The manager moves with the same file in its hand. -/
lemma quiet_manager {n : ℕ} {s : State n} {p : ManagerPc} (hp : s.manager = p) (q : ManagerPc)
    (m : Option (Thread n)) (d : Bool) (arrived : ℕ) (hand : q.hand = p.hand) :
    Quiet s { s with mutex := m, done := d, arrived := arrived, manager := q } := by
  subst hp
  refine ⟨?_, ?_, fun i => rfl, rfl, rfl, fun i f hf => hf⟩
  · simp only [State.opened, hand]
  · simp only [State.waiting, hand]

/-- A worker moves with its file in the same stage. -/
lemma quiet_worker {n : ℕ} {s : State n} {i : Fin n} {p : WorkerPc} (hp : s.worker i = p)
    (q : WorkerPc) (m : Option (Thread n)) (k total arrived : ℕ) (hstage : q.stage = p.stage)
    (howed : total + q.owed = s.totalBytesCopied + p.owed) (hcopy : ∀ f, p ≠ .copy f) :
    Quiet s { s with
      mutex := m, worker := Function.update s.worker i q, numFilesCopied := k
      totalBytesCopied := total, arrived := arrived } := by
  subst hp
  refine ⟨rfl, rfl, apply_update_eq hstage, rfl, ?_, fun j f hf => ?_⟩
  · have hsum := sum_worker WorkerPc.owed s.worker i q
    simp only [State.bytes]
    omega
  · rcases eq_or_ne j i with rfl | hji
    · exact absurd hf (hcopy f)
    · exact (Function.update_of_ne hji ..).trans hf

lemma quiet_main {n : ℕ} (s : State n) (q : MainPc) (m : Option (Thread n)) (d : Bool) :
    Quiet s { s with mutex := m, done := d, main := q } :=
  ⟨rfl, rfl, fun _ => rfl, rfl, rfl, fun _ _ hf => hf⟩

lemma Quiet.trans {n : ℕ} {s t u : State n} (h : Quiet s t) (h' : Quiet t u) : Quiet s u :=
  ⟨h'.opened.trans h.opened, h'.waiting.trans h.waiting,
    fun i => (h'.stage i).trans (h.stage i), h'.copied.trans h.copied, h'.bytes.trans h.bytes,
    fun i f hf => h'.copy i f (h.copy i f hf)⟩

lemma hand_wake (pc : ManagerPc) : pc.wake.hand = pc.hand := by cases pc <;> rfl

lemma quiet_wakeManager {n : ℕ} (s : State n) : Quiet s { s with manager := s.manager.wake } :=
  quiet_manager rfl _ _ _ _ (hand_wake s.manager)

/-- Waking workers moves no file. -/
lemma quiet_woken {n : ℕ} {s : State n} {pc : Fin n → WorkerPc}
    (hw : Woken WorkerPc.waits WorkerPc.wake s.worker pc) : Quiet s { s with worker := pc } := by
  have heq : ∀ {γ : Type} (g : WorkerPc → γ), g .woken = g .waiting →
      ∀ i, g (pc i) = g (s.worker i) := by
    intro γ g hg i
    apply hw.map_eq g
    intro p hp
    rw [eq_waiting hp]
    exact hg
  refine ⟨rfl, rfl, heq WorkerPc.stage rfl, rfl, ?_, fun i f hf => ?_⟩
  · simp only [State.bytes, heq WorkerPc.owed rfl]
  · rcases hw i with hsame | ⟨hwait, -⟩
    · exact hsame.trans hf
    · rw [hf] at hwait
      cases hwait

def MainPc.calm : MainPc → Bool
  | .joinManager | .joinWorker _ | .cleanup | .exited => true
  | _ => false

def ManagerPc.drops : ManagerPc → Bool
  | .dropUnlock _ | .dropClose _ => true
  | _ => false

/-- No signal has come. -/
structure Calm {n : ℕ} (s : State n) : Prop where
  main : s.main.calm = true
  done : s.done = true → s.manager.ended = true
  keeps : s.manager.drops = false

lemma calm_init (n size : ℕ) (junk : ℕ → FileInformation) : Calm (init n size junk) where
  main := rfl
  done := fun h => by cases h
  keeps := rfl

/-- The manager moves, and raises the flag only at the end. -/
lemma Calm.moveManager {n : ℕ} {s : State n} (h : Calm s) {p : ManagerPc} (hp : s.manager = p)
    (q : ManagerPc) {t : State n} (hmain : t.main = s.main) (hq : t.manager = q)
    (hdone : t.done = true → s.done = true ∨ q.ended = true)
    (hend : p.ended = true → q.ended = true) (hdrops : q.drops = false) : Calm t := by
  subst hp hq
  refine ⟨hmain ▸ h.main, fun hd => ?_, hdrops⟩
  rcases hdone hd with hd | hq
  · exact hend (h.done hd)
  · exact hq

/-- No statement of the manager moves a file, unless it closes the one in its hand. -/
lemma quiet_managerStep {n : ℕ} {s t : State n} {w : Option (Fin n)} (hi : Inv s)
    (hkeeps : ∀ f, s.manager ≠ .dropClose f) (hst : managerStep s w = some t) :
    Quiet s t ∧ ∀ f ∈ t.manager.hand, f ∈ s.manager.hand := by
  cases hp : s.manager with
  | scan | waiting _ | finished => simp [managerStep, hp] at hst
  | dropClose f => exact absurd hp (hkeeps f)
  | lock _ | woken _ | endLock =>
    simp only [managerStep, hp] at hst
    obtain ⟨-, rfl⟩ := lock_eq_some hst
    exact ⟨quiet_manager hp _ _ _ _ rfl, fun _ hf => hf⟩
  | test f =>
    simp only [managerStep, hp] at hst
    split_ifs at hst
    all_goals
      cases hst
      exact ⟨quiet_manager hp _ _ _ _ rfl, fun _ hf => hf⟩
  | add f =>
    simp only [managerStep, hp] at hst
    cases hst
    refine ⟨⟨?_, ?_, fun _ => rfl, rfl, rfl, fun _ _ hf => hf⟩, fun _ hf => by cases hf⟩
    · simp [State.opened, hp, ManagerPc.hand]
    · simp [State.waiting, hp, ManagerPc.hand, (hi.wf.add (hi.adding f hp).2 f).2]
  | signal =>
    simp only [managerStep, hp, Option.map_eq_some_iff] at hst
    obtain ⟨pc, hpc, rfl⟩ := hst
    have hquiet := quiet_manager hp .unlock s.mutex s.done s.arrived rfl
    exact ⟨hquiet.trans (quiet_woken (woken_signal hpc)), fun _ hf => hf⟩
  | unlock | dropUnlock _ | endDone | endUnlock | arrive =>
    simp only [managerStep, hp] at hst
    cases hst
    exact ⟨quiet_manager hp _ _ _ _ rfl, fun _ hf => hf⟩
  | endBroadcast =>
    simp only [managerStep, hp] at hst
    cases hst
    have hquiet := quiet_manager hp .endUnlock s.mutex s.done s.arrived rfl
    exact ⟨hquiet.trans (quiet_woken (woken_broadcast _ _ _)), fun _ hf => hf⟩
  | barrier =>
    simp only [managerStep, hp] at hst
    split_ifs at hst
    cases hst
    exact ⟨quiet_manager hp _ _ _ _ rfl, fun _ hf => hf⟩

/-- While no signal comes, the manager drops no file. -/
lemma Calm.managerStep {n : ℕ} {s t : State n} {w : Option (Fin n)} (h : Calm s)
    (hst : managerStep s w = some t) : Calm t := by
  have hkeeps := h.keeps
  cases hp : s.manager with
  | scan | waiting _ | finished => simp [CopyBuffer.managerStep, hp] at hst
  | dropUnlock _ | dropClose _ => simp [hp, ManagerPc.drops] at hkeeps
  | lock _ | woken _ | endLock =>
    simp only [CopyBuffer.managerStep, hp] at hst
    obtain ⟨-, rfl⟩ := lock_eq_some hst
    exact h.moveManager hp _ rfl rfl Or.inl (by simp [ManagerPc.ended]) rfl
  | test f =>
    have hdone : ¬ s.done = true := fun hd => by
      have hended := h.done hd
      rw [hp] at hended
      cases hended
    simp only [CopyBuffer.managerStep, hp] at hst
    split_ifs at hst
    all_goals
      cases hst
      exact h.moveManager hp _ rfl rfl Or.inl (by simp [ManagerPc.ended]) rfl
  | signal =>
    simp only [CopyBuffer.managerStep, hp, Option.map_eq_some_iff] at hst
    obtain ⟨pc, hpc, rfl⟩ := hst
    exact h.moveManager hp _ rfl rfl Or.inl (by simp [ManagerPc.ended]) rfl
  | add _ | unlock | endUnlock | arrive =>
    simp only [CopyBuffer.managerStep, hp] at hst
    cases hst
    exact h.moveManager hp _ rfl rfl Or.inl (by simp [ManagerPc.ended]) rfl
  | endDone =>
    simp only [CopyBuffer.managerStep, hp] at hst
    cases hst
    exact h.moveManager hp _ rfl rfl (fun _ => Or.inr rfl) (fun _ => rfl) rfl
  | endBroadcast =>
    simp only [CopyBuffer.managerStep, hp] at hst
    cases hst
    exact h.moveManager hp _ rfl rfl Or.inl (fun _ => rfl) rfl
  | barrier =>
    simp only [CopyBuffer.managerStep, hp] at hst
    split_ifs at hst
    cases hst
    exact h.moveManager hp _ rfl rfl Or.inl (fun _ => rfl) rfl

lemma Calm.wakeManager {n : ℕ} {s : State n} (h : Calm s) :
    Calm { s with manager := s.manager.wake } := by
  refine ⟨h.main, fun hd => ?_, ?_⟩
  · have hended := h.done hd
    cases hp : s.manager <;> simp_all [ManagerPc.wake, ManagerPc.ended]
  · have hkeeps := h.keeps
    cases hp : s.manager <;> simp_all [ManagerPc.wake, ManagerPc.drops]

/-- The statements of a worker that move no file. -/
def WorkerPc.quiet : WorkerPc → Bool
  | .get | .copy _ | .closeSrc _ | .closeDst _ => false
  | _ => true

lemma quiet_workerStep {n : ℕ} {s t : State n} {i : Fin n} {nread : ℕ}
    (hq : (s.worker i).quiet = true) (hst : workerStep s i nread = some t) : Quiet s t := by
  cases hp : s.worker i with
  | get | copy _ | closeSrc _ | closeDst _ => simp [hp, WorkerPc.quiet] at hq
  | waiting | finished => simp [workerStep, hp] at hst
  | lock | woken | bytesLock _ _ | countLock =>
    simp only [workerStep, hp] at hst
    obtain ⟨-, rfl⟩ := lock_eq_some hst
    exact quiet_worker hp _ _ _ _ _ rfl rfl (by simp)
  | test =>
    simp only [workerStep, hp] at hst
    split_ifs at hst
    all_goals
      cases hst
      exact quiet_worker hp _ _ _ _ _ rfl rfl (by simp)
  | signal f =>
    simp only [workerStep, hp] at hst
    cases hst
    have hquiet := quiet_worker hp (.unlock f) s.mutex s.numFilesCopied s.totalBytesCopied
      s.arrived rfl rfl (by simp)
    exact hquiet.trans (quiet_wakeManager _)
  | leaveUnlock | unlock _ | bytesAdd _ _ | bytesUnlock _ | count | countUnlock | arrive =>
    simp only [workerStep, hp] at hst
    cases hst
    exact quiet_worker hp _ _ _ _ _ rfl rfl (by simp)
  | barrier =>
    simp only [workerStep, hp] at hst
    split_ifs at hst
    cases hst
    exact quiet_worker hp _ _ _ _ _ rfl rfl (by simp)

lemma Calm.workerStep {n : ℕ} {s t : State n} {i : Fin n} {nread : ℕ} (h : Calm s)
    (hst : workerStep s i nread = some t) : Calm t := by
  have hwake := h.wakeManager
  simp only [CopyBuffer.workerStep] at hst
  split at hst
  all_goals try split_ifs at hst
  all_goals first
    | (obtain ⟨-, rfl⟩ := lock_eq_some hst; exact ⟨h.main, h.done, h.keeps⟩)
    | (cases hst; exact ⟨h.main, h.done, h.keeps⟩)
    | (cases hst; exact ⟨hwake.main, hwake.done, hwake.keeps⟩)
    | cases hst

/-- The main thread moves no file, in the handler either. -/
lemma quiet_mainStep {n : ℕ} {s t : State n} (hst : mainStep s = some t) :
    Quiet s t ∧ t.manager = s.manager := by
  cases hp : s.main with
  | exited => simp [mainStep, hp] at hst
  | sigLock =>
    simp only [mainStep, hp] at hst
    obtain ⟨-, rfl⟩ := lock_eq_some hst
    exact ⟨quiet_main s _ _ _, rfl⟩
  | sigBroadcast =>
    simp only [mainStep, hp] at hst
    cases hst
    have hquiet := quiet_main s .sigUnlock s.mutex s.done
    exact ⟨hquiet.trans (quiet_woken (woken_broadcast _ _ _)), rfl⟩
  | sigDone | sigUnlock | cleanup =>
    simp only [mainStep, hp] at hst
    cases hst
    exact ⟨quiet_main s _ _ _, rfl⟩
  | joinManager | joinWorker _ | sigJoin _ =>
    simp only [mainStep, hp] at hst
    split_ifs at hst
    all_goals
      cases hst
      exact ⟨quiet_main s _ _ _, rfl⟩

lemma Calm.mainStep {n : ℕ} {s t : State n} (h : Calm s) (hst : mainStep s = some t) :
    Calm t := by
  have hmain := h.main
  cases hp : s.main with
  | exited => simp [CopyBuffer.mainStep, hp] at hst
  | sigLock | sigDone | sigBroadcast | sigUnlock | sigJoin _ => simp [hp, MainPc.calm] at hmain
  | joinManager | joinWorker _ =>
    simp only [CopyBuffer.mainStep, hp] at hst
    split_ifs at hst
    all_goals
      cases hst
      exact ⟨rfl, h.done, h.keeps⟩
  | cleanup =>
    simp only [CopyBuffer.mainStep, hp] at hst
    cases hst
    exact ⟨rfl, h.done, h.keeps⟩

/-- A worker may wake the manager, which keeps its file. -/
lemma hand_workerStep {n : ℕ} {s t : State n} {i : Fin n} {nread : ℕ}
    (hst : workerStep s i nread = some t) : t.manager.hand = s.manager.hand := by
  simp only [workerStep] at hst
  split at hst
  all_goals try split_ifs at hst
  all_goals first
    | (obtain ⟨-, rfl⟩ := lock_eq_some hst; rfl)
    | (cases hst; rfl)
    | (cases hst; exact hand_wake s.manager)
    | cases hst

/-- Besides the statements that open a file, move it or close it, no step of the
process moves a file, whatever signals come. -/
theorem quiet_step {n : ℕ} {s t : State n} {a : Act n} (hi : Inv s)
    (hkeeps : ∀ f w, a = .manager w → s.manager ≠ .dropClose f) (htry : ∀ f, a ≠ .tryAdd f)
    (hworker : ∀ i nread, a ≠ .worker i nread) (hst : step s a = some t) :
    Quiet s t ∧ ∀ f ∈ t.manager.hand, f ∈ s.manager.hand := by
  simp only [step] at hst
  split_ifs at hst with hexit
  cases a with
  | tryAdd f => exact absurd rfl (htry f)
  | worker i nread => exact absurd rfl (hworker i nread)
  | endTraversal =>
    simp only [move] at hst
    split_ifs at hst with hp
    cases hst
    exact ⟨quiet_manager hp _ _ _ _ rfl, fun _ hf => by cases hf⟩
  | manager w => exact quiet_managerStep hi (fun f => hkeeps f w rfl) hst
  | main =>
    obtain ⟨hquiet, hmanager⟩ := quiet_mainStep hst
    exact ⟨hquiet, fun f hf => hmanager ▸ hf⟩
  | sigint =>
    obtain ⟨-, rfl⟩ := sigint_eq_some hst
    exact ⟨quiet_main s _ _ _, fun _ hf => hf⟩
  | spuriousManager =>
    cases hst
    exact ⟨quiet_wakeManager s, fun f hf => hand_wake s.manager ▸ hf⟩
  | spuriousWorker i =>
    simp only [move] at hst
    split_ifs at hst with hp
    cases hst
    have hw : Woken WorkerPc.waits WorkerPc.wake s.worker (Function.update s.worker i .woken) :=
      woken_update (by rw [hp]; rfl)
    exact ⟨quiet_woken hw, fun _ hf => hf⟩

/-- The statements that the process executes besides those that open a file or
move it. -/
def Act.quiet {n : ℕ} (s : State n) : Act n → Bool
  | .tryAdd _ | .sigint => false
  | .worker i _ => (s.worker i).quiet
  | _ => true

theorem Calm.step {n : ℕ} {s t : State n} {a : Act n} (h : Calm s) (hi : Inv s)
    (ha : a ≠ .sigint) (hst : step s a = some t) :
    Calm t ∧ (a.quiet s = true → Quiet s t) := by
  have hkeeps : ∀ f w, a = .manager w → s.manager ≠ .dropClose f := by
    intro f w _ hp
    have hdrops := h.keeps
    rw [hp] at hdrops
    cases hdrops
  have hmove := hst
  simp only [CopyBuffer.step] at hmove
  split_ifs at hmove with hexit
  have hquiet : a.quiet s = true → Quiet s t := by
    intro hq
    cases a with
    | tryAdd _ | sigint => cases hq
    | worker i nread => exact quiet_workerStep hq hmove
    | _ => exact (quiet_step hi hkeeps (by simp) (by simp) hst).1
  refine ⟨?_, hquiet⟩
  cases a with
  | tryAdd f | endTraversal =>
    simp only [move] at hmove
    split_ifs at hmove with hp
    cases hmove
    exact h.moveManager hp _ rfl rfl Or.inl (by simp [ManagerPc.ended]) rfl
  | manager w => exact h.managerStep hmove
  | worker i nread => exact h.workerStep hmove
  | main => exact h.mainStep hmove
  | sigint => exact absurd rfl ha
  | spuriousManager =>
    cases hmove
    exact h.wakeManager
  | spuriousWorker i =>
    simp only [move] at hmove
    split_ifs at hmove with hp
    cases hmove
    exact ⟨h.main, h.done, h.keeps⟩

/-- The traversal has ended. -/
def ManagerPc.past : ManagerPc → Bool
  | .endLock | .endDone => true
  | pc => pc.ended

lemma past_of_managerStep {n : ℕ} {s t : State n} {w : Option (Fin n)}
    (hst : managerStep s w = some t) : t.manager.past = s.manager.past := by
  cases hp : s.manager with
  | scan | waiting _ | finished => simp [managerStep, hp] at hst
  | lock _ | woken _ | endLock =>
    simp only [managerStep, hp] at hst
    obtain ⟨-, rfl⟩ := lock_eq_some hst
    rfl
  | signal =>
    simp only [managerStep, hp, Option.map_eq_some_iff] at hst
    obtain ⟨pc, -, rfl⟩ := hst
    rfl
  | test _ | barrier =>
    simp only [managerStep, hp] at hst
    split_ifs at hst
    all_goals
      cases hst
      rfl
  | _ =>
    simp only [managerStep, hp] at hst
    cases hst
    rfl

/-- Only the end of the traversal takes the manager past it. -/
lemma past_of_step {n : ℕ} {s t : State n} {a : Act n} (ha : a ≠ .endTraversal)
    (hst : step s a = some t) (hpast : t.manager.past = true) : s.manager.past = true := by
  have hwake : s.manager.wake.past = s.manager.past := by cases s.manager <;> rfl
  simp only [step] at hst
  split_ifs at hst with hexit
  cases a with
  | endTraversal => exact absurd rfl ha
  | manager w => exact past_of_managerStep hst ▸ hpast
  | tryAdd f =>
    simp only [move] at hst
    split_ifs at hst with hp
    cases hst
    cases hpast
  | worker i nread =>
    simp only [move, workerStep] at hst
    split at hst
    all_goals try split_ifs at hst
    all_goals first
      | (obtain ⟨-, rfl⟩ := lock_eq_some hst; exact hpast)
      | (cases hst; exact hpast)
      | (cases hst; exact hwake ▸ hpast)
      | cases hst
  | main =>
    simp only [move, mainStep] at hst
    split at hst
    all_goals try split_ifs at hst
    all_goals first
      | (obtain ⟨-, rfl⟩ := lock_eq_some hst; exact hpast)
      | (cases hst; exact hpast)
      | cases hst
  | sigint | spuriousWorker i =>
    simp only [move] at hst
    split at hst
    all_goals first
      | (cases hst; exact hpast)
      | cases hst
  | spuriousManager =>
    cases hst
    exact hwake ▸ hpast

end SystemProgramming.CopyBuffer
