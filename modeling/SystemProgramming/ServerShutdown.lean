import Mathlib.Data.Fintype.EquivFin
import SystemProgramming.AdmissionLoop

/-!
# The server shuts down

Once `SIGINT` has been noted, the main loop of the server comes to its shutdown: it
sends `SIGTERM` to the pids in its array, one after the other, then waits until it has
no child any more. Children terminate and are reaped in between, by themselves or
because of the signal, and the flag may be set at any statement of the loop.
-/
namespace SystemProgramming.ServerShutdown
open SystemProgramming.Transition
open SystemProgramming.AdmissionLoop hiding Act step init Inv inv_init reachable_inv Inv.step
open SystemProgramming.WaitQueue (dequeue Mallocs)

/-- The statements of the shutdown: the loop over the array, `wait`, and the rest. -/
inductive Stage where
  | killing (i : ℕ)
  | waiting
  | closing
  deriving DecidableEq, Repr

/-- `signalled` are the pids that `kill` was called with. The stage counts only once the
server is at its shutdown. -/
structure State where
  server : Server
  stage : Stage
  signalled : List ℕ

inductive Act where
  | loop (a : AdmissionLoop.Act)
  | kill
  | waitNone

/-- The call of `wait` or `waitpid` that reports a child. -/
def reaps : AdmissionLoop.Act → Bool
  | .reap _ => true
  | _ => false

def step (s : State) : Act → Option State
  | .loop a =>
    if s.server.pc = .shutdown ∧ reaps a = true ∧ s.stage ≠ .waiting then none
    else (AdmissionLoop.step s.server a).map fun server => { s with server := server }
  | .kill =>
    match s.server.pc, s.stage with
    | .shutdown, .killing i =>
      if i < s.server.processArray.size then
        some { s with
          stage := .killing (i + 1)
          signalled := s.signalled ++ [s.server.processArray.pids.getD i 0] }
      else some { s with stage := .waiting }
    | _, _ => none
  | .waitNone =>
    if s.server.pc = .shutdown ∧ s.stage = .waiting ∧ s.server.children = [] then
      some { s with stage := .closing }
    else none

def init (maxClient : ℤ) (junk : ℕ → ℕ) : State where
  server := AdmissionLoop.init maxClient junk
  stage := .killing 0
  signalled := []

/-- What has been signalled at each stage. -/
def Signals (s : State) : Prop :=
  match s.stage with
  | .killing i => i ≤ s.server.processArray.size ∧
      s.signalled = s.server.processArray.live.take i ∧
      s.server.children.Perm s.server.processArray.live
  | .waiting => s.signalled = s.server.processArray.live ∧
      s.server.children ⊆ s.server.processArray.live
  | .closing => s.signalled = s.server.processArray.live ∧ s.server.children = []

structure Inv (maxClient : ℤ) (s : State) : Prop where
  server : AdmissionLoop.Inv maxClient s.server
  serving : s.server.pc ≠ .shutdown → s.stage = .killing 0 ∧ s.signalled = []
  nodup : s.server.pc = .shutdown → s.server.processArray.live.Nodup
  signals : s.server.pc = .shutdown → Signals s

theorem inv_init {maxClient : ℤ} (hmax : 1 ≤ maxClient) (junk : ℕ → ℕ) :
    Inv maxClient (init maxClient junk) where
  server := AdmissionLoop.inv_init hmax junk
  serving := fun _ => ⟨rfl, rfl⟩
  nodup := fun hpc => by cases hpc
  signals := fun hpc => by cases hpc

/-- The only way into the shutdown is the test of the flag. -/
lemma pc_of_shutdown {s t : Server} {a : AdmissionLoop.Act}
    (hst : AdmissionLoop.step s a = some t) (hpc : s.pc ≠ .shutdown) (ht : t.pc = .shutdown) :
    s.pc = .testInt ∧ t = { s with pc := .shutdown } := by
  cases a with
  | run m =>
    cases hs : s.pc <;> simp only [AdmissionLoop.step, Server.run, hs] at hst
    case testInt =>
      split_ifs at hst <;> cases hst
      · exact ⟨rfl, rfl⟩
      · cases ht
    case refuse client =>
      split_ifs at hst
      · cases hst
        cases ht
      · obtain ⟨r, -, rfl⟩ := Option.map_eq_some_iff.mp hst
        cases ht
    case dispatch client =>
      cases hst
      dsimp only at ht
      split_ifs at ht
    case add queued pid =>
      cases hst
      dsimp only at ht
      split_ifs at ht
    case testChild =>
      cases hst
      dsimp only at ht
      split_ifs at ht
    case testQueue =>
      cases hst
      dsimp only at ht
      split_ifs at ht
    case take =>
      cases hst
      dsimp only at ht
      split at ht <;> cases ht
    all_goals
      cases hst
      try cases ht
  | terminate pid =>
    simp only [AdmissionLoop.step] at hst
    split_ifs at hst
    cases hst
    exact absurd ht hpc
  | sigint =>
    cases hst
    exact absurd ht hpc
  | discard =>
    simp only [AdmissionLoop.step] at hst
    split_ifs at hst
    cases hst
    exact absurd ht hpc
  | reap pid =>
    simp only [AdmissionLoop.step] at hst
    split_ifs at hst
    split at hst <;> cases hst
    · cases ht
    · exact absurd ‹_› hpc
  | fork pid =>
    simp only [AdmissionLoop.step] at hst
    split at hst
    · split_ifs at hst
      cases hst
      cases ht
    · cases hst
  | clientOpens =>
    simp only [AdmissionLoop.step] at hst
    split at hst <;> cases hst
    cases ht
  | register client | noRegistration | reapNone | fail =>
    simp only [AdmissionLoop.step] at hst
    split_ifs at hst
    cases hst
    cases ht

/-- In the shutdown the array stays as it is, and children are only reaped. -/
lemma step_shutdown {s t : Server} {a : AdmissionLoop.Act}
    (hst : AdmissionLoop.step s a = some t) (hpc : s.pc = .shutdown) :
    t.pc = .shutdown ∧ t.processArray = s.processArray ∧
      (t.children.Perm s.children ∨
        ∃ pid, a = .reap pid ∧ (pid :: t.children).Perm s.children) := by
  cases a with
  | terminate pid =>
    simp only [AdmissionLoop.step] at hst
    split_ifs at hst with hrunning
    cases hst
    exact ⟨hpc, rfl, Or.inl (terminate_perm hrunning)⟩
  | sigint =>
    cases hst
    exact ⟨hpc, rfl, Or.inl (List.Perm.refl _)⟩
  | reap pid =>
    simp only [AdmissionLoop.step, hpc] at hst
    split_ifs at hst with hzombie
    cases hst
    exact ⟨rfl, rfl, Or.inr ⟨pid, rfl, reap_perm hzombie⟩⟩
  | run m => simp [AdmissionLoop.step, Server.run, hpc] at hst
  | _ => simp [AdmissionLoop.step, hpc, Pc.mayFail] at hst

lemma Inv.loop {maxClient : ℤ} (hmax : 1 ≤ maxClient) {s : State} {server : Server}
    {a : AdmissionLoop.Act} (h : Inv maxClient s)
    (hreaps : ¬ (s.server.pc = .shutdown ∧ reaps a = true ∧ s.stage ≠ .waiting))
    (hst : AdmissionLoop.step s.server a = some server) :
    Inv maxClient { s with server := server } := by
  have hserver := h.server.step hmax hst
  by_cases hpc : s.server.pc = .shutdown
  · obtain ⟨hpc', harray, hchildren⟩ := step_shutdown hst hpc
    have hsignals := h.signals hpc
    refine ⟨hserver, fun hne => absurd hpc' hne, fun _ => ?_, fun _ => ?_⟩
    · show server.processArray.live.Nodup
      rw [harray]
      exact h.nodup hpc
    · cases hstage : s.stage with
      | killing i =>
        simp only [Signals, hstage, harray] at hsignals ⊢
        refine ⟨hsignals.1, hsignals.2.1, ?_⟩
        rcases hchildren with hperm | ⟨pid, rfl, -⟩
        · exact hperm.trans hsignals.2.2
        · exact absurd ⟨hpc, rfl, by simp [hstage]⟩ hreaps
      | waiting =>
        simp only [Signals, hstage, harray] at hsignals ⊢
        refine ⟨hsignals.1, ?_⟩
        rcases hchildren with hperm | ⟨pid, -, hperm⟩
        · exact fun q hq => hsignals.2 (hperm.subset hq)
        · exact fun q hq => hsignals.2 (hperm.subset (List.mem_cons_of_mem pid hq))
      | closing =>
        simp only [Signals, hstage, harray] at hsignals ⊢
        refine ⟨hsignals.1, ?_⟩
        rw [hsignals.2] at hchildren
        rcases hchildren with hperm | ⟨pid, -, hperm⟩
        · exact hperm.eq_nil
        · exact absurd hperm.eq_nil (List.cons_ne_nil _ _)
  · obtain ⟨hstage, hnone⟩ := h.serving hpc
    refine ⟨hserver, fun _ => ⟨hstage, hnone⟩, fun hpc' => ?_, fun hpc' => ?_⟩
    all_goals
      obtain ⟨hint, rfl⟩ := pc_of_shutdown hst hpc hpc'
      have hlisted := h.server.listed hpc
      simp only [hint, Pc.adding, Pc.removing, List.nil_append] at hlisted
    · exact hlisted.nodup_iff.mpr h.server.nodup
    · simp only [Signals, hstage, hnone]
      exact ⟨Nat.zero_le _, rfl, hlisted.symm⟩

/-- `kill` is called with the next pid of the array. -/
lemma Inv.kill {maxClient : ℤ} {s t : State} (h : Inv maxClient s)
    (hst : step s .kill = some t) : Inv maxClient t ∧ (t.signalled = s.signalled ∨
      ∃ pid, pid ∈ s.server.children ∧ pid ∉ s.signalled ∧
        t.signalled = s.signalled ++ [pid]) := by
  simp only [step] at hst
  split at hst
  · rename_i i hpc hstage
    have hsignals := h.signals hpc
    have hnodup := h.nodup hpc
    simp only [Signals, hstage] at hsignals
    obtain ⟨hle, hsent, hperm⟩ := hsignals
    have hlength := h.server.array.length_live
    split_ifs at hst with hi <;> cases hst
    · have hpid : s.server.processArray.live[i]? = some (s.server.processArray.pids.getD i 0) := by
        have hsize := h.server.array.size_le
        rw [ProcessArray.live, List.getElem?_take_of_lt hi, List.getD_eq_getElem?_getD,
          List.getElem?_eq_getElem (by omega)]
        rfl
      have hnext : s.server.processArray.live.take (i + 1) =
          s.signalled ++ [s.server.processArray.pids.getD i 0] := by
        rw [List.take_add_one, hpid, ← hsent]
        rfl
      refine ⟨⟨h.server, fun hne => absurd hpc hne, fun _ => hnodup, fun _ => ?_⟩,
        Or.inr ⟨_, ?_, ?_, rfl⟩⟩
      · exact ⟨hi, hnext.symm, hperm⟩
      · exact hperm.symm.subset (List.mem_of_getElem? hpid)
      · have htaken := hnodup.sublist (List.take_sublist (i + 1) _)
        rw [hnext] at htaken
        exact fun hmem => (List.nodup_append.mp htaken).2.2 _ hmem _ List.mem_cons_self rfl
    · refine ⟨⟨h.server, fun hne => absurd hpc hne, fun _ => hnodup, fun _ => ?_⟩, Or.inl rfl⟩
      refine ⟨?_, hperm.subset⟩
      rw [hsent]
      exact List.take_of_length_le (by omega)
  · cases hst

theorem Inv.step {maxClient : ℤ} (hmax : 1 ≤ maxClient) {s t : State} {a : Act}
    (h : Inv maxClient s) (hst : step s a = some t) : Inv maxClient t := by
  cases a with
  | loop a =>
    simp only [ServerShutdown.step] at hst
    split_ifs at hst with hreaps
    obtain ⟨server, hserver, rfl⟩ := Option.map_eq_some_iff.mp hst
    exact h.loop hmax hreaps hserver
  | kill => exact (h.kill hst).1
  | waitNone =>
    simp only [ServerShutdown.step] at hst
    split_ifs at hst with hwait
    obtain ⟨hpc, hstage, hnone⟩ := hwait
    cases hst
    have hsignals := h.signals hpc
    simp only [Signals, hstage] at hsignals
    exact ⟨h.server, fun hne => absurd hpc hne, h.nodup, fun _ => ⟨hsignals.1, hnone⟩⟩

theorem reachable_inv {maxClient : ℤ} (hmax : 1 ≤ maxClient) {junk : ℕ → ℕ} {s : State}
    (hr : Reach step always (init maxClient junk) s) : Inv maxClient s :=
  hr.invariant (inv_init hmax junk) fun _ _ _ h _ hst => h.step hmax hst

/-- `kill` is called for the children of the server and for nobody else, for none of them
twice; the server waits when each child that is left has been told to end, and closes
its files when no child is left. Before the shutdown it signals nobody. -/
theorem shutdown_signals {maxClient : ℤ} (hmax : 1 ≤ maxClient) {junk : ℕ → ℕ} {s : State}
    (hr : Reach step always (init maxClient junk) s) :
    s.signalled.Nodup ∧
      (∀ t, step s .kill = some t → t.signalled = s.signalled ∨
        ∃ pid, pid ∈ s.server.children ∧ pid ∉ s.signalled ∧
          t.signalled = s.signalled ++ [pid]) ∧
      (s.server.pc ≠ .shutdown → s.signalled = []) ∧
      (s.stage = .waiting → ∀ pid, pid ∈ s.server.children → pid ∈ s.signalled) ∧
      (s.stage = .closing → s.server.children = []) := by
  have h := reachable_inv hmax hr
  refine ⟨?_, fun t hst => (h.kill hst).2, fun hpc => (h.serving hpc).2, fun hstage => ?_,
    fun hstage => ?_⟩
  · by_cases hpc : s.server.pc = .shutdown
    · have hsignals := h.signals hpc
      have hnodup := h.nodup hpc
      cases hstage : s.stage <;> simp only [Signals, hstage] at hsignals
      · rw [hsignals.2.1]
        exact hnodup.sublist (List.take_sublist _ _)
      all_goals
        rw [hsignals.1]
        exact hnodup
    · rw [(h.serving hpc).2]
      exact List.nodup_nil
  all_goals
    have hpc : s.server.pc = .shutdown := by
      by_contra hne
      have hserving := (h.serving hne).1
      simp [hstage] at hserving
    have hsignals := h.signals hpc
    simp only [Signals, hstage] at hsignals
  · intro pid hpid
    rw [hsignals.1]
    exact hsignals.2 hpid
  · exact hsignals.2

/-- Two clients are served; one child terminates by itself while the flag is set, the
other one when it is told to. -/
def twoChildren : List Act :=
  [.loop (.register ⟨7, 1, []⟩), .loop .clientOpens, .loop (.run ⟨none, true⟩), .loop (.fork 11),
    .loop (.run ⟨none, true⟩), .loop (.run ⟨none, true⟩), .loop (.run ⟨none, true⟩),
    .loop (.register ⟨8, 1, []⟩), .loop .clientOpens, .loop (.run ⟨none, true⟩), .loop (.fork 12),
    .loop (.run ⟨none, true⟩), .loop (.terminate 11), .loop .sigint, .loop (.run ⟨none, true⟩),
    .kill, .kill, .kill]

lemma twoChildren_reach : ∃ s, Reach step always (init 2 fun _ => 0) s ∧ s.stage = .waiting ∧
    s.signalled = [11, 12] ∧ s.server.children = [12, 11] ∧ s.server.sigintt = true ∧
    s.server.pc = .shutdown :=
  ⟨_, reach_of_run twoChildren rfl, rfl, rfl, rfl, rfl, rfl⟩

theorem shutdown_signals_two : ∃ s : State, s.signalled = [11, 12] ∧ s.server.children = [12, 11] ∧
    ∀ pid, pid ∈ s.server.children → pid ∈ s.signalled := by
  obtain ⟨s, hr, hwaiting, hsignalled, hchildren, -, -⟩ := twoChildren_reach
  have h := shutdown_signals (by decide) hr
  exact ⟨s, hsignalled, hchildren, h.2.2.2.1 hwaiting⟩

/-- How far the statements of the main loop are from the shutdown. -/
def rank : Pc → ℕ
  | .remove _ | .clear => 22
  | .testChild => 23
  | .waitpid => 21
  | .testQueue => 20
  | .take => 19
  | .fork true _ => 18
  | .add true _ => 13
  | .readFifo => 12
  | .openFifo _ => 11
  | .dispatch _ => 10
  | .fork false _ => 9
  | .refuse _ | .add false _ => 4
  | .testInt => 3
  | .shutdown | .exited => 0

/-- What is left of the shutdown. -/
def Stage.left (stage : Stage) (size : ℕ) : ℕ :=
  match stage with
  | .killing i => 2 + (size - i)
  | .waiting => 1
  | .closing => 0

/-- The steps that are left once the flag is set; a child that has not terminated may
still do so, be reaped, and be signalled. -/
def State.left (s : State) : ℕ :=
  if s.server.pc = .shutdown then
    3 * s.server.running.length + 2 * s.server.zombies.length +
      s.stage.left s.server.processArray.size
  else 4 * s.server.running.length + 3 * s.server.zombies.length + rank s.server.pc

/-- Everything counts but a further `SIGINT` and what the server reads and throws away,
after which it does not test the flag. -/
def counts : Act → Bool
  | .loop .sigint | .loop .discard => false
  | _ => true

/-- A statement of the main loop comes nearer to the shutdown. -/
lemma loop_left {s t : Server} {a : AdmissionLoop.Act} (hint : s.sigintt = true)
    (hcounts : counts (.loop a) = true) (hst : AdmissionLoop.step s a = some t)
    (hpc : s.pc ≠ .shutdown) :
    t.sigintt = true ∧ (t.pc ≠ .shutdown →
      4 * t.running.length + 3 * t.zombies.length + rank t.pc <
        4 * s.running.length + 3 * s.zombies.length + rank s.pc) := by
  cases a with
  | run m =>
    cases hs : s.pc <;> simp only [AdmissionLoop.step, Server.run, hs] at hst
    case refuse client =>
      split_ifs at hst
      · cases hst
        exact ⟨hint, fun _ => by simp [rank]⟩
      · obtain ⟨r, -, rfl⟩ := Option.map_eq_some_iff.mp hst
        exact ⟨hint, fun _ => by simp [rank]⟩
    case testInt =>
      rw [if_pos hint] at hst
      cases hst
      exact ⟨hint, fun hne => absurd rfl hne⟩
    all_goals cases hst
    all_goals refine ⟨hint, fun _ => ?_⟩
    case run.dispatch.refl client =>
      dsimp only
      split_ifs <;> simp [rank]
    case run.add.refl =>
      dsimp only
      rename_i queued pid _
      cases queued <;> simp [rank]
    case run.testChild.refl =>
      dsimp only
      split_ifs <;> simp [rank]
    case run.testQueue.refl =>
      dsimp only
      split_ifs <;> simp [rank]
    case run.take.refl =>
      dsimp only
      split <;> simp [rank]
    all_goals simp [rank]
  | terminate pid =>
    simp only [AdmissionLoop.step] at hst
    split_ifs at hst with hrunning
    cases hst
    refine ⟨hint, fun _ => ?_⟩
    have hlength := List.length_erase_of_mem hrunning
    have hpos := List.length_pos_of_mem hrunning
    simp only [List.length_cons]
    omega
  | reap pid =>
    simp only [AdmissionLoop.step] at hst
    split_ifs at hst with hzombie
    have hlength := List.length_erase_of_mem hzombie
    have hpos := List.length_pos_of_mem hzombie
    split at hst <;> cases hst
    · refine ⟨hint, fun _ => ?_⟩
      simp only [rank, *]
      omega
    · exact absurd ‹_› hpc
  | fork pid =>
    simp only [AdmissionLoop.step] at hst
    split at hst
    · rename_i queued client hfork
      split_ifs at hst
      cases hst
      refine ⟨hint, fun _ => ?_⟩
      rw [hfork]
      cases queued <;> simp only [rank, List.length_cons] <;> omega
    · cases hst
  | fail =>
    simp only [AdmissionLoop.step] at hst
    split_ifs at hst with hfail
    cases hst
    refine ⟨hint, fun _ => ?_⟩
    cases hs : s.pc with
    | fork queued client => cases queued <;> simp [rank]
    | openFifo client | dispatch client => simp [rank]
    | _ => simp [hs, Pc.mayFail] at hfail
  | register client | noRegistration =>
    simp only [AdmissionLoop.step] at hst
    split_ifs at hst with hread
    cases hst
    exact ⟨hint, fun _ => by simp [rank, hread]⟩
  | clientOpens =>
    simp only [AdmissionLoop.step] at hst
    split at hst <;> cases hst
    exact ⟨hint, fun _ => by simp [rank, *]⟩
  | reapNone =>
    simp only [AdmissionLoop.step] at hst
    split_ifs at hst with hwait
    cases hst
    exact ⟨hint, fun _ => by simp [rank, hwait.1]⟩
  | sigint | discard => cases hcounts

lemma State.left_of_serving {s : State} (hpc : s.server.pc ≠ .shutdown) :
    s.left = 4 * s.server.running.length + 3 * s.server.zombies.length + rank s.server.pc :=
  if_neg hpc

lemma State.left_of_shutdown {s : State} (hpc : s.server.pc = .shutdown) :
    s.left = 3 * s.server.running.length + 2 * s.server.zombies.length +
      s.stage.left s.server.processArray.size :=
  if_pos hpc

/-- A step of the main loop or of a child, in the shutdown or before it. -/
lemma Inv.loop_left {maxClient : ℤ} {s : State} {server : Server} {a : AdmissionLoop.Act}
    (h : Inv maxClient s) (hint : s.server.sigintt = true) (hcounts : counts (.loop a) = true)
    (hst : AdmissionLoop.step s.server a = some server) :
    server.sigintt = true ∧ State.left { s with server := server } < s.left := by
  by_cases hpc : s.server.pc = .shutdown
  · obtain ⟨hpc', harray, -⟩ := step_shutdown hst hpc
    rw [State.left_of_shutdown hpc, State.left_of_shutdown hpc', harray]
    cases a with
    | terminate pid =>
      simp only [AdmissionLoop.step] at hst
      split_ifs at hst with hrunning
      cases hst
      have hlength := List.length_erase_of_mem hrunning
      have hpos := List.length_pos_of_mem hrunning
      refine ⟨hint, ?_⟩
      simp only [List.length_cons]
      omega
    | reap pid =>
      simp only [AdmissionLoop.step, hpc] at hst
      split_ifs at hst with hzombie
      cases hst
      have hlength := List.length_erase_of_mem hzombie
      have hpos := List.length_pos_of_mem hzombie
      refine ⟨hint, ?_⟩
      dsimp only
      omega
    | run m => simp [AdmissionLoop.step, Server.run, hpc] at hst
    | sigint | discard => cases hcounts
    | _ => simp [AdmissionLoop.step, hpc, Pc.mayFail] at hst
  · obtain ⟨hint', hless⟩ := ServerShutdown.loop_left hint hcounts hst hpc
    refine ⟨hint', ?_⟩
    rw [State.left_of_serving hpc]
    by_cases hpc' : server.pc = .shutdown
    · obtain ⟨htest, rfl⟩ := pc_of_shutdown hst hpc hpc'
      -- the array lists the children that are still to be signalled
      have hsize := h.server.size_eq hpc (by rw [htest]; rfl) (by rw [htest]; rfl)
      rw [State.left_of_shutdown hpc', (h.serving hpc).1, htest]
      simp only [Stage.left, rank, hsize, Server.children, List.length_append]
      omega
    · rw [State.left_of_serving hpc']
      exact hless hpc'

lemma Inv.step_left {maxClient : ℤ} {s t : State} {a : Act} (h : Inv maxClient s)
    (hint : s.server.sigintt = true) (hcounts : counts a = true)
    (hst : ServerShutdown.step s a = some t) :
    t.server.sigintt = true ∧ t.left < s.left := by
  cases a with
  | loop a =>
    simp only [ServerShutdown.step] at hst
    split_ifs at hst
    obtain ⟨server, hserver, rfl⟩ := Option.map_eq_some_iff.mp hst
    exact h.loop_left hint hcounts hserver
  | kill =>
    simp only [ServerShutdown.step] at hst
    split at hst
    · rename_i i hpc hstage
      rw [State.left_of_shutdown hpc, hstage]
      split_ifs at hst <;> cases hst
      all_goals
        refine ⟨hint, lt_of_eq_of_lt (State.left_of_shutdown hpc) ?_⟩
        simp only [Stage.left]
        omega
    · cases hst
  | waitNone =>
    simp only [ServerShutdown.step] at hst
    split_ifs at hst with hwait
    cases hst
    refine ⟨hint, lt_of_eq_of_lt (State.left_of_shutdown hwait.1) ?_⟩
    rw [State.left_of_shutdown hwait.1, hwait.2.1]
    simp [Stage.left]

/-- A further `SIGINT`, and a record that is thrown away. -/
lemma step_aside {s t : State} {a : Act} (hint : s.server.sigintt = true)
    (hcounts : counts a = false) (hst : step s a = some t) : t = s := by
  cases a with
  | loop a =>
    simp only [ServerShutdown.step] at hst
    split_ifs at hst
    obtain ⟨server, hserver, rfl⟩ := Option.map_eq_some_iff.mp hst
    cases a with
    | sigint =>
      cases hserver
      rw [← hint]
    | discard =>
      simp only [AdmissionLoop.step] at hserver
      split_ifs at hserver
      cases hserver
      rfl
    | _ => cases hcounts
  | _ => cases hcounts

/-- A whole run uses up what is left, a step at a time. -/
lemma Inv.run_left {maxClient : ℤ} (hmax : 1 ≤ maxClient) (as : List Act) {s t : State}
    (h : Inv maxClient s) (hint : s.server.sigintt = true)
    (hrun : run ServerShutdown.step as s = some t) :
    as.countP counts + t.left ≤ s.left := by
  induction as generalizing s with
  | nil =>
    cases hrun
    simp
  | cons a as ih =>
    simp only [run, Option.bind_eq_some_iff] at hrun
    obtain ⟨u, hu, hrest⟩ := hrun
    cases hcounts : counts a with
    | true =>
      obtain ⟨hint', hless⟩ := h.step_left hint hcounts hu
      have hmore := ih (h.step hmax hu) hint' hrest
      rw [List.countP_cons_of_pos hcounts]
      omega
    | false =>
      obtain rfl := step_aside hint hcounts hu
      rw [List.countP_cons_of_neg (by simp [hcounts])]
      exact ih h hint hrest

lemma Inv.left_le {maxClient : ℤ} {s : State} (h : Inv maxClient s) :
    s.left ≤ 23 + 4 * s.server.children.length := by
  simp only [Server.children, List.length_append]
  by_cases hpc : s.server.pc = .shutdown
  · rw [State.left_of_shutdown hpc]
    have hsignals := h.signals hpc
    cases hstage : s.stage with
    | killing i =>
      simp only [Signals, hstage] at hsignals
      have hlength := hsignals.2.2.length_eq
      rw [h.server.array.length_live, Server.children, List.length_append] at hlength
      simp only [Stage.left]
      omega
    | waiting =>
      simp only [Stage.left]
      omega
    | closing =>
      simp only [Stage.left]
      omega
  · rw [State.left_of_serving hpc]
    have hrank : rank s.server.pc ≤ 23 := by
      cases s.server.pc with
      | fork queued client => cases queued <;> simp [rank]
      | add queued pid => cases queued <;> simp [rank]
      | _ => simp [rank]
    omega

/-- The action counts, and is not a call that fails. -/
def succeeds : Act → Bool
  | .loop .fail => false
  | a => counts a

/-- Until its files are closed the server goes on, or waits for a child that is running,
unless it waits for a client to open its FIFO. -/
lemma Inv.goes_on {maxClient : ℤ} {s : State} (h : Inv maxClient s)
    (hclosing : s.stage ≠ .closing) (hexited : s.server.pc ≠ .exited)
    (hopen : ∀ client, s.server.pc ≠ .openFifo client) :
    ∃ a t, succeeds a = true ∧ ServerShutdown.step s a = some t := by
  have hloop : s.server.pc ≠ .shutdown → (∃ a server, succeeds (.loop a) = true ∧
      AdmissionLoop.step s.server a = some server) → ∃ a t, succeeds a = true ∧
        ServerShutdown.step s a = some t := by
    rintro hne ⟨a, server, hsucceeds, hserver⟩
    refine ⟨.loop a, { s with server := server }, hsucceeds, ?_⟩
    simp [ServerShutdown.step, hne, hserver]
  cases hpc : s.server.pc with
  | readFifo =>
    exact hloop (by simp [hpc]) ⟨.noRegistration, _, rfl, by simp [AdmissionLoop.step, hpc]; rfl⟩
  | refuse client =>
    refine hloop (by simp [hpc]) ?_
    obtain ⟨r, hr, -⟩ := h.server.queue.enqueue client ⟨none, true⟩
    by_cases hwait : client.wait = 0
    · exact ⟨.run ⟨none, true⟩, _, rfl, by simp [AdmissionLoop.step, Server.run, hpc, hwait]; rfl⟩
    · exact ⟨.run ⟨none, true⟩, _, rfl, by
        simp [AdmissionLoop.step, Server.run, hpc, hwait, hr]
        rfl⟩
  | fork queued client =>
    refine hloop (by simp [hpc]) ?_
    obtain ⟨pid, hpid⟩ := Infinite.exists_notMem_finset s.server.children.toFinset
    rw [List.mem_toFinset] at hpid
    exact ⟨.fork pid, _, rfl, by simp [AdmissionLoop.step, hpc, hpid]; rfl⟩
  | waitpid =>
    refine hloop (by simp [hpc]) ?_
    cases hz : s.server.zombies with
    | nil => exact ⟨.reapNone, _, rfl, by simp [AdmissionLoop.step, hpc, hz]; rfl⟩
    | cons pid zombies => exact ⟨.reap pid, _, rfl, by simp [AdmissionLoop.step, hpc, hz]; rfl⟩
  | shutdown =>
    cases hstage : s.stage with
    | killing i =>
      by_cases hi : i < s.server.processArray.size
      · exact ⟨.kill, _, rfl, by simp [ServerShutdown.step, hpc, hstage, hi]; rfl⟩
      · exact ⟨.kill, _, rfl, by simp [ServerShutdown.step, hpc, hstage, hi]; rfl⟩
    | waiting =>
      cases hz : s.server.zombies with
      | cons pid zombies =>
        exact ⟨.loop (.reap pid), _, rfl, by
          simp [ServerShutdown.step, AdmissionLoop.step, hpc, hstage, hz]
          rfl⟩
      | nil =>
        cases hr : s.server.running with
        | cons pid running =>
          exact ⟨.loop (.terminate pid), _, rfl, by
            simp [ServerShutdown.step, AdmissionLoop.step, reaps, hr]
            rfl⟩
        | nil =>
          exact ⟨.waitNone, _, rfl, by
            simp [ServerShutdown.step, hpc, hstage, Server.children, hz, hr]
            rfl⟩
    | closing => exact absurd hstage hclosing
  | openFifo client => exact absurd hpc (hopen client)
  | exited => exact absurd hpc hexited
  | _ =>
    exact hloop (by simp [hpc])
      ⟨.run ⟨none, true⟩, _, rfl, by simp [AdmissionLoop.step, Server.run, hpc]; rfl⟩

/-- Once `SIGINT` has come the server closes its files after a bounded number of steps, of
its own and of its children, unless a call has made it give up or it waits for a client
that does not open its FIFO: no run has more of them, and no run stops before. A record
that is not complete does not count, for the server skips the test of the flag behind it. -/
theorem shutdown_ends {maxClient : ℤ} (hmax : 1 ≤ maxClient) {junk : ℕ → ℕ} {s : State}
    (hr : Reach step always (init maxClient junk) s) (hint : s.server.sigintt = true) :
    (∀ as t, run step as s = some t → as.countP counts ≤ 23 + 4 * s.server.children.length) ∧
      (s.stage ≠ .closing → s.server.pc ≠ .exited → (∀ client, s.server.pc ≠ .openFifo client) →
        ∃ a t, succeeds a = true ∧ step s a = some t) := by
  have h := reachable_inv hmax hr
  refine ⟨fun as t hrun => ?_, h.goes_on⟩
  have hleft := h.run_left hmax as hint hrun
  have hle := h.left_le
  omega

theorem shutdown_ends_two : ∃ s : State, s.stage = .waiting ∧
    (∀ as t, run step as s = some t → as.countP counts ≤ 31) ∧
      ∃ a t, succeeds a = true ∧ step s a = some t := by
  obtain ⟨s, hr, hwaiting, -, hchildren, hint, hpc⟩ := twoChildren_reach
  obtain ⟨hbound, hgoes⟩ := shutdown_ends (by decide) hr hint
  rw [hchildren] at hbound
  exact ⟨s, hwaiting, hbound, hgoes (by simp [hwaiting]) (by simp [hpc]) (by simp [hpc])⟩

end SystemProgramming.ServerShutdown
