import SystemProgramming.AdmissionLoop

/-!
# Free slots and waiting clients

After the reaping loop the server takes one client from the wait queue, however
many children it has reaped. A client is therefore left waiting beside a free
slot exactly in the rounds that free more than one slot and serve more than one
client. This module states the condition on a round under which no slot stays
idle, and the invariant of the runs whose rounds meet it.
-/
namespace SystemProgramming.AdmissionLoop
open SystemProgramming.Transition SystemProgramming.WaitQueue

/-- A client is taken from the queue when nobody else waits, or no second slot is
free, or another child has already announced its exit. -/
def OneSlot (s : Server) : Act → Prop
  | .run _ => s.pc = .take →
    s.processQueue.size ≤ 1 ∨ s.processArray.capacity ≤ s.processArray.size + 1 ∨
      s.sigchild = true
  | _ => True

instance (s : Server) (a : Act) : Decidable (OneSlot s a) := by
  cases a <;> unfold OneSlot <;> infer_instance

/-- At each statement, with `n` unreaped children and `q` waiting clients: who
waits beside a free slot waits for a flag that is set. The statements of the
reaping round have this to establish. -/
def Served (capacity : ℤ) (n q : ℕ) (sigchild : Bool) : Pc → Prop
  | .readFifo | .openFifo _ | .dispatch _ | .testInt | .testChild | .add true _ =>
    q ≠ 0 → n < capacity → sigchild = true
  | .refuse _ => n < capacity → sigchild = true
  | .fork false _ | .add false _ => q = 0
  | .fork true _ => q ≠ 0 → n + 1 < capacity → sigchild = true
  | _ => True

/-- The invariant of the runs that meet `OneSlot`. -/
structure SlotInv (maxClient : ℤ) (s : Server) : Prop where
  inv : Inv maxClient s
  served : Served maxClient s.children.length s.processQueue.size s.sigchild s.pc

theorem slotInv_init {maxClient : ℤ} (hmax : 1 ≤ maxClient) (junk : ℕ → ℕ) :
    SlotInv maxClient (init maxClient junk) where
  inv := inv_init hmax junk
  served := by simp [init, Served, emptyQueue]

/-- `dequeue` leaves one client less. -/
lemma size_dequeue {α : Type*} (que : Queue α) : (dequeue que).1.size = que.size - 1 := by
  unfold dequeue
  split_ifs with hq
  · simp [hq]
  · rfl

/-- An exit sets the flag, so nobody waits in vain from then on. -/
lemma Served.terminate {capacity : ℤ} {n q : ℕ} {sigchild : Bool} {pc : Pc}
    (h : Served capacity n q sigchild pc) : Served capacity n q true pc := by
  cases pc with
  | fork queued _ | add queued _ => cases queued <;> simp_all [Served]
  | _ => simp_all [Served]

lemma SlotInv.run {maxClient : ℤ} {s t : Server} (h : SlotInv maxClient s)
    {m : Mallocs ClientInfo} (hok : OneSlot s (.run m)) (hst : s.run m = some t) :
    Served maxClient t.children.length t.processQueue.size t.sigchild t.pc := by
  have hserved := h.served
  have hcap := h.inv.capacity_eq
  unfold Server.run at hst
  cases hpc : s.pc with
  | dispatch client =>
    simp only [hpc] at hst hserved
    cases hst
    have hsize := h.inv.size_eq (by simp [hpc]) (by simp [hpc, Pc.adding])
      (by simp [hpc, Pc.removing])
    have hle := room_children_le h.inv.room
    split_ifs with hturn hmem
    · simp only [Served, clientTurn] at *
      split_ifs at hturn <;> omega
    · trivial
    · simp only [Served, clientTurn] at *
      intro (hlt : (s.children.length : ℤ) < maxClient)
      refine hserved (fun hq => hturn ?_) hlt
      rw [if_pos ⟨by omega, hq⟩]
  | refuse client =>
    simp only [hpc] at hst hserved
    split_ifs at hst with hwait
    · cases hst
      exact fun _ => hserved
    · simp only [Option.map_eq_some_iff] at hst
      obtain ⟨r, -, rfl⟩ := hst
      exact fun _ => hserved
  | add queued pid =>
    simp only [hpc] at hst hserved
    cases hst
    cases queued
    · exact fun hq => absurd hserved hq
    · exact hserved
  | testInt | testChild | testQueue =>
    simp only [hpc] at hst hserved
    cases hst
    simp only [Served, Server.children] at *
    grind
  | take =>
    simp only [hpc] at hst hserved
    cases hst
    have hsize := h.inv.size_eq (by simp [hpc]) (by simp [hpc, Pc.adding])
      (by simp [hpc, Pc.removing])
    have hok := hok hpc
    rw [hcap, hsize] at hok
    cases (dequeue s.processQueue).2 with
    | none => trivial
    | some client =>
      intro hq (hlt : (s.children.length : ℤ) + 1 < maxClient)
      simp only [size_dequeue] at hq
      rcases hok with hone | hfull | hset
      · omega
      · omega
      · exact hset
  | clear | remove _ =>
    simp only [hpc] at hst
    cases hst
    trivial
  | readFifo | openFifo _ | fork _ _ | waitpid | shutdown | exited => simp [hpc] at hst

theorem SlotInv.step {maxClient : ℤ} (hmax : 1 ≤ maxClient) {s t : Server}
    (h : SlotInv maxClient s) {a : Act} (hok : OneSlot s a) (hst : step s a = some t) :
    SlotInv maxClient t := by
  refine ⟨h.inv.step hmax hst, ?_⟩
  have hserved := h.served
  cases a with
  | run m => exact h.run hok hst
  | fork pid =>
    simp only [AdmissionLoop.step] at hst
    split at hst
    · rename_i queued client hpc
      split at hst
      · cases hst
      · cases hst
        cases queued <;> simp only [hpc, Served, Server.children, List.cons_append,
          List.length_cons] at hserved ⊢ <;> grind
    · cases hst
  | reap pid =>
    simp only [AdmissionLoop.step] at hst
    split at hst
    · split at hst
      · cases hst
        trivial
      · rename_i hpc
        cases hst
        simp only [hpc, Served]
      · cases hst
    · cases hst
  | terminate pid =>
    simp only [AdmissionLoop.step] at hst
    split at hst
    · rename_i hp
      cases hst
      have hperm : (s.running.erase pid ++ pid :: s.zombies).Perm s.children :=
        terminate_perm hp
      unfold Server.children at hserved ⊢
      rw [hperm.length_eq]
      exact hserved.terminate
    · cases hst
  | sigint =>
    cases hst
    exact hserved
  | discard =>
    simp only [AdmissionLoop.step] at hst
    split at hst <;> cases hst
    exact hserved
  | register client | noRegistration =>
    simp only [AdmissionLoop.step] at hst
    split at hst
    · rename_i hpc
      cases hst
      rw [hpc] at hserved
      exact hserved
    · cases hst
  | clientOpens =>
    simp only [AdmissionLoop.step] at hst
    split at hst
    · rename_i client hpc
      cases hst
      rw [hpc] at hserved
      exact hserved
    · cases hst
  | reapNone =>
    simp only [AdmissionLoop.step] at hst
    split at hst
    · cases hst
      trivial
    · cases hst
  | fail =>
    simp only [AdmissionLoop.step] at hst
    split at hst
    · cases hst
      trivial
    · cases hst

theorem reachable_slotInv {maxClient : ℤ} (hmax : 1 ≤ maxClient) {junk : ℕ → ℕ} {s : Server}
    (hr : Reach step OneSlot (init maxClient junk) s) : SlotInv maxClient s :=
  Reach.invariant hr (slotInv_init hmax junk) fun _ _ _ h hok hst => h.step hmax hok hst

/-- No client waits while a slot is free, in the runs that never serve one client
of several beside a second free slot: at the top of the loop, with the flag clear
and nothing to reap, a client waits only when the array is full. -/
theorem no_idle_slot {maxClient : ℤ} (hmax : 1 ≤ maxClient) {junk : ℕ → ℕ} {s : Server}
    (hr : Reach step OneSlot (init maxClient junk) s) (htop : s.pc = .readFifo)
    (hsig : s.sigchild = false) (_hz : s.zombies = []) (hq : s.processQueue.size ≠ 0) :
    (s.processArray.size : ℤ) = s.processArray.capacity := by
  have h := reachable_slotInv hmax hr
  have hserved := h.served
  have hroom := h.inv.room
  have hsize := h.inv.size_eq (by simp [htop]) (by simp [htop, Pc.adding])
    (by simp [htop, Pc.removing])
  rw [h.inv.capacity_eq, hsize]
  simp only [htop, Served, Room] at hserved hroom
  have hfull : ¬ (s.children.length : ℤ) < maxClient := fun hlt => by simp_all
  omega

/-- Two children and a third client in the queue: the first child exits and the
third client takes its place, with the array full again. -/
theorem no_idle_slot_replaced : ∃ s : Server, s.processQueue.size = 1 ∧
    s.children = [13, 12] ∧ (s.processArray.size : ℤ) = s.processArray.capacity := by
  have hr : Reach step OneSlot (init 2 fun _ => 0) _ := reach_of_checked_run
    [.register ⟨7, 1, []⟩, .clientOpens, .run ⟨none, true⟩, .fork 11, .run ⟨none, true⟩,
      .run ⟨none, true⟩, .run ⟨none, true⟩, .register ⟨8, 1, []⟩, .clientOpens, .run ⟨none, true⟩,
      .fork 12, .run ⟨none, true⟩, .run ⟨none, true⟩, .run ⟨none, true⟩, .register ⟨9, 1, []⟩,
      .clientOpens, .run ⟨none, true⟩, .run ⟨some fun _ => none, true⟩, .terminate 11,
      .run ⟨none, true⟩, .run ⟨none, true⟩, .run ⟨none, true⟩, .reap 11, .run ⟨none, true⟩,
      .reapNone, .run ⟨none, true⟩, .run ⟨none, true⟩, .fork 13, .run ⟨none, true⟩,
      .register ⟨10, 1, []⟩, .clientOpens, .run ⟨none, true⟩, .run ⟨none, true⟩, .run ⟨none, true⟩,
      .run ⟨none, true⟩] rfl
  exact ⟨_, rfl, rfl, no_idle_slot (by decide) hr rfl rfl rfl (by decide)⟩

/-- Two children and two waiting clients: both children exit and are reaped in one
round, which serves one of the waiting clients and leaves the other beside a free
slot, with the flag clear and nothing to reap. -/
theorem idle_slot_two_exits : ∃ s : Server, Reachable 2 (fun _ => 0) s ∧ s.pc = .readFifo ∧
    s.sigchild = false ∧ s.zombies = [] ∧ s.processQueue.size = 1 ∧
    s.processArray.size = 1 ∧ s.processArray.capacity = 2 :=
  ⟨_, reach_of_run
    [.register ⟨7, 1, []⟩, .clientOpens, .run ⟨none, true⟩, .fork 11, .run ⟨none, true⟩,
      .run ⟨none, true⟩, .run ⟨none, true⟩, .register ⟨8, 1, []⟩, .clientOpens, .run ⟨none, true⟩,
      .fork 12, .run ⟨none, true⟩, .run ⟨none, true⟩, .run ⟨none, true⟩, .register ⟨9, 1, []⟩,
      .clientOpens, .run ⟨none, true⟩, .run ⟨some fun _ => none, true⟩, .run ⟨none, true⟩,
      .run ⟨none, true⟩, .register ⟨10, 1, []⟩, .clientOpens, .run ⟨none, true⟩,
      .run ⟨some fun _ => none, true⟩, .terminate 11, .terminate 12, .run ⟨none, true⟩,
      .run ⟨none, true⟩, .run ⟨none, true⟩, .reap 11, .run ⟨none, true⟩, .reap 12,
      .run ⟨none, true⟩, .reapNone, .run ⟨none, true⟩, .run ⟨none, true⟩, .fork 13,
      .run ⟨none, true⟩] rfl, rfl, rfl, rfl, rfl, rfl, rfl⟩

end SystemProgramming.AdmissionLoop
