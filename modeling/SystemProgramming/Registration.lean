import SystemProgramming.AdmissionLoop
import SystemProgramming.FileServer

/-!
# What client and server make of one registration

The server tells a client its turn, an `int` that is zero when the client is served
at once, and the client decides by the sign of that turn and its own wait flag
whether it opens its request FIFO. The largest number of clients comes from the
command line, and is only checked to be a number.
-/
namespace SystemProgramming.Registration
open SystemProgramming.Transition SystemProgramming.AdmissionLoop SystemProgramming.LineReader
  SystemProgramming.FileServer
open SystemProgramming.WaitQueue hiding step init

/-- The number of clients, unless `check_args` refuses it. -/
def checkArgs (argv : List Text) : Option ℤ :=
  if argv.length ≠ 3 then none
  else if (strToInt (argv.getD 2 [])).2 = -1 then none
  else some (strToInt (argv.getD 2 [])).1

lemma checkArgs_spec {argv : List Text} {maxClient : ℤ} (h : checkArgs argv = some maxClient) :
    maxClient ≠ -1 ∧ maxClient ≤ intMax := by
  unfold checkArgs at h
  split_ifs at h with hargc hstatus
  have hnum := Option.some.inj h
  unfold strToInt at hnum hstatus
  dsimp only at hnum hstatus
  refine ⟨fun hminus => hstatus ?_, ?_⟩
  · split_ifs
    · rfl
    · rw [hnum, hminus]
  · have hlt := Int.bmod_lt (x := (strtol (argv.getD 2 [])).1) (m := 2 ^ 32) (by decide)
    rw [hnum] at hlt
    simp only [intMax]
    omega

/-- The `int` the client reads. There is none when the sum of the server overflows. -/
def turnSent (s : Server) : Option ℤ :=
  if clientTurn s ≤ intMax then some (clientTurn s) else none

/-- The client opens its request FIFO, and does not give up. -/
def goesOn (turn wait : ℤ) : Bool := ¬ (0 < turn ∧ wait = 0)

/-- What happens between two statements of the server. -/
def interrupts (_ : Server) : Act → Prop
  | .terminate _ | .sigint => True
  | _ => False

/-- The server executes a statement, and is then interrupted any number of times. -/
def Follows (s : Server) (a : Act) (t : Server) : Prop :=
  ∃ u, step s a = some u ∧ Reach step interrupts u t

/-- The server, about to refuse the client, puts it into the wait queue. -/
def Queued (t : Server) (client : ClientInfo) : Prop :=
  t.pc = .refuse client ∧ ∀ m u, m.array ≠ none → m.item = true → Follows t (.run m) u →
    u.processQueue.size = t.processQueue.size + 1 ∧ ∃ i, u.processQueue.cell i = some client

/-- The child forked for the client gets into the array. -/
def Recorded (t : Server) : Prop :=
  ∀ pid u m v, Follows t (.fork pid) u → Follows u (.run m) v → pid ∈ v.processArray.live

/-- For the registration at hand the client goes on just when the server forks a
child for it or queues it, and a child that is forked is recorded. -/
def Agree (s : Server) (client : ClientInfo) : Prop :=
  ∃ turn, turnSent s = some turn ∧ ∀ m t, m.item = true → Follows s (.run m) t →
    (goesOn turn client.wait = true ↔ t.pc = .fork false client ∨ Queued t client) ∧
      (t.pc = .fork false client → Recorded t)

/-- Interrupts leave the statement, the array and the queue as they are. -/
lemma interrupts_keep {s t : Server} (h : Reach step interrupts s t) :
    t.pc = s.pc ∧ t.processArray = s.processArray ∧ t.processQueue = s.processQueue := by
  refine Reach.invariant (P := fun t => t.pc = s.pc ∧ t.processArray = s.processArray ∧
    t.processQueue = s.processQueue) h ⟨rfl, rfl, rfl⟩ fun u a v hu ha hst => ?_
  cases a with
  | terminate pid =>
    simp only [step] at hst
    split_ifs at hst
    cases hst
    exact hu
  | sigint =>
    cases hst
    exact hu
  | _ => exact absurd ha id

lemma Follows.reach {s₀ s t : Server} {a : Act} (hr : Reach step always s₀ s)
    (h : Follows s a t) : Reach step always s₀ t := by
  obtain ⟨u, hu, ht⟩ := h
  exact (hr.next trivial hu).trans ht.weaken

/-- `enqueue` with its allocations stores the record. -/
lemma enqueue_stores {α : Type*} {que : Queue α} (h : Wf que) (item : α) {m : Mallocs α}
    (harray : m.array ≠ none) (hitem : m.item = true) :
    ∃ que', enqueue que item m = some (que', 0) ∧ que'.size = que.size + 1 ∧
      ∃ i, que'.cell i = some item := by
  have hput : ∀ q : Queue α, q.elements.length = q.capacity → q.rear < q.capacity →
      (putItem q item m.item).2 = 0 ∧ (putItem q item m.item).1.size = q.size + 1 ∧
        ∃ i, (putItem q item m.item).1.cell i = some item := by
    intro q hlen hrear
    simp only [putItem, hitem, if_true, true_and]
    refine ⟨q.rear, ?_⟩
    simp [Queue.cell, List.getElem?_set_self (hlen ▸ hrear)]
  unfold enqueue
  split_ifs with hfull
  · obtain ⟨junk, hjunk⟩ := Option.ne_none_iff_exists'.mp harray
    obtain ⟨i, out, hres, hi, hlen⟩ := resizeQueue_spec h junk
    have hnew := hput ⟨0, i, if que.capacity = 0 then 1 else 2 * que.capacity, que.size, out⟩ hlen
      (by dsimp only; split_ifs <;> omega)
    rw [hjunk, hres]
    exact ⟨_, congrArg some (Prod.ext rfl hnew.1), hnew.2⟩
  · have hrear := h.rear_le
    have hsize := h.size_le
    have hnew := hput que h.length_eq (by omega)
    exact ⟨_, congrArg some (Prod.ext rfl hnew.1), hnew.2⟩

/-- The statement after the answer to the client. -/
lemma follows_dispatch {s t : Server} {client : ClientInfo} {m : Mallocs ClientInfo}
    (hpc : s.pc = .dispatch client) (hitem : m.item = true) (h : Follows s (.run m) t) :
    t.pc = (if clientTurn s = 0 then .fork false client else .refuse client) ∧
      t.processArray = s.processArray ∧ t.processQueue = s.processQueue := by
  obtain ⟨u, hu, hrest⟩ := h
  simp only [step, Server.run, hpc, hitem, if_true, Option.some.injEq] at hu
  obtain ⟨hp, ha, hq⟩ := interrupts_keep hrest
  rw [hp, ha, hq, ← hu]
  exact ⟨rfl, rfl, rfl⟩

/-- A client that does not wait is not queued. -/
lemma not_queued {t : Server} {client : ClientInfo} (hwait : client.wait = 0) :
    ¬ Queued t client := by
  rintro ⟨hpc, hqueue⟩
  have hrun : Follows t (.run ⟨some fun _ => none, true⟩) { t with pc := .testInt } :=
    ⟨_, by simp [step, Server.run, hpc, hwait], .start⟩
  have hsize := (hqueue _ _ (by simp) rfl hrun).1
  simp at hsize

/-- A client that waits is queued. -/
lemma queued_of_refuse {t : Server} {client : ClientInfo} (hpc : t.pc = .refuse client)
    (hwf : Wf t.processQueue) (hwait : client.wait ≠ 0) : Queued t client := by
  refine ⟨hpc, fun m u harray hitem h => ?_⟩
  obtain ⟨v, hv, hrest⟩ := h
  obtain ⟨que, hque, hsize, hcell⟩ := enqueue_stores hwf client harray hitem
  simp only [step, Server.run, hpc, hwait, if_false, hque, Option.map_some,
    Option.some.injEq] at hv
  rw [(interrupts_keep hrest).2.2, ← hv]
  exact ⟨hsize, hcell⟩

/-- With room for clients at all, the array has room for the child just forked. -/
lemma recorded_of_fork {maxClient : ℤ} (hmax : 1 ≤ maxClient) {junk : ℕ → ℕ} {t : Server}
    {client : ClientInfo} (hr : Reachable maxClient junk t) (hpc : t.pc = .fork false client) :
    Recorded t := by
  intro pid u m v hfork hadd
  have hu := reachable_inv hmax (hfork.reach hr)
  obtain ⟨u', hu', hrest⟩ := hfork
  simp only [step, hpc] at hu'
  split_ifs at hu'
  have hpc' : u.pc = .add false pid := by
    rw [(interrupts_keep hrest).1, ← Option.some.inj hu']
  obtain ⟨v', hv', hrest'⟩ := hadd
  simp only [step, Server.run, hpc', Option.some.injEq] at hv'
  rw [(interrupts_keep hrest').2.1, ← hv']
  have hlisted := hu.listed (by simp [hpc'])
  have hroom := hu.room
  simp only [hpc', Pc.adding, Pc.removing, List.nil_append, Room] at hlisted hroom
  have hlen := hlisted.length_eq
  rw [List.length_append, hu.array.length_live, List.length_singleton] at hlen
  have hlive := (addPidList_spec hu.array (by rw [hu.capacity_eq]; omega) pid).2.2
  dsimp only
  rw [hlive]
  exact List.mem_append_right _ (List.mem_singleton_self pid)

/-- The turn is zero or positive when clients are admitted at all. -/
lemma clientTurn_cases {maxClient : ℤ} {s : Server} (h : Inv maxClient s)
    (hle : maxClient ≤ intMax) :
    (clientTurn s = 0 ∧ s.processQueue.size = 0 ∨
      clientTurn s = maxClient + s.processQueue.size) ∧
    (clientTurn s ≤ intMax ↔ maxClient + s.processQueue.size ≤ intMax) := by
  have hcap := h.capacity_eq
  unfold clientTurn
  split_ifs with hfree
  · refine ⟨Or.inl ⟨rfl, hfree.2⟩, ?_⟩
    simp [hfree.2, hle]
  · exact ⟨Or.inr (by rw [hcap]), by rw [hcap]⟩

/-- Where clients are admitted at all, a registration is agreed on just when the
turn does not overflow. -/
lemma agree_iff {maxClient : ℤ} (hmax : 1 ≤ maxClient) (hle : maxClient ≤ intMax)
    {junk : ℕ → ℕ} {s : Server} {client : ClientInfo} (hr : Reachable maxClient junk s)
    (hpc : s.pc = .dispatch client) :
    Agree s client ↔ maxClient + s.processQueue.size ≤ intMax := by
  have hinv := reachable_inv hmax hr
  obtain ⟨hturn, hfits⟩ := clientTurn_cases hinv hle
  rw [← hfits]
  constructor
  · rintro ⟨turn, hsent, -⟩
    by_contra hover
    simp [turnSent, hover] at hsent
  · intro hint
    refine ⟨clientTurn s, if_pos hint, fun m t hitem h => ?_⟩
    have ht := h.reach hr
    obtain ⟨hpc', -, hqueue⟩ := follows_dispatch hpc hitem h
    by_cases hzero : clientTurn s = 0
    · rw [if_pos hzero] at hpc'
      refine ⟨iff_of_true ?_ (Or.inl hpc'), fun _ => recorded_of_fork hmax ht hpc'⟩
      simp [goesOn, hzero]
    · rw [if_neg hzero] at hpc'
      have hpos : 0 < clientTurn s := by omega
      refine ⟨?_, fun hfork => by simp [hpc'] at hfork⟩
      by_cases hwait : client.wait = 0
      · refine iff_of_false (by simp [goesOn, hpos, hwait]) ?_
        rintro (hfork | hq)
        · simp [hpc'] at hfork
        · exact not_queued hwait hq
      · refine iff_of_true (by simp [goesOn, hwait]) (Or.inr ?_)
        exact queued_of_refuse hpc' (hqueue ▸ hinv.queue) hwait

/-- The first registration that the server reads. -/
lemma reachable_first {maxClient : ℤ} {junk : ℕ → ℕ} (client : ClientInfo) :
    Reachable maxClient junk { init maxClient junk with pc := .dispatch client } :=
  reach_of_run [.register client, .clientOpens] rfl

/-- With no room at all the first child is forked and not recorded. -/
lemma not_agree_zero {junk : ℕ → ℕ} (client : ClientInfo) :
    ¬ Agree { init 0 junk with pc := .dispatch client } client := by
  rintro ⟨turn, -, h⟩
  have hfork := h ⟨none, true⟩ { init 0 junk with pc := .fork false client } rfl
    ⟨_, rfl, .start⟩
  have hlive := hfork.2 rfl 11 _ ⟨none, true⟩ _ ⟨_, rfl, .start⟩ ⟨_, rfl, .start⟩
  simp [init, addPidList, ProcessArray.live] at hlive

/-- With a negative number of clients the first one to try goes on although the
server has refused it. -/
lemma not_agree_negative {maxClient : ℤ} (hneg : maxClient < 0) (hle : maxClient ≤ intMax)
    {junk : ℕ → ℕ} {client : ClientInfo} (hwait : client.wait = 0) :
    ¬ Agree { init maxClient junk with pc := .dispatch client } client := by
  rintro ⟨turn, hsent, h⟩
  have hturn : clientTurn { init maxClient junk with pc := .dispatch client } = maxClient := by
    simp [clientTurn, init, emptyQueue, not_lt.mpr hneg.le]
  rw [turnSent, hturn, if_pos hle] at hsent
  cases hsent
  have hrun : Follows { init maxClient junk with pc := .dispatch client } (.run ⟨none, true⟩)
      { init maxClient junk with pc := .refuse client } :=
    ⟨_, by simp [step, Server.run, hturn, hneg.ne], .start⟩
  rcases ((h _ _ rfl hrun).1.mp (by simp [goesOn, not_lt.mpr hneg.le])) with hfork | hq
  · cases hfork
  · exact not_queued hwait hq

/-- Client and server agree on every registration whose turn is an `int` just when
the server was started for a positive number of clients. -/
theorem registrations_agree_iff {argv : List Text} {maxClient : ℤ}
    (hargs : checkArgs argv = some maxClient) (junk : ℕ → ℕ) :
    (∀ s client, Reachable maxClient junk s → s.pc = .dispatch client →
      (Agree s client ↔ maxClient + s.processQueue.size ≤ intMax)) ↔ 0 < maxClient := by
  obtain ⟨hminus, hle⟩ := checkArgs_spec hargs
  constructor
  · intro hagree
    by_contra hmax
    rcases eq_or_ne maxClient 0 with rfl | hzero
    · refine not_agree_zero ⟨7, 1, []⟩ ((hagree _ _ (reachable_first _) rfl).mpr ?_)
      simp [init, emptyQueue]
    · have hneg : maxClient < 0 := by omega
      have hwait : (⟨7, 0, []⟩ : ClientInfo).wait = 0 := rfl
      refine not_agree_negative hneg hle hwait ((hagree _ _ (reachable_first _) rfl).mpr ?_)
      simpa [init, emptyQueue] using hle
  · exact fun hmax s client hr hpc => agree_iff hmax hle hr hpc

/-- Started for two clients, the server serves the first at once. -/
theorem registrations_agree_first : checkArgs ["neHosServer".toList, ['d'], ['2']] = some 2 ∧
    Agree { init 2 (fun _ => 0) with pc := .dispatch ⟨7, 0, []⟩ } ⟨7, 0, []⟩ := by
  have hargs : checkArgs ["neHosServer".toList, ['d'], ['2']] = some 2 := by decide
  refine ⟨hargs, ?_⟩
  exact ((registrations_agree_iff hargs fun _ => 0).mpr (by decide) _ _ (reachable_first _)
    rfl).mpr (by decide)

/-- Started for -2 clients, the server tells the first client the turn -2 and, as the
client does not wait, neither forks for it nor queues it; the client goes on. Started
for none, it forks a child for the first client that it does not record. -/
theorem refused_client_goes_on :
    checkArgs ["neHosServer".toList, ['d'], ['-', '2']] = some (-2) ∧
    (∃ s t u : Server, Reachable (-2) (fun _ => 0) s ∧ s.pc = .dispatch ⟨7, 0, []⟩ ∧
      turnSent s = some (-2) ∧ goesOn (-2) 0 = true ∧
      run step [.run ⟨none, true⟩] s = some t ∧ t.pc = .refuse ⟨7, 0, []⟩ ∧
      run step [.run ⟨none, true⟩] t = some u ∧ u.pc = .testInt ∧ u.processQueue.size = 0 ∧
      u.children = [] ∧ ¬ Agree s ⟨7, 0, []⟩) ∧
    checkArgs ["neHosServer".toList, ['d'], ['0']] = some 0 ∧
    ∃ s t : Server, Reachable 0 (fun _ => 0) s ∧ s.pc = .dispatch ⟨7, 0, []⟩ ∧
      turnSent s = some 0 ∧ run step [.run ⟨none, true⟩, .fork 11, .run ⟨none, true⟩] s = some t ∧
      t.children = [11] ∧ t.processArray.live = [] ∧ ¬ Agree s ⟨7, 0, []⟩ :=
  ⟨by decide, ⟨_, _, _, reachable_first _, rfl, by decide, by decide, rfl, rfl, rfl, rfl, rfl, rfl,
    not_agree_negative (by decide) (by decide) rfl⟩, by decide, _, _, reachable_first _, rfl,
    by decide, rfl, rfl, rfl, not_agree_zero _⟩

end SystemProgramming.Registration
