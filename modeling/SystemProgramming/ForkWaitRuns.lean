import SystemProgramming.ForkWait

/-!
# A process tree whose processes take turns

Where every fork is followed by a wait and what is forked exits, a child runs from its
fork to its exit while everybody else waits. So the calls of the whole tree come in the
order in which one process would make them that runs a child as part of its own code:
forking and waiting is a detour of a sequential program. This module states that program
and shows that the two have the same histories.
-/
namespace SystemProgramming.ForkWait
open SystemProgramming.Transition

/-- How the code for a line ends. -/
inductive Ending where
  | start
  | exit
  deriving DecidableEq, Repr

/-- The calls of a sequential run of the code, with their outcomes. What is forked runs to
its exit before the rest. -/
inductive Runs {β : Type*} : Code β → List (β × Bool) → Ending → Prop
  | start : Runs .start [] .start
  | exit : Runs .exit [] .exit
  | yes {b : β} {yes no : Code β} {tr : List (β × Bool)} {e : Ending} (h : Runs yes tr e) :
      Runs (.call b yes no) ((b, true) :: tr) e
  | no {b : β} {yes no : Code β} {tr : List (β × Bool)} {e : Ending} (h : Runs no tr e) :
      Runs (.call b yes no) ((b, false) :: tr) e
  | fork {child parent : Code β} {tr tr' : List (β × Bool)} {e : Ending}
      (hchild : Runs child tr .exit) (hparent : Runs parent tr' e) :
      Runs (.fork child parent) (tr ++ tr') e
  | wait {next : Code β} {tr : List (β × Bool)} {e : Ending} (h : Runs next tr e) :
      Runs (.wait next) tr e

/-- All calls of the code are in `p`. -/
def Code.All {β : Type*} (p : β → Prop) : Code β → Prop
  | .start | .exit => True
  | .call b yes no => p b ∧ yes.All p ∧ no.All p
  | .fork child parent => child.All p ∧ parent.All p
  | .wait next => next.All p

lemma Runs.all {β : Type*} {p : β → Prop} {c : Code β} {tr : List (β × Bool)} {e : Ending}
    (h : Runs c tr e) (hall : c.All p) : ∀ x, x ∈ tr → p x.1 := by
  induction h with
  | start | exit => exact fun x hx => absurd hx List.not_mem_nil
  | yes _ ih =>
    intro x hx
    rcases List.mem_cons.mp hx with rfl | hx
    · exact hall.1
    · exact ih hall.2.1 x hx
  | no _ ih =>
    intro x hx
    rcases List.mem_cons.mp hx with rfl | hx
    · exact hall.1
    · exact ih hall.2.2 x hx
  | fork _ _ ihchild ihparent =>
    intro x hx
    rcases List.mem_append.mp hx with hx | hx
    · exact ihchild hall.1 x hx
    · exact ihparent hall.2 x hx
  | wait _ ih => exact ih hall

lemma Runs.call_inv {β : Type*} {b : β} {yes no : Code β} {tr : List (β × Bool)} {e : Ending}
    (h : Runs (.call b yes no) tr e) :
    ∃ ok tr', tr = (b, ok) :: tr' ∧ Runs (if ok then yes else no) tr' e := by
  cases h with
  | yes h => exact ⟨true, _, rfl, h⟩
  | no h => exact ⟨false, _, rfl, h⟩

/-- What a process tree does that can be seen: it reads a line or makes a call. -/
inductive Event (β γ : Type*) where
  | line (l : γ)
  | call (b : β) (ok : Bool)
  deriving DecidableEq, Repr

/-- The process tree and all that it has done. -/
structure History (β γ : Type*) where
  tree : Processes β
  events : List (Event β γ)

def eventsOf {β γ : Type*} (s : Processes β) : Act γ → List (Event β γ)
  | .line _ l => [.line l]
  | .step pid ok => ((s.proc pid).call.toList).map fun b => .call b ok
  | _ => []

def historyStep {β γ : Type*} (body : γ → Option (Code β)) (h : History β γ) (a : Act γ) :
    Option (History β γ) :=
  (step body h.tree a).map fun t => ⟨t, h.events ++ eventsOf h.tree a⟩

def noHistory (β γ : Type*) : History β γ := ⟨init β, []⟩

/-- A line and the calls that it led to. -/
structure Round (β γ : Type*) where
  line : γ
  calls : List (β × Bool)

def Round.events {β γ : Type*} (r : Round β γ) : List (Event β γ) :=
  .line r.line :: r.calls.map fun c => .call c.1 c.2

/-- The calls are those of a sequential run of the code for the line. -/
def Round.Ends {β γ : Type*} (body : γ → Option (Code β)) (r : Round β γ) (e : Ending) : Prop :=
  ∃ c, body r.line = some c ∧ Runs c r.calls e

/-- The runs of a process and of those that wait for it, the innermost first: each exits,
and the one behind it goes on. -/
inductive StackRuns {β : Type*} : List (Code β) → List (β × Bool) → Ending → Prop
  | none : StackRuns [] [] .exit
  | last {c : Code β} {tr : List (β × Bool)} {e : Ending} (h : Runs c tr e) : StackRuns [c] tr e
  | inner {c k : Code β} {ks : List (Code β)} {tr tr' : List (β × Bool)} {e : Ending}
      (h : Runs c tr .exit) (hrest : StackRuns (k :: ks) tr' e) :
      StackRuns (c :: k :: ks) (tr ++ tr') e

/-- What the processes above a process do when it has exited. -/
inductive Above {β : Type*} (s : Processes β) : ℕ → List (Code β) → Prop
  | root (h : s.parent 0 = none) : Above s 0 []
  | child {c p : ℕ} {next : Code β} {ks : List (Code β)} (hp : s.parent c = some p)
      (hwait : s.proc p = .code (.wait next)) (h : Above s p ks) : Above s c (next :: ks)

/-- The one process that does not wait for a child. -/
structure Active {β : Type*} (s : Processes β) (pid : ℕ) (ks : List (Code β)) : Prop where
  known : s.Known pid
  childless : ∀ c, s.Known c → s.parent c ≠ some pid
  above : Above s pid ks

/-- The process has not been reaped, and `p` forked it. -/
def Processes.ChildOf {β : Type*} (s : Processes β) (c p : ℕ) : Prop :=
  s.Known c ∧ s.parent c = some p

/-- Every process descends from the first one. -/
lemma Nested.from_root {β : Type*} {never : β → Bool} {s : Processes β} (h : Nested never s)
    {c : ℕ} (hc : s.Known c) : Relation.ReflTransGen s.ChildOf c 0 := by
  induction c using Nat.strong_induction_on with
  | _ c ih =>
    cases hp : s.parent c with
    | none =>
      rw [h.root c hc hp]
    | some p =>
      obtain ⟨next, hwait⟩ := h.waits c p hc hp
      have hrest := ih p (h.older c p hp) (by simp [Processes.Known, hwait])
      exact hrest.head ⟨hc, hp⟩

/-- Where a process has no children, all others wait above it. -/
lemma Nested.above_childless {β : Type*} {never : β → Bool} {s : Processes β}
    (h : Nested never s) {pid : ℕ} (hpid : s.Known pid)
    (hchildless : ∀ c, s.Known c → s.parent c ≠ some pid) {q : ℕ} (hq : s.Known q) :
    Relation.ReflTransGen s.ChildOf pid q := by
  induction q using Nat.strong_induction_on with
  | _ q ih =>
    cases hp : s.parent q with
    | none =>
      rw [h.root q hq hp]
      exact h.from_root hpid
    | some p =>
      obtain ⟨next, hwait⟩ := h.waits q p hq hp
      have hpath := ih p (h.older q p hp) (by simp [Processes.Known, hwait])
      rcases hpath.cases_tail with rfl | ⟨c, hc, hcp⟩
      · exact absurd hp (hchildless q hq)
      · -- `p` waits for one child only
        rwa [h.only c q p hcp.1 hq hcp.2 hp] at hc

/-- At most one process does not wait for a child. -/
lemma Nested.childless_unique {β : Type*} {never : β → Bool} {s : Processes β}
    (h : Nested never s) {pid q : ℕ} (hpid : s.Known pid)
    (hchildless : ∀ c, s.Known c → s.parent c ≠ some pid) (hq : s.Known q)
    (hq' : ∀ c, s.Known c → s.parent c ≠ some q) : q = pid := by
  rcases (h.above_childless hpid hchildless hq).cases_tail with heq | ⟨c, -, hc⟩
  · exact heq
  · exact absurd hc.2 (hq' c hc.1)

/-- What waits above a process does not depend on itself or on younger ones. -/
lemma Above.congr {β : Type*} {s t : Processes β} (holder : ∀ c p, s.parent c = some p → p < c)
    {pid : ℕ} {ks : List (Code β)} (h : Above s pid ks)
    (hproc : ∀ p, p < pid → t.proc p = s.proc p)
    (hparent : ∀ p, p ≤ pid → t.parent p = s.parent p) : Above t pid ks := by
  induction h with
  | root h => exact .root ((hparent 0 le_rfl).trans h)
  | @child c p next ks hp hwait h ih =>
    have hlt := holder c p hp
    refine .child ((hparent c le_rfl).trans hp) ((hproc p hlt).trans hwait) (ih ?_ ?_)
    · exact fun q hq => hproc q (hq.trans hlt)
    · exact fun q hq => hparent q (hq.trans hlt.le)

lemma known_of_set {β : Type*} {s : Processes β} {pid c : ℕ} {q : Proc β} (hpid : s.Known pid)
    (hc : (s.set pid q).Known c) : s.Known c := by
  rcases eq_or_ne c pid with rfl | hne
  · exact hpid
  · simpa [Processes.Known, proc_set, hne] using hc

/-- The active process goes on, or exits. -/
lemma Active.set {β : Type*} {never : β → Bool} {s : Processes β} {pid : ℕ} {ks : List (Code β)}
    (h : Active s pid ks) (hn : Nested never s) {q : Proc β} (hq : q ≠ .gone) :
    Active (s.set pid q) pid ks where
  known := by simpa [Processes.Known, proc_set] using hq
  childless := fun c hc => h.childless c (known_of_set h.known hc)
  above := h.above.congr hn.older (fun p hp => by rw [proc_set, if_neg hp.ne]) fun _ _ => rfl

/-- A child is the active process from its fork on. -/
lemma Active.fork {β : Type*} {never : β → Bool} {s : Processes β} {pid : ℕ} {ks : List (Code β)}
    (h : Active s pid ks) (hn : Nested never s) (child next : Code β) :
    Active (s.fork pid child (.wait next)) s.next (next :: ks) := by
  have hlt : pid < s.next := by
    by_contra hge
    exact h.known (hn.fresh pid (not_lt.mp hge))
  refine ⟨by simp [Processes.Known, proc_fork], fun c hc hp => ?_, ?_⟩
  · rw [parent_fork] at hp
    split_ifs at hp with hnew
    · cases hp
      exact absurd hlt (lt_irrefl _)
    · have hknown := known_of_fork h.known hnew hc
      have hle := hn.older c s.next hp
      exact hknown (hn.fresh c hle.le)
  · refine .child (p := pid) (by simp [parent_fork]) ?_ (h.above.congr hn.older ?_ ?_)
    · rw [proc_fork, if_neg hlt.ne, if_pos rfl]
    · intro p hp
      rw [proc_fork, if_neg (hp.trans hlt).ne, if_neg hp.ne]
    · intro p hp
      rw [parent_fork, if_neg (hp.trans_lt hlt).ne]

/-- Once the active process is reaped its parent is the active one. -/
lemma Active.reap {β : Type*} {never : β → Bool} {s : Processes β} {pid child : ℕ}
    {next : Code β} {ks : List (Code β)} (h : Active s child ks) (hn : Nested never s)
    (hp : s.parent child = some pid) (hwait : s.proc pid = .code (.wait next)) :
    ∃ ks', ks = next :: ks' ∧ Active ((s.set child .gone).set pid (.code next)) pid ks' := by
  have hlt := hn.older child pid hp
  have habove := h.above
  cases habove with
  | root hroot => simp [hroot] at hp
  | child hp' hwait' habove =>
    obtain rfl := Option.some.inj (hp.symm.trans hp')
    obtain rfl : next = _ := by simpa [hwait] using hwait'
    refine ⟨_, rfl, by simp [Processes.Known, proc_set], fun c hc hcp => ?_, ?_⟩
    · have hne : c ≠ pid := fun heq => absurd (hn.older c pid hcp) (heq ▸ lt_irrefl _)
      have hc' : c ≠ child := by
        rintro rfl
        simp [Processes.Known, proc_set, hne] at hc
      have hknown : s.Known c := by simpa [Processes.Known, proc_set, hne, hc'] using hc
      exact hc' (hn.only c child pid hknown h.known hcp hp)
    · refine habove.congr hn.older (fun p hp => ?_) fun _ _ => rfl
      rw [proc_set, if_neg hp.ne, proc_set, if_neg (hp.trans hlt).ne]

lemma Active.root_alone {β : Type*} {never : β → Bool} {s : Processes β} {ks : List (Code β)}
    (h : Active s 0 ks) (hn : Nested never s) : ks = [] := by
  have habove := h.above
  cases habove with
  | root => rfl
  | child hp => exact absurd (hn.older 0 _ hp) (Nat.not_lt_zero _)

/-- The history is one of whole rounds. -/
def Between {β γ : Type*} (body : γ → Option (Code β)) (events : List (Event β γ)) : Prop :=
  ∃ rounds : List (Round β γ), (∀ r, r ∈ rounds → r.Ends body .start) ∧
    events = rounds.flatMap Round.events

/-- Behind whole rounds the history ends with the first calls for a line; the stack has
the others. -/
def Midway {β γ : Type*} (body : γ → Option (Code β)) (events : List (Event β γ))
    (stack : List (Code β)) : Prop :=
  ∃ (before : List (Event β γ)) (r : Round β γ) (c : Code β), Between body before ∧
    events = before ++ r.events ∧ body r.line = some c ∧
      ∀ tr e, StackRuns stack tr e → Runs c (r.calls ++ tr) e

/-- What the history says about the active process. -/
def Stands {β γ : Type*} (body : γ → Option (Code β)) (events : List (Event β γ))
    (ks : List (Code β)) : Proc β → Prop
  | .start | .reading => Between body events
  | .code c => Midway body events (c :: ks)
  | .zombie => Midway body events ks
  | .gone => False

/-- A sequential run that starts with the calls `pre` leaves the rest to other code. -/
lemma StackRuns.head {β : Type*} {c c' : Code β} {pre : List (β × Bool)}
    (hruns : ∀ tr e, Runs c' tr e → Runs c (pre ++ tr) e) {ks : List (Code β)}
    {tr : List (β × Bool)} {e : Ending} (h : StackRuns (c' :: ks) tr e) :
    StackRuns (c :: ks) (pre ++ tr) e := by
  cases h with
  | last h => exact .last (hruns _ _ h)
  | inner h hrest =>
    rw [← List.append_assoc]
    exact .inner (hruns _ _ h) hrest

lemma StackRuns.exit {β : Type*} {ks : List (Code β)} {tr : List (β × Bool)} {e : Ending}
    (h : StackRuns ks tr e) : StackRuns (.exit :: ks) tr e := by
  cases h with
  | none => exact .last .exit
  | last h => exact .inner .exit (.last h)
  | inner h hrest =>
    have hexit := StackRuns.inner Runs.exit (StackRuns.inner h hrest)
    rwa [List.nil_append] at hexit

/-- A child and the rest of its parent run as the code that forks it. -/
lemma StackRuns.fork {β : Type*} {child next : Code β} {ks : List (Code β)}
    {tr : List (β × Bool)} {e : Ending} (h : StackRuns (child :: next :: ks) tr e) :
    StackRuns (.fork child (.wait next) :: ks) tr e := by
  cases h with
  | inner hchild hrest =>
    exact hrest.head fun tr' e' h => .fork hchild (.wait h)

lemma Midway.mono {β γ : Type*} {body : γ → Option (Code β)} {events : List (Event β γ)}
    {stack stack' : List (Code β)} (h : Midway body events stack)
    (hstack : ∀ tr e, StackRuns stack' tr e → StackRuns stack tr e) :
    Midway body events stack' := by
  obtain ⟨before, r, c, hbefore, hevents, hc, hruns⟩ := h
  exact ⟨before, r, c, hbefore, hevents, hc, fun tr e htr => hruns tr e (hstack tr e htr)⟩

/-- A call is made, with one outcome or the other. -/
lemma Midway.call {β γ : Type*} {body : γ → Option (Code β)} {events : List (Event β γ)}
    {b : β} {yes no : Code β} {ks : List (Code β)}
    (h : Midway body events (.call b yes no :: ks)) (ok : Bool) :
    Midway body (events ++ [.call b ok]) ((if ok then yes else no) :: ks) := by
  obtain ⟨before, r, c, hbefore, rfl, hc, hruns⟩ := h
  refine ⟨before, ⟨r.line, r.calls ++ [(b, ok)]⟩, c, hbefore, by simp [Round.events], hc,
    fun tr e htr => ?_⟩
  have hcall : ∀ tr e, Runs (if ok then yes else no) tr e →
      Runs (.call b yes no) ([(b, ok)] ++ tr) e := by
    intro tr e h
    cases ok with
    | true => exact .yes h
    | false => exact .no h
  rw [List.append_assoc]
  exact hruns _ _ (htr.head hcall)

/-- The run of a line ends where it started. -/
lemma Midway.start {β γ : Type*} {body : γ → Option (Code β)} {events : List (Event β γ)}
    (h : Midway body events [.start]) : Between body events := by
  obtain ⟨before, r, c, ⟨rounds, hends, rfl⟩, rfl, hc, hruns⟩ := h
  refine ⟨rounds ++ [r], fun x hx => ?_, by simp⟩
  rcases List.mem_append.mp hx with hx | hx
  · exact hends x hx
  · rw [List.mem_singleton.mp hx]
    have hrun := hruns [] .start (.last .start)
    rw [List.append_nil] at hrun
    exact ⟨c, hc, hrun⟩

/-- One process is active, and the history has taken it where it stands. -/
def Turn {β γ : Type*} (body : γ → Option (Code β)) (h : History β γ) : Prop :=
  ∃ pid ks, Active h.tree pid ks ∧ Stands body h.events ks (h.tree.proc pid)

lemma turn_init {β γ : Type*} (body : γ → Option (Code β)) : Turn body (noHistory β γ) := by
  refine ⟨0, [], ⟨by simp [noHistory, init, Processes.Known], fun c _ => by simp [noHistory, init],
    .root rfl⟩, ?_⟩
  have hstart : (noHistory β γ).tree.proc 0 = .start := by simp [noHistory, init]
  rw [hstart]
  exact ⟨[], fun r hr => absurd hr List.not_mem_nil, rfl⟩

/-- A process that does not wait is the active one. -/
lemma Turn.acts {β γ : Type*} {never : β → Bool} {body : γ → Option (Code β)}
    {h : History β γ} (ht : Turn body h) (hn : Nested never h.tree) {pid : ℕ}
    (hknown : h.tree.Known pid) (hchildless : ∀ c, h.tree.Known c → h.tree.parent c ≠ some pid) :
    ∃ ks, Active h.tree pid ks ∧ Stands body h.events ks (h.tree.proc pid) := by
  obtain ⟨q, ks, hactive, hstands⟩ := ht
  obtain rfl := hn.childless_unique hactive.known hactive.childless hknown hchildless
  exact ⟨ks, hactive, hstands⟩

/-- A step of a process by itself. -/
lemma Turn.proceed {β γ : Type*} {never : β → Bool} {body : γ → Option (Code β)}
    {h : History β γ} {t : Processes β} (ht : Turn body h) (hn : Nested never h.tree) {pid : ℕ}
    {ok : Bool} (hst : step body h.tree (.step pid ok) = some t) :
    Turn body ⟨t, h.events ++ eventsOf h.tree (.step pid ok : Act γ)⟩ := by
  have hstep : ∀ next, h.tree.proc pid ≠ .code (.wait next) := by
    intro next hp
    simp [step, hp] at hst
  have hknown : h.tree.Known pid := by
    intro hp
    simp [step, hp] at hst
  obtain ⟨ks, hactive, hstands⟩ := ht.acts hn hknown (hn.childless hstep)
  have hset : ∀ q : Proc β, q ≠ .gone → ∀ events : List (Event β γ),
      Stands body events ks q → Turn body ⟨h.tree.set pid q, events⟩ := by
    intro q hq events hstands
    refine ⟨pid, ks, hactive.set hn hq, ?_⟩
    simpa [proc_set] using hstands
  simp only [step] at hst
  split at hst
  case h_1 hp =>
    cases hst
    rw [hp] at hstands
    simpa [eventsOf, hp, Proc.call] using hset .reading (by simp) _ hstands
  case h_2 hp =>
    cases hst
    rw [hp] at hstands
    have hzero : pid = 0 := by
      by_contra hne
      obtain ⟨c, hc, hleaves⟩ := hn.leaves pid hne (by simp [Processes.Live, hp, Proc.live])
      rw [hp] at hc
      cases hc
      exact hleaves
    subst hzero
    obtain rfl := hactive.root_alone hn
    simpa [eventsOf, hp, Proc.call] using hset .start (by simp) _ hstands.start
  case h_3 hp =>
    cases hst
    rw [hp] at hstands
    simpa [eventsOf, hp, Proc.call] using
      hset .zombie (by simp) _ (hstands.mono fun _ _ htr => htr.exit)
  case h_4 b yes no hp =>
    cases hst
    rw [hp] at hstands
    simpa [eventsOf, hp, Proc.call] using
      hset (.code (if ok then yes else no)) (by simp) _ (hstands.call ok)
  case h_5 child parent hp =>
    cases hst
    rw [hp] at hstands
    obtain ⟨-, -, -, next, rfl⟩ := hn.tidy pid _ hp
    refine ⟨h.tree.next, next :: ks, hactive.fork hn child next, ?_⟩
    have hmid : Midway body h.events (child :: next :: ks) :=
      hstands.mono fun _ _ htr => htr.fork
    simpa [eventsOf, hp, Proc.call, proc_fork, Stands] using hmid
  case h_6 => cases hst

/-- The processes take turns. -/
theorem Turn.step {β γ : Type*} {never : β → Bool} {body : γ → Option (Code β)}
    {h h' : History β γ} {a : Act γ} (ht : Turn body h) (hn : Nested never h.tree)
    (hstep : historyStep body h a = some h') : Turn body h' := by
  obtain ⟨t, hst, rfl⟩ := Option.map_eq_some_iff.mp hstep
  cases a with
  | line pid l =>
    cases hp : h.tree.proc pid with
    | reading =>
      simp only [ForkWait.step, hp] at hst
      obtain ⟨c, hc, rfl⟩ := Option.map_eq_some_iff.mp hst
      have hknown : h.tree.Known pid := by simp [Processes.Known, hp]
      obtain ⟨ks, hactive, hstands⟩ := ht.acts hn hknown (hn.childless (by simp [hp]))
      rw [hp] at hstands
      have hzero : pid = 0 := by
        by_contra hne
        obtain ⟨c, hc, -⟩ := hn.leaves pid hne (by simp [Processes.Live, hp, Proc.live])
        rw [hp] at hc
        cases hc
      subst hzero
      obtain rfl := hactive.root_alone hn
      refine ⟨0, [], hactive.set hn (by simp), ?_⟩
      have hmid : Midway body (h.events ++ [.line l]) [c] := by
        refine ⟨h.events, ⟨l, []⟩, c, hstands, rfl, hc, fun tr e htr => ?_⟩
        cases htr with
        | last hrun => exact hrun
      simpa [eventsOf, proc_set, Stands] using hmid
    | _ => simp [ForkWait.step, hp] at hst
  | step pid ok => exact ht.proceed hn hst
  | reap pid child =>
    simp only [ForkWait.step] at hst
    split at hst
    · rename_i next hp hchild
      split_ifs at hst with hparent
      cases hst
      have hknown : h.tree.Known child := by simp [Processes.Known, hchild]
      obtain ⟨ks, hactive, hstands⟩ := ht.acts hn hknown (hn.childless (by simp [hchild]))
      obtain ⟨ks', rfl, hactive'⟩ := hactive.reap hn hparent hp
      rw [hchild] at hstands
      refine ⟨pid, ks', hactive', ?_⟩
      simpa [eventsOf, proc_set, Stands] using hstands
    · cases hst
  | noChild pid =>
    simp only [ForkWait.step] at hst
    split at hst
    · rename_i next hp
      split_ifs at hst with hnone
      cases hst
      have hchildless : ∀ c, h.tree.Known c → h.tree.parent c ≠ some pid := by
        intro c hc hcp
        have hlt : c < h.tree.next := by
          by_contra hge
          exact hc (hn.fresh c (not_lt.mp hge))
        have hgone := hnone c hlt hcp
        exact hc (by split at hgone <;> simp_all)
      obtain ⟨ks, hactive, hstands⟩ := ht.acts hn (by simp [Processes.Known, hp]) hchildless
      rw [hp] at hstands
      refine ⟨pid, ks, hactive.set hn (by simp), ?_⟩
      have hmid : Midway body h.events (next :: ks) := hstands.mono fun tr e htr => by
        have hwait : StackRuns (.wait next :: ks) ([] ++ tr) e :=
          htr.head fun _ _ hrun => .wait hrun
        exact hwait
      simpa [eventsOf, proc_set, Stands] using hmid
    · cases hst

/-- No call in `never` goes well, whoever makes it. -/
def FailsIn {β γ : Type*} (never : β → Bool) (h : History β γ) (a : Act γ) : Prop :=
  Fails never h.tree a

instance {β γ : Type*} (never : β → Bool) (h : History β γ) (a : Act γ) :
    Decidable (FailsIn never h a) :=
  inferInstanceAs (Decidable (Fails never h.tree a))

/-- The calls in `never` have failed. -/
def Spared {β : Type*} (never : β → Bool) (calls : List (β × Bool)) : Prop :=
  ∀ x, x ∈ calls → never x.1 = true → x.2 = false

/-- The processes of every run take turns. -/
theorem reach_turn {β γ : Type*} {never : β → Bool} {body : γ → Option (Code β)}
    (hbody : ∀ l c, body l = some c → c.Tidy never) {h : History β γ}
    (hr : Reach (historyStep body) (FailsIn never) (noHistory β γ) h) :
    Nested never h.tree ∧ Turn body h := by
  refine hr.invariant (P := fun h => Nested never h.tree ∧ Turn body h)
    ⟨nested_init never, turn_init body⟩ fun u a v hu hok hst => ?_
  refine ⟨?_, hu.2.step hu.1 hst⟩
  obtain ⟨t, hst', rfl⟩ := Option.map_eq_some_iff.mp hst
  exact hu.1.step hbody hok hst'

/-- In the history of every run the calls in `never` fail. -/
lemma reach_spared {β γ : Type*} {never : β → Bool} {body : γ → Option (Code β)}
    {h : History β γ} (hr : Reach (historyStep body) (FailsIn never) (noHistory β γ) h) (b : β)
    (hb : Event.call b true ∈ h.events) : never b = false := by
  revert b
  refine hr.invariant (P := fun h => ∀ b, Event.call b true ∈ h.events → never b = false)
    (fun b hb => absurd hb List.not_mem_nil) fun u a v hu hok hst b hb => ?_
  obtain ⟨t, hst', rfl⟩ := Option.map_eq_some_iff.mp hst
  rcases List.mem_append.mp hb with hb | hb
  · exact hu b hb
  · cases a with
    | step pid ok =>
      obtain ⟨b', hb', heq⟩ := List.mem_map.mp hb
      cases heq
      rw [Option.mem_toList] at hb'
      have hfails : (u.tree.proc pid).call.all (fun b => !never b) = true := hok
      rw [hb'] at hfails
      simpa using hfails
    | line pid l => simp [eventsOf] at hb
    | reap pid child => simp [eventsOf] at hb
    | noChild pid => simp [eventsOf] at hb

/-- A run of a process, with all that it forks, from one state of the tree to another. -/
structure Ran {β γ : Type*} (never : β → Bool) (body : γ → Option (Code β)) (h h' : History β γ)
    (pid : ℕ) (q : Proc β) (tr : List (β × Bool)) : Prop where
  reach : Reach (historyStep body) (FailsIn never) h h'
  events : h'.events = h.events ++ tr.map fun c => .call c.1 c.2
  proc : h'.tree.proc pid = q
  others : ∀ p, p ≠ pid → p < h.tree.next → h'.tree.proc p = h.tree.proc p
  parents : ∀ p, p < h.tree.next → h'.tree.parent p = h.tree.parent p
  grows : h.tree.next ≤ h'.tree.next
  reaped : ∀ p, h.tree.next ≤ p → h'.tree.proc p = .gone
  older : ∀ c p, h'.tree.parent c = some p → p < c

/-- A process that may run: it waits for nobody, and new numbers are free. -/
structure Ready {β : Type*} (s : Processes β) (pid : ℕ) : Prop where
  known : s.Known pid
  fresh : ∀ p, s.next ≤ p → s.proc p = .gone
  childless : ∀ c, s.Known c → s.parent c ≠ some pid
  older : ∀ c p, s.parent c = some p → p < c

lemma Ready.lt {β : Type*} {s : Processes β} {pid : ℕ} (h : Ready s pid) : pid < s.next := by
  by_contra hge
  exact h.known (h.fresh pid (not_lt.mp hge))

lemma Ran.ready {β γ : Type*} {never : β → Bool} {body : γ → Option (Code β)}
    {h h' : History β γ} {pid : ℕ} {q : Proc β} {tr : List (β × Bool)}
    (hran : Ran never body h h' pid q tr) (hready : Ready h.tree pid) (hq : q ≠ .gone) :
    Ready h'.tree pid := by
  refine ⟨by rw [Processes.Known, hran.proc]; exact hq,
    fun p hp => hran.reaped p (hran.grows.trans hp), fun c hc hcp => ?_, hran.older⟩
  have hlt : c < h.tree.next := by
    by_contra hge
    exact hc (hran.reaped c (not_lt.mp hge))
  have hknown : h.tree.Known c := by
    rcases eq_or_ne c pid with rfl | hne
    · exact hready.known
    · rwa [Processes.Known, hran.others c hne hlt] at hc
  exact hready.childless c hknown ((hran.parents c hlt).symm.trans hcp)

lemma Ran.trans {β γ : Type*} {never : β → Bool} {body : γ → Option (Code β)}
    {h h₁ h₂ : History β γ} {pid : ℕ} {q q' : Proc β} {tr tr' : List (β × Bool)}
    (hfirst : Ran never body h h₁ pid q tr) (hsecond : Ran never body h₁ h₂ pid q' tr')
    (hpid : pid < h.tree.next) : Ran never body h h₂ pid q' (tr ++ tr') where
  reach := hfirst.reach.trans hsecond.reach
  events := by rw [hsecond.events, hfirst.events, List.map_append, List.append_assoc]
  proc := hsecond.proc
  others := fun p hne hlt => by
    rw [hsecond.others p hne (hlt.trans_le hfirst.grows), hfirst.others p hne hlt]
  parents := fun p hlt => by
    rw [hsecond.parents p (hlt.trans_le hfirst.grows), hfirst.parents p hlt]
  grows := hfirst.grows.trans hsecond.grows
  reaped := fun p hp => by
    by_cases hlt : p < h₁.tree.next
    · rw [hsecond.others p (hpid.trans_le hp).ne' hlt, hfirst.reaped p hp]
    · exact hsecond.reaped p (not_lt.mp hlt)
  older := hsecond.older

/-- One step of a process by itself. -/
lemma Ran.step {β γ : Type*} {never : β → Bool} {body : γ → Option (Code β)}
    {h : History β γ} {pid : ℕ} {q : Proc β} {tr : List (β × Bool)} {a : Act γ}
    (hready : Ready h.tree pid) (hok : FailsIn never h a)
    (hst : step body h.tree a = some (h.tree.set pid q))
    (hevents : eventsOf h.tree a = tr.map fun c => .call c.1 c.2) :
    Ran never body h ⟨h.tree.set pid q, h.events ++ tr.map fun c => .call c.1 c.2⟩ pid q tr where
  reach := Reach.start.next hok (by rw [historyStep, hst, hevents]; rfl)
  events := rfl
  proc := by simp [proc_set]
  others := fun p hne _ => by simp [proc_set, hne]
  parents := fun _ _ => rfl
  grows := le_rfl
  reaped := fun p hp => by
    have hne : p ≠ pid := (hready.lt.trans_le hp).ne'
    simpa [proc_set, hne] using hready.fresh p hp
  older := hready.older

/-- A child that has been forked and has run to its exit is reaped. -/
lemma Ran.detour {β γ : Type*} {never : β → Bool} {body : γ → Option (Code β)}
    {h h' : History β γ} {pid : ℕ} {child next : Code β} {tr : List (β × Bool)}
    (hready : Ready h.tree pid) (hp : h.tree.proc pid = .code (.fork child (.wait next)))
    (hran : Ran never body ⟨h.tree.fork pid child (.wait next), h.events⟩ h' h.tree.next .zombie
      tr) :
    ∃ h'', Ran never body h h'' pid (.code next) tr := by
  have hlt := hready.lt
  have hnext : pid < (h.tree.fork pid child (.wait next)).next := hlt.trans (Nat.lt_succ_self _)
  have hchild : h.tree.next < (h.tree.fork pid child (.wait next)).next := Nat.lt_succ_self _
  have hwait : h'.tree.proc pid = .code (.wait next) := by
    rw [hran.others pid hlt.ne hnext, proc_fork, if_neg hlt.ne, if_pos rfl]
  have hparent : h'.tree.parent h.tree.next = some pid := by
    rw [hran.parents _ hchild, parent_fork, if_pos rfl]
  have hreap : historyStep body h' (.reap pid h.tree.next) =
      some ⟨(h'.tree.set h.tree.next .gone).set pid (.code next), h'.events⟩ := by
    simp [historyStep, ForkWait.step, hwait, hran.proc, hparent, eventsOf]
  have hfork : historyStep body h (.step pid true) =
      some ⟨h.tree.fork pid child (.wait next), h.events⟩ := by
    simp [historyStep, ForkWait.step, hp, eventsOf, Proc.call]
  have hfails : FailsIn never h (.step pid true : Act γ) := by
    simp [FailsIn, Fails, hp, Proc.call]
  have hreaps : FailsIn never h' (.reap pid h.tree.next : Act γ) := trivial
  have hreach : Reach (historyStep body) (FailsIn never) h h' :=
    (Reach.start.next hfails hfork).trans hran.reach
  refine ⟨⟨(h'.tree.set h.tree.next .gone).set pid (.code next), h'.events⟩,
    hreach.next hreaps hreap, hran.events, by simp [proc_set], fun p hne hp => ?_,
    fun p hp => ?_, ?_, fun p hp => ?_, hran.older⟩
  · rw [proc_set, if_neg hne, proc_set, if_neg hp.ne, hran.others p hp.ne (hp.trans hchild),
      proc_fork, if_neg hp.ne, if_neg hne]
  · have hkept := hran.parents p (hp.trans hchild)
    rwa [parent_fork, if_neg hp.ne] at hkept
  · exact hchild.le.trans hran.grows
  · rw [proc_set, if_neg (hlt.trans_le hp).ne', proc_set]
    split_ifs with heq
    · rfl
    · exact hran.reaped p (Nat.succ_le_of_lt (lt_of_le_of_ne hp (Ne.symm heq)))

lemma Ready.fork {β : Type*} {s : Processes β} {pid : ℕ} (h : Ready s pid)
    (child next : Code β) : Ready (s.fork pid child (.wait next)) s.next := by
  refine ⟨by simp [Processes.Known, proc_fork], fun p hp => ?_, fun c hc hcp => ?_,
    fun c p hcp => ?_⟩
  · have hlt : s.next < p := hp
    rw [proc_fork, if_neg hlt.ne', if_neg (h.lt.trans hlt).ne']
    exact h.fresh p hlt.le
  · rw [parent_fork] at hcp
    split_ifs at hcp with hnew
    · exact absurd (Option.some.inj hcp) h.lt.ne
    · have hknown := known_of_fork h.known hnew hc
      exact hknown (h.fresh c (h.older c _ hcp).le)
  · rw [parent_fork] at hcp
    split_ifs at hcp with hnew
    · cases hcp
      rw [hnew]
      exact h.lt
    · exact h.older c p hcp

/-- The process at the end of its code. -/
def Ending.proc {β : Type*} : Ending → Proc β
  | .start => .start
  | .exit => .zombie

/-- The tree can follow every sequential run of the code of a process. -/
lemma Runs.realized {β γ : Type*} {never : β → Bool} (body : γ → Option (Code β)) {c : Code β}
    {tr : List (β × Bool)} {e : Ending} (hruns : Runs c tr e) (htidy : c.Tidy never)
    (hspared : Spared never tr) {h : History β γ} {pid : ℕ} (hready : Ready h.tree pid)
    (hp : h.tree.proc pid = .code c) : ∃ h', Ran never body h h' pid e.proc tr := by
  induction hn : sizeOf c using Nat.strong_induction_on generalizing c tr e h pid with
  | _ n ih =>
    subst hn
    -- the process makes a step, and goes on
    have hcons : ∀ (a : Act γ) (next : Code β) (pre tr' : List (β × Bool)), sizeOf next < sizeOf c →
        FailsIn never h a → step body h.tree a = some (h.tree.set pid (.code next)) →
        eventsOf h.tree a = pre.map (fun c => .call c.1 c.2) → tr = pre ++ tr' →
        next.Tidy never → Runs next tr' e → ∃ h', Ran never body h h' pid e.proc tr := by
      rintro a next pre tr' hlt hok hst hevents rfl hnext hrest
      have hfirst := Ran.step hready hok hst hevents
      obtain ⟨h', hran⟩ := ih _ hlt hrest hnext
        (fun x hx => hspared x (List.mem_append_right _ hx)) (hfirst.ready hready (by simp))
        hfirst.proc rfl
      exact ⟨h', hfirst.trans hran hready.lt⟩
    cases hruns with
    | start | exit =>
      have hok : FailsIn never h (.step pid true : Act γ) := by
        simp [FailsIn, Fails, hp, Proc.call]
      exact ⟨_, .step hready hok (by simp [step, hp, Ending.proc])
        (by simp [eventsOf, hp, Proc.call])⟩
    | @yes b next no tr' _ hrest =>
      have hspare : never b = false := by simpa using hspared (b, true) List.mem_cons_self
      have hlt : sizeOf next < sizeOf (Code.call b next no) := by
        rw [Code.call.sizeOf_spec]
        omega
      refine hcons (.step pid true) next [(b, true)] tr' hlt ?_ (by simp [step, hp])
        (by simp [eventsOf, hp, Proc.call]) rfl htidy.1 hrest
      simp [FailsIn, Fails, hp, Proc.call, hspare]
    | @no b yes next tr' _ hrest =>
      have hlt : sizeOf next < sizeOf (Code.call b yes next) := by
        rw [Code.call.sizeOf_spec]
        omega
      exact hcons (.step pid false) next [(b, false)] tr' hlt trivial
        (by simp [step, hp]) (by simp [eventsOf, hp, Proc.call]) rfl htidy.2 hrest
    | @fork child parent tr₁ tr₂ _ hchild hparent =>
      obtain ⟨-, hchildTidy, hparentTidy, next, rfl⟩ := htidy
      have hforked : (h.tree.fork pid child (.wait next)).proc h.tree.next = .code child := by
        rw [proc_fork, if_pos rfl]
      have hchildLt : sizeOf child < sizeOf (Code.fork child (.wait next)) := by
        rw [Code.fork.sizeOf_spec]
        omega
      have hnextLt : sizeOf next < sizeOf (Code.fork child (.wait next)) := by
        rw [Code.fork.sizeOf_spec, Code.wait.sizeOf_spec]
        omega
      obtain ⟨h₁, hran₁⟩ := @ih (sizeOf child) hchildLt child tr₁ .exit hchild hchildTidy
        (fun x hx => hspared x (List.mem_append_left _ hx))
        ⟨h.tree.fork pid child (.wait next), h.events⟩ h.tree.next (hready.fork child next)
        hforked rfl
      obtain ⟨h₂, hran₂⟩ := hran₁.detour hready hp
      cases hparent with
      | wait hrest =>
        obtain ⟨h₃, hran₃⟩ := ih (sizeOf next) hnextLt hrest hparentTidy
          (fun x hx => hspared x (List.mem_append_right _ hx)) (hran₂.ready hready (by simp))
          hran₂.proc rfl
        exact ⟨h₃, hran₂.trans hran₃ hready.lt⟩
    | @wait next tr' _ hrest =>
      refine hcons (.noChild pid) next [] tr (by simp) trivial ?_ rfl rfl htidy hrest
      simp only [step, hp]
      split_ifs with hgone
      · rfl
      · refine absurd (fun c _ hc => ?_) hgone
        have hreaped : h.tree.proc c = .gone := by
          by_contra hknown
          exact hready.childless c hknown hc
        rw [hreaped]

lemma Ending.proc_ne_gone {β : Type*} (e : Ending) : (e.proc : Proc β) ≠ .gone := by
  cases e <;> simp [Ending.proc]

/-- The first process asks for the line, and runs its code. -/
lemma Round.realized {β γ : Type*} {never : β → Bool} {body : γ → Option (Code β)}
    (hbody : ∀ l c, body l = some c → c.Tidy never) {r : Round β γ} {e : Ending}
    (hends : r.Ends body e) (hspared : Spared never r.calls) {h : History β γ}
    (hready : Ready h.tree 0) (hp : h.tree.proc 0 = .start) :
    ∃ h', Reach (historyStep body) (FailsIn never) h h' ∧ h'.tree.proc 0 = e.proc ∧
      Ready h'.tree 0 ∧ h'.events = h.events ++ r.events := by
  obtain ⟨c, hc, hruns⟩ := hends
  have hasked : step body h.tree (.step 0 true : Act γ) = some (h.tree.set 0 .reading) := by
    simp [step, hp]
  have hcall : FailsIn never h (.step 0 true : Act γ) := by simp [FailsIn, Fails, hp, Proc.call]
  have hnone : eventsOf h.tree (.step 0 true : Act γ) =
      ([] : List (β × Bool)).map fun c => .call c.1 c.2 := by
    simp [eventsOf, hp, Proc.call]
  have hfirst := Ran.step hready hcall hasked hnone
  have hread : historyStep body ⟨h.tree.set 0 .reading, h.events ++ []⟩ (.line 0 r.line) =
      some ⟨h.tree.set 0 (.code c), h.events ++ [.line r.line]⟩ := by
    simp [historyStep, step, proc_set, hc, eventsOf, Processes.set_set]
  have hready₂ : Ready (h.tree.set 0 (.code c)) 0 :=
    ⟨by simp [Processes.Known, proc_set], fun p hp => by
      have hne : p ≠ 0 := (hready.lt.trans_le hp).ne'
      simpa [proc_set, hne] using hready.fresh p hp,
      fun d hd => hready.childless d (known_of_set hready.known hd), hready.older⟩
  have hcode : (h.tree.set 0 (.code c)).proc 0 = .code c := by simp [proc_set]
  have hrealized : ∃ h', Ran never body
      ⟨h.tree.set 0 (.code c), h.events ++ [.line r.line]⟩ h' 0 e.proc r.calls :=
    Runs.realized body hruns (hbody _ _ hc) hspared hready₂ hcode
  obtain ⟨h', hran⟩ := hrealized
  refine ⟨h', ?_, hran.proc, hran.ready hready₂ e.proc_ne_gone, ?_⟩
  · have hline : FailsIn never ⟨h.tree.set 0 .reading, h.events ++ []⟩ (.line 0 r.line) := trivial
    exact (hfirst.reach.next hline hread).trans hran.reach
  · rw [hran.events]
    simp [Round.events]

lemma rounds_realized {β γ : Type*} {never : β → Bool} {body : γ → Option (Code β)}
    (hbody : ∀ l c, body l = some c → c.Tidy never) {rounds : List (Round β γ)}
    (hends : ∀ r, r ∈ rounds → r.Ends body .start ∧ Spared never r.calls) :
    ∃ h, Reach (historyStep body) (FailsIn never) (noHistory β γ) h ∧ h.tree.proc 0 = .start ∧
      Ready h.tree 0 ∧ h.events = rounds.flatMap Round.events := by
  induction rounds using List.reverseRecOn with
  | nil =>
    refine ⟨noHistory β γ, .start, by simp [noHistory, init], ?_, rfl⟩
    refine ⟨by simp [Processes.Known, noHistory, init], (nested_init never).fresh,
      fun c _ => by simp [noHistory, init], (nested_init never).older⟩
  | append_singleton rounds r ih =>
    obtain ⟨h, hreach, hp, hready, hevents⟩ :=
      ih fun x hx => hends x (List.mem_append_left _ hx)
    obtain ⟨hend, hspared⟩ := hends r (List.mem_append_right _ List.mem_cons_self)
    obtain ⟨h', hreach', hp', hready', hevents'⟩ := Round.realized hbody hend hspared hready hp
    exact ⟨h', hreach.trans hreach', hp', hready', by rw [hevents', hevents]; simp⟩

/-- What has happened to the calls of a history has happened to those of its rounds. -/
lemma spared_of_reach {β γ : Type*} {never : β → Bool} {body : γ → Option (Code β)}
    {h : History β γ} (hr : Reach (historyStep body) (FailsIn never) (noHistory β γ) h)
    {r : Round β γ} (hmem : ∀ x, x ∈ r.events → x ∈ h.events) : Spared never r.calls := by
  rintro ⟨b, ok⟩ hx hnever
  cases ok with
  | false => rfl
  | true =>
    have hcall : Event.call b true ∈ r.events :=
      List.mem_cons_of_mem _ (List.mem_map.mpr ⟨(b, true), hx, rfl⟩)
    have hb := reach_spared hr b (hmem _ hcall)
    simp [hb] at hnever

/-- The histories of the tree, up to its prompt or to its end, are those of a sequential
program: one run after the other, and one that exits at the end. -/
theorem history_iff {β γ : Type*} {never : β → Bool} {body : γ → Option (Code β)}
    (hbody : ∀ l c, body l = some c → c.Tidy never) (events : List (Event β γ)) :
    ((∃ h, Reach (historyStep body) (FailsIn never) (noHistory β γ) h ∧ h.tree.AtPrompt 0 ∧
        h.events = events) ↔
      ∃ rounds : List (Round β γ), (∀ r, r ∈ rounds → r.Ends body .start ∧ Spared never r.calls) ∧
        events = rounds.flatMap Round.events) ∧
    ((∃ h, Reach (historyStep body) (FailsIn never) (noHistory β γ) h ∧
        h.tree.proc 0 = .zombie ∧ h.events = events) ↔
      ∃ (rounds : List (Round β γ)) (r : Round β γ),
        (∀ r, r ∈ rounds → r.Ends body .start ∧ Spared never r.calls) ∧
        r.Ends body .exit ∧ Spared never r.calls ∧
        events = rounds.flatMap Round.events ++ r.events) := by
  have hstands : ∀ h, Reach (historyStep body) (FailsIn never) (noHistory β γ) h →
      h.tree.Known 0 → (∀ next, h.tree.proc 0 ≠ .code (.wait next)) →
      Stands body h.events [] (h.tree.proc 0) := by
    intro h hr hknown hwait
    obtain ⟨hn, ht⟩ := reach_turn hbody hr
    obtain ⟨ks, hactive, hstands⟩ := ht.acts hn hknown (hn.childless hwait)
    rwa [hactive.root_alone hn] at hstands
  refine ⟨⟨?_, ?_⟩, ?_, ?_⟩
  · rintro ⟨h, hr, hp, rfl⟩
    have hbetween : Between body h.events := by
      rcases hp with hp | hp <;>
        simpa [hp, Stands] using hstands h hr (by simp [Processes.Known, hp]) (by simp [hp])
    obtain ⟨rounds, hends, hevents⟩ := hbetween
    refine ⟨rounds, fun r hmem => ⟨hends r hmem, spared_of_reach hr fun x hx => ?_⟩, hevents⟩
    rw [hevents]
    exact List.mem_flatMap.mpr ⟨r, hmem, hx⟩
  · rintro ⟨rounds, hends, rfl⟩
    obtain ⟨h, hr, hp, -, hevents⟩ := rounds_realized hbody hends
    exact ⟨h, hr, .inl hp, hevents⟩
  · rintro ⟨h, hr, hp, rfl⟩
    have hmid : Midway body h.events [] := by
      simpa [hp, Stands] using hstands h hr (by simp [Processes.Known, hp]) (by simp [hp])
    obtain ⟨before, r, c, ⟨rounds, hends, rfl⟩, hevents, hc, hruns⟩ := hmid
    have hexit : Runs c (r.calls ++ []) .exit := hruns [] .exit .none
    rw [List.append_nil] at hexit
    refine ⟨rounds, r, fun x hmem => ⟨hends x hmem, spared_of_reach hr fun y hy => ?_⟩,
      ⟨c, hc, hexit⟩, spared_of_reach hr fun x hx => ?_, hevents⟩
    · rw [hevents]
      exact List.mem_append_left _ (List.mem_flatMap.mpr ⟨x, hmem, hy⟩)
    · rw [hevents]
      exact List.mem_append_right _ hx
  · rintro ⟨rounds, r, hends, hend, hspared, rfl⟩
    obtain ⟨h, hr, hp, hready, hevents⟩ := rounds_realized hbody hends
    obtain ⟨h', hr', hp', -, hevents'⟩ := Round.realized hbody hend hspared hready hp
    exact ⟨h', hr.trans hr', hp', by rw [hevents', hevents]⟩

/-- A line starts a new round. -/
lemma rounds_injective {β γ : Type*} {rounds rounds' : List (Round β γ)}
    (h : rounds.flatMap Round.events = rounds'.flatMap Round.events) : rounds = rounds' := by
  -- behind the calls of a round stands a line, or nothing
  have hcalls : ∀ (calls calls' : List (β × Bool)) (rest rest' : List (Round β γ)),
      calls.map (fun c => Event.call c.1 c.2) ++ rest.flatMap Round.events =
        calls'.map (fun c => Event.call c.1 c.2) ++ rest'.flatMap Round.events →
      calls = calls' ∧ rest.flatMap Round.events = rest'.flatMap Round.events := by
    intro calls
    induction calls with
    | nil =>
      intro calls' rest rest' h
      cases calls' with
      | nil => exact ⟨rfl, h⟩
      | cons c calls' => cases rest <;> simp [Round.events] at h
    | cons c calls ih =>
      intro calls' rest rest' h
      cases calls' with
      | nil => cases rest' <;> simp [Round.events] at h
      | cons c' calls' =>
        rw [List.map_cons, List.map_cons, List.cons_append, List.cons_append, List.cons.injEq] at h
        obtain ⟨hcalls, hrest⟩ := ih calls' rest rest' h.2
        have hc : c = c' := by
          cases c
          cases c'
          simpa using h.1
        exact ⟨by rw [hc, hcalls], hrest⟩
  induction rounds generalizing rounds' with
  | nil =>
    cases rounds' with
    | nil => rfl
    | cons r' rounds' => simp [Round.events] at h
  | cons r rounds ih =>
    cases rounds' with
    | nil => simp [Round.events] at h
    | cons r' rounds' =>
      rw [List.flatMap_cons, List.flatMap_cons, Round.events, Round.events, List.cons_append,
        List.cons_append, List.cons.injEq, Event.line.injEq] at h
      obtain ⟨hline, hcalls', hrest⟩ := And.imp_right (hcalls _ _ _ _) h
      cases r
      cases r'
      obtain rfl : _ = _ := hline
      obtain rfl : _ = _ := hcalls'
      rw [ih hrest]

/-- What happens from one prompt of the first process to the next is the run of a line. -/
theorem round_of_reach {β γ : Type*} {never : β → Bool} {body : γ → Option (Code β)}
    (hbody : ∀ l c, body l = some c → c.Tidy never) {h h' : History β γ}
    (hr : Reach (historyStep body) (FailsIn never) (noHistory β γ) h) (hp : h.tree.AtPrompt 0)
    (hr' : Reach (historyStep body) (FailsIn never) h h') (hp' : h'.tree.AtPrompt 0)
    {r : Round β γ} (hevents : h'.events = h.events ++ r.events) : r.Ends body .start := by
  obtain ⟨rounds, -, hrounds⟩ := ((history_iff hbody h.events).1.mp ⟨h, hr, hp, rfl⟩)
  obtain ⟨rounds', hends', hrounds'⟩ :=
    ((history_iff hbody h'.events).1.mp ⟨h', hr.trans hr', hp', rfl⟩)
  have hsplit : rounds' = rounds ++ [r] := by
    apply rounds_injective
    rw [← hrounds', hevents, hrounds]
    simp
  exact (hends' r (by simp [hsplit])).1

end SystemProgramming.ForkWait
