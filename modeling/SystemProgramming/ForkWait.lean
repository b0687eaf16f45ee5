import SystemProgramming.Transition

/-!
# Processes that fork, wait and exit

A program reads a line, executes the code for it, and starts over. The code forks,
waits for a child, exits, or makes a call that goes well or not; a child has a copy
of the program and goes on behind its `fork`, so a child whose code does not exit
comes back to the start like its parent. Forks succeed. The processes of a tree run
in any order. This module says when at most one of them is at the start: every fork
is followed by a wait, and what is forked exits.
-/
namespace SystemProgramming.ForkWait
open SystemProgramming.Transition

/-- The code for a line. A call goes on with the first code if it goes well. -/
inductive Code (β : Type*) where
  | start
  | exit
  | call (b : β) (yes no : Code β)
  | fork (child parent : Code β)
  | wait (next : Code β)
  deriving DecidableEq, Repr

/-- A call whose outcome does not matter. -/
def Code.run {β : Type*} (b : β) (next : Code β) : Code β := .call b next next

/-- A process is about to ask for a line, reads it, executes code, or has exited and
was not waited for; `gone` are the numbers that no process has, or has any more. -/
inductive Proc (β : Type*) where
  | start
  | reading
  | code (c : Code β)
  | zombie
  | gone
  deriving DecidableEq, Repr

/-- The processes by their numbers, with the process that forked them. -/
structure Processes (β : Type*) where
  proc : ℕ → Proc β
  parent : ℕ → Option ℕ
  next : ℕ

inductive Act (γ : Type*) where
  | line (pid : ℕ) (l : γ)
  | step (pid : ℕ) (ok : Bool)
  | reap (pid child : ℕ)
  | noChild (pid : ℕ)

def Processes.set {β : Type*} (s : Processes β) (pid : ℕ) (q : Proc β) : Processes β :=
  { s with proc := Function.update s.proc pid q }

def Processes.fork {β : Type*} (s : Processes β) (pid : ℕ) (child parent : Code β) :
    Processes β where
  proc := Function.update (Function.update s.proc pid (.code parent)) s.next (.code child)
  parent := Function.update s.parent s.next (some pid)
  next := s.next + 1

/-- A process takes its next step; `wait` blocks while a child is left and none has
exited. -/
def step {β γ : Type*} (body : γ → Option (Code β)) (s : Processes β) : Act γ → Option (Processes β)
  | .line pid l =>
    match s.proc pid with
    | .reading => (body l).map fun c => s.set pid (.code c)
    | _ => none
  | .step pid ok =>
    match s.proc pid with
    | .start => some (s.set pid .reading)
    | .code .start => some (s.set pid .start)
    | .code .exit => some (s.set pid .zombie)
    | .code (.call _ yes no) => some (s.set pid (.code (if ok then yes else no)))
    | .code (.fork child parent) => some (s.fork pid child parent)
    | _ => none
  | .reap pid child =>
    match s.proc pid, s.proc child with
    | .code (.wait next), .zombie =>
      if s.parent child = some pid then some ((s.set child .gone).set pid (.code next)) else none
    | _, _ => none
  | .noChild pid =>
    match s.proc pid with
    | .code (.wait next) =>
      if ∀ c, c < s.next → s.parent c = some pid → s.proc c matches .gone then
        some (s.set pid (.code next))
      else none
    | _ => none

/-- One process, about to ask for its first line. -/
def init (β : Type*) : Processes β where
  proc := Function.update (fun _ => .gone) 0 .start
  parent := fun _ => none
  next := 1

/-- The process executes the program. -/
def Proc.live {β : Type*} : Proc β → Bool
  | .start | .reading | .code _ => true
  | _ => false

def Processes.Live {β : Type*} (s : Processes β) (pid : ℕ) : Prop := (s.proc pid).live = true

/-- The process prints its prompt, or has printed it and reads a line. -/
def Processes.AtPrompt {β : Type*} (s : Processes β) (pid : ℕ) : Prop :=
  s.proc pid = .start ∨ s.proc pid = .reading

/-- The code comes to an exit, provided that the calls in `never` do not go well. -/
def Code.Leaves {β : Type*} (never : β → Bool) : Code β → Prop
  | .start => False
  | .exit => True
  | .call b yes no => (never b = true ∨ yes.Leaves never) ∧ no.Leaves never
  | .fork _ parent => parent.Leaves never
  | .wait next => next.Leaves never

/-- Every fork is followed by a wait, and what is forked leaves. -/
def Code.Tidy {β : Type*} (never : β → Bool) : Code β → Prop
  | .start | .exit => True
  | .call _ yes no => yes.Tidy never ∧ no.Tidy never
  | .fork child parent =>
    child.Leaves never ∧ child.Tidy never ∧ parent.Tidy never ∧ ∃ next, parent = .wait next
  | .wait next => next.Tidy never

/-- The call of a process. -/
def Proc.call {β : Type*} : Proc β → Option β
  | .code (.call b _ _) => some b
  | _ => none

/-- No call in `never` goes well. -/
def Fails {β γ : Type*} (never : β → Bool) (s : Processes β) : Act γ → Prop
  | .step pid true => (s.proc pid).call.all (fun b => !never b) = true
  | _ => True

instance {β γ : Type*} (never : β → Bool) (s : Processes β) (a : Act γ) :
    Decidable (Fails never s a) :=
  match a with
  | .step pid true =>
    inferInstanceAs (Decidable ((s.proc pid).call.all (fun b => !never b) = true))
  | .step _ false | .line _ _ | .reap _ _ | .noChild _ => isTrue trivial

/-- The process has a number that was given out and not taken back. -/
def Processes.Known {β : Type*} (s : Processes β) (pid : ℕ) : Prop := s.proc pid ≠ .gone

/-- At most one process is not waiting for another: a process with an unreaped child
is waiting and has no other, and everything but the first process leaves. -/
structure Nested {β : Type*} (never : β → Bool) (s : Processes β) : Prop where
  fresh : ∀ pid, s.next ≤ pid → s.proc pid = .gone
  older : ∀ c p, s.parent c = some p → p < c
  root : ∀ c, s.Known c → s.parent c = none → c = 0
  waits : ∀ c p, s.Known c → s.parent c = some p → ∃ next, s.proc p = .code (.wait next)
  only : ∀ c d p, s.Known c → s.Known d → s.parent c = some p → s.parent d = some p → c = d
  tidy : ∀ pid c, s.proc pid = .code c → c.Tidy never
  leaves : ∀ pid, pid ≠ 0 → s.Live pid → ∃ c, s.proc pid = .code c ∧ c.Leaves never

theorem nested_init {β : Type*} (never : β → Bool) : Nested never (init β) := by
  have hproc : ∀ pid, pid ≠ 0 → (init β).proc pid = .gone := by
    intro pid hpid
    simp [init, hpid]
  refine ⟨fun pid hpid => hproc pid (Nat.one_le_iff_ne_zero.mp hpid), ?_, ?_, ?_, ?_, ?_, ?_⟩
  · simp [init]
  · intro c hc _
    by_contra hne
    exact hc (hproc c hne)
  · simp [init]
  · simp [init]
  · intro pid c hc
    rcases eq_or_ne pid 0 with rfl | hpid
    · simp [init] at hc
    · simp [hproc pid hpid] at hc
  · intro pid hpid hlive
    simp [Processes.Live, hproc pid hpid, Proc.live] at hlive

/-- Where anything but the first process is left, the first one waits. -/
lemma Nested.root_waits {β : Type*} {never : β → Bool} {s : Processes β} (h : Nested never s)
    (c : ℕ)
    (hc : c ≠ 0) (hknown : s.Known c) : ∃ next, s.proc 0 = .code (.wait next) := by
  induction c using Nat.strong_induction_on with
  | _ c ih =>
    cases hp : s.parent c with
    | none => exact absurd (h.root c hknown hp) hc
    | some p =>
      obtain ⟨next, hwait⟩ := h.waits c p hknown hp
      rcases eq_or_ne p 0 with rfl | hne
      · exact ⟨next, hwait⟩
      · exact ih p (h.older c p hp) hne (by simp [Processes.Known, hwait])

/-- The process at the prompt is the only one that executes the program. -/
theorem Nested.live_iff {β : Type*} {never : β → Bool} {s : Processes β} (h : Nested never s)
    {pid : ℕ} (hp : s.AtPrompt pid) (q : ℕ) : s.Live q ↔ q = pid := by
  have hlive : s.Live pid := by
    rcases hp with hp | hp <;> simp [Processes.Live, hp, Proc.live]
  have hzero : pid = 0 := by
    by_contra hne
    obtain ⟨c, hc, -⟩ := h.leaves pid hne hlive
    rcases hp with hp | hp <;> simp [hc] at hp
  subst hzero
  refine ⟨fun hq => ?_, fun hq => hq ▸ hlive⟩
  by_contra hne
  have hknown : s.Known q := by
    rintro hgone
    simp [Processes.Live, hgone, Proc.live] at hq
  obtain ⟨next, hwait⟩ := h.root_waits q hne hknown
  rcases hp with hp | hp <;> simp [hwait] at hp

lemma proc_set {β : Type*} (s : Processes β) (pid : ℕ) (q : Proc β) (c : ℕ) :
    (s.set pid q).proc c = if c = pid then q else s.proc c := by
  simp [Processes.set, Function.update_apply]

/-- A process that is not waiting has no children. -/
lemma Nested.childless {β : Type*} {never : β → Bool} {s : Processes β} (h : Nested never s)
    {pid : ℕ}
    (hwait : ∀ next, s.proc pid ≠ .code (.wait next)) (c : ℕ) (hc : s.Known c) :
    s.parent c ≠ some pid := by
  intro hp
  obtain ⟨next, hnext⟩ := h.waits c pid hc hp
  exact hwait next hnext

/-- A process without children goes on, or exits. -/
lemma Nested.set {β : Type*} {never : β → Bool} {s : Processes β} (h : Nested never s) {pid : ℕ}
    (hknown : s.Known pid) (hchildless : ∀ c, s.Known c → s.parent c ≠ some pid) {q : Proc β}
    (htidy : ∀ c, q = .code c → c.Tidy never)
    (hleaves : pid ≠ 0 → q.live = true → ∃ c, q = .code c ∧ c.Leaves never) :
    Nested never (s.set pid q) := by
  have hknown' : ∀ c, (s.set pid q).Known c → s.Known c := by
    intro c hc
    rcases eq_or_ne c pid with rfl | hne
    · exact hknown
    · simpa [Processes.Known, proc_set, hne] using hc
  have hother : ∀ c p, s.Known c → s.parent c = some p → p ≠ pid := by
    rintro c p hc hp rfl
    exact hchildless c hc hp
  refine ⟨fun c hc => ?_, h.older, fun c hc => h.root c (hknown' c hc), fun c p hc hp => ?_,
    fun c d p hc hd => h.only c d p (hknown' c hc) (hknown' d hd), fun c code hc => ?_,
    fun c hc hlive => ?_⟩
  · rw [proc_set, if_neg]
    · exact h.fresh c hc
    · rintro rfl
      exact hknown (h.fresh c hc)
  · rw [proc_set, if_neg (hother c p (hknown' c hc) hp)]
    exact h.waits c p (hknown' c hc) hp
  · rw [proc_set] at hc
    split_ifs at hc
    · exact htidy code hc
    · exact h.tidy c code hc
  · simp only [Processes.Live, proc_set] at hlive ⊢
    split_ifs at hlive ⊢ with heq
    · exact hleaves (heq ▸ hc) hlive
    · exact h.leaves c hc hlive

lemma proc_fork {β : Type*} (s : Processes β) (pid : ℕ) (child parent : Code β) (c : ℕ) :
    (s.fork pid child parent).proc c =
      if c = s.next then .code child else if c = pid then .code parent else s.proc c := by
  simp [Processes.fork, Function.update_apply]

lemma parent_fork {β : Type*} (s : Processes β) (pid : ℕ) (child parent : Code β) (c : ℕ) :
    (s.fork pid child parent).parent c = if c = s.next then some pid else s.parent c := by
  simp [Processes.fork, Function.update_apply]

/-- Who exists after a fork and is not the child existed before it. -/
lemma known_of_fork {β : Type*} {s : Processes β} {pid c : ℕ} {child parent : Code β}
    (hpid : s.Known pid) (hc : c ≠ s.next) (hk : (s.fork pid child parent).Known c) :
    s.Known c := by
  rcases eq_or_ne c pid with rfl | hcp
  · exact hpid
  · simpa [Processes.Known, proc_fork, hc, hcp] using hk

/-- The child of a fork is the only one its parent waits for. -/
lemma Nested.fork {β : Type*} {never : β → Bool} {s : Processes β} (h : Nested never s) {pid : ℕ}
    {child parent : Code β} (hp : s.proc pid = .code (.fork child parent)) :
    Nested never (s.fork pid child parent) := by
  obtain ⟨hchild, htidy, hparent, next, rfl⟩ := h.tidy pid _ hp
  have hlt : pid < s.next := by
    by_contra hge
    rw [h.fresh pid (not_lt.mp hge)] at hp
    cases hp
  have hne := hlt.ne
  have hother : ∀ c p, s.Known c → s.parent c = some p → p ≠ pid := by
    rintro c p hc hcp rfl
    exact h.childless (by simp [hp]) c hc hcp
  have hknown : ∀ c, c ≠ s.next → (s.fork pid child (.wait next)).Known c → s.Known c :=
    fun c => known_of_fork (by simp [Processes.Known, hp])
  refine ⟨fun c hc => ?_, fun c p hcp => ?_, fun c hc hcp => ?_, fun c p hc hcp => ?_,
    fun c d p hc hd hcp hdp => ?_, fun c code hc => ?_, fun c hc hlive => ?_⟩
  · have hlt' : s.next < c := hc
    rw [proc_fork, if_neg hlt'.ne', if_neg (hlt.trans hlt').ne']
    exact h.fresh c hlt'.le
  · rw [parent_fork] at hcp
    split_ifs at hcp with hnew
    · cases hcp
      rwa [hnew]
    · exact h.older c p hcp
  · rw [parent_fork] at hcp
    split_ifs at hcp with hnew
    exact h.root c (hknown c hnew hc) hcp
  · rw [parent_fork] at hcp
    split_ifs at hcp with hnew
    · cases hcp
      exact ⟨next, by rw [proc_fork, if_neg hne, if_pos rfl]⟩
    · have hk := hknown c hnew hc
      obtain ⟨k, hwait⟩ := h.waits c p hk hcp
      have hpn : p ≠ s.next := by
        rintro rfl
        rw [h.fresh _ le_rfl] at hwait
        cases hwait
      exact ⟨k, by rw [proc_fork, if_neg hpn, if_neg (hother c p hk hcp), hwait]⟩
  · rw [parent_fork] at hcp hdp
    split_ifs at hcp hdp with hcn hdn hdn
    · rw [hcn, hdn]
    · cases hcp
      exact absurd rfl (hother d _ (hknown d hdn hd) hdp)
    · cases hdp
      exact absurd rfl (hother c _ (hknown c hcn hc) hcp)
    · exact h.only c d p (hknown c hcn hc) (hknown d hdn hd) hcp hdp
  · rw [proc_fork] at hc
    split_ifs at hc
    · cases hc
      exact htidy
    · cases hc
      exact hparent
    · exact h.tidy c code hc
  · simp only [Processes.Live, proc_fork] at hlive ⊢
    split_ifs at hlive ⊢ with hnew hpid
    · exact ⟨child, rfl, hchild⟩
    · obtain ⟨c', hc', hleaves⟩ := h.leaves pid (hpid ▸ hc)
        (by simp [Processes.Live, hp, Proc.live])
      rw [hp] at hc'
      cases hc'
      exact ⟨_, rfl, hleaves⟩
    · exact h.leaves c hc hlive

/-- The code of a process goes on in its own code. -/
lemma Nested.goto {β : Type*} {never : β → Bool} {s : Processes β} (h : Nested never s) {pid : ℕ}
    {c c' : Code β} (hp : s.proc pid = .code c)
    (hchildless : ∀ d, s.Known d → s.parent d ≠ some pid) (htidy : c'.Tidy never)
    (hleaves : c.Leaves never → c'.Leaves never) : Nested never (s.set pid (.code c')) := by
  refine h.set (by simp [Processes.Known, hp]) hchildless (fun d hd => ?_) fun hpid _ => ?_
  · cases hd
    exact htidy
  · obtain ⟨d, hd, hd'⟩ := h.leaves pid hpid (by simp [Processes.Live, hp, Proc.live])
    rw [hp] at hd
    cases hd
    exact ⟨c', rfl, hleaves hd'⟩

/-- A step of a process whose failing calls fail. -/
lemma Nested.proceed {β γ : Type*} {never : β → Bool} {body : γ → Option (Code β)}
    {s t : Processes β} (h : Nested never s) {pid : ℕ} {ok : Bool}
    (hok : Fails never s (.step pid ok : Act γ)) (hst : step body s (.step pid ok) = some t) :
    Nested never t := by
  cases hp : s.proc pid with
  | start =>
    simp only [step, hp, Option.some.injEq] at hst
    subst hst
    refine h.set (by simp [Processes.Known, hp]) (h.childless (by simp [hp])) (by simp)
      fun hpid _ => ?_
    obtain ⟨c, hc, -⟩ := h.leaves pid hpid (by simp [Processes.Live, hp, Proc.live])
    simp [hp] at hc
  | code c =>
    have hlive : s.Live pid := by simp [Processes.Live, hp, Proc.live]
    have hknown : s.Known pid := by simp [Processes.Known, hp]
    have htidy := h.tidy pid c hp
    cases c with
    | start =>
      simp only [step, hp, Option.some.injEq] at hst
      subst hst
      refine h.set hknown (h.childless (by simp [hp])) (by simp) fun hpid _ => ?_
      obtain ⟨c, hc, hleaves⟩ := h.leaves pid hpid hlive
      rw [hp] at hc
      cases hc
      exact absurd hleaves id
    | exit =>
      simp only [step, hp, Option.some.injEq] at hst
      subst hst
      exact h.set hknown (h.childless (by simp [hp])) (by simp) (by simp [Proc.live])
    | call b yes no =>
      simp only [step, hp, Option.some.injEq] at hst
      subst hst
      cases ok with
      | true =>
        have hnever : never b = false := by simpa [Fails, hp, Proc.call] using hok
        refine h.goto hp (h.childless (by simp [hp])) htidy.1 fun hleaves => ?_
        exact hleaves.1.resolve_left (by simp [hnever])
      | false =>
        exact h.goto hp (h.childless (by simp [hp])) htidy.2 fun hleaves => hleaves.2
    | fork child parent =>
      simp only [step, hp, Option.some.injEq] at hst
      subst hst
      exact h.fork hp
    | wait next => simp [step, hp] at hst
  | reading | zombie | gone => simp [step, hp] at hst

/-- The process tree stays nested when the code for every line is tidy. -/
theorem Nested.step {β γ : Type*} {never : β → Bool} {body : γ → Option (Code β)}
    (hbody : ∀ l c, body l = some c → c.Tidy never) {s t : Processes β} {a : Act γ}
    (h : Nested never s) (hok : Fails never s a) (hst : step body s a = some t) :
    Nested never t := by
  cases a with
  | line pid l =>
    cases hp : s.proc pid with
    | reading =>
      simp only [ForkWait.step, hp] at hst
      obtain ⟨c, hc, rfl⟩ := Option.map_eq_some_iff.mp hst
      refine h.set (by simp [Processes.Known, hp]) (h.childless (by simp [hp])) (fun d hd => ?_)
        fun hpid _ => ?_
      · cases hd
        exact hbody l c hc
      · obtain ⟨d, hd, -⟩ := h.leaves pid hpid (by simp [Processes.Live, hp, Proc.live])
        simp [hp] at hd
    | _ => simp [ForkWait.step, hp] at hst
  | step pid ok => exact h.proceed hok hst
  | reap pid child =>
    simp only [ForkWait.step] at hst
    split at hst
    · rename_i next hp hchild
      split_ifs at hst with hparent
      cases hst
      have hne : pid ≠ child := by
        rintro rfl
        simp [hp] at hchild
      have hgone : Nested never (s.set child .gone) :=
        h.set (by simp [Processes.Known, hchild]) (h.childless (by simp [hchild])) (by simp)
          (by simp [Proc.live])
      refine hgone.goto (c := .wait next) (by rw [proc_set, if_neg hne, hp]) ?_
        (h.tidy pid (.wait next) hp) id
      intro d hd hdp
      have hdc : d ≠ child := by
        rintro rfl
        simp [Processes.Known, proc_set] at hd
      have hknown : s.Known d := by simpa [Processes.Known, proc_set, hdc] using hd
      exact hdc (h.only d child pid hknown (by simp [Processes.Known, hchild]) hdp hparent)
    · cases hst
  | noChild pid =>
    simp only [ForkWait.step] at hst
    split at hst
    · rename_i next hp
      split_ifs at hst with hnone
      cases hst
      refine h.goto hp (fun d hd hdp => ?_) (h.tidy pid (.wait next) hp) id
      have hlt : d < s.next := by
        by_contra hge
        exact hd (h.fresh d (not_lt.mp hge))
      have hgone := hnone d hlt hdp
      exact hd (by split at hgone <;> simp_all)
    · cases hst

/-- In every run in which the calls in `never` fail, the process tree is nested. -/
theorem reach_nested {β γ : Type*} {never : β → Bool} {body : γ → Option (Code β)}
    (hbody : ∀ l c, body l = some c → c.Tidy never) {s : Processes β}
    (hr : Reach (step body) (Fails never) (init β) s) : Nested never s :=
  hr.invariant (nested_init never) fun _ _ _ h hok hst => h.step hbody hok hst

lemma Processes.set_set {β : Type*} (s : Processes β) (pid : ℕ) (q q' : Proc β) :
    (s.set pid q).set pid q' = s.set pid q' := by
  simp [Processes.set]

/-- A call goes well. -/
lemma reach_call {β γ : Type*} {body : γ → Option (Code β)} {s₀ s : Processes β} {pid : ℕ} {b : β}
    {yes no : Code β} (hr : Reach (step body) always s₀ (s.set pid (.code (.call b yes no)))) :
    Reach (step body) always s₀ (s.set pid (.code yes)) := by
  refine hr.next (a := .step pid true) trivial ?_
  simp [step, proc_set, Processes.set_set]

/-- Code that comes to its end brings the process back to the start. -/
lemma reach_start {β γ : Type*} {body : γ → Option (Code β)} {s₀ s : Processes β} {pid : ℕ}
    (hr : Reach (step body) always s₀ (s.set pid (.code .start))) :
    Reach (step body) always s₀ (s.set pid .start) := by
  refine hr.next (a := .step pid true) trivial ?_
  simp [step, proc_set, Processes.set_set]

lemma fork_eq_set {β : Type*} (s : Processes β) (pid : ℕ) (child parent : Code β) :
    s.fork pid child parent = (s.fork pid child parent).set s.next (.code child) := by
  simp [Processes.fork, Processes.set]

/-- A step changes processes that exist, or one of these forks. -/
lemma step_changes {β γ : Type*} {body : γ → Option (Code β)} {s t : Processes β} {a : Act γ}
    (hst : step body s a = some t) :
    (∃ pid q, s.Known pid ∧ t = s.set pid q) ∨
    (∃ pid child parent, s.Known pid ∧ t = s.fork pid child parent) ∨
    ∃ pid child q, s.Known pid ∧ s.Known child ∧ pid ≠ child ∧
      t = (s.set child .gone).set pid q := by
  cases a with
  | line pid l =>
    cases hp : s.proc pid with
    | reading =>
      simp only [step, hp] at hst
      obtain ⟨c, -, rfl⟩ := Option.map_eq_some_iff.mp hst
      exact Or.inl ⟨pid, _, by simp [Processes.Known, hp], rfl⟩
    | _ => simp [step, hp] at hst
  | step pid ok =>
    simp only [step] at hst
    split at hst <;> rename_i hp <;> cases hst
    case h_5 child parent =>
      exact Or.inr (Or.inl ⟨pid, child, parent, by simp [Processes.Known, hp], rfl⟩)
    all_goals exact Or.inl ⟨pid, _, by simp [Processes.Known, hp], rfl⟩
  | reap pid child =>
    simp only [step] at hst
    split at hst
    · rename_i next hp hchild
      split_ifs at hst
      cases hst
      have hne : pid ≠ child := by
        rintro rfl
        simp [hp] at hchild
      exact Or.inr (Or.inr ⟨pid, child, _, by simp [Processes.Known, hp],
        by simp [Processes.Known, hchild], hne, rfl⟩)
    · cases hst
  | noChild pid =>
    simp only [step] at hst
    split at hst
    · rename_i next hp
      split_ifs at hst
      cases hst
      exact Or.inl ⟨pid, _, by simp [Processes.Known, hp], rfl⟩
    · cases hst

/-- Only numbers that have been given out are used. -/
def Processes.Numbered {β : Type*} (s : Processes β) : Prop := ∀ c, s.Known c → c < s.next

lemma Processes.Numbered.set {β : Type*} {s : Processes β} (h : s.Numbered) {pid : ℕ}
    (hpid : s.Known pid) (q : Proc β) : (s.set pid q).Numbered := by
  intro c hc
  rcases eq_or_ne c pid with rfl | hne
  · exact h c hpid
  · exact h c (by simpa [Processes.Known, proc_set, hne] using hc)

lemma Processes.Numbered.fork {β : Type*} {s : Processes β} (h : s.Numbered) {pid : ℕ}
    (hpid : s.Known pid) (child parent : Code β) : (s.fork pid child parent).Numbered := by
  intro c hc
  rcases eq_or_ne c s.next with rfl | hne
  · exact Nat.lt_succ_self _
  · exact (h c (known_of_fork hpid hne hc)).trans (Nat.lt_succ_self _)

/-- In any run the numbers not given out belong to nobody. -/
theorem reach_fresh {β γ : Type*} {body : γ → Option (Code β)} {s : Processes β}
    (hr : Reach (step body) always (init β) s) (pid : ℕ) (hpid : s.next ≤ pid) :
    s.proc pid = .gone := by
  have hnumbered : s.Numbered := by
    refine hr.invariant (fun c hc => ?_) fun u a v hu _ hst => ?_
    · by_contra hge
      have hne : c ≠ 0 := fun hzero => hge (hzero ▸ Nat.zero_lt_one)
      exact hc (by simp [init, hne])
    · rcases step_changes hst with ⟨pid, q, hpid, rfl⟩ | ⟨pid, child, parent, hpid, rfl⟩ |
        ⟨pid, child, q, hpid, hchild, hne, rfl⟩
      · exact hu.set hpid q
      · exact hu.fork hpid child parent
      · exact (hu.set hchild .gone).set (by simpa [Processes.Known, proc_set, hne] using hpid) q
  by_contra hknown
  exact absurd (hnumbered pid hknown) (not_lt.mpr hpid)

end SystemProgramming.ForkWait
