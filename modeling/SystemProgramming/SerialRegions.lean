import SystemProgramming.RegionWrites

/-!
# The stays in the regions, one after the other

The history of a run lists the stays of the children in their regions as they end, each
with the system calls that were made in it and what they found. The children move
between each other's calls; what they do to the file is nevertheless what the stays do
when one child after the other makes all its calls.
-/
namespace SystemProgramming.FileContents
open SystemProgramming.Transition SystemProgramming.ReadersWriters
open SystemProgramming.LineReader (Text)
open SystemProgramming.ByteFile (writeAt writeAt_length writeAt_writeAt)

/-- A system call in a region: what stood in the file, what the child was about to do,
and how the call ended. -/
structure Entry where
  content : Text
  task : Task
  ok : Bool
  n : ℕ
  data : Text
  deriving DecidableEq, Repr

/-- A stay of a child in its region that it has left, or in which it was ended. -/
structure Visit (ι : Type*) where
  child : ι
  request : Request
  size : ℕ
  calls : List Entry
  killed : Bool
  deriving DecidableEq, Repr

/-- `now` has the calls of the stays that have not ended. -/
structure History (ι : Type*) where
  state : State ι
  now : ι → List Entry
  visits : List (Visit ι)

/-- A step of the children, with what the history notes of it. -/
def historyStep {ι : Type*} [DecidableEq ι] (h : History ι) (a : Act ι) : Option (History ι) :=
  (step h.state a).map fun t =>
    match h.state.handler a.child, a with
    | .enter _ _, .exec i => { h with state := t, now := Function.update h.now i [] }
    | .inside _ _ task, .call i ok n data =>
      { h with
        state := t
        now := Function.update h.now i (h.now i ++ [⟨h.state.content, task, ok, n, data⟩]) }
    | .inside r size _, .exec i =>
      { h with state := t, visits := h.visits ++ [⟨i, r, size, h.now i, false⟩] }
    | .inside r size _, .kill i =>
      { h with state := t, visits := h.visits ++ [⟨i, r, size, h.now i, true⟩] }
    | _, _ => { h with state := t }

def noHistory (ι : Type*) (fname : Text) (disk : Option Text) : History ι where
  state := init ι fname disk
  now := fun _ => []
  visits := []

/-- The history follows every run of the children and keeps none of them back. -/
lemma historyStep_state {ι : Type*} [DecidableEq ι] (h : History ι) (a : Act ι) :
    (historyStep h a).map History.state = step h.state a := by
  unfold historyStep
  rw [Option.map_map]
  cases step h.state a with
  | none => rfl
  | some t =>
    simp only [Option.map_some, Function.comp_apply]
    split <;> rfl

lemma reach_state {ι : Type*} [DecidableEq ι] {fname : Text} {disk : Option Text}
    {h : History ι}
    (hr : Reach historyStep (fun u a => TruncatesEmpty u.state a) (noHistory ι fname disk) h) :
    Reach FileContents.step TruncatesEmpty (init ι fname disk) h.state := by
  refine hr.invariant (P := fun u => Reach FileContents.step TruncatesEmpty (init ι fname disk)
    u.state) Reach.start fun u a v hu hok hst => ?_
  have hstate := historyStep_state u a
  rw [hst, Option.map_some] at hstate
  exact hu.next hok hstate.symm

/-- The calls of a stay when nobody else touches the file: each finds what it has found.
The result is the content and the task that is left. -/
def replay (r : Request) (size : ℕ) : List Entry → Text → Task → Option (Text × Task)
  | [], content, task => some (content, task)
  | e :: calls, content, task =>
    if e.content = content ∧ e.task = task then
      (taskStep content r size e.ok e.n e.data task).bind fun next =>
        replay r size calls next.1 next.2
    else none

lemma replay_append (r : Request) (size : ℕ) (calls more : List Entry) (content : Text)
    (task : Task) :
    replay r size (calls ++ more) content task =
      (replay r size calls content task).bind fun next => replay r size more next.1 next.2 := by
  induction calls generalizing content task with
  | nil => rfl
  | cons e calls ih =>
    simp only [List.cons_append, replay]
    split_ifs
    · cases taskStep content r size e.ok e.n e.data task with
      | none => rfl
      | some next => exact ih next.1 next.2
    · rfl

/-- What is left to do for a stay that ends by itself is nothing. -/
def Visit.over {ι : Type*} (v : Visit ι) (task : Task) : Prop :=
  v.killed = true ∨ task = .finished

instance {ι : Type*} (v : Visit ι) (task : Task) : Decidable (v.over task) :=
  inferInstanceAs (Decidable (_ ∨ _))

/-- The content after one whole stay. -/
def Visit.result {ι : Type*} (v : Visit ι) (content : Text) : Option Text :=
  (replay v.request v.size v.calls content v.request.firstTask).bind fun next =>
    if v.over next.2 then some next.1 else none

/-- The content after the stays, one child after the other. -/
def serial {ι : Type*} : List (Visit ι) → Text → Option Text
  | [], content => some content
  | v :: visits, content => (v.result content).bind (serial visits)

lemma serial_append {ι : Type*} (visits more : List (Visit ι)) (content : Text) :
    serial (visits ++ more) content = (serial visits content).bind (serial more) := by
  induction visits generalizing content with
  | nil => rfl
  | cons v visits ih =>
    simp only [List.cons_append, serial]
    cases v.result content with
    | none => rfl
    | some next => exact ih next

/-- The child is in a region. -/
def Handler.isInside : Handler → Bool
  | .inside _ _ _ => true
  | _ => false

lemma afterOpen_isInside (r : Request) : r.afterOpen.isInside = false := by
  cases r <;> rfl

/-- A system call outside the regions leaves the content, and lets nobody in. -/
lemma callStep_outside {ι : Type*} [DecidableEq ι] {s t : State ι} {i : ι} {ok : Bool} {n : ℕ}
    {data : Text} (hok : TruncatesEmpty s (.call i ok n data))
    (hout : (s.handler i).isInside = false) (hst : callStep s i ok n data = some t) :
    t.content = s.content ∧
      ∃ next, next.isInside = false ∧ t.handler = Function.update s.handler i next := by
  unfold callStep at hst
  cases hi : s.handler i with
  | openSource r =>
    rw [hi] at hst
    cases hst
    refine ⟨rfl, _, ?_, rfl⟩
    split_ifs
    · exact afterOpen_isInside r
    · rfl
  | fstat r =>
    rw [hi] at hst
    cases hst
    refine ⟨rfl, _, ?_, rfl⟩
    split_ifs <;> rfl
  | createDest r =>
    simp only [hi] at hst
    split_ifs at hst with hcreate hserver <;> cases hst
    · have hdisk : s.disk = none := by
        cases hd : s.disk with
        | none => rfl
        | some content => exact absurd ⟨hserver, by simp [hd]⟩ hcreate.2
      exact ⟨by simp [State.content, hdisk], _, rfl, rfl⟩
    all_goals exact ⟨rfl, _, rfl, rfl⟩
  | approve r =>
    rw [hi] at hst
    cases hst
    refine ⟨rfl, _, ?_, rfl⟩
    split_ifs <;> rfl
  | truncateDest r =>
    simp only [hi] at hst
    split_ifs at hst with htruncate hserver <;> cases hst
    · have hempty : s.content = [] := hok (by simp [truncates, hi, htruncate, hserver])
      exact ⟨hempty.symm, _, rfl, rfl⟩
    all_goals exact ⟨rfl, _, rfl, rfl⟩
  | findSfile r size =>
    simp only [hi] at hst
    split_ifs at hst
    · obtain ⟨lock, -, rfl⟩ := Option.map_eq_some_iff.mp hst
      exact ⟨rfl, _, rfl, rfl⟩
    · obtain ⟨lock, -, rfl⟩ := Option.map_eq_some_iff.mp hst
      exact ⟨rfl, _, rfl, rfl⟩
    · cases hst
      exact ⟨rfl, _, rfl, rfl⟩
  | inside r size task => simp [hi, Handler.isInside] at hout
  | idle | enter r size | leave r | dead =>
    rw [hi] at hst
    cases hst

/-- The stays that have ended lead to `content`, those that have not to what is there
now; without a writer in a region the two are the same. -/
structure Kept {ι : Type*} [Fintype ι] (h : History ι) (content₀ content : Text) : Prop where
  inv : Inv h.state
  visits : serial h.visits content₀ = some content
  now : ∀ i r size task, h.state.handler i = .inside r size task →
    replay r size (h.now i) content r.firstTask = some (h.state.content, task)
  settled : (∀ i r size task, h.state.handler i = .inside r size task → r.svWrite = false) →
    h.state.content = content

theorem kept_noHistory (ι : Type*) [Fintype ι] (fname : Text) (disk : Option Text) :
    Kept (noHistory ι fname disk) (disk.getD []) (disk.getD []) where
  inv := inv_init ι fname disk
  visits := rfl
  now := fun i r size task hi => by cases hi
  settled := fun _ => rfl

/-- A child that is let in finds no writer in a region. -/
lemma Inv.readers {ι : Type*} [Fintype ι] {s : State ι} (hinv : Inv s) {i : ι} {r : Request}
    {size : ℕ} {task : Task} (hi : s.handler i = .inside r size task) (j : ι) (hji : j ≠ i)
    (q : Request) (qsize : ℕ) (qtask : Task) (hj : s.handler j = .inside q qsize qtask) :
    q.svWrite = false := by
  by_contra hwrite
  have hplace := hinv.placed j
  rw [hj] at hplace
  have hwriting : s.lock.pc j = .writing := by
    rwa [Placed, if_pos (by simpa using hwrite)] at hplace
  exact hinv.alone hwriting hji r size task hi

/-- A step that neither changes the content nor lets anybody in or out. What is noted of a
child outside does not matter. -/
lemma Kept.aside {ι : Type*} [Fintype ι] [DecidableEq ι] {h : History ι} {t : State ι}
    {content₀ content : Text} (hk : Kept h content₀ content) (hinv : Inv t) {i : ι}
    (hout : (h.state.handler i).isInside = false) (next : Handler)
    (hnext : next.isInside = false)
    (hhandler : t.handler = Function.update h.state.handler i next)
    (hsame : t.content = h.state.content) (calls : List Entry) :
    Kept { h with state := t, now := Function.update h.now i calls } content₀ content := by
  have hinside : ∀ j r size task, t.handler j = .inside r size task ↔
      h.state.handler j = .inside r size task := by
    intro j r size task
    rw [hhandler]
    rcases eq_or_ne j i with rfl | hji
    · rw [Function.update_self]
      constructor <;> intro heq
      · simp [heq, Handler.isInside] at hnext
      · simp [heq, Handler.isInside] at hout
    · rw [Function.update_of_ne hji]
  refine ⟨hinv, hk.visits, fun j r size task hj => ?_, fun hall => ?_⟩
  · have hold := (hinside j r size task).mp hj
    have hji : j ≠ i := by
      rintro rfl
      simp [hold, Handler.isInside] at hout
    show replay r size (Function.update h.now i calls j) content _ = some (t.content, task)
    rw [hsame, Function.update_of_ne hji]
    exact hk.now j r size task hold
  · exact hsame.trans (hk.settled fun j r size task hj =>
      hall j r size task ((hinside j r size task).mpr hj))

/-- A child comes into its region. -/
lemma Kept.comesIn {ι : Type*} [Fintype ι] [DecidableEq ι] {h : History ι} {t : State ι}
    {content₀ content : Text} (hk : Kept h content₀ content) (hinv : Inv t) {i : ι}
    (hout : (h.state.handler i).isInside = false) {r : Request} {size : ℕ}
    (hhandler : t.handler = Function.update h.state.handler i (.inside r size r.firstTask))
    (hsame : t.content = h.state.content) :
    Kept { h with state := t, now := Function.update h.now i [] } content₀ content := by
  have hi : t.handler i = .inside r size r.firstTask := by rw [hhandler, Function.update_self]
  have hsettled : h.state.content = content := by
    refine hk.settled fun j q qsize qtask hj => ?_
    have hji : j ≠ i := by
      rintro rfl
      simp [hj, Handler.isInside] at hout
    refine hinv.readers hi j hji q qsize qtask ?_
    rw [hhandler, Function.update_of_ne hji, hj]
  refine ⟨hinv, hk.visits, fun j q qsize qtask hj => ?_, fun _ => hsame.trans hsettled⟩
  show _ = some (t.content, qtask)
  rw [hsame]
  rcases eq_or_ne j i with rfl | hji
  · rw [hi] at hj
    cases hj
    simp [replay, hsettled]
  · rw [hhandler, Function.update_of_ne hji] at hj
    simpa [Function.update_of_ne hji] using hk.now j q qsize qtask hj

/-- A system call in a region. -/
lemma Kept.inside {ι : Type*} [Fintype ι] [DecidableEq ι] {h : History ι} {t : State ι}
    {content₀ content : Text} (hk : Kept h content₀ content) (hinv : Inv t) {i : ι}
    {r : Request} {size n : ℕ} {task task' : Task} {ok : Bool} {data : Text}
    (hi : h.state.handler i = .inside r size task)
    (htask : taskStep h.state.content r size ok n data task = some (t.content, task'))
    (hhandler : t.handler = Function.update h.state.handler i (.inside r size task')) :
    Kept
      { h with
        state := t
        now := Function.update h.now i (h.now i ++ [⟨h.state.content, task, ok, n, data⟩]) }
      content₀ content := by
  have hchange : t.content = h.state.content ∨ r.svWrite = true :=
    (taskStep_spec (hk.inv.fits i r size task hi) htask).1
  have hi' : t.handler i = .inside r size task' := by rw [hhandler, Function.update_self]
  refine ⟨hinv, hk.visits, fun j q qsize qtask hj => ?_, fun hall => ?_⟩
  · show _ = some (t.content, qtask)
    rcases eq_or_ne j i with rfl | hji
    · rw [hi'] at hj
      cases hj
      show replay r size (Function.update h.now j _ j) content r.firstTask = _
      rw [Function.update_self, replay_append, hk.now j r size task hi]
      simp [replay, htask]
    · have hold : h.state.handler j = .inside q qsize qtask := by
        rwa [hhandler, Function.update_of_ne hji] at hj
      have hread : r.svWrite = false := hk.inv.readers hold i hji.symm r size task hi
      have hsame : t.content = h.state.content := hchange.resolve_right (by simp [hread])
      rw [hsame]
      simpa [Function.update_of_ne hji] using hk.now j q qsize qtask hold
  · have hread : r.svWrite = false := hall i r size task' hi'
    have hsame : t.content = h.state.content := hchange.resolve_right (by simp [hread])
    refine hsame.trans (hk.settled fun j q qsize qtask hj => ?_)
    rcases eq_or_ne j i with rfl | hji
    · rw [hi] at hj
      cases hj
      exact hread
    · exact hk.inv.readers hi j hji q qsize qtask hj

/-- A stay ends: what is in the file is now what the stays that have ended have left. -/
lemma Kept.goesOut {ι : Type*} [Fintype ι] [DecidableEq ι] {h : History ι} {t : State ι}
    {content₀ content : Text} (hk : Kept h content₀ content) (hinv : Inv t) {i : ι}
    {r : Request} {size : ℕ} {task : Task} (hi : h.state.handler i = .inside r size task)
    (killed : Bool) (hover : killed = true ∨ task = .finished)
    (next : Handler) (hnext : next.isInside = false)
    (hhandler : t.handler = Function.update h.state.handler i next)
    (hsame : t.content = h.state.content) :
    Kept { h with state := t, visits := h.visits ++ [⟨i, r, size, h.now i, killed⟩] } content₀
      h.state.content := by
  have hresult : Visit.result ⟨i, r, size, h.now i, killed⟩ content = some h.state.content := by
    simp only [Visit.result, hk.now i r size task hi, Option.bind_some]
    exact if_pos hover
  refine ⟨hinv, ?_, fun j q qsize qtask hj => ?_, fun _ => hsame⟩
  · show serial (h.visits ++ [_]) content₀ = _
    rw [serial_append, hk.visits, Option.bind_some, serial, hresult]
    rfl
  · show _ = some (t.content, qtask)
    have hji : j ≠ i := by
      rintro rfl
      rw [hhandler, Function.update_self] at hj
      simp [hj, Handler.isInside] at hnext
    have hold : h.state.handler j = .inside q qsize qtask := by
      rwa [hhandler, Function.update_of_ne hji] at hj
    -- the others are readers, for `i` was in a region with them
    have hsettled : h.state.content = content := by
      refine hk.settled fun k p psize ptask hk' => ?_
      rcases eq_or_ne k i with rfl | hki
      · exact hk.inv.readers hold k hji.symm p psize ptask hk'
      · exact hk.inv.readers hi k hki p psize ptask hk'
    rw [hsame, hk.now j q qsize qtask hold |>.symm, hsettled]

/-- A call in a region as its own step function says it. -/
lemma callStep_inside {ι : Type*} [DecidableEq ι] {s t : State ι} {i : ι} {r : Request}
    {size n : ℕ} {task : Task} {ok : Bool} {data : Text} (hi : s.handler i = .inside r size task)
    (hst : callStep s i ok n data = some t) :
    ∃ task', taskStep s.content r size ok n data task = some (t.content, task') ∧
      t.handler = Function.update s.handler i (.inside r size task') := by
  simp only [callStep, hi, Option.map_eq_some_iff] at hst
  obtain ⟨⟨content, task'⟩, htask, rfl⟩ := hst
  exact ⟨task', htask, rfl⟩

lemma Kept.call {ι : Type*} [Fintype ι] [DecidableEq ι] {h h' : History ι}
    {content₀ content : Text} (hk : Kept h content₀ content) {i : ι} {ok : Bool} {n : ℕ}
    {data : Text} (hok : TruncatesEmpty h.state (.call i ok n data))
    (hst : historyStep h (.call i ok n data) = some h') : Kept h' content₀ content := by
  obtain ⟨t, ht, rfl⟩ := Option.map_eq_some_iff.mp hst
  have hinv : Inv t := (hk.inv.step hok ht).2
  cases hi : h.state.handler i with
  | inside r size task =>
    obtain ⟨task', htask, hhandler⟩ := callStep_inside hi ht
    simpa only [Act.child, hi] using hk.inside hinv hi htask hhandler
  | _ =>
    have hout : (h.state.handler i).isInside = false := by rw [hi]; rfl
    obtain ⟨hsame, next, hnext, hhandler⟩ := callStep_outside hok hout ht
    simpa only [Act.child, hi, Function.update_eq_self] using
      hk.aside hinv hout next hnext hhandler hsame (h.now i)

lemma Kept.exec {ι : Type*} [Fintype ι] [DecidableEq ι] {h h' : History ι}
    {content₀ content : Text} (hk : Kept h content₀ content) {i : ι}
    (hst : historyStep h (.exec i) = some h') : ∃ content', Kept h' content₀ content' := by
  obtain ⟨t, ht, rfl⟩ := Option.map_eq_some_iff.mp hst
  have hinv : Inv t := (hk.inv.step (fun htruncates => by cases htruncates) ht).2
  simp only [FileContents.step, Option.ite_none_right_eq_some, Option.map_eq_some_iff] at ht
  obtain ⟨hcode, lock, hlock, rfl⟩ := ht
  cases hi : h.state.handler i with
  | enter r size =>
    have hout : (h.state.handler i).isInside = false := by rw [hi]; rfl
    by_cases hin : lock.pc i = .reading ∨ lock.pc i = .writing
    · have hafter : (h.state.handler i).afterExec (lock.pc i) = .inside r size r.firstTask := by
        rw [hi, Handler.afterExec, if_pos hin]
      refine ⟨content, ?_⟩
      simpa only [Act.child, hi] using hk.comesIn hinv hout (by rw [← hafter]; rfl) rfl
    · have hafter : (h.state.handler i).afterExec (lock.pc i) = .enter r size := by
        rw [hi, Handler.afterExec, if_neg hin]
      refine ⟨content, ?_⟩
      simpa only [Act.child, hi] using
        hk.aside hinv hout (.enter r size) rfl (by rw [← hafter]; rfl) rfl []
  | inside r size task =>
    have hover : task = .finished := by
      cases task <;> first | rfl | simp [hi, Handler.inRegionCode] at hcode
    refine ⟨h.state.content, ?_⟩
    simpa only [Act.child, hi] using
      hk.goesOut hinv hi false (Or.inr hover) (.leave r) rfl
        (by simp only [State.put, hi, Handler.afterExec]) rfl
  | leave r =>
    have hout : (h.state.handler i).isInside = false := by rw [hi]; rfl
    have hnext : ((h.state.handler i).afterExec (lock.pc i)).isInside = false := by
      rw [hi, Handler.afterExec]
      split_ifs <;> rfl
    refine ⟨content, ?_⟩
    simpa only [Act.child, hi, Function.update_eq_self] using
      hk.aside hinv hout _ hnext rfl rfl (h.now i)
  | _ => simp [hi, Handler.inRegionCode] at hcode

lemma Kept.kill {ι : Type*} [Fintype ι] [DecidableEq ι] {h h' : History ι}
    {content₀ content : Text} (hk : Kept h content₀ content) {i : ι}
    (hst : historyStep h (.kill i) = some h') : ∃ content', Kept h' content₀ content' := by
  obtain ⟨t, ht, rfl⟩ := Option.map_eq_some_iff.mp hst
  have hinv : Inv t := (hk.inv.step (fun htruncates => by cases htruncates) ht).2
  cases ht
  cases hi : h.state.handler i with
  | inside r size task =>
    refine ⟨h.state.content, ?_⟩
    simpa only [Act.child, hi] using
      hk.goesOut hinv hi true (Or.inl rfl) .dead rfl rfl rfl
  | _ =>
    have hout : (h.state.handler i).isInside = false := by rw [hi]; rfl
    refine ⟨content, ?_⟩
    simpa only [Act.child, hi, Function.update_eq_self] using
      hk.aside hinv hout .dead rfl rfl rfl (h.now i)

/-- One step: the stays that have ended still lead to one content. -/
theorem Kept.step {ι : Type*} [Fintype ι] [DecidableEq ι] {h h' : History ι} {a : Act ι}
    {content₀ content : Text} (hk : Kept h content₀ content)
    (hok : TruncatesEmpty h.state a) (hst : historyStep h a = some h') :
    ∃ content', Kept h' content₀ content' := by
  cases a with
  | request i r =>
    obtain ⟨t, ht, rfl⟩ := Option.map_eq_some_iff.mp hst
    have hinv : Inv t := (hk.inv.step hok ht).2
    simp only [FileContents.step, Option.ite_none_right_eq_some, Option.some.injEq] at ht
    obtain ⟨hidle, rfl⟩ := ht
    have hout : (h.state.handler i).isInside = false := by rw [hidle]; rfl
    refine ⟨content, ?_⟩
    simpa only [Act.child, hidle, Function.update_eq_self] using
      hk.aside hinv hout (.openSource r) rfl rfl rfl (h.now i)
  | call i ok n data => exact ⟨content, hk.call hok hst⟩
  | exec i => exact hk.exec hst
  | kill i => exact hk.kill hst

theorem kept_of_reach {ι : Type*} [Fintype ι] [DecidableEq ι] {fname : Text}
    {disk : Option Text} {h : History ι}
    (hr : Reach historyStep (fun u a => TruncatesEmpty u.state a) (noHistory ι fname disk) h) :
    ∃ content, Kept h (disk.getD []) content :=
  hr.invariant (P := fun h => ∃ content, Kept h (disk.getD []) content)
    ⟨_, kept_noHistory ι fname disk⟩ fun _ _ _ ⟨_, hk⟩ hok hst => hk.step hok hst

/-- An upload of two characters, and a reader that asks for the length when they stand
there and is let in after it; it gets them in two pieces. -/
def uploadAndRead : List (Act (Fin 2)) :=
  [.request 0 .upload, .call 0 true 0 [], .call 0 true 0 [], .call 0 true 0 [], .exec 0, .exec 0,
    .exec 0, .exec 0, .exec 0, .exec 0, .request 1 (.readF none), .call 1 true 0 [],
    .call 0 true 0 ['h', 'i'], .call 0 true 2 [], .call 1 true 0 [], .call 1 true 0 [],
    .call 0 true 0 [], .exec 0, .exec 0, .exec 0, .exec 0, .exec 0, .exec 0, .exec 1, .exec 1,
    .exec 1, .exec 1, .exec 1, .exec 1, .exec 1, .call 1 true 1 [], .call 1 true 5 [], .exec 1]

/-- The two stays of `uploadAndRead`. -/
def twoStays : List (Visit (Fin 2)) :=
  [⟨0, .upload, 0, [⟨[], .copyRead 0, true, 0, ['h', 'i']⟩,
      ⟨[], .copyWrite 0 ['h', 'i'], true, 2, []⟩, ⟨['h', 'i'], .copyRead 2, true, 0, []⟩], false⟩,
    ⟨1, .readF none, 2, [⟨['h', 'i'], .sendPiece 0, true, 1, []⟩,
      ⟨['h', 'i'], .sendPiece 1, true, 5, []⟩], false⟩]

lemma uploadAndRead_reach : ∃ h : History (Fin 2), h.visits = twoStays ∧
    h.state.content = ['h', 'i'] ∧
    Reach historyStep (fun u a => TruncatesEmpty u.state a) (noHistory (Fin 2) ['f'] none) h :=
  ⟨_, rfl, rfl, reach_of_checked_run uploadAndRead rfl⟩

/-- What a stay in the reader region leads to is what was there. -/
lemma replay_reads {r : Request} (hread : r.svWrite = false) {size : ℕ} {calls : List Entry}
    {content content' : Text} {task task' : Task} (hfits : Fits r content task)
    (h : replay r size calls content task = some (content', task')) : content' = content := by
  induction calls generalizing content task with
  | nil =>
    cases h
    rfl
  | cons e calls ih =>
    simp only [replay, Option.ite_none_right_eq_some, Option.bind_eq_some_iff] at h
    obtain ⟨-, ⟨next, nextTask⟩, htask, hrest⟩ := h
    obtain ⟨hchange, hnext⟩ := taskStep_spec hfits htask
    have hsame : next = content := hchange.resolve_right (by simp [hread])
    exact (ih hnext hrest).trans hsame

lemma result_reads {ι : Type*} {v : Visit ι} (hread : v.request.svWrite = false)
    {content content' : Text} (h : v.result content = some content') : content' = content := by
  simp only [Visit.result, Option.bind_eq_some_iff, Option.ite_none_right_eq_some,
    Option.some.injEq] at h
  obtain ⟨next, hreplay, -, rfl⟩ := h
  exact replay_reads hread (fits_firstTask v.request content) hreplay

/-- What a `read` of `cmd_readF` without a line number hands on to the client. -/
def Entry.sent (e : Entry) : Text :=
  match e.task with
  | .sendPiece pos => if e.ok then (e.content.drop pos).take e.n else []
  | _ => []

/-- The loop of `cmd_readF` from `pos` on: a first part of what is there, and when no
call fails all of it or as much as `fstat` has promised. -/
lemma replay_sent {size : ℕ} {calls : List Entry} {content content' : Text} {pos : ℕ}
    {task : Task}
    (h : replay (.readF none) size calls content (.sendPiece pos) = some (content', task)) :
    calls.flatMap Entry.sent <+: content.drop pos ∧
      (task = .finished → (∀ e ∈ calls, e.ok = true) →
        calls.flatMap Entry.sent = content.drop pos ∨
          size ≤ pos + (calls.flatMap Entry.sent).length) := by
  induction calls generalizing pos with
  | nil =>
    cases h
    exact ⟨List.nil_prefix, fun hover => by cases hover⟩
  | cons e calls ih =>
    simp only [replay, Option.ite_none_right_eq_some, Option.bind_eq_some_iff] at h
    obtain ⟨⟨rfl, htask⟩, ⟨next, nextTask⟩, hstep, hrest⟩ := h
    -- nothing is called behind the last task
    have hlast : ∀ {here : Text}, replay (.readF none) size calls here .finished =
        some (content', task) → calls = [] := by
      intro here hfinished
      cases calls with
      | nil => rfl
      | cons e' calls => simp [replay, taskStep] at hfinished
    have hpiece : (e.content.drop pos).take e.n ++
        (e.content.drop pos).drop ((e.content.drop pos).take e.n).length = e.content.drop pos :=
      List.prefix_iff_eq_append.mp (List.take_prefix _ _)
    simp only [List.flatMap_cons, Entry.sent, htask]
    simp only [taskStep] at hstep
    split_ifs at hstep with hfail hn hend hbad hgoes
    · cases hstep
      rw [hlast hrest]
      simp [hfail]
    · cases hstep
      obtain ⟨hpart, -⟩ := ih hrest
      refine ⟨by simpa [hfail] using hpart, fun _ hall => ?_⟩
      simp [hall e List.mem_cons_self] at hfail
    · cases hstep
      rw [hlast hrest]
      simp [hend]
    · cases hstep
      obtain ⟨hpart, hfull⟩ := ih hrest
      rw [← List.drop_drop] at hpart hfull
      simp only [Bool.not_eq_false] at hfail
      rw [if_pos hfail]
      refine ⟨?_, fun hover hall => ?_⟩
      · have hmore := (List.prefix_append_right_inj ((e.content.drop pos).take e.n)).mpr hpart
        rwa [hpiece] at hmore
      · refine (hfull hover fun e' he' => hall e' (List.mem_cons_of_mem e he')).imp ?_ ?_
        · intro hrest'
          exact (congrArg _ hrest').trans hpiece
        · intro hsize
          rw [List.length_append]
          omega
    · cases hstep
      rw [hlast hrest]
      simp only [Bool.not_eq_false] at hfail
      rw [if_pos hfail]
      refine ⟨by simpa using List.take_prefix _ _, fun _ _ => Or.inr ?_⟩
      simpa using hgoes

/-- What a `write` of the stay leaves in the server file. -/
def Entry.written (r : Request) (e : Entry) : Text :=
  match e.task with
  | .writeString _ str => if e.ok then str.take e.n else []
  | .copyWrite _ piece => if e.ok = true ∧ r.toServer = true then piece.take e.n else []
  | _ => []

/-- Nothing is called behind the last task. -/
lemma replay_finished {r : Request} {size : ℕ} {calls : List Entry} {content : Text}
    {next : Text × Task} (h : replay r size calls content .finished = some next) :
    calls = [] ∧ next.1 = content := by
  cases calls with
  | nil =>
    cases h
    exact ⟨rfl, rfl⟩
  | cons e calls => simp [replay, taskStep] at h

/-- What a `read` of `cmd_copy` gets from the file of the client. -/
def Entry.received (e : Entry) : Text :=
  match e.task with
  | .copyRead _ => if e.ok then e.data else []
  | _ => []

/-- The call succeeds, and writes all it is given. -/
def Entry.whole (e : Entry) : Bool :=
  e.ok && match e.task with
    | .writeString _ str => decide (str.length ≤ e.n)
    | .copyWrite _ piece => decide (piece.length ≤ e.n)
    | _ => true

/-- The string of `cmd_writeT` is written by one call. -/
lemma replay_writeString {r : Request} {size : ℕ} {calls : List Entry} {content : Text}
    {pos : Option ℕ} {str : Text} {next : Text × Task}
    (h : replay r size calls content (.writeString pos str) = some next) :
    next.1 = writeAt content (pos.getD content.length) (calls.flatMap (Entry.written r)) ∧
      calls.flatMap (Entry.written r) <+: str ∧
      (next.2 = .finished → (∀ e ∈ calls, e.whole = true) →
        calls.flatMap (Entry.written r) = str) := by
  cases calls with
  | nil =>
    cases h
    exact ⟨by simp [writeAt], List.nil_prefix, fun hover => by cases hover⟩
  | cons e calls =>
    simp only [replay, taskStep, Option.ite_none_right_eq_some, Option.bind_some] at h
    obtain ⟨⟨-, htask⟩, hrest⟩ := h
    obtain ⟨rfl, hnext⟩ := replay_finished hrest
    simp only [hnext, List.flatMap_cons, List.flatMap_nil, List.append_nil, Entry.written, htask]
    refine ⟨?_, ?_, fun _ hall => ?_⟩
    · split_ifs
      · rfl
      · simp [writeAt]
    · split_ifs
      · exact List.take_prefix _ _
      · exact List.nil_prefix
    · have hwhole := hall e List.mem_cons_self
      simp only [Entry.whole, htask, Bool.and_eq_true, decide_eq_true_eq] at hwhole
      rw [if_pos hwhole.1, List.take_of_length_le hwhole.2]

/-- `seek_line` for `cmd_writeT` comes to the first character of the line, or nothing is
written, for which a call has failed or the line is missing. -/
lemma replay_seek {r : Request} {size : ℕ} {calls : List Entry} {content : Text}
    {lineNo pos lineCount : ℕ} {str : Text} (hr : r = .writeT (some lineNo) str)
    {next : Text × Task} (hcount : (content.take pos).count '\n' + 1 = lineCount)
    (hbelow : lineNo = 0 ∨ lineCount < lineNo)
    (h : replay r size calls content (.seek lineNo pos lineCount) = some next) :
    ∃ start, next.1 = writeAt content start (calls.flatMap (Entry.written r)) ∧
      calls.flatMap (Entry.written r) <+: str ∧
      (calls.flatMap (Entry.written r) ≠ [] →
        (content.take start).count '\n' + 1 = lineNo ∧
          (content.take start).getLast? = some '\n') ∧
      (next.2 = .finished → (∀ e ∈ calls, e.whole = true) →
        calls.flatMap (Entry.written r) = str ∨ lineNo = 0 ∨ content.count '\n' + 1 < lineNo) := by
  induction calls generalizing pos lineCount with
  | nil =>
    cases h
    exact ⟨0, by simp [writeAt], List.nil_prefix, by simp, fun hover => by cases hover⟩
  | cons e calls ih =>
    simp only [replay, Option.ite_none_right_eq_some, Option.bind_eq_some_iff] at h
    obtain ⟨⟨-, htask⟩, ⟨there, nextTask⟩, hstep, hrest⟩ := h
    have hwritten : Entry.written r e = [] := by simp [Entry.written, htask]
    rw [List.flatMap_cons, hwritten, List.nil_append]
    simp only [taskStep] at hstep
    split at hstep
    · rename_i hend
      cases hstep
      obtain ⟨rfl, hnext⟩ := replay_finished hrest
      refine ⟨0, by simpa [writeAt] using hnext, List.nil_prefix, by simp, fun _ hall => Or.inr ?_⟩
      have hok : e.ok = true := by
        have hwhole := hall e List.mem_cons_self
        rw [Entry.whole, Bool.and_eq_true] at hwhole
        exact hwhole.1
      rw [if_pos hok, List.getElem?_eq_none_iff] at hend
      rw [List.take_of_length_le hend] at hcount
      omega
    · rename_i c hc
      have hc : content[pos]? = some c := by
        split_ifs at hc
        exact hc
      have htake : content.take (pos + 1) = content.take pos ++ [c] := by
        rw [List.take_add_one, hc]
        rfl
      have htail : (∀ e' ∈ e :: calls, e'.whole = true) → ∀ e' ∈ calls, e'.whole = true :=
        fun hall e' he' => hall e' (List.mem_cons_of_mem e he')
      split_ifs at hstep with hline hnewline <;> cases hstep
      · rw [hr] at hrest
        obtain ⟨hnext, hpart, hfull⟩ := replay_writeString hrest
        rw [← hr] at hnext hpart hfull
        refine ⟨pos + 1, hnext, hpart, fun _ => ⟨?_, ?_⟩,
          fun hover hall => Or.inl (hfull hover (htail hall))⟩
        · rw [htake, List.count_append, hline.1]
          simp only [List.count_singleton_self]
          omega
        · rw [htake, List.getLast?_concat, hline.1]
      · have hcount' : (content.take (pos + 1)).count '\n' + 1 = lineCount + 1 := by
          rw [htake, List.count_append, hnewline, List.count_singleton_self]
          omega
        have hbefore := not_and.mp hline hnewline
        obtain ⟨start, hnext, hpart, hline', hfull⟩ := ih hcount' (by omega) hrest
        exact ⟨start, hnext, hpart, hline', fun hover hall => hfull hover (htail hall)⟩
      · have hcount' : (content.take (pos + 1)).count '\n' + 1 = lineCount := by
          rw [htake, List.count_append, List.count_singleton, if_neg (by simpa using hnewline)]
          omega
        obtain ⟨start, hnext, hpart, hline', hfull⟩ := ih hcount' hbelow hrest
        exact ⟨start, hnext, hpart, hline', fun hover hall => hfull hover (htail hall)⟩

/-- What a copy has read and not yet written. -/
def Task.piece : Task → Text
  | .copyWrite _ piece => piece
  | _ => []

/-- The loop of `cmd_copy` for an upload lays what it writes over what is there, a first
part of what it reads, and all of it when no call fails. -/
lemma replay_copy {size : ℕ} {calls : List Entry} {content : Text} {pos : ℕ} {task : Task}
    {next : Text × Task} (htask : task = .copyRead pos ∨ ∃ piece, task = .copyWrite pos piece)
    (h : replay .upload size calls content task = some next) :
    next.1 = writeAt content pos (calls.flatMap (Entry.written .upload)) ∧
      calls.flatMap (Entry.written .upload) <+: task.piece ++ calls.flatMap Entry.received ∧
      (next.2 = .finished → (∀ e ∈ calls, e.whole = true) →
        calls.flatMap (Entry.written .upload) = task.piece ++ calls.flatMap Entry.received) := by
  induction calls generalizing content pos task with
  | nil =>
    cases h
    refine ⟨by simp [writeAt], List.nil_prefix, fun hover => ?_⟩
    rcases htask with rfl | ⟨piece, rfl⟩ <;> cases hover
  | cons e calls ih =>
    simp only [replay, Option.ite_none_right_eq_some, Option.bind_eq_some_iff] at h
    obtain ⟨⟨-, he⟩, ⟨there, nextTask⟩, hstep, hrest⟩ := h
    have htail : (∀ e' ∈ e :: calls, e'.whole = true) → ∀ e' ∈ calls, e'.whole = true :=
      fun hall e' he' => hall e' (List.mem_cons_of_mem e he')
    rcases htask with rfl | ⟨piece, rfl⟩
    · have hwritten : Entry.written .upload e = [] := by simp [Entry.written, he]
      simp only [List.flatMap_cons, hwritten, List.nil_append, Task.piece]
      simp only [taskStep, Request.svWrite, true_and, if_true, reduceCtorEq, false_and,
        or_false] at hstep
      split_ifs at hstep with hend hbad <;> cases hstep
      · obtain ⟨rfl, hnext⟩ := replay_finished hrest
        have hnothing : e.received = [] := by
          rw [Entry.received, he]
          rcases hend with hfail | hempty
          · simp [hfail]
          · simp [hempty]
        exact ⟨by simpa [writeAt] using hnext, List.nil_prefix, fun _ _ => by simp [hnothing]⟩
      · have hdata : e.received = e.data := by
          rw [not_or, Bool.not_eq_false] at hend
          rw [Entry.received, he]
          exact if_pos hend.1
        obtain ⟨hnext, hpart, hfull⟩ := ih (Or.inr ⟨_, rfl⟩) hrest
        rw [hdata]
        exact ⟨hnext, hpart, fun hover hall => hfull hover (htail hall)⟩
    · have hreceived : e.received = [] := by simp [Entry.received, he]
      simp only [List.flatMap_cons, hreceived, List.nil_append, Task.piece]
      simp only [taskStep, Request.toServer, and_true, Option.some.injEq, Prod.mk.injEq] at hstep
      obtain ⟨rfl, rfl⟩ := hstep
      simp only [Entry.written, he, Request.toServer, and_true]
      by_cases hok : e.ok = true
      · simp only [hok, if_true, true_and] at hrest ⊢
        by_cases hwhole : piece.length ≤ e.n
        · rw [if_pos hwhole, List.take_of_length_le hwhole] at hrest
          obtain ⟨hnext, hpart, hfull⟩ := ih (Or.inl rfl) hrest
          rw [List.take_of_length_le hwhole]
          refine ⟨by rw [hnext, writeAt_writeAt],
            (List.prefix_append_right_inj piece).mpr hpart, fun hover hall => ?_⟩
          exact congrArg (piece ++ ·) (hfull hover (htail hall))
        · rw [if_neg hwhole] at hrest
          obtain ⟨rfl, hnext⟩ := replay_finished hrest
          refine ⟨by simpa using hnext, by simpa using List.take_prefix _ _, fun _ hall => ?_⟩
          have hlast := hall e List.mem_cons_self
          simp [Entry.whole, he, hwhole] at hlast
      · rw [if_neg hok, if_neg (fun hboth => hok hboth.1)] at hrest
        rw [if_neg hok]
        obtain ⟨rfl, hnext⟩ := replay_finished hrest
        refine ⟨by simpa [writeAt] using hnext, List.nil_prefix, fun _ hall => ?_⟩
        have hlast := hall e List.mem_cons_self
        simp [Entry.whole, hok] at hlast

/-- Where and what a stay writes, from what its request asks for; `received` is what a
copy has read from the file of the client. -/
def Request.Writes (r : Request) (content : Text) (start : ℕ) (received written : Text) : Prop :=
  match r with
  | .upload => start = 0 ∧ written <+: received
  | .writeT none str => start = content.length ∧ written <+: str
  | .writeT (some lineNo) str => written <+: str ∧
      (written ≠ [] → (content.take start).count '\n' + 1 = lineNo ∧
        (1 < lineNo → (content.take start).getLast? = some '\n'))
  | .readF _ | .download _ => written = []

/-- What a stay has written at its end when none of its calls has failed. -/
def Request.WritesAll (r : Request) (content received written : Text) : Prop :=
  match r with
  | .upload => written = received
  | .writeT none str => written = str
  | .writeT (some lineNo) str => written = str ∨ lineNo = 0 ∨ content.count '\n' + 1 < lineNo
  | .readF _ | .download _ => True

/-- What a request of the writer region does from its first task on. -/
lemma replay_writes {r : Request} (hwrite : r.svWrite = true) {size : ℕ} {calls : List Entry}
    {content : Text} {next : Text × Task}
    (h : replay r size calls content r.firstTask = some next) :
    ∃ start, next.1 = writeAt content start (calls.flatMap (Entry.written r)) ∧
      r.Writes content start (calls.flatMap Entry.received) (calls.flatMap (Entry.written r)) ∧
      (next.2 = .finished → (∀ e ∈ calls, e.whole = true) →
        r.WritesAll content (calls.flatMap Entry.received) (calls.flatMap (Entry.written r))) := by
  cases r with
  | upload =>
    obtain ⟨hnext, hpart, hfull⟩ := replay_copy (Or.inl rfl) h
    exact ⟨0, hnext, ⟨rfl, hpart⟩, hfull⟩
  | writeT lineNo str =>
    cases lineNo with
    | none =>
      obtain ⟨hnext, hpart, hfull⟩ := replay_writeString h
      exact ⟨content.length, hnext, ⟨rfl, hpart⟩, hfull⟩
    | some lineNo =>
      simp only [Request.firstTask] at h
      split_ifs at h with hfirst
      · obtain ⟨hnext, hpart, hfull⟩ := replay_writeString h
        refine ⟨0, hnext, ⟨hpart, fun _ => ⟨by simp [hfirst], by omega⟩⟩,
          fun hover hall => Or.inl (hfull hover hall)⟩
      · obtain ⟨start, hnext, hpart, hline, hfull⟩ := replay_seek rfl (by simp) (by omega) h
        exact ⟨start, hnext, ⟨hpart, fun hne => ⟨(hline hne).1, fun _ => (hline hne).2⟩⟩, hfull⟩
  | readF lineNo | download here => cases hwrite

lemma result_writes {ι : Type*} {v : Visit ι} {content next : Text}
    (h : v.result content = some next) :
    ∃ start written, next = writeAt content start written ∧
      v.request.Writes content start (v.calls.flatMap Entry.received) written ∧
      (v.request.svWrite = true → written = v.calls.flatMap (Entry.written v.request)) ∧
      (v.killed = false → (∀ e ∈ v.calls, e.whole = true) →
        v.request.WritesAll content (v.calls.flatMap Entry.received) written) := by
  cases hwrite : v.request.svWrite with
  | false =>
    refine ⟨0, [], ?_, ?_, by simp, fun _ _ => ?_⟩
    · rw [result_reads hwrite h]
      rfl
    all_goals
      cases hv : v.request with
      | upload | writeT lineNo str => simp [hv, Request.svWrite] at hwrite
      | readF lineNo | download here => trivial
  | true =>
    simp only [Visit.result, Option.bind_eq_some_iff, Option.ite_none_right_eq_some,
      Option.some.injEq] at h
    obtain ⟨last, hreplay, hover, rfl⟩ := h
    obtain ⟨start, hnext, hwrites, hall⟩ := replay_writes hwrite hreplay
    refine ⟨start, _, hnext, hwrites, fun _ => rfl, fun hkilled => hall ?_⟩
    simpa [Visit.over, hkilled] using hover

end SystemProgramming.FileContents
