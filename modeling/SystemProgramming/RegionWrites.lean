import SystemProgramming.FileContents
import Mathlib.Tactic.SplitIfs

/-!
# Who changes a server file

A child whose region function has let it in as a writer is the only one in a
region, so what it writes does not disturb what a reader has read. What a download
in the directory of the server writes into the reader region is what it has read
there. That leaves the call that truncates a destination before the region.
-/
namespace SystemProgramming.FileContents
open SystemProgramming.Transition SystemProgramming.ReadersWriters
open SystemProgramming.LineReader (Text buffSize)
open SystemProgramming.ByteFile (writeAt writeAt_self)

/-- What a task in the region assumes: only a request of the writer region writes a
string, and a copy into the reader region writes what stands there. -/
def Fits (r : Request) (content : Text) : Task → Prop
  | .writeString _ _ => r.svWrite = true
  | .copyWrite pos piece => r.svWrite = false → piece = (content.drop pos).take piece.length
  | _ => True

lemma fits_firstTask (r : Request) (content : Text) : Fits r content r.firstTask := by
  rcases r with ⟨_ | lineNo⟩ | ⟨_ | lineNo, str⟩ | _ | _ <;> simp only [Request.firstTask]
  case readF.some => split_ifs <;> trivial
  case writeT.some => split_ifs <;> trivial
  all_goals trivial

lemma fits_afterSeek (r : Request) (content : Text) (pos : ℕ) :
    Fits r content (r.afterSeek pos) := by
  cases r <;> trivial

/-- A system call inside the reader region leaves the content as it is. -/
lemma taskStep_spec {content content' data : Text} {r : Request} {size n : ℕ} {ok : Bool}
    {task task' : Task} (hfits : Fits r content task)
    (h : taskStep content r size ok n data task = some (content', task')) :
    (content' = content ∨ r.svWrite = true) ∧ Fits r content' task' := by
  cases task with
  | seek lineNo pos lineCount =>
    simp only [taskStep] at h
    split at h <;> cases h
    · exact ⟨Or.inl rfl, trivial⟩
    · refine ⟨Or.inl rfl, ?_⟩
      split_ifs
      · exact fits_afterSeek r content _
      all_goals trivial
  | nextLine pos =>
    simp only [taskStep] at h
    split at h <;> cases h
    · exact ⟨Or.inl rfl, trivial⟩
    · refine ⟨Or.inl rfl, ?_⟩
      split_ifs <;> trivial
  | sendPiece pos =>
    simp only [taskStep] at h
    split_ifs at h <;> cases h <;> exact ⟨Or.inl rfl, trivial⟩
  | writeString pos str =>
    cases h
    exact ⟨Or.inr hfits, trivial⟩
  | copyRead pos =>
    simp only [taskStep] at h
    split_ifs at h with hend hbad hbad <;> cases h
    · exact ⟨Or.inl rfl, trivial⟩
    · exact ⟨Or.inl rfl, fun hread => absurd hread (by simp [*])⟩
    · refine ⟨Or.inl rfl, fun _ => ?_⟩
      rw [List.length_take, ← List.take_take, List.take_length]
  | copyWrite pos piece =>
    simp only [taskStep, Option.some.injEq, Prod.mk.injEq] at h
    obtain ⟨rfl, rfl⟩ := h
    refine ⟨?_, by split_ifs <;> trivial⟩
    cases hwrite : r.svWrite with
    | true => exact Or.inr rfl
    | false =>
      left
      have hpiece : piece.take n = (content.drop pos).take (piece.take n).length := by
        rw [List.length_take, ← List.take_take, ← hfits hwrite]
      split_ifs
      · exact writeAt_self hpiece
      · rfl
  | finished => cases h

/-- The statements of the enter functions. -/
def entering (svWrite : Bool) : Pc → Bool
  | .rdWaitReadTry | .rdWaitRmutex | .rdCount | .rdTest | .rdWaitRsc | .rdPostRmutex
  | .rdPostReadTry => !svWrite
  | .wrWaitWmutex | .wrCount | .wrTest | .wrWaitReadTry | .wrPostWmutex | .wrWaitRsc => svWrite
  | _ => false

/-- A statement of an enter function leads on in it, or into its region. -/
lemma exec_entering {f f' : SafeFile} {pc q : Pc} {svWrite : Bool}
    (he : f.exec pc = some (f', q)) (hpc : entering svWrite pc = true) :
    entering svWrite q = true ∨ q = if svWrite then .writing else .reading := by
  cases svWrite <;> cases pc <;>
    simp only [entering, Bool.not_true, Bool.not_false, Bool.false_eq_true] at hpc <;>
    simp only [SafeFile.exec, Option.ite_none_right_eq_some, Option.some.injEq, Prod.mk.injEq]
      at he
  case false.rdTest =>
    obtain ⟨-, rfl⟩ := he
    split_ifs <;> exact Or.inl rfl
  case true.wrTest =>
    obtain ⟨-, rfl⟩ := he
    split_ifs <;> exact Or.inl rfl
  all_goals obtain ⟨-, -, rfl⟩ := he
  all_goals first | exact Or.inl rfl | exact Or.inr rfl

/-- What the handler of a child says about its place in the region functions. -/
def Placed : Handler → Pc → Prop
  | .enter r _, pc => entering r.svWrite pc = true
  | .inside r _ _, pc => pc = if r.svWrite then .writing else .reading
  | _, _ => True

/-- The lock is a readers-writers lock, every child is where its handler says, and no
task in a region is disturbed. -/
structure Inv {ι : Type*} [Fintype ι] (s : State ι) : Prop where
  lock : ∃ rheld wheld, ReadersWriters.Inv s.lock rheld wheld
  placed : ∀ i, Placed (s.handler i) (s.lock.pc i)
  fits : ∀ i r size task, s.handler i = .inside r size task → Fits r s.content task

theorem inv_init (ι : Type*) [Fintype ι] (fname : Text) (disk : Option Text) :
    Inv (init ι fname disk) where
  lock := ⟨0, 0, ReadersWriters.inv_init ι fname⟩
  placed := fun i => trivial
  fits := fun i r size task hi => by cases hi

/-- While a child is inside as a writer, no other one is inside. -/
lemma Inv.alone {ι : Type*} [Fintype ι] {s : State ι} (hinv : Inv s) {i j : ι}
    (hi : s.lock.pc i = .writing) (hij : i ≠ j) (r : Request) (size : ℕ) (task : Task) :
    s.handler j ≠ .inside r size task := by
  intro hj
  obtain ⟨rheld, wheld, hlock⟩ := hinv.lock
  have hplace := hinv.placed j
  rw [hj] at hplace
  obtain ⟨hwriting, hreading⟩ := hlock.exclusive hi hij
  cases hwrite : r.svWrite with
  | true => exact hwriting (by simpa [Placed, hwrite] using hplace)
  | false => exact hreading (by simpa [Placed, hwrite] using hplace)

/-- A child moves without changing the lock or the content. -/
lemma Inv.put {ι : Type*} [Fintype ι] [DecidableEq ι] {s : State ι} (hinv : Inv s) {i : ι}
    {h : Handler} (hplace : Placed h (s.lock.pc i))
    (hfits : ∀ r size task, h = .inside r size task → Fits r s.content task)
    {disk : Option Text} (hdisk : disk.getD [] = s.content) :
    Inv { s.put i h with disk := disk } := by
  have hsame : State.content { s.put i h with disk := disk } = s.content := hdisk
  refine ⟨hinv.lock, fun j => ?_, fun j r size task hj => ?_⟩
  · rcases eq_or_ne j i with rfl | hji
    · simpa [State.put] using hplace
    · simpa [State.put, Function.update_of_ne hji] using hinv.placed j
  · rw [hsame]
    rcases eq_or_ne j i with rfl | hji
    · exact hfits r size task (by simpa [State.put] using hj)
    · exact hinv.fits j r size task (by simpa [State.put, Function.update_of_ne hji] using hj)

/-- A system call inside a region. -/
lemma Inv.task {ι : Type*} [Fintype ι] [DecidableEq ι] {s : State ι} (hinv : Inv s) {i : ι}
    {r : Request} {size n : ℕ} {task task' : Task} {ok : Bool} {data content : Text}
    (hi : s.handler i = .inside r size task)
    (h : taskStep s.content r size ok n data task = some (content, task')) :
    (content = s.content ∨ s.lock.pc i = .writing) ∧
      Inv { s.put i (.inside r size task') with disk := some content } := by
  obtain ⟨hchange, hfits⟩ := taskStep_spec (hinv.fits i r size task hi) h
  have hplace := hinv.placed i
  rw [hi] at hplace
  have hwriting : content = s.content ∨ s.lock.pc i = .writing := by
    refine hchange.imp_right fun hwrite => ?_
    simpa [Placed, hwrite] using hplace
  refine ⟨hwriting, hinv.lock, fun j => ?_, fun j r' size' task'' hj => ?_⟩
  · rcases eq_or_ne j i with rfl | hji
    · simpa [State.put, Placed] using hplace
    · simpa [State.put, Function.update_of_ne hji] using hinv.placed j
  · rcases eq_or_ne j i with rfl | hji
    · simp only [State.put, Function.update_self, Handler.inside.injEq] at hj
      obtain ⟨rfl, rfl, rfl⟩ := hj
      exact hfits
    · simp only [State.put, Function.update_of_ne hji] at hj
      rcases hwriting with rfl | hwriting
      · exact hinv.fits j r' size' task'' hj
      · exact absurd hj (hinv.alone hwriting hji.symm r' size' task'')

/-- A step of the lock by child `i`, which moves on accordingly. -/
lemma Inv.lockStep {ι : Type*} [Fintype ι] [DecidableEq ι] {s : State ι} (hinv : Inv s) {i : ι}
    {a : ReadersWriters.Act ι} {lock : ReadersWriters.State ι} {h : Handler}
    (hst : ReadersWriters.step s.lock a = some lock)
    (hother : ∀ j, j ≠ i → lock.pc j = s.lock.pc j) (hplace : Placed h (lock.pc i))
    (hfits : ∀ r size task, h = .inside r size task → Fits r s.content task) :
    Inv { s.put i h with lock := lock } := by
  obtain ⟨rheld, wheld, hlock⟩ := hinv.lock
  refine ⟨hlock.step hst, fun j => ?_, fun j r size task hj => ?_⟩
  · rcases eq_or_ne j i with rfl | hji
    · simpa [State.put] using hplace
    · simpa [State.put, Function.update_of_ne hji, hother j hji] using hinv.placed j
  · rcases eq_or_ne j i with rfl | hji
    · exact hfits r size task (by simpa [State.put] using hj)
    · exact hinv.fits j r size task (by simpa [State.put, Function.update_of_ne hji] using hj)

/-- The child is neither inside a region nor on its way in. -/
def Handler.outside : Handler → Bool
  | .enter _ _ | .inside _ _ _ => false
  | _ => true

/-- A call of an open or of a look-up leaves the content as it is. -/
lemma Inv.plainCall {ι : Type*} [Fintype ι] [DecidableEq ι] {s : State ι} (hinv : Inv s) {i : ι}
    {h : Handler} (hout : h.outside = true) {disk : Option Text}
    (hdisk : disk.getD [] = s.content) :
    (State.content { s.put i h with disk := disk } = s.content ∨ s.lock.pc i = .writing) ∧
      Inv { s.put i h with disk := disk } := by
  refine ⟨Or.inl hdisk, hinv.put ?_ ?_ hdisk⟩
  · cases h <;> trivial
  · rintro r size task rfl
    simp [Handler.outside] at hout

lemma afterOpen_outside (r : Request) : r.afterOpen.outside = true := by
  cases r <;> rfl

/-- A child calls its enter function. -/
lemma Inv.enter {ι : Type*} [Fintype ι] [DecidableEq ι] {s : State ι} (hinv : Inv s) {i : ι}
    {r : Request} {size : ℕ} {lock : ReadersWriters.State ι}
    (hst : r.svWrite = false ∧ ReadersWriters.step s.lock (.reader i) = some lock ∨
      r.svWrite = true ∧ ReadersWriters.step s.lock (.writer i) = some lock) :
    Inv { s.put i (.enter r size) with lock := lock } := by
  rcases hst with ⟨hwrite, hst⟩ | ⟨hwrite, hst⟩
  all_goals
    refine hinv.lockStep hst (fun j hj => ?_) ?_ (fun _ _ _ hh => by cases hh)
    all_goals
      simp only [ReadersWriters.step, Option.ite_none_right_eq_some, Option.some.injEq] at hst
      obtain ⟨-, rfl⟩ := hst
    · simp [hj]
    · simp [Placed, entering, hwrite]

lemma Inv.call {ι : Type*} [Fintype ι] [DecidableEq ι] {s t : State ι} (hinv : Inv s) {i : ι}
    {ok : Bool} {n : ℕ} {data : Text} (hok : TruncatesEmpty s (.call i ok n data))
    (hst : callStep s i ok n data = some t) :
    (t.content = s.content ∨ s.lock.pc i = .writing) ∧ Inv t := by
  unfold callStep at hst
  cases hi : s.handler i with
  | openSource r =>
    rw [hi] at hst
    cases hst
    split_ifs
    · exact hinv.plainCall (afterOpen_outside r) rfl
    · exact hinv.plainCall rfl rfl
  | fstat r =>
    rw [hi] at hst
    cases hst
    split_ifs <;> exact hinv.plainCall rfl rfl
  | createDest r =>
    simp only [hi] at hst
    split_ifs at hst with hcreate hserver <;> cases hst
    · have hdisk : s.disk = none := by
        cases hd : s.disk with
        | none => rfl
        | some content => exact absurd ⟨hserver, by simp [hd]⟩ hcreate.2
      exact hinv.plainCall rfl (by simp [State.content, hdisk])
    all_goals exact hinv.plainCall rfl rfl
  | approve r =>
    rw [hi] at hst
    cases hst
    split_ifs <;> exact hinv.plainCall rfl rfl
  | truncateDest r =>
    simp only [hi] at hst
    split_ifs at hst with htruncate hserver <;> cases hst
    · exact hinv.plainCall rfl (hok (by simp [truncates, hi, htruncate, hserver])).symm
    all_goals exact hinv.plainCall rfl rfl
  | findSfile r size =>
    simp only [hi] at hst
    split_ifs at hst with hfound hwrite
    · obtain ⟨lock, hlock, rfl⟩ := Option.map_eq_some_iff.mp hst
      exact ⟨Or.inl rfl, hinv.enter (Or.inr ⟨hwrite, hlock⟩)⟩
    · obtain ⟨lock, hlock, rfl⟩ := Option.map_eq_some_iff.mp hst
      exact ⟨Or.inl rfl, hinv.enter (Or.inl ⟨by simpa using hwrite, hlock⟩)⟩
    · cases hst
      exact hinv.plainCall rfl rfl
  | inside r size task =>
    simp only [hi, Option.map_eq_some_iff] at hst
    obtain ⟨⟨content, task'⟩, htask, rfl⟩ := hst
    exact hinv.task hi htask
  | idle | enter r size | leave r | dead =>
    rw [hi] at hst
    cases hst

/-- A statement of a region function leaves the content as it is. -/
lemma Inv.exec {ι : Type*} [Fintype ι] [DecidableEq ι] {s : State ι} (hinv : Inv s) {i : ι}
    {lock : ReadersWriters.State ι} (hi : (s.handler i).inRegionCode = true)
    (hst : ReadersWriters.step s.lock (.exec i) = some lock) :
    Inv { s.put i ((s.handler i).afterExec (lock.pc i)) with lock := lock } := by
  have hplace := hinv.placed i
  obtain ⟨⟨f, q⟩, hexec, rfl⟩ := Option.map_eq_some_iff.mp hst
  refine hinv.lockStep hst (fun j hj => Function.update_of_ne hj _ _) ?_ ?_ <;>
    simp only [Function.update_self]
  · cases hh : s.handler i with
    | enter r size =>
      rw [hh] at hplace
      simp only [Handler.afterExec]
      rcases exec_entering hexec hplace with hq | hq
      · have hout : ¬ (q = .reading ∨ q = .writing) := by
          rintro (rfl | rfl) <;> simp [entering] at hq
        rw [if_neg hout]
        exact hq
      · have hin : q = .reading ∨ q = .writing := by
          rw [hq]
          split_ifs <;> simp
        rw [if_pos hin]
        exact hq
    | inside r size task => trivial
    | leave r =>
      simp only [Handler.afterExec]
      split_ifs <;> trivial
    | _ => simp [hh, Handler.inRegionCode] at hi
  · intro r size task hh
    cases hold : s.handler i with
    | enter r' size' =>
      simp only [hold, Handler.afterExec] at hh
      split_ifs at hh
      cases hh
      exact fits_firstTask r s.content
    | inside r' size' task' => simp [hold, Handler.afterExec] at hh
    | leave r' =>
      simp only [hold, Handler.afterExec] at hh
      split_ifs at hh
    | _ => simp [hold, Handler.inRegionCode] at hi

/-- One step: the content changes only under a writer, and the invariant is kept. -/
theorem Inv.step {ι : Type*} [Fintype ι] [DecidableEq ι] {s t : State ι} {a : Act ι}
    (hinv : Inv s) (hok : TruncatesEmpty s a) (hst : FileContents.step s a = some t) :
    (t.content = s.content ∨ s.lock.pc a.child = .writing) ∧ Inv t := by
  cases a with
  | request i r =>
    simp only [FileContents.step, Option.ite_none_right_eq_some, Option.some.injEq] at hst
    obtain ⟨-, rfl⟩ := hst
    exact hinv.plainCall rfl rfl
  | call i ok n data => exact hinv.call hok hst
  | exec i =>
    simp only [FileContents.step, Option.ite_none_right_eq_some, Option.map_eq_some_iff] at hst
    obtain ⟨hi, lock, hlock, rfl⟩ := hst
    exact ⟨Or.inl rfl, hinv.exec hi hlock⟩
  | kill i =>
    cases hst
    exact hinv.plainCall rfl rfl

theorem reachable_inv {ι : Type*} [Fintype ι] [DecidableEq ι] {fname : Text}
    {disk : Option Text} {s : State ι} (hr : Reach step TruncatesEmpty (init ι fname disk) s) :
    Inv s :=
  hr.invariant (inv_init ι fname disk) fun _ _ _ hinv hok hst => (hinv.step hok hst).2

/-- In every run that truncates the server file only when it has no content, the content
changes only by a child inside the writer region; and as long as a child stays inside
the reader region, the content stays the same. -/
theorem content_changes_inside {ι : Type*} [Fintype ι] [DecidableEq ι] {fname : Text}
    {disk : Option Text} {s : State ι} (hr : Reach step TruncatesEmpty (init ι fname disk) s) :
    (∀ a t, TruncatesEmpty s a → step s a = some t → t.content ≠ s.content →
      s.lock.pc a.child = .writing) ∧
    ∀ i t, Reach step (fun u a => TruncatesEmpty u a ∧ u.lock.pc i = .reading) s t →
      t.content = s.content := by
  have hinv := reachable_inv hr
  refine ⟨fun a t hok hst hne => ?_, fun i t hread => ?_⟩
  · exact (hinv.step hok hst).1.resolve_left hne
  · have hkeep : Inv t ∧ t.content = s.content := by
      refine hread.invariant (P := fun u => Inv u ∧ u.content = s.content) ⟨hinv, rfl⟩ ?_
      rintro u a v ⟨hu, hsame⟩ ⟨hok, hi⟩ hst
      obtain ⟨hchange, hv⟩ := hu.step hok hst
      refine ⟨hv, ?_⟩
      rcases hchange with hv' | hwriting
      · exact hv'.trans hsame
      · obtain ⟨rheld, wheld, hlock⟩ := hu.lock
        have hne : a.child ≠ i := by
          intro heq
          rw [heq, hi] at hwriting
          cases hwriting
        exact absurd hi (hlock.exclusive hwriting hne).2
    exact hkeep.2

/-- An upload creates the file and writes it inside its region, while a second child that
was to overwrite the file has truncated it before. -/
theorem content_changes_inside_upload : ∃ s t : State (Fin 2),
    step s (.call 0 true 2 []) = some t ∧ s.content = [] ∧ t.content = ['h', 'i'] ∧
    s.handler 1 = .findSfile .upload 0 ∧ s.lock.pc 0 = .writing := by
  have hr : Reach step TruncatesEmpty (init (Fin 2) ['f'] none) _ := reach_of_checked_run
    [.request 0 .upload, .call 0 true 0 [], .call 0 true 0 [], .request 1 .upload,
      .call 1 true 0 [], .call 1 true 0 [], .call 1 true 0 [], .call 1 true 0 [],
      .call 0 true 0 [], .exec 0, .exec 0, .exec 0, .exec 0, .exec 0, .exec 0,
      .call 0 true 0 ['h', 'i']] rfl
  have h := (content_changes_inside hr).1 (.call 0 true 2 []) _ (by decide) rfl (by decide)
  exact ⟨_, _, rfl, rfl, rfl, rfl, h⟩

/-- One child reads the file inside the reader region. Another one handles an upload of
it that the client has approved: its `open` empties the file outside any region. -/
theorem truncated_under_reader : ∃ s t : State (Fin 2),
    Reach step always (init (Fin 2) ['f'] (some ['h', 'i'])) s ∧
    s.lock.pc 0 = .reading ∧ s.lock.pc 1 = .idle ∧
    step s (.call 1 true 0 []) = some t ∧ t.lock.pc 0 = .reading ∧
    s.content = ['h', 'i'] ∧ t.content = [] := by
  refine ⟨_, _, reach_of_run
    [.request 0 (.readF none), .call 0 true 0 [], .call 0 true 0 [], .call 0 true 0 [],
      .exec 0, .exec 0, .exec 0, .exec 0, .exec 0, .exec 0, .exec 0, .request 1 .upload,
      .call 1 true 0 [], .call 1 true 0 [], .call 1 true 0 []] rfl, rfl, rfl, rfl, rfl, rfl, rfl⟩

end SystemProgramming.FileContents
