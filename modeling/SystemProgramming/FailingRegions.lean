import SystemProgramming.RequestLocks

/-!
# Region functions whose semaphore calls fail

A call of `sem_wait` or `sem_post` that fails returns `-1` and has no effect. The region
functions return `-1` after most of them, and look at the result of none of the four
they make under a condition. Other processes may change the file between any two
statements; a `sem_wait` that does not fail has waited until it could take its
semaphore. What counts is what the function itself has added to semaphores and counters.
-/
namespace SystemProgramming.FailingRegions
open SystemProgramming.ReadersWriters SystemProgramming.RequestLocks

inductive Region where
  | readerEnter
  | readerExit
  | writerEnter
  | writerExit
  deriving DecidableEq, Repr

/-- The first statement, which is a semaphore call. -/
def Region.start : Region → Pc
  | .readerEnter => .rdWaitReadTry
  | .readerExit => .rxWaitRmutex
  | .writerEnter => .wrWaitWmutex
  | .writerExit => .wxPostRsc

/-- What comes after a statement. -/
inductive Next where
  | goto (q : Pc)
  | ret (status : ℤ)
  deriving DecidableEq, Repr

/-- What comes after a semaphore call that has failed. -/
def afterError : Pc → Option Next
  | .rdWaitReadTry | .rdWaitRmutex | .rdPostRmutex | .rdPostReadTry => some (.ret (-1))
  | .rdWaitRsc => some (.goto .rdPostRmutex)
  | .rxWaitRmutex | .rxPostRmutex => some (.ret (-1))
  | .rxPostRsc => some (.goto .rxPostRmutex)
  | .wrWaitWmutex | .wrPostWmutex | .wrWaitRsc => some (.ret (-1))
  | .wrWaitReadTry => some (.goto .wrPostWmutex)
  | .wxPostRsc | .wxWaitWmutex | .wxPostWmutex => some (.ret (-1))
  | .wxPostReadTry => some (.goto .wxPostWmutex)
  | _ => none

/-- The statement is a semaphore call, and it fails. -/
def callFails (fails : Pc → Bool) (pc : Pc) : Bool := fails pc && (afterError pc).isSome

/-- Execute one statement. -/
def execFailing (fails : Pc → Bool) (f : SafeFile) (pc : Pc) : Option (SafeFile × Next) :=
  match if fails pc then afterError pc else none with
  | some next => some (f, next)
  | none => (f.exec pc).map fun r => (r.1, if r.2.inFunction then .goto r.2 else .ret 0)

/-- The semaphores and the counters of a file. -/
inductive Cell where
  | readTry
  | rmutex
  | wmutex
  | rsc
  | readerCount
  | writerCount
  deriving DecidableEq, Repr

def values (f : SafeFile) : Cell → ℤ
  | .readTry => f.readTry
  | .rmutex => f.rmutex
  | .wmutex => f.wmutex
  | .rsc => f.rsc
  | .readerCount => f.readerCount
  | .writerCount => f.writerCount

/-- What a function returns, whether a semaphore call in it has failed, and what it has
added to the cells of the file. -/
structure Result where
  status : ℤ
  failed : Bool
  change : Cell → ℤ

/-- Execute a function from the statement `pc` on; `found pc` is the file as the statement
`pc` finds it. -/
def callFailing (fails : Pc → Bool) (found : Pc → SafeFile) : ℕ → Pc → Option Result
  | 0, _ => none
  | n + 1, pc => (execFailing fails (found pc) pc).bind fun r =>
    let added := values r.1 - values (found pc)
    match r.2 with
    | .ret status => some ⟨status, callFails fails pc, added⟩
    | .goto q => (callFailing fails found n q).map fun res =>
        ⟨res.status, callFails fails pc || res.failed, added + res.change⟩

/-- A statement whose call does not fail is that of the lock. -/
lemma execFailing_of_callFails_eq_false {fails : Pc → Bool} {pc : Pc}
    (h : callFails fails pc = false) (f : SafeFile) : execFailing fails f pc =
      (f.exec pc).map fun r => (r.1, if r.2.inFunction then .goto r.2 else .ret 0) := by
  have hnone : (if fails pc then afterError pc else none) = none := by
    rw [callFails, Bool.and_eq_false_iff, Option.isSome_eq_false_iff, Option.isNone_iff_eq_none]
      at h
    rcases h with hfails | herror
    · rw [hfails]
      rfl
    · rw [herror, ite_self]
  rw [execFailing, hnone]

lemma execFailing_of_callFails {fails : Pc → Bool} {pc : Pc} (h : callFails fails pc = true)
    (f : SafeFile) : ∃ next, afterError pc = some next ∧
      execFailing fails f pc = some (f, next) := by
  rw [callFails, Bool.and_eq_true] at h
  obtain ⟨next, hnext⟩ := Option.isSome_iff_exists.mp h.2
  exact ⟨next, hnext, by rw [execFailing, if_pos h.1, hnext]⟩

/-- The function reports a failed call, and has then left the file as it was. -/
def Undone (res : Result) : Prop := res.failed = true → res.status = -1 ∧ res.change = 0

/-- The call that a test decides about, if the test finds that it is to be made. -/
def conditional (found : Pc → SafeFile) : Pc → List Pc
  | .rdTest => if (found .rdTest).readerCount = 1 then [.rdWaitRsc] else []
  | .rxTest => if (found .rxTest).readerCount = 0 then [.rxPostRsc] else []
  | .wrTest => if (found .wrTest).writerCount = 1 then [.wrWaitReadTry] else []
  | .wxTest => if (found .wxTest).writerCount = 0 then [.wxPostReadTry] else []
  | _ => []

/-- The semaphore calls from a statement to the end of its function, as long as none of
them ends it. -/
def callsFrom (found : Pc → SafeFile) : Pc → List Pc
  | .idle => []
  | .rdWaitReadTry => [.rdWaitReadTry, .rdWaitRmutex] ++ conditional found .rdTest ++
      [.rdPostRmutex, .rdPostReadTry]
  | .rdWaitRmutex => [.rdWaitRmutex] ++ conditional found .rdTest ++
      [.rdPostRmutex, .rdPostReadTry]
  | .rdCount | .rdTest => conditional found .rdTest ++ [.rdPostRmutex, .rdPostReadTry]
  | .rdWaitRsc => [.rdWaitRsc, .rdPostRmutex, .rdPostReadTry]
  | .rdPostRmutex => [.rdPostRmutex, .rdPostReadTry]
  | .rdPostReadTry => [.rdPostReadTry]
  | .reading | .rxWaitRmutex => [.rxWaitRmutex] ++ conditional found .rxTest ++ [.rxPostRmutex]
  | .rxCount | .rxTest => conditional found .rxTest ++ [.rxPostRmutex]
  | .rxPostRsc => [.rxPostRsc, .rxPostRmutex]
  | .rxPostRmutex => [.rxPostRmutex]
  | .wrWaitWmutex => [.wrWaitWmutex] ++ conditional found .wrTest ++ [.wrPostWmutex, .wrWaitRsc]
  | .wrCount | .wrTest => conditional found .wrTest ++ [.wrPostWmutex, .wrWaitRsc]
  | .wrWaitReadTry => [.wrWaitReadTry, .wrPostWmutex, .wrWaitRsc]
  | .wrPostWmutex => [.wrPostWmutex, .wrWaitRsc]
  | .wrWaitRsc => [.wrWaitRsc]
  | .writing | .wxPostRsc => [.wxPostRsc, .wxWaitWmutex] ++ conditional found .wxTest ++
      [.wxPostWmutex]
  | .wxWaitWmutex => [.wxWaitWmutex] ++ conditional found .wxTest ++ [.wxPostWmutex]
  | .wxCount | .wxTest => conditional found .wxTest ++ [.wxPostWmutex]
  | .wxPostReadTry => [.wxPostReadTry, .wxPostWmutex]
  | .wxPostWmutex => [.wxPostWmutex]

/-- The semaphore calls behind the first one. -/
def Region.laterCalls (found : Pc → SafeFile) (region : Region) : List Pc :=
  (callsFrom found region.start).tail

/-- A statement fails without effect, or is executed. -/
lemma execFailing_cases {fails : Pc → Bool} {f f' : SafeFile} {pc : Pc} {next : Next}
    (h : execFailing fails f pc = some (f', next)) :
    (callFails fails pc = true ∧ f' = f ∧ afterError pc = some next) ∨
      (callFails fails pc = false ∧ ∃ q, f.exec pc = some (f', q) ∧
        next = if q.inFunction then .goto q else .ret 0) := by
  cases hcall : callFails fails pc with
  | true =>
    obtain ⟨next', herror, hexec⟩ := execFailing_of_callFails hcall f
    rw [hexec] at h
    cases h
    exact Or.inl ⟨rfl, rfl, herror⟩
  | false =>
    rw [execFailing_of_callFails_eq_false hcall] at h
    obtain ⟨⟨f₁, q⟩, hexec, hr⟩ := Option.map_eq_some_iff.mp h
    cases hr
    exact Or.inr ⟨rfl, q, hexec, rfl⟩

/-- The cell a function changes at once and, if it returns `-1`, does not change back. -/
def Region.mark : Region → Cell
  | .readerEnter => .readTry
  | .readerExit => .rmutex
  | .writerEnter => .writerCount
  | .writerExit => .rsc

/-- The statements behind that change. -/
def Region.marked : Region → List Pc
  | .readerEnter => [.rdWaitRmutex, .rdCount, .rdTest, .rdWaitRsc, .rdPostRmutex, .rdPostReadTry]
  | .readerExit => [.rxCount, .rxTest, .rxPostRsc, .rxPostRmutex]
  | .writerEnter => [.wrTest, .wrWaitReadTry, .wrPostWmutex, .wrWaitRsc]
  | .writerExit => [.wxWaitWmutex, .wxCount, .wxTest, .wxPostReadTry, .wxPostWmutex]

/-- The next statement is behind the change as well, or the function returns; the cell
changes back only with a return of `0`. -/
lemma mark_step {fails : Pc → Bool} {f f' : SafeFile} {pc : Pc} {next : Next} (region : Region)
    (hpc : pc ∈ region.marked) (h : execFailing fails f pc = some (f', next)) :
    (next = .ret 0 ∨ values f' region.mark = values f region.mark) ∧
      ∀ q, next = .goto q → q ∈ region.marked := by
  rcases execFailing_cases h with ⟨-, rfl, he⟩ | ⟨-, q, hexec, rfl⟩
  · refine ⟨Or.inr rfl, fun q hq => ?_⟩
    subst hq
    cases region <;> cases pc <;> simp_all [Region.marked, afterError]
  · cases region
    all_goals
      simp only [Region.marked, List.mem_cons, List.not_mem_nil, or_false] at hpc
      rcases hpc with rfl | rfl | rfl | rfl | rfl | rfl
      all_goals
        simp only [SafeFile.exec, Option.ite_none_right_eq_some, Option.some.injEq,
          Prod.mk.injEq] at hexec
        first
          | obtain ⟨rfl, rfl⟩ := hexec
          | obtain ⟨-, rfl, rfl⟩ := hexec
        split_ifs <;> simp_all [Pc.inFunction, Region.marked, Region.mark, values]

/-- A function returns after a statement, or goes on with the next one. -/
lemma callFailing_cases {fails : Pc → Bool} {found : Pc → SafeFile} {n : ℕ} {pc : Pc}
    {res : Result} (h : callFailing fails found (n + 1) pc = some res) :
    ∃ f' next, execFailing fails (found pc) pc = some (f', next) ∧
      ((∃ status, next = .ret status ∧
        res = ⟨status, callFails fails pc, values f' - values (found pc)⟩) ∨
      ∃ q res', next = .goto q ∧ callFailing fails found n q = some res' ∧
        res = ⟨res'.status, callFails fails pc || res'.failed,
          values f' - values (found pc) + res'.change⟩) := by
  simp only [callFailing, Option.bind_eq_some_iff] at h
  obtain ⟨⟨f', next⟩, hexec, h⟩ := h
  refine ⟨f', next, hexec, ?_⟩
  cases next with
  | ret status => exact Or.inl ⟨status, rfl, (Option.some.inj h).symm⟩
  | goto q =>
    obtain ⟨res', hres', rfl⟩ := Option.map_eq_some_iff.mp h
    exact Or.inr ⟨q, res', rfl, hres', rfl⟩

lemma mark_run {fails : Pc → Bool} {found : Pc → SafeFile} {n : ℕ} {pc : Pc} {res : Result}
    (region : Region) (hpc : pc ∈ region.marked)
    (h : callFailing fails found n pc = some res) (hstatus : res.status = -1) :
    res.change region.mark = 0 := by
  induction n generalizing pc res with
  | zero => cases h
  | succ n ih =>
    obtain ⟨f', next, hexec, hnext⟩ := callFailing_cases h
    obtain ⟨hmark, hgoto⟩ := mark_step region hpc hexec
    rcases hnext with ⟨status, rfl, rfl⟩ | ⟨q, res', rfl, hres', rfl⟩
    · have hne : status ≠ 0 := by
        rintro rfl
        cases hstatus
      have hsame := hmark.resolve_left fun hret => hne (by cases hret; rfl)
      simp [hsame]
    · have hsame := hmark.resolve_left (by simp)
      have hrest := ih (hgoto q rfl) hres' hstatus
      simp [hsame, hrest]

/-- A statement makes its own semaphore call, if any, and leaves those behind it. -/
lemma callsFrom_exec {found : Pc → SafeFile} {f' : SafeFile} {pc q : Pc}
    (h : (found pc).exec pc = some (f', q)) :
    callsFrom found pc = (if (afterError pc).isSome then [pc] else []) ++
      if q.inFunction then callsFrom found q else [] := by
  cases pc
  all_goals
    simp only [SafeFile.exec, Option.ite_none_right_eq_some, Option.some.injEq,
      Prod.mk.injEq, reduceCtorEq] at h
  all_goals
    first
      | obtain ⟨rfl, rfl⟩ := h
      | obtain ⟨-, rfl, rfl⟩ := h
    try split_ifs
    all_goals simp_all [callsFrom, conditional, afterError, Pc.inFunction]

lemma mem_callsFrom {found : Pc → SafeFile} {pc : Pc} (h : (afterError pc).isSome = true) :
    pc ∈ callsFrom found pc := by
  cases pc <;> simp_all [afterError, callsFrom]

/-- A call has failed in the function just when one of those it would make fails. -/
lemma failed_iff {fails : Pc → Bool} {found : Pc → SafeFile} {n : ℕ} {pc : Pc} {res : Result}
    (h : callFailing fails found n pc = some res) :
    res.failed = true ↔ ∃ p, p ∈ callsFrom found pc ∧ fails p = true := by
  induction n generalizing pc res with
  | zero => cases h
  | succ n ih =>
    obtain ⟨f', next, hexec, hnext⟩ := callFailing_cases h
    rcases execFailing_cases hexec with ⟨hfail, -, -⟩ | ⟨hfail, q, he, rfl⟩
    · have hcall := hfail
      rw [callFails, Bool.and_eq_true] at hcall
      refine iff_of_true ?_ ⟨pc, mem_callsFrom hcall.2, hcall.1⟩
      rcases hnext with ⟨status, rfl, rfl⟩ | ⟨q, res', rfl, hres', rfl⟩ <;> simp [hfail]
    · have hown : ¬ ∃ p, p ∈ (if (afterError pc).isSome then [pc] else []) ∧ fails p = true := by
        rw [callFails] at hfail
        split_ifs with hcall <;> simp_all
      have hcalls : (∃ p, p ∈ callsFrom found pc ∧ fails p = true) ↔
          ∃ p, p ∈ (if q.inFunction then callsFrom found q else []) ∧ fails p = true := by
        rw [callsFrom_exec he]
        simp only [List.mem_append, or_and_right, exists_or]
        exact or_iff_right hown
      rw [hcalls]
      by_cases hin : q.inFunction = true
      · rw [if_pos hin] at hnext ⊢
        rcases hnext with ⟨status, hret, -⟩ | ⟨q', res', hgoto, hres', rfl⟩
        · cases hret
        · cases hgoto
          have hrest := ih hres'
          simpa [hfail] using hrest
      · rw [if_neg hin] at hnext ⊢
        rcases hnext with ⟨status, hret, rfl⟩ | ⟨q', res', hgoto, -⟩
        · simp [hfail]
        · cases hgoto

/-- A statement changes the marked cell and leads to those behind the change. -/
def Marks (region : Region) (f : SafeFile) (pc : Pc) : Prop :=
  ∀ f' q, f.exec pc = some (f', q) → q ∈ region.marked ∧ q.inFunction = true ∧
    values f' region.mark ≠ values f region.mark

/-- When the function returns `-1` after such a statement, the cell is changed. -/
lemma mark_changed_at {fails : Pc → Bool} {found : Pc → SafeFile} {n : ℕ} {pc : Pc}
    {res : Result} (region : Region) (hmarks : Marks region (found pc) pc)
    (hfail : callFails fails pc = false) (h : callFailing fails found (n + 1) pc = some res)
    (hstatus : res.status = -1) : res.change region.mark ≠ 0 := by
  obtain ⟨f', next, hexec, hnext⟩ := callFailing_cases h
  rcases execFailing_cases hexec with ⟨hfail', -, -⟩ | ⟨-, q, he, rfl⟩
  · rw [hfail] at hfail'
    cases hfail'
  · obtain ⟨hq, hin, hchange⟩ := hmarks f' q he
    rw [if_pos hin] at hnext
    rcases hnext with ⟨status, hret, -⟩ | ⟨q', res', hgoto, hres', rfl⟩
    · cases hret
    · cases hgoto
      have hrest := mark_run region hq hres' hstatus
      simp only [Pi.add_apply, Pi.sub_apply, hrest]
      omega

/-- The first statement of a function, or behind it the one that counts the writer. -/
def Region.marking : Region → Pc
  | .writerEnter => .wrCount
  | region => region.start

lemma marks_marking (region : Region) (f : SafeFile) : Marks region f region.marking := by
  intro f' q he
  cases region
  all_goals
    simp only [Region.marking, Region.start, SafeFile.exec, Option.ite_none_right_eq_some,
      Option.some.injEq, Prod.mk.injEq] at he
    first
      | obtain ⟨rfl, rfl⟩ := he
      | obtain ⟨hpos, rfl, rfl⟩ := he
    simp [Region.marked, Region.mark, values, Pc.inFunction]
  all_goals omega

/-- When the first call does not fail, a function that returns `-1` has not left the
file as it was. -/
lemma mark_changed {fails : Pc → Bool} {found : Pc → SafeFile} {n : ℕ} {res : Result}
    (region : Region) (hstart : fails region.start = false)
    (h : callFailing fails found (n + 2) region.start = some res) (hstatus : res.status = -1) :
    res.change region.mark ≠ 0 := by
  have hfail : callFails fails region.start = false := by rw [callFails, hstart, Bool.false_and]
  by_cases hregion : region = .writerEnter
  · subst hregion
    have hwriter : callFailing fails found (n + 2) .wrWaitWmutex = some res := h
    obtain ⟨f', next, hexec, hnext⟩ := callFailing_cases hwriter
    rcases execFailing_cases hexec with ⟨hfail', -, -⟩ | ⟨-, q, he, rfl⟩
    · exact absurd (hfail'.symm.trans hfail) (by simp)
    · simp only [SafeFile.exec, Option.ite_none_right_eq_some, Option.some.injEq,
        Prod.mk.injEq] at he
      obtain ⟨-, rfl, rfl⟩ := he
      rcases hnext with ⟨status, hret, -⟩ | ⟨q', res', hgoto, hres', rfl⟩
      · cases hret
      · cases hgoto
        have hrest := mark_changed_at .writerEnter (marks_marking .writerEnter _)
          (by simp [callFails, afterError, Region.marking]) hres' hstatus
        simpa [Region.mark, values] using hrest
  · have hmarking : region.marking = region.start := by
      cases region <;> first | rfl | exact absurd rfl hregion
    exact mark_changed_at region (hmarking ▸ marks_marking region _) hfail h hstatus

/-- The first call is made in any case, and when it fails nothing else is done. -/
lemma callFailing_start {fails : Pc → Bool} {found : Pc → SafeFile} (n : ℕ) (region : Region)
    (hstart : fails region.start = true) :
    callFailing fails found (n + 1) region.start = some ⟨-1, true, 0⟩ := by
  have herror : afterError region.start = some (.ret (-1)) := by cases region <;> rfl
  simp [callFailing, execFailing, callFails, hstart, herror]

/-- A function that returns has undone what it did before a call failed just when its
first call fails, or none of those behind it. -/
theorem undone_iff (fails : Pc → Bool) (found : Pc → SafeFile) (region : Region) (res : Result)
    (h : callFailing fails found regionStatements region.start = some res) :
    Undone res ↔ fails region.start = true ∨
      ∀ p, p ∈ region.laterCalls found → fails p = false := by
  cases hstart : fails region.start with
  | true =>
    rw [regionStatements, callFailing_start 7 region hstart, Option.some.injEq] at h
    subst h
    simp [Undone]
  | false =>
    have hcalls : callsFrom found region.start = region.start :: region.laterCalls found := by
      cases region <;> rfl
    have hfailed := failed_iff h
    have hchanged : res.status = -1 → res.change ≠ 0 := fun hstatus hzero =>
      mark_changed region hstart h hstatus (by rw [hzero]; rfl)
    have hundone : Undone res ↔ ¬ res.failed = true := by
      constructor
      · intro hu hf
        exact hchanged (hu hf).1 (hu hf).2
      · intro hf hf'
        exact absurd hf' hf
    rw [hundone, hfailed, hcalls]
    simp [hstart]

/-- The file of a reader that is alone, before and after its first call. -/
def aloneReader : Pc → SafeFile
  | .rdWaitReadTry => initSfile []
  | _ => { initSfile [] with readTry := 0 }

/-- In a new lock the wait for `rmutex` fails: `reader_enter_region` returns `-1` and
keeps `read_try`, so that no reader enters any more. -/
theorem readTry_kept : ∃ res,
    callFailing (fun pc => pc = .rdWaitRmutex) aloneReader regionStatements
      Region.readerEnter.start = some res ∧
    res.status = -1 ∧ res.change .readTry = -1 ∧ ¬ Undone res := by
  refine ⟨_, rfl, rfl, rfl, fun hundone => ?_⟩
  have hzero := congrFun (hundone rfl).2 .readTry
  exact absurd hzero (by decide)

/-- The first wait fails, and the lock is as it was. -/
theorem undone_first_wait : ∃ res,
    callFailing (fun _ => true) aloneReader regionStatements Region.readerEnter.start = some res ∧
    res.failed = true ∧ Undone res :=
  ⟨_, rfl, rfl, (undone_iff (fun _ => true) aloneReader .readerEnter _ rfl).mpr (Or.inl rfl)⟩

end SystemProgramming.FailingRegions
