import SystemProgramming.RequestLocks

/-!
# When a request gives its lock back

Entering a region and leaving it again restores the lock, whatever its state was.
So a request gives the lock back unless the child is ended inside the region, or
the handler has no defined end. How many writes a handler makes inside the region
is determined by what it reads.
-/
namespace SystemProgramming.RequestLocks
open SystemProgramming.Transition SystemProgramming.ReadersWriters SystemProgramming.LineReader
open SystemProgramming.Lightswitch
open SystemProgramming.LockTable (SafeDir getSfile addSfile)
open SystemProgramming.FileServer (errMsgLen approveQuestion SeekCounts seekLine_spec)

/-- The enter function of a region does not block. -/
def Admits (f : SafeFile) : Bool → Prop
  | false => 0 < f.readTry ∧ 0 < f.rmutex ∧ (f.readerCount = 0 → 0 < f.rsc)
  | true => 0 < f.wmutex ∧ (f.writerCount = 0 → 0 < f.readTry) ∧ 0 < f.rsc

/-- The lock while one process more is inside. -/
def entered (f : SafeFile) : Bool → SafeFile
  | false => { f with
      readerCount := f.readerCount + 1
      rsc := if f.readerCount = 0 then f.rsc - 1 else f.rsc }
  | true => { f with
      writerCount := f.writerCount + 1
      readTry := if f.writerCount = 0 then f.readTry - 1 else f.readTry
      rsc := f.rsc - 1 }

lemma entered_ne (f : SafeFile) (svWrite : Bool) : entered f svWrite ≠ f := by
  intro h
  cases svWrite with
  | false => simpa [entered] using congrArg SafeFile.readerCount h
  | true => simpa [entered] using congrArg SafeFile.writerCount h

lemma callRegion_next {n : ℕ} {f f' : SafeFile} {pc q : Pc} (h : f.exec pc = some (f', q))
    (hq : q.inFunction = true) : callRegion (n + 1) f pc = callRegion n f' q := by
  simp [callRegion, h, hq]

lemma callRegion_then {n : ℕ} {f f' : SafeFile} {pc a b : Pc} {c : Prop} [Decidable c]
    (h : f.exec pc = some (f', if c then a else b)) (hc : c) (ha : a.inFunction = true) :
    callRegion (n + 1) f pc = callRegion n f' a := by
  rw [if_pos hc] at h
  exact callRegion_next h ha

lemma callRegion_else {n : ℕ} {f f' : SafeFile} {pc a b : Pc} {c : Prop} [Decidable c]
    (h : f.exec pc = some (f', if c then a else b)) (hc : ¬ c) (hb : b.inFunction = true) :
    callRegion (n + 1) f pc = callRegion n f' b := by
  rw [if_neg hc] at h
  exact callRegion_next h hb

lemma callRegion_last {n : ℕ} {f f' : SafeFile} {pc q : Pc} (h : f.exec pc = some (f', q))
    (hq : q.inFunction = false) : callRegion (n + 1) f pc = some f' := by
  simp [callRegion, h, hq]

lemma callRegion_blocks {n : ℕ} {f : SafeFile} {pc : Pc} (h : f.exec pc = none) :
    callRegion (n + 1) f pc = none := by
  simp [callRegion, h]

lemma reader_enter {f : SafeFile} (h : Admits f false) :
    callRegion regionStatements f .rdWaitReadTry = some (entered f false) := by
  obtain ⟨htry, hmutex, hrsc⟩ := h
  refine Eq.trans (callRegion_next (if_pos htry) rfl) ?_
  refine Eq.trans (callRegion_next (if_pos hmutex) rfl) ?_
  refine Eq.trans (callRegion_next rfl rfl) ?_
  by_cases hcount : f.readerCount = 0
  · have htest : f.readerCount + 1 = 1 := by omega
    refine Eq.trans (callRegion_then rfl htest rfl) ?_
    refine Eq.trans (callRegion_next (if_pos (hrsc hcount)) rfl) ?_
    refine Eq.trans (callRegion_next rfl rfl) ?_
    refine Eq.trans (callRegion_last rfl rfl) ?_
    simp [entered, hcount, Nat.sub_add_cancel htry, Nat.sub_add_cancel hmutex]
  · have htest : f.readerCount + 1 ≠ 1 := by omega
    refine Eq.trans (callRegion_else rfl htest rfl) ?_
    refine Eq.trans (callRegion_next rfl rfl) ?_
    refine Eq.trans (callRegion_last rfl rfl) ?_
    simp [entered, hcount, Nat.sub_add_cancel htry, Nat.sub_add_cancel hmutex]

lemma reader_blocks {f : SafeFile} (h : ¬ Admits f false) :
    callRegion regionStatements f .rdWaitReadTry = none := by
  by_cases htry : 0 < f.readTry
  · refine Eq.trans (callRegion_next (if_pos htry) rfl) ?_
    by_cases hmutex : 0 < f.rmutex
    · obtain ⟨hcount, hrsc⟩ : f.readerCount = 0 ∧ f.rsc = 0 := by
        simpa [Admits, htry, hmutex] using h
      have htest : f.readerCount + 1 = 1 := by omega
      refine Eq.trans (callRegion_next (if_pos hmutex) rfl) ?_
      refine Eq.trans (callRegion_next rfl rfl) ?_
      refine Eq.trans (callRegion_then rfl htest rfl) ?_
      exact callRegion_blocks (if_neg (by simp [hrsc]))
    · exact callRegion_blocks (if_neg hmutex)
  · exact callRegion_blocks (if_neg htry)

lemma reader_exit {f : SafeFile} (h : Admits f false) :
    callRegion regionStatements (entered f false) .reading = some f := by
  obtain ⟨-, hmutex, hrsc⟩ := h
  refine Eq.trans (callRegion_next rfl rfl) ?_
  refine Eq.trans (callRegion_next (if_pos hmutex) rfl) ?_
  refine Eq.trans (callRegion_next rfl rfl) ?_
  have hback : f.readerCount + 1 - 1 = f.readerCount := by omega
  by_cases hcount : f.readerCount = 0
  · have htest : f.readerCount + 1 - 1 = 0 := by omega
    refine Eq.trans (callRegion_then rfl htest rfl) ?_
    refine Eq.trans (callRegion_next rfl rfl) ?_
    refine Eq.trans (callRegion_last rfl rfl) ?_
    simp only [entered, hback, if_pos hcount, Nat.sub_add_cancel (hrsc hcount),
      Nat.sub_add_cancel hmutex]
  · have htest : f.readerCount + 1 - 1 ≠ 0 := by omega
    refine Eq.trans (callRegion_else rfl htest rfl) ?_
    refine Eq.trans (callRegion_last rfl rfl) ?_
    simp only [entered, hback, if_neg hcount, Nat.sub_add_cancel hmutex]

lemma writer_enter {f : SafeFile} (h : Admits f true) :
    callRegion regionStatements f .wrWaitWmutex = some (entered f true) := by
  obtain ⟨hmutex, htry, hrsc⟩ := h
  refine Eq.trans (callRegion_next (if_pos hmutex) rfl) ?_
  refine Eq.trans (callRegion_next rfl rfl) ?_
  by_cases hcount : f.writerCount = 0
  · have htest : f.writerCount + 1 = 1 := by omega
    refine Eq.trans (callRegion_then rfl htest rfl) ?_
    refine Eq.trans (callRegion_next (if_pos (htry hcount)) rfl) ?_
    refine Eq.trans (callRegion_next rfl rfl) ?_
    refine Eq.trans (callRegion_last (if_pos hrsc) rfl) ?_
    simp only [entered, if_pos hcount, Nat.sub_add_cancel hmutex]
  · have htest : f.writerCount + 1 ≠ 1 := by omega
    refine Eq.trans (callRegion_else rfl htest rfl) ?_
    refine Eq.trans (callRegion_next rfl rfl) ?_
    refine Eq.trans (callRegion_last (if_pos hrsc) rfl) ?_
    simp only [entered, if_neg hcount, Nat.sub_add_cancel hmutex]

lemma writer_blocks {f : SafeFile} (h : ¬ Admits f true) :
    callRegion regionStatements f .wrWaitWmutex = none := by
  by_cases hmutex : 0 < f.wmutex
  · refine Eq.trans (callRegion_next (if_pos hmutex) rfl) ?_
    refine Eq.trans (callRegion_next rfl rfl) ?_
    by_cases hcount : f.writerCount = 0
    · have htest : f.writerCount + 1 = 1 := by omega
      refine Eq.trans (callRegion_then rfl htest rfl) ?_
      by_cases htry : 0 < f.readTry
      · have hrsc : f.rsc = 0 := by simpa [Admits, htry, hmutex] using h
        refine Eq.trans (callRegion_next (if_pos htry) rfl) ?_
        refine Eq.trans (callRegion_next rfl rfl) ?_
        exact callRegion_blocks (if_neg (by simp [hrsc]))
      · exact callRegion_blocks (if_neg htry)
    · have htest : f.writerCount + 1 ≠ 1 := by omega
      have hrsc : f.rsc = 0 := by simpa [Admits, hcount, hmutex] using h
      refine Eq.trans (callRegion_else rfl htest rfl) ?_
      refine Eq.trans (callRegion_next rfl rfl) ?_
      exact callRegion_blocks (if_neg (by simp [hrsc]))
  · exact callRegion_blocks (if_neg hmutex)

lemma writer_exit {f : SafeFile} (h : Admits f true) :
    callRegion regionStatements (entered f true) .writing = some f := by
  obtain ⟨hmutex, htry, hrsc⟩ := h
  refine Eq.trans (callRegion_next rfl rfl) ?_
  refine Eq.trans (callRegion_next rfl rfl) ?_
  refine Eq.trans (callRegion_next (if_pos hmutex) rfl) ?_
  refine Eq.trans (callRegion_next rfl rfl) ?_
  have hback : f.writerCount + 1 - 1 = f.writerCount := by omega
  by_cases hcount : f.writerCount = 0
  · have htest : f.writerCount + 1 - 1 = 0 := by omega
    refine Eq.trans (callRegion_then rfl htest rfl) ?_
    refine Eq.trans (callRegion_next rfl rfl) ?_
    refine Eq.trans (callRegion_last rfl rfl) ?_
    simp only [entered, hback, if_pos hcount, Nat.sub_add_cancel (htry hcount),
      Nat.sub_add_cancel hmutex, Nat.sub_add_cancel hrsc]
  · have htest : f.writerCount + 1 - 1 ≠ 0 := by omega
    refine Eq.trans (callRegion_else rfl htest rfl) ?_
    refine Eq.trans (callRegion_last rfl rfl) ?_
    simp only [entered, hback, if_neg hcount, Nat.sub_add_cancel hmutex, Nat.sub_add_cancel hrsc]

lemma enterRegion_eq {sdir : SafeDir} {k : ℕ} {f : SafeFile} (hf : sdir.files[k]? = some f)
    (svWrite : Bool) :
    Admits f svWrite ∧ enterRegion sdir k svWrite =
        some { sdir with files := sdir.files.set k (entered f svWrite) } ∨
      ¬ Admits f svWrite ∧ enterRegion sdir k svWrite = none := by
  by_cases h : Admits f svWrite
  · refine Or.inl ⟨h, ?_⟩
    cases svWrite with
    | false => simp [enterRegion, callEntry, hf, reader_enter h]
    | true => simp [enterRegion, callEntry, hf, writer_enter h]
  · refine Or.inr ⟨h, ?_⟩
    cases svWrite with
    | false => simp [enterRegion, callEntry, hf, reader_blocks h]
    | true => simp [enterRegion, callEntry, hf, writer_blocks h]

lemma exitRegion_eq {sdir : SafeDir} {k : ℕ} {f : SafeFile} {svWrite : Bool}
    (hf : sdir.files[k]? = some f) (h : Admits f svWrite) :
    exitRegion { sdir with files := sdir.files.set k (entered f svWrite) } k svWrite =
      some sdir := by
  obtain ⟨hk, rfl⟩ := List.getElem?_eq_some_iff.mp hf
  cases svWrite with
  | false => simp [exitRegion, callEntry, hk, reader_exit h]
  | true => simp [exitRegion, callEntry, hk, writer_exit h]

/-- A region function that runs through is one run of the interleaved statements, in
which the other processes stand still. -/
theorem callRegion_reach {ι : Type*} [DecidableEq ι] {n : ℕ} {f f' : SafeFile} {pc : ι → Pc}
    {i : ι} (h : callRegion n f (pc i) = some f') :
    ∃ q, q.inFunction = false ∧ Reach step always ⟨f, pc⟩ ⟨f', Function.update pc i q⟩ := by
  induction n generalizing f pc with
  | zero => cases h
  | succ n ih =>
    simp only [callRegion, Option.bind_eq_some_iff] at h
    obtain ⟨⟨g, q⟩, hexec, hrest⟩ := h
    have hstep : step ⟨f, pc⟩ (.exec i) = some ⟨g, Function.update pc i q⟩ := by
      simp [step, hexec]
    have hfirst : Reach step always ⟨f, pc⟩ ⟨g, Function.update pc i q⟩ :=
      Reach.start.next trivial hstep
    cases hq : q.inFunction with
    | false =>
      simp only [hq, Bool.false_eq_true, if_false, Option.some.injEq] at hrest
      subst hrest
      exact ⟨q, hq, hfirst⟩
    | true =>
      simp only [hq, if_true] at hrest
      rw [← Function.update_self i q pc] at hrest
      obtain ⟨q', hq', hreach⟩ := ih hrest
      rw [Function.update_idem] at hreach
      exact ⟨q', hq', hfirst.trans hreach⟩

/-- The lock of a file, which is a new one when the table has none. -/
def lockOf (sdir : SafeDir) (name : Text) : SafeFile :=
  ((getSfile sdir name).bind fun k => sdir.files[k]?).getD (initSfile name)

/-- A lock that nobody uses lets everybody in. -/
theorem idle_admits {ι : Type*} [Fintype ι] [DecidableEq ι] {fname : List Char}
    {s : ReadersWriters.State ι} (hr : ReadersWriters.Reachable fname s)
    (hidle : ∀ i, s.pc i = .idle) (svWrite : Bool) : Admits s.file svWrite := by
  obtain ⟨rheld, wheld, hinv⟩ := reachable_inv hr
  have hphase : ∀ i, (s.pc i).readerPhase = .out ∧ (s.pc i).writerPhase = .out := by
    intro i
    rw [hidle i]
    exact ⟨rfl, rfl⟩
  have hrmutex : s.file.rmutex + census Phase.critical (fun i => (s.pc i).readerPhase) = 1 :=
    hinv.readers.mutex_eq
  have hwmutex : s.file.wmutex + census Phase.critical (fun i => (s.pc i).writerPhase) = 1 :=
    hinv.writers.mutex_eq
  have hrsc := hinv.rsc_eq
  have htry := hinv.readTry_eq
  rw [census_eq_zero fun i => by simp [hphase i, Phase.critical], Nat.add_zero] at hrmutex hwmutex
  rw [census_eq_zero fun i => by simp [hidle i, Pc.ownsRsc]] at hrsc
  rw [census_eq_zero fun i => by simp [hidle i, Pc.ownsReadTry]] at htry
  have hrcount : s.file.readerCount = (0 : ℕ) :=
    hinv.readers.count_eq.trans (congrArg _ (census_eq_zero fun i => by
      simp [hphase i, Phase.present]))
  have hwcount : s.file.writerCount = (0 : ℕ) :=
    hinv.writers.count_eq.trans (congrArg _ (census_eq_zero fun i => by
      simp [hphase i, Phase.present]))
  have hrheld : rheld = if 1 ≤ s.file.readerCount then 1 else 0 := hinv.readers.held_free hrmutex
  have hwheld : wheld = if 1 ≤ s.file.writerCount then 1 else 0 := hinv.writers.held_free hwmutex
  rw [if_neg (by omega)] at hrheld hwheld
  cases svWrite with
  | false => exact ⟨by omega, by omega, fun _ => by omega⟩
  | true => exact ⟨by omega, fun _ => by omega, by omega⟩

/-- In the running server, a file that no other child server uses lets everybody in,
whether the table has an entry for it or gets one. -/
theorem unused_admits {ι : Type*} [Fintype ι] [DecidableEq ι] {names : List Text}
    {sdir : SafeDir} {s : LockTable.State ι}
    (hinit : LockTable.initSdir names ⟨[], LockTable.numOfDirFile⟩ = some sdir)
    (hr : Reach LockTable.step always (LockTable.init ι sdir) s) {name : Text}
    (hunused : ∀ i k pc, s.proc i ≠ .region k name pc) (svWrite : Bool) :
    Admits (lockOf s.sdir name) svWrite := by
  have hinv : LockTable.Inv s :=
    hr.invariant (LockTable.inv_init hinit) fun _ _ _ hinv _ hstep => hinv.step hstep
  unfold lockOf
  cases hget : getSfile s.sdir name with
  | none => cases svWrite <;> simp [Admits, initSfile]
  | some k =>
    obtain ⟨f, hf, rfl⟩ := LockTable.getElem?_of_getSfile hget
    have hidle : ∀ i, (s.entry k f).pc i = .idle := by
      intro i
      refine LockTable.pcAt_of_ne fun name pc hi => ?_
      obtain ⟨g, hg, rfl⟩ := hinv.named i k name pc hi
      rw [hf] at hg
      cases hg
      exact hunused i k pc hi
    have hadmits : Admits f svWrite := idle_admits (hinv.entries k f hf) hidle svWrite
    simpa [hf] using hadmits

/-- The lock of the file is as it was before the request; an entry that was added for
the request is unused. -/
def Restored (name : Text) (before after : SafeDir) : Prop :=
  after = before ∨ getSfile before name = none ∧
    after = { before with files := before.files ++ [initSfile name] }

/-- If the child gets done with the request, the lock is as before. -/
def Returns (name : Text) (sdir : SafeDir) : Outcome → Prop
  | .undefined => False
  | .blocked => True
  | .ended _ after => Restored name sdir after

/-- The request has ended with what it had to do inside a region. -/
def Unharmed (body : Option End) : Prop := ∃ status, body = some (.returned status)

lemma returns_andThen {name : Text} {sdir : SafeDir} (o : Outcome) (f : ℤ → End) :
    Returns name sdir (o.andThen f) ↔ Returns name sdir o := by
  rcases o with _ | _ | ⟨⟨status⟩ | _, after⟩ <;> rfl

/-- The child enters the region and gets out again, unless it is ended there. -/
lemma inRegion_returns {name : Text} {sdir sdir' : SafeDir} {k : ℕ} {f : SafeFile}
    (hf : sdir'.files[k]? = some f) (hold : Restored name sdir sdir')
    (hnew : ∀ g, g ≠ f → ¬ Restored name sdir { sdir' with files := sdir'.files.set k g })
    (svWrite : Bool) (body : Option End) :
    Returns name sdir (inRegion sdir' k svWrite body) ↔ (Admits f svWrite → Unharmed body) := by
  unfold inRegion Unharmed
  rcases enterRegion_eq hf svWrite with ⟨hadmits, henter⟩ | ⟨hblocks, henter⟩ <;> rw [henter]
  · rcases body with _ | ⟨status⟩ | _
    · simp [Returns, hadmits]
    · simp only [exitRegion_eq hf hadmits, Returns]
      exact iff_of_true hold fun _ => ⟨status, rfl⟩
    · simpa [Returns, hadmits] using hnew _ (entered_ne f svWrite)
  · exact iff_of_true trivial fun h => absurd h hblocks

/-- The entry of a file can be found or added. -/
def Findable (c : Calls) (sdir : SafeDir) (name : Text) : Prop :=
  (getSfile sdir name).isSome = true ∨ (addSfile sdir name c.semInit).isSome = true

/-- The request comes to its region and is let in. -/
def Enters (c : Calls) (sdir : SafeDir) (name : Text) (svWrite : Bool) : Prop :=
  Findable c sdir name ∧ Admits (lockOf sdir name) svWrite

lemma withSfile_returns (c : Calls) (sdir : SafeDir) (name : Text) (svWrite : Bool)
    (body : Option End) :
    Returns name sdir (withSfile c sdir name svWrite body) ↔
      (Enters c sdir name svWrite → Unharmed body) := by
  unfold withSfile findSfile Enters Findable lockOf
  cases hget : getSfile sdir name with
  | some k =>
    obtain ⟨f, hf, -⟩ := LockTable.getElem?_of_getSfile hget
    have hnew : ∀ g, g ≠ f →
        ¬ Restored name sdir { sdir with files := sdir.files.set k g } := by
      rintro g hg (hsame | ⟨hnone, -⟩)
      · have hentry := congrArg (fun d : SafeDir => d.files[k]?) hsame
        have hk : k < sdir.files.length := (List.getElem?_eq_some_iff.mp hf).1
        rw [hf] at hentry
        exact hg (by simpa [hk] using hentry)
      · rw [hget] at hnone
        cases hnone
    simpa [hf] using inRegion_returns hf (Or.inl rfl) hnew svWrite body
  | none =>
    cases hadd : addSfile sdir name c.semInit with
    | none => simp [Returns, Restored]
    | some r =>
      obtain ⟨sdir', k⟩ := r
      obtain ⟨-, -, rfl, rfl⟩ := LockTable.addSfile_eq_some hadd
      have hnew : ∀ g, g ≠ initSfile name → ¬ Restored name sdir { sdir with
          files := (sdir.files ++ [initSfile name]).set sdir.files.length g } := by
        rintro g hg (hsame | ⟨-, hsame⟩)
        · have hlength := congrArg (fun d : SafeDir => d.files.length) hsame
          simp at hlength
        · have hentry := congrArg (fun d : SafeDir => d.files[sdir.files.length]?) hsame
          exact hg (by simpa using hentry)
      simpa [hadd] using inRegion_returns (by simp) (Or.inr ⟨hget, rfl⟩) hnew svWrite body

@[simp] lemma unharmed_some {e : End} : Unharmed (some e) ↔ e ≠ .killed := by
  cases e <;> simp [Unharmed]

@[simp] lemma not_unharmed_none : ¬ Unharmed none := by
  simp [Unharmed]

lemma writeAll_add (answer : ℕ → WriteAnswer) (i m n : ℕ) :
    writeAll answer i (m + n) = match writeAll answer i m with
      | .whole => writeAll answer (i + m) n
      | a => a := by
  induction m generalizing i with
  | zero => simp [writeAll]
  | succ m ih =>
    rw [Nat.succ_add_eq_add_succ, Nat.add_succ, writeAll, writeAll, ih (i + 1),
      Nat.add_assoc i 1 m, Nat.add_comm 1 m]
    cases answer i <;> rfl

lemma writeResponse_eq_killed {answer : ℕ → WriteAnswer} {i : ℕ} :
    writeResponse answer i = .killed ↔ writeAll answer i 2 = .killed := by
  unfold writeResponse
  cases writeAll answer i 2 <;> simp

/-- The messages `cmd_readF` sends for a whole file when no write goes wrong. -/
def messages (size : ℕ) : List (Option ℕ) → ℤ → ℕ
  | [], _ => 0
  | r :: reads, numRead =>
    if (numRead + dataSize r).bmod (2 ^ 32) < size then
      messages size reads ((numRead + dataSize r).bmod (2 ^ 32)) + 1
    else 1

lemma readWhole_eq_killed (c : Calls) (size : ℕ) (reads : List (Option ℕ)) (numRead : ℤ) (i : ℕ) :
    readWhole c size reads numRead i = .killed ↔
      writeAll c.fifo i (2 * messages size reads numRead) = .killed := by
  induction reads generalizing numRead i with
  | nil => simp [readWhole, messages, writeAll]
  | cons r reads ih =>
    simp only [readWhole, messages, writeResponse]
    split_ifs with hcont
    · rw [Nat.mul_succ, Nat.add_comm (2 * _) 2, writeAll_add]
      cases writeAll c.fifo i 2 <;> simp [ih]
    · rw [Nat.mul_one]
      cases writeAll c.fifo i 2 <;> simp

/-- The pieces `copy_file` writes when no write goes wrong. -/
def pieces (reads : List (Option ℕ)) : ℕ := (reads.takeWhile Option.isSome).length

lemma copyLoop_eq_killed (c : Calls) (reads : List (Option ℕ)) (i : ℕ) :
    copyLoop c reads i = .killed ↔ writeAll c.file i (pieces reads) = .killed := by
  induction reads generalizing i with
  | nil => simp [copyLoop, pieces, writeAll]
  | cons r reads ih =>
    cases r with
    | none => simp [copyLoop, pieces, writeAll]
    | some n =>
      simp only [copyLoop, pieces, List.takeWhile_cons, Option.isSome_some, if_true,
        List.length_cons, writeAll]
      cases c.file i <;> simp [ih, pieces]

/-- One line is read without an overrun and sent without a signal. -/
def LineUnharmed (c : Calls) (f : File) (lineNo : ℕ) : Prop :=
  SeekCounts f lineNo ∧ ∀ rest, fromLine (lineNo - 1) f.content = some rest →
    ¬ Overruns c.realloc rest ∧
      (Readable c.realloc f.readError rest → writeAll c.fifo 0 2 ≠ .killed)

lemma readLine_unharmed (c : Calls) (f : File) {lineNo : ℕ} (hpos : 0 < lineNo) :
    Unharmed (readLine c f lineNo) ↔ LineUnharmed c f lineNo := by
  unfold readLine LineUnharmed
  rcases seekLine_spec f lineNo hpos with
    ⟨hno, heq⟩ | ⟨hcount, ⟨pos, rest, hrest, heq⟩ | ⟨hrest, msg, heq⟩⟩
  · simp [heq, hno]
  · rcases readNextLine_spec c.realloc f.readError rest with
      ⟨hover, hline⟩ | ⟨hover, hread, hline⟩ | ⟨hover, hread, hline⟩
    · simp [heq, hline, hrest, hover]
    · simp [heq, hline, hcount, hrest, hover, hread, writeResponse_eq_killed]
    · simp [heq, hline, hcount, hrest, hover, hread]
  · simp [heq, hcount, hrest]

/-- The string is written without a signal, and so is the answer. -/
def StringUnharmed (c : Calls) : Prop :=
  c.file 0 ≠ .killed ∧ (c.file 0 ≠ .failed → writeAll c.fifo 0 2 ≠ .killed)

lemma writeString_unharmed (c : Calls) : writeString c ≠ .killed ↔ StringUnharmed c := by
  unfold writeString StringUnharmed writeResponse
  cases c.file 0 <;> cases writeAll c.fifo 0 2 <;> simp

/-- The handler copies: both files are opened, with the client's approval where the
destination exists. -/
def Copies (c : Calls) : Prop :=
  c.createNew = true ∨
    writeAll c.fifo 0 2 = .whole ∧ c.overwrite = some true ∧ c.truncate = true

/-- The question fits its buffer, and no signal ends the child while it copies. -/
def CopyUnharmed (c : Calls) (sdir : SafeDir) (srcFile : Text) (svWrite : Bool) : Prop :=
  (c.createNew = true ∨ (approveQuestion srcFile).length < errMsgLen) ∧
    (Copies c → Enters c sdir srcFile svWrite → writeAll c.file 0 (pieces c.reads) ≠ .killed)

/-- The condition under which a request gives its lock back: the handler has a defined
end, and if the child enters the region, no call of `write` there raises a signal. -/
def LockKept (c : Calls) (sdir : SafeDir) : Request → Prop
  | .readF srcFile lineNo => ∀ f, c.openFile = some f → c.fstat = true →
      Enters c sdir srcFile false →
        if 0 < lineNo then LineUnharmed c f lineNo.toNat
        else writeAll c.fifo 0 (2 * messages f.size c.reads 0) ≠ .killed
  | .writeT srcFile lineNo => ∀ f, c.openFile = some f → Enters c sdir srcFile true →
      if 0 < lineNo then SeekCounts f lineNo.toNat ∧
        ((fromLine (lineNo.toNat - 1) f.content).isSome = true → StringUnharmed c)
      else StringUnharmed c
  | .upload srcFile => c.openFile.isSome = true → CopyUnharmed c sdir srcFile true
  | .download srcFile => c.openFile.isSome = true → CopyUnharmed c sdir srcFile false

lemma returns_ended {name : Text} {sdir : SafeDir} {e : End} :
    Returns name sdir (.ended e sdir) := Or.inl rfl

lemma copyOpened_returns (c : Calls) (sdir : SafeDir) (srcFile : Text) (svWrite : Bool) (i : ℕ) :
    Returns srcFile sdir (copyOpened c sdir srcFile svWrite i) ↔
      (Enters c sdir srcFile svWrite → writeAll c.file 0 (pieces c.reads) ≠ .killed) := by
  rw [copyOpened, returns_andThen, withSfile_returns, unharmed_some, Ne, copyLoop_eq_killed]

lemma cmdCopy_returns (c : Calls) (sdir : SafeDir) (srcFile : Text) (svWrite : Bool) :
    Returns srcFile sdir (cmdCopy c sdir srcFile svWrite) ↔
      (c.openFile.isSome = true → CopyUnharmed c sdir srcFile svWrite) := by
  unfold cmdCopy CopyUnharmed Copies
  cases c.openFile with
  | none => simpa using returns_ended
  | some f =>
    simp only [Option.isSome_some, true_implies]
    cases hnew : c.createNew with
    | true => simp [copyOpened_returns]
    | false =>
      by_cases hlong : errMsgLen ≤ (approveQuestion srcFile).length
      · simp [Returns, hlong]
      · have hfits : (approveQuestion srcFile).length < errMsgLen := by omega
        simp only [Bool.false_eq_true, if_false, if_neg hlong, hfits, or_true, true_and, false_or,
          writeResponse]
        cases writeAll c.fifo 0 2 with
        | whole =>
          cases c.overwrite with
          | none => simpa using returns_ended
          | some overwrite =>
            cases overwrite with
            | false => simpa using returns_ended
            | true =>
              cases c.truncate with
              | false => simpa using returns_ended
              | true => simp [copyOpened_returns]
        | _ => simpa using returns_ended

/-- A request gives its lock back if and only if its handler has a defined end and no
signal ends the child while it is inside the region: for every table of locks, every
request and every answer of the system calls. -/
theorem lock_returned_iff (c : Calls) (sdir : SafeDir) (r : Request) :
    Returns r.srcFile sdir (serverRequest c sdir r) ↔ LockKept c sdir r := by
  rw [serverRequest, returns_andThen]
  cases r with
  | readF srcFile lineNo =>
    simp only [handle, cmdReadF, LockKept, Request.srcFile]
    cases c.openFile with
    | none => simpa using returns_ended
    | some f =>
      cases hstat : c.fstat with
      | false => simpa using returns_ended
      | true =>
        simp only [Bool.true_eq_false, if_false, withSfile_returns, Option.some.injEq,
          forall_eq', true_implies]
        refine imp_congr_right fun _ => ?_
        by_cases hpos : 0 < lineNo
        · rw [if_pos hpos, if_pos hpos]
          exact readLine_unharmed c f (by omega)
        · rw [if_neg hpos, if_neg hpos, unharmed_some, Ne, readWhole_eq_killed]
  | writeT srcFile lineNo =>
    simp only [handle, cmdWriteT, LockKept, Request.srcFile]
    cases c.openFile with
    | none => simpa using returns_ended
    | some f =>
      simp only [withSfile_returns, Option.some.injEq, forall_eq']
      refine imp_congr_right fun _ => ?_
      by_cases hpos : 0 < lineNo
      · rw [if_pos hpos, if_pos hpos]
        rcases seekLine_spec f lineNo.toNat (by omega) with
          ⟨hno, heq⟩ | ⟨hcount, ⟨pos, rest, hrest, heq⟩ | ⟨hrest, msg, heq⟩⟩
        · simp [heq, hno]
        · simp [heq, hcount, hrest, writeString_unharmed]
        · simp [heq, hcount, hrest]
      · rw [if_neg hpos, if_neg hpos, unharmed_some, writeString_unharmed]
  | upload srcFile => exact cmdCopy_returns c sdir srcFile true
  | download srcFile => exact cmdCopy_returns c sdir srcFile false

/-- The client has closed its FIFO when `cmd_readF` sends the first piece: `SIGPIPE`
ends the child inside the reader region, and every later writer of the file blocks. -/
theorem killed_reader_keeps_lock : ∃ c : Calls, c.fifo 0 = .killed ∧
    serverRequest c ⟨[initSfile ['f']], 128⟩ (.readF ['f'] (-1)) =
      .ended .killed ⟨[⟨['f'], 1, 0, 1, 1, 1, 0⟩], 128⟩ ∧
    ¬ Returns ['f'] ⟨[initSfile ['f']], 128⟩
      (serverRequest c ⟨[initSfile ['f']], 128⟩ (.readF ['f'] (-1))) ∧
    ∀ c' f, c'.openFile = some f →
      serverRequest c' ⟨[⟨['f'], 1, 0, 1, 1, 1, 0⟩], 128⟩ (.writeT ['f'] (-1)) = .blocked := by
  let file : File := ⟨2, [['h', 'i']], false, by simp [buffSize], by decide, fun _ => by decide⟩
  refine ⟨⟨some file, true, true, [some 2], fun _ => true, false, none, false, fun _ => .killed,
    fun _ => .whole, fun _ => .whole, 0⟩, rfl, rfl, ?_, ?_⟩
  · rintro (hsame | ⟨hnone, -⟩)
    · exact absurd hsame (by decide)
    · exact absurd hnone (by decide)
  · intro c' f hf
    simp only [serverRequest, handle, cmdWriteT, hf]
    rfl

end SystemProgramming.RequestLocks
