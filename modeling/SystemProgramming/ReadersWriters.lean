import SystemProgramming.Lightswitch

/-!
# The readers-writers lock of a server file

`SafeFile` is the shared record of one file: two counters and four semaphores.
The four region functions are given statement by statement: a program counter
names the next statement, and `SafeFile.exec` is its effect, with no result
while a `sem_wait` blocks. Any finite number of processes interleaves these
statements. Both counters follow the lightswitch pattern: readers share `rsc`
under `rmutex`, writers share `readTry` under `wmutex`.
-/
namespace SystemProgramming.ReadersWriters
open SystemProgramming.Transition SystemProgramming.Lightswitch

structure SafeFile where
  fname : List Char
  readerCount : ℤ
  writerCount : ℤ
  readTry : ℕ
  rmutex : ℕ
  wmutex : ℕ
  rsc : ℕ
  deriving DecidableEq, Repr

/-- `FNAME_LEN`, the bytes of the array `fname`. -/
def fnameLen : ℕ := 128

/-- All four semaphores start at one and both counters at zero. What `strcpy` writes behind
`fname` is overwritten by them, so that a longer name keeps its first part. -/
def initSfile (fname : List Char) : SafeFile := ⟨fname.take fnameLen, 0, 0, 1, 1, 1, 1⟩

lemma initSfile_fname {fname : List Char} (h : fname.length < fnameLen) :
    (initSfile fname).fname = fname :=
  List.take_of_length_le h.le

/-- A name that is stored is not cut any more. -/
lemma initSfile_initSfile (fname : List Char) :
    initSfile (initSfile fname).fname = initSfile fname := by
  simp only [initSfile, List.take_take, min_self]

/-- The next statement of a process. `rd` and `rx` are the statements of
`reader_enter_region` and `reader_exit_region`, `wr` and `wx` those of
`writer_enter_region` and `writer_exit_region`. -/
inductive Pc where
  | idle
  | rdWaitReadTry
  | rdWaitRmutex
  | rdCount
  | rdTest
  | rdWaitRsc
  | rdPostRmutex
  | rdPostReadTry
  | reading
  | rxWaitRmutex
  | rxCount
  | rxTest
  | rxPostRsc
  | rxPostRmutex
  | wrWaitWmutex
  | wrCount
  | wrTest
  | wrWaitReadTry
  | wrPostWmutex
  | wrWaitRsc
  | writing
  | wxPostRsc
  | wxWaitWmutex
  | wxCount
  | wxTest
  | wxPostReadTry
  | wxPostWmutex
  deriving DecidableEq, Repr

/-- Execute one statement. In `reading` and `writing` the process is inside its
region and the next thing it does is to call the exit function. -/
def SafeFile.exec (f : SafeFile) : Pc → Option (SafeFile × Pc)
  | .idle => none
  | .rdWaitReadTry =>
    if 0 < f.readTry then some ({ f with readTry := f.readTry - 1 }, .rdWaitRmutex) else none
  | .rdWaitRmutex =>
    if 0 < f.rmutex then some ({ f with rmutex := f.rmutex - 1 }, .rdCount) else none
  | .rdCount => some ({ f with readerCount := f.readerCount + 1 }, .rdTest)
  | .rdTest => some (f, if f.readerCount = 1 then .rdWaitRsc else .rdPostRmutex)
  | .rdWaitRsc => if 0 < f.rsc then some ({ f with rsc := f.rsc - 1 }, .rdPostRmutex) else none
  | .rdPostRmutex => some ({ f with rmutex := f.rmutex + 1 }, .rdPostReadTry)
  | .rdPostReadTry => some ({ f with readTry := f.readTry + 1 }, .reading)
  | .reading => some (f, .rxWaitRmutex)
  | .rxWaitRmutex =>
    if 0 < f.rmutex then some ({ f with rmutex := f.rmutex - 1 }, .rxCount) else none
  | .rxCount => some ({ f with readerCount := f.readerCount - 1 }, .rxTest)
  | .rxTest => some (f, if f.readerCount = 0 then .rxPostRsc else .rxPostRmutex)
  | .rxPostRsc => some ({ f with rsc := f.rsc + 1 }, .rxPostRmutex)
  | .rxPostRmutex => some ({ f with rmutex := f.rmutex + 1 }, .idle)
  | .wrWaitWmutex =>
    if 0 < f.wmutex then some ({ f with wmutex := f.wmutex - 1 }, .wrCount) else none
  | .wrCount => some ({ f with writerCount := f.writerCount + 1 }, .wrTest)
  | .wrTest => some (f, if f.writerCount = 1 then .wrWaitReadTry else .wrPostWmutex)
  | .wrWaitReadTry =>
    if 0 < f.readTry then some ({ f with readTry := f.readTry - 1 }, .wrPostWmutex) else none
  | .wrPostWmutex => some ({ f with wmutex := f.wmutex + 1 }, .wrWaitRsc)
  | .wrWaitRsc => if 0 < f.rsc then some ({ f with rsc := f.rsc - 1 }, .writing) else none
  | .writing => some (f, .wxPostRsc)
  | .wxPostRsc => some ({ f with rsc := f.rsc + 1 }, .wxWaitWmutex)
  | .wxWaitWmutex =>
    if 0 < f.wmutex then some ({ f with wmutex := f.wmutex - 1 }, .wxCount) else none
  | .wxCount => some ({ f with writerCount := f.writerCount - 1 }, .wxTest)
  | .wxTest => some (f, if f.writerCount = 0 then .wxPostReadTry else .wxPostWmutex)
  | .wxPostReadTry => some ({ f with readTry := f.readTry + 1 }, .wxPostWmutex)
  | .wxPostWmutex => some ({ f with wmutex := f.wmutex + 1 }, .idle)

/-- Between a call of one of the four region functions and its return. -/
def Pc.inFunction : Pc → Bool
  | .idle | .reading | .writing => false
  | _ => true

structure State (ι : Type*) where
  file : SafeFile
  pc : ι → Pc

/-- An idle process calls an enter function; every other process executes its
next statement. -/
inductive Act (ι : Type*) where
  | reader (i : ι)
  | writer (i : ι)
  | exec (i : ι)

def step {ι : Type*} [DecidableEq ι] (s : State ι) : Act ι → Option (State ι)
  | .reader i =>
    if s.pc i = .idle then some { s with pc := Function.update s.pc i .rdWaitReadTry } else none
  | .writer i =>
    if s.pc i = .idle then some { s with pc := Function.update s.pc i .wrWaitWmutex } else none
  | .exec i => (s.file.exec (s.pc i)).map fun r => ⟨r.1, Function.update s.pc i r.2⟩

def init (ι : Type*) (fname : List Char) : State ι := ⟨initSfile fname, fun _ => .idle⟩

abbrev Reachable {ι : Type*} [DecidableEq ι] (fname : List Char) (s : State ι) : Prop :=
  Reach step always (init ι fname) s

/-- The readers' lightswitch: `rmutex` guards `readerCount`, the group shares `rsc`. -/
def Pc.readerPhase : Pc → Phase
  | .rdCount => .entering
  | .rdTest => .counted
  | .rdWaitRsc => .acquiring
  | .rdPostRmutex => .entered
  | .rdPostReadTry | .reading | .rxWaitRmutex => .inside
  | .rxCount => .leaving
  | .rxTest => .uncounted
  | .rxPostRsc => .releasing
  | .rxPostRmutex => .left
  | _ => .out

/-- The writers' lightswitch: `wmutex` guards `writerCount`, the group shares `readTry`. -/
def Pc.writerPhase : Pc → Phase
  | .wrCount => .entering
  | .wrTest => .counted
  | .wrWaitReadTry => .acquiring
  | .wrPostWmutex => .entered
  | .wrWaitRsc | .writing | .wxPostRsc | .wxWaitWmutex => .inside
  | .wxCount => .leaving
  | .wxTest => .uncounted
  | .wxPostReadTry => .releasing
  | .wxPostWmutex => .left
  | _ => .out

/-- A writer owns `rsc` by itself from its wait to its post. -/
def Pc.ownsRsc : Pc → Bool
  | .writing | .wxPostRsc => true
  | _ => false

/-- A reader owns `readTry` by itself while it enters. -/
def Pc.ownsReadTry : Pc → Bool
  | .rdWaitRmutex | .rdCount | .rdTest | .rdWaitRsc | .rdPostRmutex | .rdPostReadTry => true
  | _ => false

/-- Both counters are valid lightswitches, and each of the two contended
semaphores is free, owned by a group, or owned by one process. -/
structure Inv {ι : Type*} [Fintype ι] (s : State ι) (rheld wheld : ℕ) : Prop where
  readers : Valid ⟨fun i => (s.pc i).readerPhase, s.file.rmutex, s.file.readerCount, rheld⟩
  writers : Valid ⟨fun i => (s.pc i).writerPhase, s.file.wmutex, s.file.writerCount, wheld⟩
  rsc_eq : s.file.rsc + rheld + census Pc.ownsRsc s.pc = 1
  readTry_eq : s.file.readTry + wheld + census Pc.ownsReadTry s.pc = 1

theorem inv_init (ι : Type*) [Fintype ι] (fname : List Char) : Inv (init ι fname) 0 0 where
  readers := valid_init
  writers := valid_init
  rsc_eq := by simp [init, initSfile, census, Pc.ownsRsc]
  readTry_eq := by simp [init, initSfile, census, Pc.ownsReadTry]

/-- A statement keeps the invariant; only the four statements on a contended
semaphore by which a group takes or returns it change what the groups hold, and
the writers hold `readTry` from their wait for it to their post. -/
lemma Inv.exec {ι : Type*} [Fintype ι] [DecidableEq ι] {f f' : SafeFile} {pc : ι → Pc} {i : ι}
    {q : Pc} {rheld wheld : ℕ} (h : Inv ⟨f, pc⟩ rheld wheld)
    (he : f.exec (pc i) = some (f', q)) :
    ∃ rheld' wheld', Inv ⟨f', Function.update pc i q⟩ rheld' wheld' ∧
      (pc i = .wrWaitReadTry ∨ wheld = 1 ∧ pc i ≠ .wxPostReadTry → wheld' = 1) := by
  obtain ⟨hr, hw, hrsc, htry⟩ := h
  have crsc := census_update Pc.ownsRsc pc i q
  have ctry := census_update Pc.ownsReadTry pc i q
  dsimp only at hr hw hrsc htry
  cases hp : pc i with
  | idle => simp [hp, SafeFile.exec] at he
  | rdWaitRsc =>
    simp only [hp, SafeFile.exec] at he
    split at he
    · cases he
      have hacq := hr.held_of_acquiring (i := i) (by simp [hp, Pc.readerPhase])
      refine ⟨1, wheld, ⟨hr.advance ?_, hw.advance ?_, ?_, ?_⟩, by simp +contextual⟩
      all_goals simp_all [Pc.readerPhase, Pc.writerPhase, Pc.ownsRsc, Pc.ownsReadTry, Phase.next]
      omega
    · cases he
  | wrWaitReadTry =>
    simp only [hp, SafeFile.exec] at he
    split at he
    · cases he
      have hacq := hw.held_of_acquiring (i := i) (by simp [hp, Pc.writerPhase])
      refine ⟨rheld, 1, ⟨hr.advance ?_, hw.advance ?_, ?_, ?_⟩, by simp +contextual⟩
      all_goals simp_all [Pc.readerPhase, Pc.writerPhase, Pc.ownsRsc, Pc.ownsReadTry, Phase.next]
      omega
    · cases he
  | rxPostRsc =>
    simp only [hp, SafeFile.exec] at he
    cases he
    have hrel := hr.held_of_releasing (i := i) (by simp [hp, Pc.readerPhase])
    refine ⟨0, wheld, ⟨hr.advance ?_, hw.advance ?_, ?_, ?_⟩, by simp +contextual⟩
    all_goals simp_all [Pc.readerPhase, Pc.writerPhase, Pc.ownsRsc, Pc.ownsReadTry, Phase.next]
  | wxPostReadTry =>
    simp only [hp, SafeFile.exec] at he
    cases he
    have hrel := hw.held_of_releasing (i := i) (by simp [hp, Pc.writerPhase])
    refine ⟨rheld, 0, ⟨hr.advance ?_, hw.advance ?_, ?_, ?_⟩, by simp +contextual⟩
    all_goals simp_all [Pc.readerPhase, Pc.writerPhase, Pc.ownsRsc, Pc.ownsReadTry, Phase.next]
  | rdTest | rxTest | wrTest | wxTest =>
    simp only [hp, SafeFile.exec] at he
    cases he
    refine ⟨rheld, wheld, ⟨hr.advance ?_, hw.advance ?_, ?_, ?_⟩, by simp +contextual⟩
    all_goals split_ifs
    all_goals simp_all [Pc.readerPhase, Pc.writerPhase, Pc.ownsRsc, Pc.ownsReadTry, Phase.next]
  | rdWaitReadTry | rdWaitRmutex | rxWaitRmutex | wrWaitWmutex | wrWaitRsc | wxWaitWmutex =>
    simp only [hp, SafeFile.exec] at he
    split at he
    · cases he
      refine ⟨rheld, wheld, ⟨hr.advance ?_, hw.advance ?_, ?_, ?_⟩, by simp +contextual⟩
      all_goals simp_all [Pc.readerPhase, Pc.writerPhase, Pc.ownsRsc, Pc.ownsReadTry, Phase.next]
      all_goals omega
    · cases he
  | _ =>
    simp only [hp, SafeFile.exec] at he
    cases he
    refine ⟨rheld, wheld, ⟨hr.advance ?_, hw.advance ?_, ?_, ?_⟩, by simp +contextual⟩
    all_goals simp_all [Pc.readerPhase, Pc.writerPhase, Pc.ownsRsc, Pc.ownsReadTry, Phase.next]
    all_goals omega

/-- A call only moves an idle process to the first statement, outside both switches. -/
lemma Inv.call {ι : Type*} [Fintype ι] [DecidableEq ι] {f : SafeFile} {pc : ι → Pc} {i : ι}
    {q : Pc} {rheld wheld : ℕ} (h : Inv ⟨f, pc⟩ rheld wheld) (hp : pc i = .idle)
    (hq : q = .rdWaitReadTry ∨ q = .wrWaitWmutex) :
    Inv ⟨f, Function.update pc i q⟩ rheld wheld := by
  obtain ⟨hr, hw, hrsc, htry⟩ := h
  have crsc := census_update Pc.ownsRsc pc i q
  have ctry := census_update Pc.ownsReadTry pc i q
  refine ⟨hr.advance (Or.inr ?_), hw.advance (Or.inr ?_), ?_, ?_⟩
  all_goals
    rcases hq with rfl | rfl <;>
      simp_all [Pc.readerPhase, Pc.writerPhase, Pc.ownsRsc, Pc.ownsReadTry]

theorem Inv.step {ι : Type*} [Fintype ι] [DecidableEq ι] {s t : State ι} {a : Act ι}
    {rheld wheld : ℕ} (h : Inv s rheld wheld) (hst : step s a = some t) :
    ∃ rheld' wheld', Inv t rheld' wheld' := by
  cases a with
  | reader i =>
    simp only [ReadersWriters.step] at hst
    split at hst
    · rename_i hp
      cases hst
      exact ⟨rheld, wheld, h.call hp (Or.inl rfl)⟩
    · cases hst
  | writer i =>
    simp only [ReadersWriters.step] at hst
    split at hst
    · rename_i hp
      cases hst
      exact ⟨rheld, wheld, h.call hp (Or.inr rfl)⟩
    · cases hst
  | exec i =>
    simp only [ReadersWriters.step, Option.map_eq_some_iff] at hst
    obtain ⟨⟨f', q⟩, he, rfl⟩ := hst
    obtain ⟨rheld', wheld', h', -⟩ := h.exec he
    exact ⟨rheld', wheld', h'⟩

theorem reachable_inv {ι : Type*} [Fintype ι] [DecidableEq ι] {fname : List Char} {s : State ι}
    (hr : Reachable fname s) : ∃ rheld wheld, Inv s rheld wheld :=
  Reach.invariant (P := fun s => ∃ rheld wheld, Inv s rheld wheld) hr
    ⟨0, 0, inv_init ι fname⟩ (fun _ _ _ ⟨_, _, h⟩ _ hst => h.step hst)

/-- What the invariant says about the two kinds of regions. -/
lemma Inv.exclusive {ι : Type*} [Fintype ι] {s : State ι} {rheld wheld : ℕ}
    (h : Inv s rheld wheld) {i j : ι} (hi : s.pc i = .writing) (hij : i ≠ j) :
    s.pc j ≠ .writing ∧ s.pc j ≠ .reading := by
  have hrsc := h.rsc_eq
  have hown : (s.pc i).ownsRsc = true := by simp [hi, Pc.ownsRsc]
  constructor
  · intro hj
    have htwo := two_le_census (p := Pc.ownsRsc) hij hown (by simp [hj, Pc.ownsRsc])
    omega
  · intro hj
    have hheld := h.readers.held_of_inside (i := j) (by simp [hj, Pc.readerPhase])
    have hpos := census_pos (p := Pc.ownsRsc) i hown
    dsimp only at hheld
    omega

/-- Readers-writers mutual exclusion: while one process is between the return of
its `writer_enter_region` and the start of its `writer_exit_region`, no other
process is inside a writer or a reader region. -/
theorem mutual_exclusion {ι : Type*} [Fintype ι] [DecidableEq ι] {fname : List Char}
    {s : State ι} (hr : Reachable fname s) {i j : ι} (hi : s.pc i = .writing) (hij : i ≠ j) :
    s.pc j ≠ .writing ∧ s.pc j ≠ .reading := by
  obtain ⟨_, _, h⟩ := reachable_inv hr
  exact h.exclusive hi hij

/-- A reader and a writer both ask for the file; the writer gets in. -/
theorem mutual_exclusion_writer_first : ∃ s : State (Fin 2),
    s.pc 0 = .writing ∧ s.pc 1 = .rdWaitReadTry ∧ s.pc 1 ≠ .writing ∧ s.pc 1 ≠ .reading :=
  have hr : Reachable (ι := Fin 2) [] _ := reach_of_run
    [.reader 1, .writer 0, .exec 0, .exec 0, .exec 0, .exec 0, .exec 0, .exec 0] rfl
  ⟨_, rfl, rfl, mutual_exclusion (i := 0) hr rfl (by decide)⟩

/-- Some process that is not idle can execute its next statement. -/
def Moves {ι : Type*} [DecidableEq ι] (s : State ι) : Prop :=
  ∃ i t, s.pc i ≠ .idle ∧ step s (.exec i) = some t

lemma moves_of_exec {ι : Type*} [DecidableEq ι] {s : State ι} (i : ι)
    (h : (s.file.exec (s.pc i)).isSome = true) : Moves s := by
  obtain ⟨r, hr⟩ := Option.isSome_iff_exists.mp h
  refine ⟨i, _, ?_, by simp [step, hr]; rfl⟩
  intro hp
  simp [hp, SafeFile.exec] at hr

/-- An owner of `rsc` in its own right never waits. -/
lemma moves_of_ownsRsc {ι : Type*} [DecidableEq ι] {s : State ι} {i : ι}
    (hi : (s.pc i).ownsRsc = true) : Moves s := by
  apply moves_of_exec i
  cases hp : s.pc i <;> simp_all [Pc.ownsRsc, SafeFile.exec]

/-- The reader under `rmutex` waits at most for a writer that owns `rsc`. -/
lemma Inv.moves_of_reader_critical {ι : Type*} [Fintype ι] [DecidableEq ι] {s : State ι}
    {rheld wheld : ℕ} (h : Inv s rheld wheld) {i : ι}
    (hi : (s.pc i).readerPhase.critical = true) : Moves s := by
  by_cases hp : s.pc i = .rdWaitRsc
  · by_cases hrsc : 0 < s.file.rsc
    · exact moves_of_exec i (by simp [hp, SafeFile.exec, hrsc])
    · have hacq := h.readers.held_of_acquiring (i := i) (by simp [hp, Pc.readerPhase])
      have heq := h.rsc_eq
      dsimp only at hacq
      obtain ⟨j, hj⟩ := exists_of_census_pos (p := Pc.ownsRsc) (f := s.pc) (by omega)
      exact moves_of_ownsRsc hj
  · apply moves_of_exec i
    cases hq : s.pc i <;> simp_all [Pc.readerPhase, Phase.critical, SafeFile.exec]

lemma Inv.moves_of_rmutex {ι : Type*} [Fintype ι] [DecidableEq ι] {s : State ι}
    {rheld wheld : ℕ} (h : Inv s rheld wheld) (hm : s.file.rmutex = 0) : Moves s := by
  have heq := h.readers.mutex_eq
  dsimp only at heq
  obtain ⟨j, hj⟩ := exists_of_census_pos (p := Phase.critical)
    (f := fun i => (s.pc i).readerPhase) (by omega)
  exact h.moves_of_reader_critical hj

/-- A reader that owns `readTry` waits at most for the mutex of the readers. -/
lemma Inv.moves_of_ownsReadTry {ι : Type*} [Fintype ι] [DecidableEq ι] {s : State ι}
    {rheld wheld : ℕ} (h : Inv s rheld wheld) {i : ι} (hi : (s.pc i).ownsReadTry = true) :
    Moves s := by
  by_cases hc : (s.pc i).readerPhase.critical = true
  · exact h.moves_of_reader_critical hc
  · by_cases hm : s.file.rmutex = 0
    · exact h.moves_of_rmutex hm
    · apply moves_of_exec i
      cases hq : s.pc i <;>
        simp_all [Pc.ownsReadTry, Pc.readerPhase, Phase.critical, SafeFile.exec,
          Nat.pos_iff_ne_zero]

/-- The writer under `wmutex` waits at most for a reader that owns `readTry`. -/
lemma Inv.moves_of_writer_critical {ι : Type*} [Fintype ι] [DecidableEq ι] {s : State ι}
    {rheld wheld : ℕ} (h : Inv s rheld wheld) {i : ι}
    (hi : (s.pc i).writerPhase.critical = true) : Moves s := by
  by_cases hp : s.pc i = .wrWaitReadTry
  · by_cases htry : 0 < s.file.readTry
    · exact moves_of_exec i (by simp [hp, SafeFile.exec, htry])
    · have hacq := h.writers.held_of_acquiring (i := i) (by simp [hp, Pc.writerPhase])
      have heq := h.readTry_eq
      dsimp only at hacq
      obtain ⟨j, hj⟩ := exists_of_census_pos (p := Pc.ownsReadTry) (f := s.pc) (by omega)
      exact h.moves_of_ownsReadTry hj
  · apply moves_of_exec i
    cases hq : s.pc i <;> simp_all [Pc.writerPhase, Phase.critical, SafeFile.exec]

lemma Inv.moves_of_wmutex {ι : Type*} [Fintype ι] [DecidableEq ι] {s : State ι}
    {rheld wheld : ℕ} (h : Inv s rheld wheld) (hm : s.file.wmutex = 0) : Moves s := by
  have heq := h.writers.mutex_eq
  dsimp only at heq
  obtain ⟨j, hj⟩ := exists_of_census_pos (p := Phase.critical)
    (f := fun i => (s.pc i).writerPhase) (by omega)
  exact h.moves_of_writer_critical hj

/-- When `rsc` is taken, its writer or some reader of the group can go on. -/
lemma Inv.moves_of_rsc {ι : Type*} [Fintype ι] [DecidableEq ι] {s : State ι}
    {rheld wheld : ℕ} (h : Inv s rheld wheld) (hm : s.file.rsc = 0) : Moves s := by
  have heq := h.rsc_eq
  by_cases hheld : rheld = 0
  · obtain ⟨j, hj⟩ := exists_of_census_pos (p := Pc.ownsRsc) (f := s.pc) (by omega)
    exact moves_of_ownsRsc hj
  · obtain ⟨j, hj⟩ := h.readers.exists_of_held hheld
    by_cases hc : (s.pc j).readerPhase.critical = true
    · exact h.moves_of_reader_critical hc
    · by_cases hr : s.file.rmutex = 0
      · exact h.moves_of_rmutex hr
      · apply moves_of_exec j
        cases hq : s.pc j <;>
          simp_all [Pc.readerPhase, Phase.critical, Phase.present, SafeFile.exec,
            Nat.pos_iff_ne_zero]

/-- When `readTry` is taken, its reader or some writer of the group can go on. -/
lemma Inv.moves_of_readTry {ι : Type*} [Fintype ι] [DecidableEq ι] {s : State ι}
    {rheld wheld : ℕ} (h : Inv s rheld wheld) (hm : s.file.readTry = 0) : Moves s := by
  have heq := h.readTry_eq
  by_cases hheld : wheld = 0
  · obtain ⟨j, hj⟩ := exists_of_census_pos (p := Pc.ownsReadTry) (f := s.pc) (by omega)
    exact h.moves_of_ownsReadTry hj
  · obtain ⟨j, hj⟩ := h.writers.exists_of_held hheld
    by_cases hc : (s.pc j).writerPhase.critical = true
    · exact h.moves_of_writer_critical hc
    · by_cases hw : s.file.wmutex = 0
      · exact h.moves_of_wmutex hw
      · by_cases hr : s.file.rsc = 0
        · exact h.moves_of_rsc hr
        · apply moves_of_exec j
          cases hq : s.pc j <;>
            simp_all [Pc.writerPhase, Phase.critical, Phase.present, SafeFile.exec,
              Nat.pos_iff_ne_zero]

/-- The lock never deadlocks: whenever a process is inside one of the four region
functions, some process that is not idle can take a step. -/
theorem deadlock_free {ι : Type*} [Fintype ι] [DecidableEq ι] {fname : List Char}
    {s : State ι} (hr : Reachable fname s) {i : ι} (hi : (s.pc i).inFunction = true) :
    Moves s := by
  obtain ⟨_, _, h⟩ := reachable_inv hr
  by_cases htry : s.file.readTry = 0
  · exact h.moves_of_readTry htry
  by_cases hrm : s.file.rmutex = 0
  · exact h.moves_of_rmutex hrm
  by_cases hwm : s.file.wmutex = 0
  · exact h.moves_of_wmutex hwm
  by_cases hrsc : s.file.rsc = 0
  · exact h.moves_of_rsc hrsc
  apply moves_of_exec i
  cases hp : s.pc i <;> simp_all [Pc.inFunction, SafeFile.exec, Nat.pos_iff_ne_zero]

/-- A reader waits in its enter function for a writer that is inside its region. -/
theorem deadlock_free_reader_waiting : ∃ s : State (Fin 2),
    s.pc 0 = .rdWaitReadTry ∧ s.pc 1 = .writing ∧ s.file.readTry = 0 ∧ Moves s :=
  have hr : Reachable (ι := Fin 2) [] _ := reach_of_run
    [.reader 0, .writer 1, .exec 1, .exec 1, .exec 1, .exec 1, .exec 1, .exec 1] rfl
  ⟨_, rfl, rfl, rfl, deadlock_free (i := 0) hr rfl⟩

end SystemProgramming.ReadersWriters
