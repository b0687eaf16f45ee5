import SystemProgramming.ReadersWriters

/-!
# The shared table of file locks

Child servers look a file up in a table in shared memory and append an entry
when it has none; the look-up and the append are separate steps. A request then
runs the region functions of the entry it found. Seen from one entry, the whole
server is a run of the readers-writers lock of that entry. Whether all requests
for a file use one entry is decided between the look-up and the append.
-/
namespace SystemProgramming.LockTable
open SystemProgramming.Transition SystemProgramming.ReadersWriters

/-- `NUM_OF_DIR_FILE`, the number of entries allocated. -/
def numOfDirFile : ℕ := 128

/-- The bytes of the buffer for a command line. -/
def cmdLen : ℕ := 64

/-- The entries in use; `size` is their number. -/
structure SafeDir where
  files : List SafeFile
  capa : ℕ
  deriving DecidableEq, Repr

/-- The index of the first entry with the given name. -/
def getSfile (sdir : SafeDir) (file : List Char) : Option ℕ :=
  sdir.files.findIdx? (fun f => f.fname = file)

/-- Append an entry and return its index. The flag tells whether the four
`sem_init` calls of `init_sfile` succeed. -/
def addSfile (sdir : SafeDir) (fname : List Char) (semInit : Bool) : Option (SafeDir × ℕ) :=
  if sdir.files.length = sdir.capa then none
  else if semInit then
    some ({ sdir with files := sdir.files ++ [initSfile fname] }, sdir.files.length)
  else none

/-- Add the entries of a directory, the two hidden ones apart. -/
def initSdir : List (List Char) → SafeDir → Option SafeDir
  | [], sdir => some sdir
  | name :: names, sdir =>
    if name ≠ ['.'] ∧ name ≠ ['.', '.'] then
      (addSfile sdir name true).bind fun r => initSdir names r.1
    else initSdir names sdir

/-- The requests that use the lock of a server file. -/
inductive Request where
  | readF
  | writeT
  | upload
  | download
  deriving DecidableEq, Repr

/-- The first statement of the enter function the request calls. -/
def Request.start : Request → Pc
  | .writeT | .upload => .wrWaitWmutex
  | .readF | .download => .rdWaitReadTry

/-- A child server: between requests, before `get_sfile`, before `add_sfile` after
a look-up without result, or in a region function or region of entry `k`. -/
inductive Proc where
  | idle
  | lookup (r : Request) (name : List Char)
  | append (r : Request) (name : List Char)
  | region (k : ℕ) (name : List Char) (pc : Pc)
  deriving DecidableEq, Repr

structure State (ι : Type*) where
  sdir : SafeDir
  proc : ι → Proc

inductive Act (ι : Type*) where
  | request (i : ι) (r : Request) (name : List Char)
  | getSfile (i : ι)
  | addSfile (i : ι) (semInit : Bool)
  | exec (i : ι)

def State.put {ι : Type*} [DecidableEq ι] (s : State ι) (i : ι) (p : Proc) : State ι :=
  { s with proc := Function.update s.proc i p }

/-- One step of one child server; a request names a file in a command line, and ends when
its exit function returns or when the table is full. -/
def step {ι : Type*} [DecidableEq ι] (s : State ι) : Act ι → Option (State ι)
  | .request i r name =>
    if s.proc i = .idle ∧ name.length < cmdLen then some (s.put i (.lookup r name)) else none
  | .getSfile i =>
    match s.proc i with
    | .lookup r name =>
      match getSfile s.sdir name with
      | some k => some (s.put i (.region k name r.start))
      | none => some (s.put i (.append r name))
    | _ => none
  | .addSfile i semInit =>
    match s.proc i with
    | .append r name =>
      match addSfile s.sdir name semInit with
      | some (sdir', k) => some (State.put { s with sdir := sdir' } i (.region k name r.start))
      | none => some (s.put i .idle)
    | _ => none
  | .exec i =>
    match s.proc i with
    | .region k name pc =>
      (s.sdir.files[k]?).bind fun f => (f.exec pc).map fun r =>
        State.put { s with sdir := { s.sdir with files := s.sdir.files.set k r.1 } } i
          (if r.2 = .idle then .idle else .region k name r.2)
    | _ => none

def init (ι : Type*) (sdir : SafeDir) : State ι := ⟨sdir, fun _ => .idle⟩

/-- What a child server does to entry `k`. -/
def Proc.pcAt (k : ℕ) : Proc → Pc
  | .region k' _ pc => if k' = k then pc else .idle
  | _ => .idle

/-- The server seen from entry `k`, whose record is `f`. -/
def State.entry {ι : Type*} (s : State ι) (k : ℕ) (f : SafeFile) : ReadersWriters.State ι :=
  ⟨f, fun i => (s.proc i).pcAt k⟩

lemma exec_fname {f f' : SafeFile} {pc q : Pc} (h : f.exec pc = some (f', q)) :
    f'.fname = f.fname := by
  cases pc <;> simp only [SafeFile.exec] at h
  case idle => cases h
  all_goals try split at h
  all_goals cases h
  all_goals rfl

lemma entry_put {ι : Type*} [DecidableEq ι] (s : State ι) (i : ι) (p : Proc) (k : ℕ)
    (f : SafeFile) :
    (s.put i p).entry k f = ⟨f, Function.update (fun j => (s.proc j).pcAt k) i (p.pcAt k)⟩ := by
  simp only [State.entry, State.put, ReadersWriters.State.mk.injEq, true_and]
  exact Function.comp_update (Proc.pcAt k) s.proc i p

/-- A move that does not concern entry `k` does not show there. -/
lemma entry_put_of_eq {ι : Type*} [DecidableEq ι] {s : State ι} {i : ι} {p : Proc} {k : ℕ}
    (h : p.pcAt k = (s.proc i).pcAt k) (f : SafeFile) : (s.put i p).entry k f = s.entry k f := by
  rw [entry_put, h, Function.update_eq_self]
  rfl

/-- A child server that starts a request on entry `k` calls an enter function there. -/
lemma entry_reach_start {ι : Type*} [DecidableEq ι] {s : State ι} {i : ι} {k : ℕ} {f : SafeFile}
    (r : Request) (name : List Char) (hidle : (s.proc i).pcAt k = .idle)
    (hr : ReadersWriters.Reachable f.fname (s.entry k f)) :
    ReadersWriters.Reachable f.fname ((s.put i (.region k name r.start)).entry k f) := by
  rw [entry_put]
  have hcall : ReadersWriters.step (s.entry k f)
      (if r.start = .wrWaitWmutex then .writer i else .reader i) =
      some ⟨f, Function.update (fun j => (s.proc j).pcAt k) i r.start⟩ := by
    cases r <;> simp [Request.start, ReadersWriters.step, State.entry, hidle]
  have hpc : (Proc.region k name r.start).pcAt k = r.start := by simp [Proc.pcAt]
  rw [hpc]
  exact hr.next trivial hcall

/-- The name that a child server looks up comes from a command line. -/
def Proc.Fits : Proc → Prop
  | .lookup _ name | .append _ name => name.length < cmdLen
  | _ => True

/-- Such a name is stored as it is. -/
lemma Proc.Fits.stored {r : Request} {name : List Char} (h : (Proc.append r name).Fits) :
    (initSfile name).fname = name :=
  initSfile_fname (lt_trans h (by decide))

lemma fits_update {ι : Type*} [DecidableEq ι] {proc : ι → Proc} (h : ∀ i, (proc i).Fits) {i : ι}
    {p : Proc} (hp : p.Fits) (j : ι) : (Function.update proc i p j).Fits :=
  (Function.forall_update_iff proc fun _ p => p.Fits).mpr ⟨hp, fun j _ => h j⟩ j

/-- Every entry is a run of its own readers-writers lock, and every request uses
an entry of the name it asked for. -/
structure Inv {ι : Type*} [DecidableEq ι] (s : State ι) : Prop where
  entries : ∀ k f, s.sdir.files[k]? = some f → ReadersWriters.Reachable f.fname (s.entry k f)
  named : ∀ i k name pc, s.proc i = .region k name pc →
    ∃ f, s.sdir.files[k]? = some f ∧ f.fname = name
  fits : ∀ i, (s.proc i).Fits

/-- A child server that is not in a region of entry `k` shows there as idle. -/
lemma pcAt_of_ne {p : Proc} {k : ℕ} (h : ∀ name pc, p ≠ .region k name pc) : p.pcAt k = .idle := by
  cases p with
  | region k' name pc =>
    have hk : k' ≠ k := fun hk => h name pc (hk ▸ rfl)
    simp [Proc.pcAt, hk]
  | _ => rfl

/-- A move outside the regions keeps the invariant. -/
lemma Inv.put {ι : Type*} [DecidableEq ι] {s : State ι} (h : Inv s) {i : ι} {p : Proc}
    (hold : ∀ k, (s.proc i).pcAt k = .idle) (hnew : ∀ k name pc, p ≠ .region k name pc)
    (hfits : p.Fits) : Inv (s.put i p) := by
  constructor
  · intro k f hf
    rw [entry_put_of_eq (by rw [hold k, pcAt_of_ne (hnew k)])]
    exact h.entries k f hf
  · intro j k name pc hj
    rcases eq_or_ne j i with rfl | hji
    · exact absurd (by simpa [State.put] using hj) (hnew k name pc)
    · exact h.named j k name pc (by simpa [State.put, hji] using hj)
  · exact fits_update h.fits hfits

/-- A request that has found entry `k` of its name starts there. -/
lemma Inv.start {ι : Type*} [DecidableEq ι] {s : State ι} (h : Inv s) {i : ι} {k : ℕ}
    {f : SafeFile} (r : Request) (hold : ∀ k, (s.proc i).pcAt k = .idle)
    (hf : s.sdir.files[k]? = some f) : Inv (s.put i (.region k f.fname r.start)) := by
  constructor
  · intro k' f' hf'
    rcases eq_or_ne k' k with rfl | hk
    · exact entry_reach_start r _ (hold k') (h.entries k' f' hf')
    · rw [entry_put_of_eq (by rw [hold]; simp [Proc.pcAt, hk.symm])]
      exact h.entries k' f' hf'
  · intro j k' name pc hj
    rcases eq_or_ne j i with rfl | hji
    · simp only [State.put, Function.update_self, Proc.region.injEq] at hj
      obtain ⟨rfl, rfl, -⟩ := hj
      exact ⟨f, hf, rfl⟩
    · exact h.named j k' name pc (by simpa [State.put, hji] using hj)
  · exact fits_update h.fits trivial

/-- A new entry is unused, so it is a fresh readers-writers lock. -/
lemma Inv.append {ι : Type*} [DecidableEq ι] {s : State ι} (h : Inv s) (fname : List Char) :
    Inv { s with sdir := { s.sdir with files := s.sdir.files ++ [initSfile fname] } } := by
  constructor
  · intro k f hf
    dsimp only at hf
    rcases lt_trichotomy k s.sdir.files.length with hk | hk | hk
    · rw [List.getElem?_append_left hk] at hf
      exact h.entries k f hf
    · have hnone : s.sdir.files[k]? = none := List.getElem?_eq_none (by omega)
      simp only [hk, List.getElem?_concat_length, Option.some.injEq] at hf
      subst hf
      have hfresh : State.entry { s with sdir := { s.sdir with
          files := s.sdir.files ++ [initSfile fname] } } k (initSfile fname) =
          ReadersWriters.init ι (initSfile fname).fname := by
        have hidle : ∀ j, (s.proc j).pcAt k = .idle := by
          intro j
          apply pcAt_of_ne
          intro name pc hj
          obtain ⟨f, hf, -⟩ := h.named j k name pc hj
          rw [hnone] at hf
          cases hf
        simp [State.entry, ReadersWriters.init, initSfile_initSfile, hidle]
      rw [hfresh]
      exact Reach.start
    · rw [List.getElem?_eq_none (by simp; omega)] at hf
      cases hf
  · intro j k name pc hj
    obtain ⟨f, hf, hn⟩ := h.named j k name pc hj
    exact ⟨f, by simp [List.getElem?_append_left (List.getElem?_eq_some_iff.mp hf).1, hf], hn⟩
  · exact h.fits

/-- A statement of a region function is a step of the lock of that entry and
leaves the other entries as they are. -/
lemma Inv.exec {ι : Type*} [DecidableEq ι] {s : State ι} (h : Inv s) {i : ι} {k : ℕ}
    {name : List Char} {pc q : Pc} {f f' : SafeFile} (hp : s.proc i = .region k name pc)
    (hf : s.sdir.files[k]? = some f) (he : f.exec pc = some (f', q)) :
    Inv (State.put { s with sdir := { s.sdir with files := s.sdir.files.set k f' } } i
      (if q = .idle then .idle else .region k name q)) := by
  have hk : k < s.sdir.files.length := (List.getElem?_eq_some_iff.mp hf).1
  constructor
  · intro k' f'' hf''
    simp only [State.put, List.getElem?_set] at hf''
    split_ifs at hf'' with hkk
    · subst hkk
      cases hf''
      have hpc : (if q = .idle then Proc.idle else .region k name q).pcAt k = q := by
        split_ifs with hq <;> simp [Proc.pcAt, hq]
      rw [entry_put, hpc, exec_fname he]
      have hstep : ReadersWriters.step (s.entry k f) (.exec i) =
          some ⟨f', Function.update (fun j => (s.proc j).pcAt k) i q⟩ := by
        simp [ReadersWriters.step, State.entry, hp, Proc.pcAt, he]
      exact (h.entries k f hf).next trivial hstep
    · rw [entry_put_of_eq (by split_ifs <;> simp [hp, Proc.pcAt, hkk])]
      exact h.entries k' f'' hf''
  · intro j k' name' pc' hj
    have hreg : ∃ pc'', s.proc j = .region k' name' pc'' := by
      rcases eq_or_ne j i with rfl | hji
      · simp only [State.put, Function.update_self] at hj
        split_ifs at hj
        cases hj
        exact ⟨pc, hp⟩
      · exact ⟨pc', by simpa [State.put, hji] using hj⟩
    obtain ⟨pc'', hold⟩ := hreg
    obtain ⟨g, hg, hn⟩ := h.named j k' name' pc'' hold
    rcases eq_or_ne k' k with rfl | hkk
    · rw [hf] at hg
      cases hg
      exact ⟨f', by simp [State.put, hk], (exec_fname he).trans hn⟩
    · exact ⟨g, by simpa [State.put, List.getElem?_set, hkk.symm] using hg, hn⟩
  · exact fits_update h.fits (by split_ifs <;> trivial)

lemma getElem?_of_getSfile {sdir : SafeDir} {name : List Char} {k : ℕ}
    (h : getSfile sdir name = some k) : ∃ f, sdir.files[k]? = some f ∧ f.fname = name := by
  obtain ⟨hk, hname, -⟩ := List.findIdx?_eq_some_iff_getElem.mp h
  exact ⟨_, List.getElem?_eq_getElem hk, by simpa using hname⟩

lemma getSfile_eq_none {sdir : SafeDir} {name : List Char} :
    getSfile sdir name = none ↔ name ∉ sdir.files.map SafeFile.fname := by
  simp [getSfile, List.findIdx?_eq_none_iff]

/-- An append adds one fresh entry at the end or leaves the table alone. -/
lemma addSfile_eq_some {sdir sdir' : SafeDir} {fname : List Char} {semInit : Bool} {k : ℕ}
    (h : addSfile sdir fname semInit = some (sdir', k)) :
    sdir.files.length ≠ sdir.capa ∧ semInit = true ∧ k = sdir.files.length ∧
    sdir' = { sdir with files := sdir.files ++ [initSfile fname] } := by
  unfold addSfile at h
  split_ifs at h with hfull hinit
  cases h
  exact ⟨hfull, hinit, rfl, rfl⟩

/-- What a step can be: a move outside the regions, the start of a request on an entry of
the table or on one just appended, and a statement of a region function. -/
inductive Moves {ι : Type*} [DecidableEq ι] (s : State ι) : Act ι → State ι → Prop
  | put {a : Act ι} {i : ι} {p : Proc} (hold : ∀ k, (s.proc i).pcAt k = .idle)
      (hnew : ∀ k name pc, p ≠ .region k name pc) (hfits : (s.proc i).Fits → p.Fits) :
      Moves s a (s.put i p)
  | start {a : Act ι} {i : ι} {k : ℕ} {f : SafeFile} (r : Request)
      (hold : ∀ k, (s.proc i).pcAt k = .idle) (hf : s.sdir.files[k]? = some f) :
      Moves s a (s.put i (.region k f.fname r.start))
  | append {i : ι} {name : List Char} (r : Request) (hp : s.proc i = .append r name)
      (hfull : s.sdir.files.length ≠ s.sdir.capa) :
      Moves s (.addSfile i true)
        (State.put { s with sdir := { s.sdir with files := s.sdir.files ++ [initSfile name] } } i
          (.region s.sdir.files.length name r.start))
  | exec {i : ι} {k : ℕ} {name : List Char} {pc q : Pc} {f f' : SafeFile}
      (hp : s.proc i = .region k name pc) (hf : s.sdir.files[k]? = some f)
      (he : f.exec pc = some (f', q)) :
      Moves s (.exec i)
        (State.put { s with sdir := { s.sdir with files := s.sdir.files.set k f' } } i
          (if q = .idle then .idle else .region k name q))

lemma moves_of_step {ι : Type*} [DecidableEq ι] {s t : State ι} {a : Act ι}
    (hst : step s a = some t) : Moves s a t := by
  cases a with
  | request i r name =>
    simp only [LockTable.step] at hst
    split_ifs at hst with hp
    cases hst
    exact .put (by simp [hp.1, Proc.pcAt]) (by simp) fun _ => hp.2
  | getSfile i =>
    simp only [LockTable.step] at hst
    split at hst
    · rename_i r name hp
      split at hst
      · rename_i k hk
        cases hst
        obtain ⟨f, hf, rfl⟩ := getElem?_of_getSfile hk
        exact .start r (by simp [hp, Proc.pcAt]) hf
      · cases hst
        exact .put (by simp [hp, Proc.pcAt]) (by simp) fun hfits => by rwa [hp] at hfits
    · cases hst
  | addSfile i semInit =>
    simp only [LockTable.step] at hst
    split at hst
    · rename_i r name hp
      split at hst
      · rename_i sdir' k hk
        cases hst
        obtain ⟨hfull, rfl, rfl, rfl⟩ := addSfile_eq_some hk
        exact .append r hp hfull
      · cases hst
        exact .put (by simp [hp, Proc.pcAt]) (by simp) fun _ => trivial
    · cases hst
  | exec i =>
    simp only [LockTable.step] at hst
    split at hst
    · rename_i k name pc hp
      simp only [Option.bind_eq_some_iff, Option.map_eq_some_iff] at hst
      obtain ⟨f, hf, ⟨f', q⟩, he, rfl⟩ := hst
      exact .exec hp hf he
    · cases hst

theorem Inv.step {ι : Type*} [DecidableEq ι] {s t : State ι} {a : Act ι} (h : Inv s)
    (hst : step s a = some t) : Inv t := by
  cases moves_of_step hst with
  | @put a i p hold hnew hfits => exact h.put hold hnew (hfits (h.fits i))
  | start r hold hf => exact h.start r hold hf
  | @append i name r hp hfull =>
    have hstored := Proc.Fits.stored (hp ▸ h.fits i)
    have hstart := (h.append name).start (f := initSfile name) r
      (k := s.sdir.files.length) (i := i) (by simp [hp, Proc.pcAt]) (by simp)
    rwa [hstored] at hstart
  | exec hp hf he => exact h.exec hp hf he

/-- A start-up table holds the directory's names in order, each as a fresh entry. -/
lemma initSdir_files {names : List (List Char)} {sdir sdir' : SafeDir}
    (h : initSdir names sdir = some sdir') :
    sdir'.files = sdir.files ++
      (names.filter (fun n => n ≠ ['.'] ∧ n ≠ ['.', '.'])).map initSfile := by
  induction names generalizing sdir with
  | nil =>
    cases h
    simp
  | cons name names ih =>
    simp only [initSdir] at h
    split_ifs at h with hn
    · obtain ⟨⟨sdir₁, k⟩, hadd, hrest⟩ := Option.bind_eq_some_iff.mp h
      obtain ⟨-, -, -, rfl⟩ := addSfile_eq_some hadd
      simpa [hn] using ih hrest
    · simpa [hn] using ih h

/-- The state after `init_sdir` on an empty table. -/
lemma inv_init {ι : Type*} [DecidableEq ι] {names : List (List Char)} {sdir : SafeDir}
    (h : initSdir names ⟨[], numOfDirFile⟩ = some sdir) : Inv (init ι sdir) := by
  constructor
  · intro k f hf
    have hmem : f ∈ sdir.files := List.mem_of_getElem? hf
    rw [initSdir_files h, List.nil_append, List.mem_map] at hmem
    obtain ⟨n, -, rfl⟩ := hmem
    have hfresh : State.entry (init ι sdir) k (initSfile n) =
        ReadersWriters.init ι (initSfile n).fname := by
      rw [ReadersWriters.init, initSfile_initSfile]
      rfl
    rw [hfresh]
    exact Reach.start
  · intro i k name pc hi
    cases hi
  · exact fun _ => trivial

/-- The names of the table are distinct. -/
def Distinct (sdir : SafeDir) : Prop := (sdir.files.map SafeFile.fname).Nodup

/-- Names that differ in what is stored of them make distinct entries. -/
lemma distinct_init {names : List (List Char)} {sdir : SafeDir}
    (hnd : (names.map (List.take fnameLen)).Nodup)
    (h : initSdir names ⟨[], numOfDirFile⟩ = some sdir) : Distinct sdir := by
  have hnames : (initSfile · |>.fname) = List.take fnameLen := rfl
  simp only [Distinct, initSdir_files h, List.nil_append, List.map_map, Function.comp_def, hnames]
  exact hnd.sublist (List.filter_sublist.map _)

/-- A request appends only while its look-up is still right: nobody else has
added the file in between. Calls that fail append nothing. -/
def NoRace {ι : Type*} (s : State ι) : Act ι → Prop
  | .addSfile i semInit => ∀ r name, s.proc i = .append r name →
      semInit = true → s.sdir.files.length ≠ s.sdir.capa → getSfile s.sdir name = none
  | _ => True

/-- Only an append changes the names, and without a race it adds a new one. -/
lemma Distinct.step {ι : Type*} [DecidableEq ι] {s t : State ι} {a : Act ι}
    (h : Distinct s.sdir) (hinv : Inv s) (ha : NoRace s a) (hst : LockTable.step s a = some t) :
    Distinct t.sdir := by
  cases moves_of_step hst with
  | put | start => exact h
  | @append i name r hp hfull =>
    have hnew := getSfile_eq_none.mp (ha r name hp rfl hfull)
    have hstored := Proc.Fits.stored (hp ▸ hinv.fits i)
    simp only [Distinct, State.put, List.map_append, List.map_cons, List.map_nil, hstored]
    exact h.append (List.nodup_singleton name) (by simpa using hnew)
  | @exec i k name pc q f f' hp hf he =>
    have hsame : (s.sdir.files.set k f').map SafeFile.fname =
        s.sdir.files.map SafeFile.fname := by
      obtain ⟨hk, rfl⟩ := List.getElem?_eq_some_iff.mp hf
      have hkm : k < (s.sdir.files.map SafeFile.fname).length := by simpa using hk
      have hn : f'.fname = (s.sdir.files.map SafeFile.fname)[k] := by
        rw [exec_fname he, List.getElem_map]
      rw [List.map_set, hn, List.set_getElem_self]
    simpa [Distinct, State.put, hsame] using h

/-- One lock per file: the names are distinct, the requests for a file all use
one entry, and no writer shares a file with another writer or a reader. -/
structure OneLock {ι : Type*} (s : State ι) : Prop where
  distinct : Distinct s.sdir
  same : ∀ i j k l name pc qc, s.proc i = .region k name pc → s.proc j = .region l name qc → k = l
  exclusive : ∀ i j k l name qc, i ≠ j → s.proc i = .region k name .writing →
    s.proc j = .region l name qc → qc ≠ .writing ∧ qc ≠ .reading

/-- Distinct names send all requests for a file to one entry, and that entry is
a reachable state of the readers-writers lock. -/
lemma Inv.oneLock {ι : Type*} [Fintype ι] [DecidableEq ι] {s : State ι} (h : Inv s)
    (hd : Distinct s.sdir) : OneLock s := by
  have hsame : ∀ i j k l name pc qc, s.proc i = .region k name pc →
      s.proc j = .region l name qc → k = l := by
    intro i j k l name pc qc hi hj
    obtain ⟨f, hf, hfn⟩ := h.named i k name pc hi
    obtain ⟨g, hg, hgn⟩ := h.named j l name qc hj
    have hk : k < (s.sdir.files.map SafeFile.fname).length := by
      simpa using (List.getElem?_eq_some_iff.mp hf).1
    exact (List.getElem?_inj hk hd).mp (by simp [hf, hg, hfn, hgn])
  refine ⟨hd, hsame, ?_⟩
  intro i j k l name qc hij hi hj
  obtain rfl := hsame i j k l name _ qc hi hj
  obtain ⟨f, hf, -⟩ := h.named i k name _ hi
  obtain ⟨_, _, hlock⟩ := reachable_inv (h.entries k f hf)
  have hexcl := hlock.exclusive (i := i) (j := j) (by simp [State.entry, hi, Proc.pcAt]) hij
  simpa [State.entry, hj, Proc.pcAt] using hexcl

/-- In every run in which no append races with another one for the same file, every
reachable state has one lock per file, if the names in the directory differ in the part of
them that an entry can store. -/
theorem one_lock_of_no_race {ι : Type*} [Fintype ι] [DecidableEq ι] {names : List (List Char)}
    {sdir : SafeDir} {s : State ι} (hnd : (names.map (List.take fnameLen)).Nodup)
    (hinit : initSdir names ⟨[], numOfDirFile⟩ = some sdir)
    (hr : Reach step NoRace (init ι sdir) s) : OneLock s := by
  have hkeep : Inv s ∧ Distinct s.sdir := by
    apply hr.invariant (P := fun s => Inv s ∧ Distinct s.sdir)
    · exact ⟨inv_init hinit, distinct_init hnd hinit⟩
    · rintro u a v ⟨hinv, hd⟩ ha hst
      exact ⟨hinv.step hst, hd.step hinv ha hst⟩
  exact hkeep.1.oneLock hkeep.2

/-- One child server uploads a file the table does not list, another one reads it
after the entry is there and waits for the writer. -/
theorem one_lock_of_no_race_reader_waits : ∃ s : State (Fin 2),
    s.proc 0 = .region 2 ['f'] .writing ∧ s.proc 1 = .region 2 ['f'] .rdWaitReadTry ∧
    OneLock s := by
  have hinit : initSdir [['a'], ['.'], ['b']] ⟨[], numOfDirFile⟩ =
      some ⟨[initSfile ['a'], initSfile ['b']], numOfDirFile⟩ := rfl
  have hrun : Reach step NoRace
      (init (Fin 2) ⟨[initSfile ['a'], initSfile ['b']], numOfDirFile⟩) _ := Reach.start
  have h₁ := hrun.next (a := .request 0 .upload ['f']) trivial rfl
  have h₂ := h₁.next (a := .request 1 .readF ['f']) trivial rfl
  have h₃ := h₂.next (a := .getSfile 0) trivial rfl
  have h₄ := h₃.next (a := .addSfile 0 true) (by intro r name hp; cases hp; intros; rfl) rfl
  have h₅ := h₄.next (a := .getSfile 1) trivial rfl
  have h₆ := h₅.next (a := .exec 0) trivial rfl
  have h₇ := h₆.next (a := .exec 0) trivial rfl
  have h₈ := h₇.next (a := .exec 0) trivial rfl
  have h₉ := h₈.next (a := .exec 0) trivial rfl
  have h₁₀ := h₉.next (a := .exec 0) trivial rfl
  have h₁₁ := h₁₀.next (a := .exec 0) trivial rfl
  exact ⟨_, by rfl, by rfl, one_lock_of_no_race (by decide) hinit h₁₁⟩

/-- Two uploads of a file the table does not list: both look-ups come before
both appends, and both child servers write the file at the same time. -/
theorem two_locks_for_one_file : ∃ s : State (Fin 2),
    Reach step always (init (Fin 2) ⟨[], numOfDirFile⟩) s ∧
    s.proc 0 = .region 0 ['f'] .writing ∧ s.proc 1 = .region 1 ['f'] .writing ∧
    s.sdir.files.map SafeFile.fname = [['f'], ['f']] ∧ ¬ OneLock s := by
  refine ⟨_, reach_of_run [.request 0 .upload ['f'], .request 1 .upload ['f'], .getSfile 0,
    .getSfile 1, .addSfile 0 true, .addSfile 1 true, .exec 0, .exec 0, .exec 0, .exec 0, .exec 0,
    .exec 0, .exec 1, .exec 1, .exec 1, .exec 1, .exec 1, .exec 1] rfl, rfl, rfl, rfl, ?_⟩
  intro h
  exact absurd (h.same 0 1 0 1 ['f'] _ _ rfl rfl) (by decide)

end SystemProgramming.LockTable
