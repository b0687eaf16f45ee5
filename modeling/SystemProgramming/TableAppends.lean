import SystemProgramming.LockTable

/-!
# The statements of `get_sfile` and `add_sfile`

`LockTable` takes a look-up and an append as one step each. Here the children go between
their statements: each round of the search is a step, so are the test of the size, each
part of a new record, and the reading and the writing of the size. Records lie in memory
in front of `size` and `capa`; what stands behind the table is not a record.
-/
namespace SystemProgramming.TableAppends
open SystemProgramming.Transition SystemProgramming.ReadersWriters
open SystemProgramming.LockTable (Request cmdLen numOfDirFile SafeDir initSdir exec_fname)

/-- The statements of `init_sfile`. -/
inductive Part where
  | fname
  | readTry
  | rmutex
  | wmutex
  | rsc
  | counts
  deriving DecidableEq, Repr

def Part.init (part : Part) (fname : List Char) (f : SafeFile) : SafeFile :=
  match part with
  | .fname => { f with fname := fname.take fnameLen }
  | .readTry => { f with readTry := 1 }
  | .rmutex => { f with rmutex := 1 }
  | .wmutex => { f with wmutex := 1 }
  | .rsc => { f with rsc := 1 }
  | .counts => { f with readerCount := 0, writerCount := 0 }

/-- `sem_init` may fail. -/
def Part.mayFail : Part → Bool
  | .fname | .counts => false
  | _ => true

def Part.next : Part → Option Part
  | .fname => some .readTry
  | .readTry => some .rmutex
  | .rmutex => some .wmutex
  | .wmutex => some .rsc
  | .rsc => some .counts
  | .counts => none

/-- One behind the other they make the record of `initSfile`. -/
example (fname : List Char) (f : SafeFile) :
    [.fname, .readTry, .rmutex, .wmutex, .rsc, .counts].foldl
      (fun f part => Part.init part fname f) f = initSfile fname := rfl

/-- The statements of `add_sfile`; `size += 1` reads the size and writes it. -/
inductive Stage where
  | test
  | address
  | write (slot : ℕ) (part : Part)
  | load
  | store (n : ℕ)
  | ret
  deriving DecidableEq, Repr

/-- A child server: in the loop of `get_sfile`, in `add_sfile`, or with entry `k`. -/
inductive Proc where
  | idle
  | search (r : Request) (name : List Char) (i : ℕ)
  | append (r : Request) (name : List Char) (stage : Stage)
  | region (k : ℕ) (name : List Char) (pc : Pc)
  deriving DecidableEq, Repr

structure State (ι : Type*) where
  size : ℕ
  files : ℕ → SafeFile
  proc : ι → Proc

inductive Act (ι : Type*) where
  | request (i : ι) (r : Request) (name : List Char)
  | run (i : ι) (semInit : Bool)
  | exec (i : ι)

def Act.child {ι : Type*} : Act ι → ι
  | .request i _ _ | .run i _ | .exec i => i

def State.put {ι : Type*} [DecidableEq ι] (s : State ι) (i : ι) (p : Proc) : State ι :=
  { s with proc := Function.update s.proc i p }

/-- The next statement of `get_sfile` or `add_sfile`. -/
def runStep {ι : Type*} [DecidableEq ι] (s : State ι) (i : ι) (semInit : Bool) :
    Option (State ι) :=
  match s.proc i with
  | .search r name j =>
    some (s.put i (
      if j < s.size then
        if (s.files j).fname = name then .region j name r.start else .search r name (j + 1)
      else .append r name .test))
  | .append r name .test =>
    some (s.put i (if s.size = numOfDirFile then .idle else .append r name .address))
  | .append r name .address => some (s.put i (.append r name (.write s.size .fname)))
  | .append r name (.write slot part) =>
    if part.mayFail = true ∧ semInit = false then some (s.put i .idle)
    else some (State.put
      { s with files := Function.update s.files slot (part.init name (s.files slot)) } i
      (.append r name (match part.next with
        | some part => .write slot part
        | none => .load)))
  | .append r name .load => some (s.put i (.append r name (.store s.size)))
  | .append r name (.store n) =>
    some (State.put { s with size := n + 1 } i (.append r name .ret))
  | .append r name .ret => some (s.put i (.region (s.size - 1) name r.start))
  | _ => none

def step {ι : Type*} [DecidableEq ι] (s : State ι) : Act ι → Option (State ι)
  | .request i r name =>
    if s.proc i = .idle ∧ name.length < cmdLen then some (s.put i (.search r name 0)) else none
  | .run i semInit => runStep s i semInit
  | .exec i =>
    match s.proc i with
    | .region k name pc =>
      ((s.files k).exec pc).map fun r =>
        State.put { s with files := Function.update s.files k r.1 } i
          (if r.2 = .idle then .idle else .region k name r.2)
    | _ => none

/-- The table of `init_sdir`; the entries behind it hold what the memory held. -/
def init (ι : Type*) (sdir : SafeDir) (junk : ℕ → SafeFile) : State ι where
  size := sdir.files.length
  files := fun k => (sdir.files[k]?).getD (junk k)
  proc := fun _ => .idle

/-- The entry that a statement reads or writes. -/
def touches {ι : Type*} (s : State ι) (a : Act ι) : Option ℕ :=
  match s.proc a.child with
  | .search _ _ j => if j < s.size then some j else none
  | .append _ _ (.write slot _) => some slot
  | .region k _ _ => some k
  | _ => none

/-- The statement does not reach behind the table. -/
def InBounds {ι : Type*} (s : State ι) (a : Act ι) : Prop :=
  ((touches s a).all fun k => k < numOfDirFile) = true

instance {ι : Type*} (s : State ι) (a : Act ι) : Decidable (InBounds s a) :=
  inferInstanceAs (Decidable (_ = true))

/-- What a child server does to entry `k`. -/
def Proc.pcAt (k : ℕ) : Proc → Pc
  | .region k' _ pc => if k' = k then pc else .idle
  | _ => .idle

/-- The server seen from entry `k`. -/
def State.entry {ι : Type*} (s : State ι) (k : ℕ) : ReadersWriters.State ι :=
  ⟨s.files k, fun i => (s.proc i).pcAt k⟩

/-- A child that handles a file of the start-up table does not get past its entry in the
search; the others stay behind the start-up entries. -/
def Place (names : List (List Char)) (size : ℕ) : Proc → Prop
  | .idle => True
  | .search _ name j => ∀ k : ℕ, names[k]? = some name → j ≤ k
  | .append _ name stage => name ∉ names ∧ match stage with
    | .write slot _ => names.length ≤ slot
    | .store n => names.length ≤ n
    | .ret => names.length < size
    | _ => True
  | .region k name _ => names[k]? = some name ∨ name ∉ names ∧ names.length ≤ k

/-- The entries of the start-up table are locks of their own for their files. -/
structure Inv {ι : Type*} [DecidableEq ι] (names : List (List Char)) (s : State ι) : Prop where
  size_le : names.length ≤ s.size
  named : ∀ k name, names[k]? = some name → (s.files k).fname = name
  entries : ∀ k name, names[k]? = some name → ReadersWriters.Reachable name (s.entry k)
  place : ∀ i, Place names s.size (s.proc i)

lemma place_mono {names : List (List Char)} {size size' : ℕ} {p : Proc}
    (h : Place names size p) (hsize : names.length < size → names.length < size') :
    Place names size' p := by
  cases p with
  | append r name stage =>
    cases stage with
    | ret => exact ⟨h.1, hsize h.2⟩
    | _ => exact h
  | _ => exact h

/-- A move that the start-up entries do not notice. -/
lemma Inv.move {ι : Type*} [DecidableEq ι] {names : List (List Char)} {s : State ι}
    (h : Inv names s) {i : ι} {size : ℕ} {files : ℕ → SafeFile} {p : Proc}
    (hsize : names.length ≤ size) (hgrown : names.length < s.size → names.length < size)
    (hfiles : ∀ k, k < names.length → files k = s.files k)
    (hpc : ∀ k, k < names.length → p.pcAt k = (s.proc i).pcAt k) (hp : Place names size p) :
    Inv names ⟨size, files, Function.update s.proc i p⟩ := by
  have hlt : ∀ k name, names[k]? = some name → k < names.length := fun k name hk =>
    (List.getElem?_eq_some_iff.mp hk).1
  refine ⟨hsize, fun k name hk => ?_, fun k name hk => ?_, fun j => ?_⟩
  · exact (congrArg SafeFile.fname (hfiles k (hlt k name hk))).trans (h.named k name hk)
  · have hsame : State.entry ⟨size, files, Function.update s.proc i p⟩ k = s.entry k := by
      simp only [State.entry, hfiles k (hlt k name hk), ReadersWriters.State.mk.injEq, true_and]
      funext j
      exact apply_update_eq (g := Proc.pcAt k) (hpc k (hlt k name hk)) j
    rw [hsame]
    exact h.entries k name hk
  · dsimp only
    rcases eq_or_ne j i with rfl | hji
    · rwa [Function.update_self]
    · rw [Function.update_of_ne hji]
      exact place_mono (h.place j) hgrown

/-- A child goes on outside the entries. -/
lemma Inv.put {ι : Type*} [DecidableEq ι] {names : List (List Char)} {s : State ι}
    (h : Inv names s) {i : ι} {p : Proc} (hold : ∀ k, (s.proc i).pcAt k = .idle)
    (hnew : ∀ k, k < names.length → p.pcAt k = .idle) (hp : Place names s.size p) :
    Inv names (s.put i p) :=
  h.move h.size_le id (fun _ _ => rfl) (fun k hk => (hnew k hk).trans (hold k).symm) hp

/-- A request for a listed file starts at its entry. -/
lemma Inv.start {ι : Type*} [DecidableEq ι] {names : List (List Char)} {s : State ι}
    (h : Inv names s) {i : ι} {k : ℕ} {name : List Char} (r : Request)
    (hold : ∀ k, (s.proc i).pcAt k = .idle) (hk : names[k]? = some name) :
    Inv names (s.put i (.region k name r.start)) := by
  refine ⟨h.size_le, h.named, fun l other hl => ?_, fun j => ?_⟩
  · have hentry : (s.put i (.region k name r.start)).entry l =
        ⟨s.files l, Function.update (fun j => (s.proc j).pcAt l) i
          ((Proc.region k name r.start).pcAt l)⟩ := by
      simp only [State.entry, State.put, ReadersWriters.State.mk.injEq, true_and]
      exact Function.comp_update (Proc.pcAt l) s.proc i _
    rw [hentry]
    rcases eq_or_ne k l with rfl | hkl
    · have hcall : ReadersWriters.step (s.entry k)
          (if r.start = .wrWaitWmutex then .writer i else .reader i) =
          some ⟨s.files k, Function.update (fun j => (s.proc j).pcAt k) i r.start⟩ := by
        cases r <;> simp [Request.start, ReadersWriters.step, State.entry, hold]
      have hpc : (Proc.region k name r.start).pcAt k = r.start := if_pos rfl
      rw [hpc]
      exact (h.entries k other hl).next trivial hcall
    · have hpc : (Proc.region k name r.start).pcAt l = (s.proc i).pcAt l := by
        rw [hold l]
        exact if_neg hkl
      rw [hpc, Function.update_eq_self]
      exact h.entries l other hl
  · rcases eq_or_ne j i with rfl | hji
    · simp only [State.put, Function.update_self]
      exact Or.inl hk
    · simpa [State.put, Function.update_of_ne hji] using h.place j

/-- A statement of a region function, with an entry of the start-up table or behind. -/
lemma Inv.exec {ι : Type*} [DecidableEq ι] {names : List (List Char)} {s : State ι}
    (h : Inv names s) {i : ι} {k : ℕ} {name : List Char} {pc q : Pc} {f : SafeFile}
    (hi : s.proc i = .region k name pc) (he : (s.files k).exec pc = some (f, q)) :
    Inv names (State.put { s with files := Function.update s.files k f } i
      (if q = .idle then .idle else .region k name q)) := by
  have hpc : ∀ l, (if q = .idle then Proc.idle else .region k name q).pcAt l =
      if k = l then q else .idle := by
    intro l
    split_ifs with hq hkl hkl
    · exact hq.symm
    · rfl
    · exact if_pos hkl
    · exact if_neg hkl
  refine ⟨h.size_le, fun l other hl => ?_, fun l other hl => ?_, fun j => ?_⟩
  · have hnamed := h.named l other hl
    simp only [State.put]
    rcases eq_or_ne l k with rfl | hlk
    · rw [Function.update_self, exec_fname he, hnamed]
    · rw [Function.update_of_ne hlk, hnamed]
  · have hentry : State.entry (State.put { s with files := Function.update s.files k f } i
        (if q = .idle then .idle else .region k name q)) l =
        ⟨Function.update s.files k f l, Function.update (fun j => (s.proc j).pcAt l) i
          (if k = l then q else .idle)⟩ := by
      simp only [State.entry, State.put, ReadersWriters.State.mk.injEq, true_and, ← hpc l]
      exact Function.comp_update (Proc.pcAt l) s.proc i _
    rw [hentry]
    rcases eq_or_ne k l with rfl | hkl
    · rw [Function.update_self, if_pos rfl]
      have hstep : ReadersWriters.step (s.entry k) (.exec i) =
          some ⟨f, Function.update (fun j => (s.proc j).pcAt k) i q⟩ := by
        simp [ReadersWriters.step, State.entry, hi, Proc.pcAt, he]
      exact (h.entries k other hl).next trivial hstep
    · have hsame : (s.proc i).pcAt l = .idle := by
        rw [hi]
        exact if_neg hkl
      rw [Function.update_of_ne hkl.symm, if_neg hkl, ← hsame, Function.update_eq_self]
      exact h.entries l other hl
  · rcases eq_or_ne j i with rfl | hji
    · have hplace := h.place j
      rw [hi] at hplace
      simp only [State.put, Function.update_self]
      split_ifs
      · trivial
      · exact hplace
    · simpa [State.put, Function.update_of_ne hji] using h.place j

/-- A round of the search. -/
lemma Inv.search {ι : Type*} [DecidableEq ι] {names : List (List Char)} {s : State ι}
    (h : Inv names s) {i : ι} {r : Request} {name : List Char} {j : ℕ}
    (hi : s.proc i = .search r name j) :
    Inv names (s.put i (
      if j < s.size then
        if (s.files j).fname = name then .region j name r.start else .search r name (j + 1)
      else .append r name .test)) := by
  have hold : ∀ k, (s.proc i).pcAt k = .idle := fun k => by rw [hi]; rfl
  have hplace : ∀ k : ℕ, names[k]? = some name → j ≤ k := by
    have hplace := h.place i
    rwa [hi] at hplace
  have hlisted : names.length ≤ j → name ∉ names := by
    intro hj hmem
    obtain ⟨k, hk⟩ := List.mem_iff_getElem?.mp hmem
    have hlt := (List.getElem?_eq_some_iff.mp hk).1
    have hle := hplace k hk
    omega
  split_ifs with hsize hname
  · rcases Nat.lt_or_ge j names.length with hj | hj
    · have hentry : names[j]? = some name := by
        rw [List.getElem?_eq_getElem hj, ← hname,
          h.named j _ (List.getElem?_eq_getElem hj)]
      exact h.start r hold hentry
    · exact h.put hold (fun k hk => if_neg (by omega)) (Or.inr ⟨hlisted hj, hj⟩)
  · refine h.put hold (fun k _ => rfl) fun k hk => ?_
    have hle := hplace k hk
    have hne : j ≠ k := by
      rintro rfl
      exact hname (h.named j name hk)
    omega
  · exact h.put hold (fun k _ => rfl) ⟨hlisted (h.size_le.trans (by omega)), trivial⟩

lemma Inv.runStep {ι : Type*} [DecidableEq ι] {names : List (List Char)} {s t : State ι}
    (h : Inv names s) {i : ι} {semInit : Bool}
    (hst : runStep s i semInit = some t) : Inv names t := by
  unfold TableAppends.runStep at hst
  cases hi : s.proc i with
  | search r name j =>
    rw [hi] at hst
    cases hst
    exact h.search hi
  | append r name stage =>
    have hold : ∀ k, (s.proc i).pcAt k = .idle := fun k => by rw [hi]; rfl
    have hplace := h.place i
    rw [hi] at hst hplace
    obtain ⟨hname, hstage⟩ := hplace
    have hsize := h.size_le
    cases stage with
    | test =>
      cases hst
      split_ifs
      · exact h.put hold (fun k _ => rfl) trivial
      · exact h.put hold (fun k _ => rfl) ⟨hname, trivial⟩
    | address =>
      cases hst
      exact h.put hold (fun k _ => rfl) ⟨hname, hsize⟩
    | write slot part =>
      simp only at hst
      split_ifs at hst <;> cases hst
      · exact h.put hold (fun k _ => rfl) trivial
      · refine h.move hsize id (fun k hk => ?_) (fun k _ => (hold k).symm) ⟨hname, ?_⟩
        · have hne : k ≠ slot := by
            rintro rfl
            exact absurd hk (not_lt.mpr hstage)
          exact Function.update_of_ne hne _ _
        · cases part <;> first | exact hstage | trivial
    | load =>
      cases hst
      exact h.put hold (fun k _ => rfl) ⟨hname, hsize⟩
    | store n =>
      cases hst
      have hgrown : names.length < n + 1 := Nat.lt_succ_of_le hstage
      exact h.move hgrown.le (fun _ => hgrown) (fun _ _ => rfl) (fun k _ => (hold k).symm)
        ⟨hname, hgrown⟩
    | ret =>
      cases hst
      have hlt : names.length < s.size := hstage
      exact h.put hold (fun k hk => if_neg (by omega)) (Or.inr ⟨hname, by omega⟩)
  | idle | region k name pc =>
    rw [hi] at hst
    cases hst

theorem Inv.step {ι : Type*} [DecidableEq ι] {names : List (List Char)} {s t : State ι}
    {a : Act ι} (h : Inv names s) (hst : step s a = some t) : Inv names t := by
  cases a with
  | request i r name =>
    simp only [TableAppends.step] at hst
    split_ifs at hst with hi
    cases hst
    exact h.put (fun k => by rw [hi.1]; rfl) (fun k _ => rfl) fun k _ => Nat.zero_le k
  | run i semInit => exact h.runStep hst
  | exec i =>
    simp only [TableAppends.step] at hst
    split at hst
    · rename_i k name pc hi
      obtain ⟨⟨f, q⟩, he, rfl⟩ := Option.map_eq_some_iff.mp hst
      exact h.exec hi he
    · cases hst

/-- The names that `init_sdir` lists. -/
def listed (dir : List (List Char)) : List (List Char) :=
  dir.filter fun n => n ≠ ['.'] ∧ n ≠ ['.', '.']

lemma inv_init {ι : Type*} [DecidableEq ι] {dir : List (List Char)} {sdir : SafeDir}
    (hshort : ∀ name, name ∈ dir → name.length < fnameLen)
    (h : initSdir dir ⟨[], numOfDirFile⟩ = some sdir) (junk : ℕ → SafeFile) :
    Inv (listed dir) (init ι sdir junk) := by
  have htable : sdir.files = (listed dir).map initSfile := LockTable.initSdir_files h
  have hfiles : ∀ k name, (listed dir)[k]? = some name →
      (init ι sdir junk).files k = initSfile name := by
    intro k name hk
    simp [init, htable, hk]
  refine ⟨by simp [init, htable], fun k name hk => ?_, fun k name hk => ?_, fun i => trivial⟩
  · rw [hfiles k name hk]
    exact initSfile_fname (hshort name (List.mem_of_mem_filter (List.mem_of_getElem? hk)))
  · have hentry : (init ι sdir junk).entry k = ReadersWriters.init ι name := by
      simp only [State.entry, hfiles k name hk]
      rfl
    rw [hentry]
    exact Reach.start

end SystemProgramming.TableAppends
