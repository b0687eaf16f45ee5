import SystemProgramming.TableAppends

/-!
# Look-ups and appends as one step each

As long as no child begins `add_sfile` while another one is in it, the statements of
`get_sfile` and `add_sfile` come to the look-ups and appends of `LockTable`: a search takes
place when it ends, an append when it writes the size. No statement then reaches behind
the table.
-/
namespace SystemProgramming.TableAppends
open SystemProgramming.Transition SystemProgramming.ReadersWriters
open SystemProgramming.LockTable (Request numOfDirFile SafeDir initSdir exec_fname)

/-- The child has begun `add_sfile`, and has not come back from it. -/
def Proc.adding : Proc → Bool
  | .append _ _ .test => false
  | .append _ _ _ => true
  | _ => false

/-- The child is about to begin `add_sfile`. -/
def Proc.begins : Proc → Bool
  | .append _ _ .test => true
  | _ => false

/-- A child begins `add_sfile` only when no other one is in it. -/
def Alone {ι : Type*} (s : State ι) : Act ι → Prop
  | .run i _ => (s.proc i).begins = true → ∀ j, (s.proc j).adding = false
  | _ => True

instance {ι : Type*} [Fintype ι] (s : State ι) (a : Act ι) : Decidable (Alone s a) :=
  match a with
  | .run _ _ => inferInstanceAs (Decidable (_ → _))
  | .request _ _ _ | .exec _ => isTrue trivial

/-- What the child does in `LockTable`. -/
def Proc.coarse (size : ℕ) : Proc → LockTable.Proc
  | .idle => .idle
  | .search r name _ => .lookup r name
  | .append r name .ret => .region (size - 1) name r.start
  | .append r name _ => .append r name
  | .region k name pc => .region k name pc

/-- The table and the children of `LockTable`. -/
def State.coarse {ι : Type*} (s : State ι) : LockTable.State ι where
  sdir := ⟨(List.range s.size).map s.files, numOfDirFile⟩
  proc := fun i => (s.proc i).coarse s.size

/-- The statements of `init_sfile` that are left, this one included. -/
def Part.rest : Part → List Part
  | .fname => [.fname, .readTry, .rmutex, .wmutex, .rsc, .counts]
  | .readTry => [.readTry, .rmutex, .wmutex, .rsc, .counts]
  | .rmutex => [.rmutex, .wmutex, .rsc, .counts]
  | .wmutex => [.wmutex, .rsc, .counts]
  | .rsc => [.rsc, .counts]
  | .counts => [.counts]

/-- The record when the statements that are left have been executed. -/
def Part.finish (part : Part) (fname : List Char) (f : SafeFile) : SafeFile :=
  part.rest.foldl (fun f part => part.init fname f) f

lemma Part.finish_next {part next : Part} (h : part.next = some next) (fname : List Char)
    (f : SafeFile) : next.finish fname (part.init fname f) = part.finish fname f := by
  cases part <;> cases h <;> rfl

lemma Part.finish_last {part : Part} (h : part.next = none) (fname : List Char) (f : SafeFile) :
    part.init fname f = part.finish fname f := by
  cases part <;> first | rfl | cases h

/-- A search has passed only entries of other names; a child in `add_sfile` writes the
first free entry and nothing else; the others use entries of the table. -/
def Tidy (size : ℕ) (files : ℕ → SafeFile) : Proc → Prop
  | .idle => True
  | .search _ name j => j ≤ size ∧ ∀ k, k < j → (files k).fname ≠ name
  | .append _ name stage => match stage with
    | .test => True
    | .address => size < numOfDirFile
    | .write slot part => slot = size ∧ size < numOfDirFile ∧
        part.finish name (files size) = initSfile name
    | .load => size < numOfDirFile ∧ files size = initSfile name
    | .store n => n = size ∧ size < numOfDirFile ∧ files size = initSfile name
    | .ret => 0 < size
  | .region k _ _ => k < size

structure Orderly {ι : Type*} (s : State ι) : Prop where
  size_le : s.size ≤ numOfDirFile
  single : ∀ i j, (s.proc i).adding = true → (s.proc j).adding = true → i = j
  tidy : ∀ i, Tidy s.size s.files (s.proc i)

/-- What another child does to the table does not disturb a child that is not in
`add_sfile`. -/
lemma Tidy.frame {size size' : ℕ} {files files' : ℕ → SafeFile} {p : Proc}
    (h : Tidy size files p) (hp : p.adding = false) (hsize : size ≤ size')
    (hnames : ∀ k, k < size → (files' k).fname = (files k).fname) : Tidy size' files' p := by
  cases p with
  | idle => trivial
  | search r name j =>
    refine ⟨h.1.trans hsize, fun k hk => ?_⟩
    rw [hnames k (hk.trans_le h.1)]
    exact h.2 k hk
  | append r name stage => cases stage <;> trivial
  | region k name pc => exact lt_of_lt_of_le h hsize

/-- A statement on an entry of the table leaves the names and the first free entry. -/
lemma Tidy.congr {size : ℕ} {files files' : ℕ → SafeFile} {p : Proc} (h : Tidy size files p)
    (hfree : files' size = files size)
    (hnames : ∀ k, k < size → (files' k).fname = (files k).fname) : Tidy size files' p := by
  cases p with
  | append r name stage =>
    unfold Tidy at h ⊢
    rwa [hfree]
  | _ => exact h.frame rfl le_rfl hnames

/-- Child `i` moves, alone in `add_sfile` if it is there behind the move. -/
lemma Orderly.move {ι : Type*} [DecidableEq ι] {s : State ι} (h : Orderly s) {i : ι} {p : Proc}
    {size : ℕ} {files : ℕ → SafeFile} (hle : size ≤ numOfDirFile)
    (hadding : p.adding = true → ∀ j, j ≠ i → (s.proc j).adding = false)
    (hothers : ∀ j, j ≠ i → Tidy size files (s.proc j)) (hp : Tidy size files p) :
    Orderly ⟨size, files, Function.update s.proc i p⟩ := by
  refine ⟨hle, fun j k hj hk => ?_, fun j => ?_⟩
  · dsimp only at hj hk
    rcases eq_or_ne j i with rfl | hji <;> rcases eq_or_ne k j with rfl | hkj
    · rfl
    · rw [Function.update_self] at hj
      rw [Function.update_of_ne hkj, hadding hj k hkj] at hk
      cases hk
    · rfl
    · rw [Function.update_of_ne hji] at hj
      rcases eq_or_ne k i with rfl | hki
      · rw [Function.update_self] at hk
        rw [hadding hk j hji] at hj
        cases hj
      · rw [Function.update_of_ne hki] at hk
        exact h.single j k hj hk
  · dsimp only
    rcases eq_or_ne j i with rfl | hji
    · rwa [Function.update_self]
    · rw [Function.update_of_ne hji]
      exact hothers j hji

/-- Child `i` moves without touching the table. -/
lemma Orderly.put {ι : Type*} [DecidableEq ι] {s : State ι} (h : Orderly s) {i : ι} {p : Proc}
    (hadding : p.adding = true → ∀ j, j ≠ i → (s.proc j).adding = false)
    (hp : Tidy s.size s.files p) : Orderly (s.put i p) :=
  h.move h.size_le hadding (fun j _ => h.tidy j) hp

/-- The other children are not in `add_sfile` while one is. -/
lemma Orderly.others {ι : Type*} {s : State ι} (h : Orderly s) {i : ι}
    (hi : (s.proc i).adding = true) (j : ι) (hji : j ≠ i) : (s.proc j).adding = false := by
  by_contra hj
  exact hji (h.single j i (by simpa using hj) hi)

lemma coarse_put {ι : Type*} [DecidableEq ι] (s : State ι) (i : ι) (p : Proc) :
    (s.put i p).coarse = s.coarse.put i (p.coarse s.size) := by
  simp only [State.coarse, State.put, LockTable.State.put, LockTable.State.mk.injEq, true_and]
  exact Function.comp_update (Proc.coarse s.size) s.proc i p

/-- A move that `LockTable` does not show. -/
lemma coarse_put_eq {ι : Type*} [DecidableEq ι] {s : State ι} {i : ι} {p : Proc}
    (h : p.coarse s.size = (s.proc i).coarse s.size) : (s.put i p).coarse = s.coarse := by
  rw [coarse_put, h]
  simp only [LockTable.State.put, State.coarse]
  congr 1
  exact Function.update_eq_self i _

lemma getElem?_coarse {ι : Type*} {s : State ι} {k : ℕ} (h : k < s.size) :
    s.coarse.sdir.files[k]? = some (s.files k) := by
  simp [State.coarse, h]

/-- A search that has come to an entry of its name has found the first one. -/
lemma getSfile_found {ι : Type*} {s : State ι} {name : List Char} {j : ℕ} (hj : j < s.size)
    (hpassed : ∀ k, k < j → (s.files k).fname ≠ name) (hname : (s.files j).fname = name) :
    LockTable.getSfile s.coarse.sdir name = some j := by
  refine List.findIdx?_eq_some_iff_getElem.mpr ⟨by simpa [State.coarse] using hj, ?_, ?_⟩
  · simpa [State.coarse] using hname
  · intro k hk
    simpa [State.coarse] using hpassed k hk

/-- A search that has come to the end has passed all entries. -/
lemma getSfile_missing {ι : Type*} {s : State ι} {name : List Char}
    (hpassed : ∀ k, k < s.size → (s.files k).fname ≠ name) :
    LockTable.getSfile s.coarse.sdir name = none := by
  refine LockTable.getSfile_eq_none.mpr fun hmem => ?_
  simp only [State.coarse, List.map_map, List.mem_map, List.mem_range, Function.comp_apply] at hmem
  obtain ⟨k, hk, hname⟩ := hmem
  exact hpassed k hk hname

/-- The child moves as `LockTable` has it, or not at all there. -/
def Simulated {ι : Type*} [DecidableEq ι] (s t : State ι) : Prop :=
  t.coarse = s.coarse ∨ ∃ b, LockTable.step s.coarse b = some t.coarse

lemma Orderly.search {ι : Type*} [DecidableEq ι] {s : State ι} (h : Orderly s) {i : ι}
    {r : Request} {name : List Char} {j : ℕ} (hi : s.proc i = .search r name j) {p : Proc}
    (hp : p = if j < s.size then
        if (s.files j).fname = name then .region j name r.start else .search r name (j + 1)
      else .append r name .test) :
    Orderly (s.put i p) ∧ Simulated s (s.put i p) := by
  have htidy : j ≤ s.size ∧ ∀ k, k < j → (s.files k).fname ≠ name := by
    have htidy := h.tidy i
    rwa [hi] at htidy
  obtain ⟨hj, hpassed⟩ := htidy
  have hcoarse : s.coarse.proc i = .lookup r name := by
    simp only [State.coarse, hi]
    rfl
  split_ifs at hp with hsize hname <;> subst hp
  · refine ⟨h.put (fun hadding => by cases hadding) hsize, Or.inr ⟨.getSfile i, ?_⟩⟩
    rw [coarse_put]
    simp only [LockTable.step, hcoarse, getSfile_found hsize hpassed hname]
    rfl
  · refine ⟨h.put (fun hadding => by cases hadding) ⟨hsize, fun k hk => ?_⟩, Or.inl ?_⟩
    · rcases Nat.lt_succ_iff_lt_or_eq.mp hk with hlt | rfl
      · exact hpassed k hlt
      · exact hname
    · exact coarse_put_eq (by rw [hi]; rfl)
  · have hend : j = s.size := by omega
    refine ⟨h.put (fun hadding => by cases hadding) trivial, Or.inr ⟨.getSfile i, ?_⟩⟩
    rw [coarse_put]
    simp only [LockTable.step, hcoarse, getSfile_missing (hend ▸ hpassed)]
    rfl

/-- The child gives up in `add_sfile`, as in `LockTable`. -/
lemma Orderly.gives_up {ι : Type*} [DecidableEq ι] {s : State ι} (h : Orderly s) {i : ι}
    {r : Request} {name : List Char} (semInit : Bool) (hi : s.coarse.proc i = .append r name)
    (hfails : LockTable.addSfile s.coarse.sdir name semInit = none) :
    Orderly (s.put i .idle) ∧ Simulated s (s.put i .idle) := by
  refine ⟨h.put (fun hadding => by cases hadding) trivial, Or.inr ⟨.addSfile i semInit, ?_⟩⟩
  rw [coarse_put]
  simp only [LockTable.step, hi, hfails]
  rfl

/-- The size is written: the new entry shows. -/
lemma Orderly.store {ι : Type*} [DecidableEq ι] {s : State ι} (h : Orderly s) {i : ι}
    {r : Request} {name : List Char} (hi : s.proc i = .append r name (.store s.size))
    (hfree : s.size < numOfDirFile) (hfile : s.files s.size = initSfile name) :
    Orderly (State.put { s with size := s.size + 1 } i (.append r name .ret)) ∧
      Simulated s (State.put { s with size := s.size + 1 } i (.append r name .ret)) := by
  have hadding : (s.proc i).adding = true := by
    rw [hi]
    rfl
  refine ⟨h.move hfree (fun _ => h.others hadding) (fun j hj => ?_) (Nat.succ_pos _),
    Or.inr ⟨.addSfile i true, ?_⟩⟩
  · exact (h.tidy j).frame (h.others hadding j hj) (Nat.le_succ _) fun _ _ => rfl
  · have hproc : s.coarse.proc i = .append r name := by
      simp only [State.coarse, hi]
      rfl
    have hadd : LockTable.addSfile s.coarse.sdir name true =
        some (⟨(List.range (s.size + 1)).map s.files, numOfDirFile⟩, s.size) := by
      simp [LockTable.addSfile, State.coarse, hfree.ne, List.range_succ, hfile]
    simp only [LockTable.step, hproc, hadd, Option.some.injEq]
    simp only [State.coarse, State.put, LockTable.State.put, LockTable.State.mk.injEq, true_and]
    funext j
    rcases eq_or_ne j i with rfl | hji
    · simp [Proc.coarse]
    · simp only [Function.update_of_ne hji]
      cases hj : s.proc j with
      | append r name stage =>
        have hother := h.others hadding j hji
        rw [hj] at hother
        cases stage <;> first | rfl | cases hother
      | _ => rfl

lemma Orderly.run {ι : Type*} [DecidableEq ι] {s t : State ι} (h : Orderly s) {i : ι}
    {semInit : Bool} (ha : Alone s (.run i semInit)) (hst : runStep s i semInit = some t) :
    Orderly t ∧ Simulated s t := by
  unfold runStep at hst
  cases hi : s.proc i with
  | search r name j =>
    rw [hi] at hst
    cases hst
    exact h.search hi rfl
  | append r name stage =>
    have htidy := h.tidy i
    rw [hi] at hst htidy
    cases stage with
    | test =>
      have hproc : s.coarse.proc i = .append r name := by
        simp only [State.coarse, hi]
        rfl
      cases hst
      split_ifs with hfull
      · exact h.gives_up true hproc (by simp [LockTable.addSfile, State.coarse, hfull])
      · have hfree : s.size < numOfDirFile := lt_of_le_of_ne h.size_le hfull
        exact ⟨h.put (fun _ j _ => ha (by rw [hi]; rfl) j) hfree,
          Or.inl (coarse_put_eq (by rw [hi]; rfl))⟩
    | address =>
      have hadding := h.others (i := i) (by rw [hi]; rfl)
      cases hst
      refine ⟨h.put (fun _ => hadding) ⟨rfl, htidy, rfl⟩, Or.inl (coarse_put_eq ?_)⟩
      rw [hi]
      rfl
    | write slot part =>
      have hadding := h.others (i := i) (by rw [hi]; rfl)
      have hproc : s.coarse.proc i = .append r name := by
        simp only [State.coarse, hi]
        rfl
      obtain ⟨rfl, hfree, hrest⟩ := htidy
      simp only at hst
      split_ifs at hst with hfails <;> cases hst
      · exact h.gives_up false hproc (by simp [LockTable.addSfile])
      · have hnames : ∀ k, k < s.size → (Function.update s.files s.size
            (part.init name (s.files s.size)) k) = s.files k := fun k hk =>
          Function.update_of_ne hk.ne _ _
        refine ⟨h.move h.size_le (fun _ => hadding) (fun j hj => ?_) ?_, Or.inl ?_⟩
        · exact (h.tidy j).frame (hadding j hj) le_rfl
            fun k hk => congrArg SafeFile.fname (hnames k hk)
        · cases hnext : part.next with
          | some next =>
            refine ⟨rfl, hfree, ?_⟩
            dsimp only
            rw [Function.update_self, Part.finish_next hnext, hrest]
          | none =>
            refine ⟨hfree, ?_⟩
            dsimp only
            rw [Function.update_self, Part.finish_last hnext, hrest]
        · have hfiles : (List.range s.size).map (Function.update s.files s.size
              (part.init name (s.files s.size))) = (List.range s.size).map s.files :=
            List.map_congr_left fun k hk => hnames k (List.mem_range.mp hk)
          simp only [State.coarse, State.put, hfiles, LockTable.State.mk.injEq, true_and]
          funext j
          refine apply_update_eq (g := Proc.coarse s.size) ?_ j
          rw [hi]
          cases part.next <;> rfl
    | load =>
      have hadding := h.others (i := i) (by rw [hi]; rfl)
      cases hst
      refine ⟨h.put (fun _ => hadding) ⟨rfl, htidy⟩, Or.inl (coarse_put_eq ?_)⟩
      rw [hi]
      rfl
    | store n =>
      obtain ⟨rfl, hfree, hfile⟩ := htidy
      cases hst
      exact h.store hi hfree hfile
    | ret =>
      have hpos : 0 < s.size := htidy
      cases hst
      refine ⟨h.put (fun hadding => by cases hadding) (Nat.sub_one_lt hpos.ne'),
        Or.inl (coarse_put_eq ?_)⟩
      rw [hi]
      rfl
  | idle | region k name pc =>
    rw [hi] at hst
    cases hst

/-- A statement of a region function, on an entry of the table. -/
lemma Orderly.exec {ι : Type*} [DecidableEq ι] {s : State ι} (h : Orderly s) {i : ι} {k : ℕ}
    {name : List Char} {pc q : Pc} {f : SafeFile} (hi : s.proc i = .region k name pc)
    (he : (s.files k).exec pc = some (f, q)) {t : State ι}
    (ht : t = State.put { s with files := Function.update s.files k f } i
      (if q = .idle then .idle else .region k name q)) :
    Orderly t ∧ Simulated s t := by
  subst ht
  have hk : k < s.size := by
    have htidy := h.tidy i
    rwa [hi] at htidy
  have hnames : ∀ l, (Function.update s.files k f l).fname = (s.files l).fname := by
    intro l
    rcases eq_or_ne l k with rfl | hlk
    · rw [Function.update_self, exec_fname he]
    · rw [Function.update_of_ne hlk]
  have hsize : Function.update s.files k f s.size = s.files s.size :=
    Function.update_of_ne hk.ne' _ _
  refine ⟨h.move h.size_le ?_ (fun j _ => ?_) ?_, Or.inr ⟨.exec i, ?_⟩⟩
  · split_ifs <;> exact fun hadding => by cases hadding
  · exact (h.tidy j).congr hsize fun l _ => hnames l
  · split_ifs
    · trivial
    · exact hk
  · have hproc : s.coarse.proc i = .region k name pc := by
      simp only [State.coarse, hi]
      rfl
    have hfiles : (List.range s.size).map (Function.update s.files k f) =
        ((List.range s.size).map s.files).set k f := by
      refine List.ext_getElem (by simp) fun l hl _ => ?_
      rw [List.getElem_set]
      simp only [List.getElem_map, List.getElem_range, Function.update_apply, eq_comm]
    simp only [LockTable.step, hproc, getElem?_coarse hk, Option.bind_some, he, Option.map_some,
      Option.some.injEq]
    simp only [State.coarse, State.put, LockTable.State.put, hfiles, LockTable.State.mk.injEq,
      true_and]
    funext j
    rcases eq_or_ne j i with rfl | hji
    · simp only [Function.update_self]
      split_ifs <;> rfl
    · simp only [Function.update_of_ne hji]

/-- One step of the children is one step of `LockTable`, or none. -/
theorem Orderly.step {ι : Type*} [DecidableEq ι] {s t : State ι} {a : Act ι} (h : Orderly s)
    (ha : Alone s a) (hst : step s a = some t) : Orderly t ∧ Simulated s t := by
  cases a with
  | request i r name =>
    simp only [TableAppends.step] at hst
    split_ifs at hst with hi
    cases hst
    refine ⟨h.put (fun hadding => by cases hadding) ⟨Nat.zero_le _, fun k hk => by omega⟩,
      Or.inr ⟨.request i r name, ?_⟩⟩
    have hproc : s.coarse.proc i = .idle := by
      simp only [State.coarse, hi.1]
      rfl
    rw [coarse_put]
    simp only [LockTable.step, if_pos (And.intro hproc hi.2)]
    rfl
  | run i semInit => exact h.run ha hst
  | exec i =>
    simp only [TableAppends.step] at hst
    split at hst
    · rename_i k name pc hi
      obtain ⟨⟨f, q⟩, he, rfl⟩ := Option.map_eq_some_iff.mp hst
      exact h.exec hi he rfl
    · cases hst

/-- The start-up table is not overfull. -/
lemma initSdir_room {dir : List (List Char)} {sdir sdir' : SafeDir}
    (h : initSdir dir sdir = some sdir') (hroom : sdir.files.length ≤ sdir.capa) :
    sdir'.files.length ≤ sdir'.capa ∧ sdir'.capa = sdir.capa := by
  induction dir generalizing sdir with
  | nil =>
    cases h
    exact ⟨hroom, rfl⟩
  | cons name dir ih =>
    simp only [initSdir] at h
    split_ifs at h
    · obtain ⟨⟨next, k⟩, hadd, hrest⟩ := Option.bind_eq_some_iff.mp h
      obtain ⟨hfull, -, -, rfl⟩ := LockTable.addSfile_eq_some hadd
      have hmore := ih hrest (by simpa [Nat.succ_le_iff] using Nat.lt_of_le_of_ne hroom hfull)
      exact hmore
    · exact ih h hroom

lemma orderly_init {ι : Type*} {dir : List (List Char)} {sdir : SafeDir}
    (h : initSdir dir ⟨[], numOfDirFile⟩ = some sdir) (junk : ℕ → SafeFile) :
    Orderly (init ι sdir junk) where
  size_le := by
    obtain ⟨hroom, hcapa⟩ := initSdir_room h (Nat.zero_le _)
    exact hroom.trans hcapa.le
  single := fun i j hi => by cases hi
  tidy := fun i => trivial

lemma coarse_init {ι : Type*} {dir : List (List Char)} {sdir : SafeDir}
    (h : initSdir dir ⟨[], numOfDirFile⟩ = some sdir) (junk : ℕ → SafeFile) :
    (init ι sdir junk).coarse = LockTable.init ι sdir := by
  have hcapa : sdir.capa = numOfDirFile := (initSdir_room h (Nat.zero_le _)).2
  have hfiles : (List.range sdir.files.length).map (init ι sdir junk).files = sdir.files := by
    refine List.ext_getElem (by simp) fun k hk _ => ?_
    simp at hk
    simp [init, hk]
  simp only [State.coarse, LockTable.init]
  congr 1
  rw [← hcapa]
  exact congrArg (SafeDir.mk · sdir.capa) hfiles

/-- In every run in which no child begins `add_sfile` while another one is in it, however
the children go between each other's statements otherwise: what they make of the table is
a run of `LockTable`, whose look-ups and appends are one step each; the table is never
overfull, and no statement reaches behind it. -/
theorem appends_are_atomic {ι : Type*} [DecidableEq ι] {dir : List (List Char)} {sdir : SafeDir}
    (hinit : initSdir dir ⟨[], numOfDirFile⟩ = some sdir) {junk : ℕ → SafeFile} {s : State ι}
    (hr : Reach step Alone (init ι sdir junk) s) :
    Reach LockTable.step always (LockTable.init ι sdir) s.coarse ∧
      s.size ≤ numOfDirFile ∧ ∀ a, InBounds s a := by
  have h : Orderly s ∧ Reach LockTable.step always (LockTable.init ι sdir) s.coarse := by
    refine hr.invariant (P := fun s => Orderly s ∧
      Reach LockTable.step always (LockTable.init ι sdir) s.coarse) ⟨orderly_init hinit junk, ?_⟩ ?_
    · rw [coarse_init hinit]
      exact Reach.start
    · rintro u a v ⟨hu, hreach⟩ ha hst
      obtain ⟨hv, hsame | ⟨b, hb⟩⟩ := hu.step ha hst
      · exact ⟨hv, hsame ▸ hreach⟩
      · exact ⟨hv, hreach.next trivial hb⟩
  refine ⟨h.2, h.1.size_le, fun a => ?_⟩
  have htidy := h.1.tidy a.child
  have hle := h.1.size_le
  unfold InBounds touches
  cases hp : s.proc a.child with
  | idle => rfl
  | search r name j =>
    dsimp only
    split_ifs with hj
    · simpa using hj.trans_le hle
    · rfl
  | append r name stage =>
    rw [hp] at htidy
    cases stage with
    | write slot part => simpa using htidy.1 ▸ htidy.2.1
    | _ => rfl
  | region k name pc =>
    rw [hp] at htidy
    simpa using lt_of_lt_of_le htidy hle

/-- One child appends `g` between the rounds of another one's search for it. -/
theorem appends_are_atomic_search : ∃ s : State (Fin 2), s.size = 2 ∧
    s.proc 0 = .region 1 ['g'] .rdWaitReadTry ∧ s.proc 1 = .region 1 ['g'] .wrWaitWmutex ∧
    Reach LockTable.step always (LockTable.init (Fin 2) ⟨[initSfile ['f']], numOfDirFile⟩)
      s.coarse := by
  have hinit : initSdir [['f']] ⟨[], numOfDirFile⟩ = some ⟨[initSfile ['f']], numOfDirFile⟩ := rfl
  have hr : Reach step Alone (init (Fin 2) ⟨[initSfile ['f']], numOfDirFile⟩
      fun _ => initSfile []) _ := reach_of_checked_run
    [.request 0 .readF ['g'], .request 1 .upload ['g'], .run 0 true, .run 0 true, .run 1 true,
      .run 0 true, .run 0 true, .run 0 true, .run 0 true, .run 0 true, .run 0 true, .run 0 true,
      .run 0 true, .run 0 true, .run 0 true, .run 0 true, .run 1 true] rfl
  exact ⟨_, rfl, rfl, rfl, (appends_are_atomic hinit hr).1⟩

end SystemProgramming.TableAppends
