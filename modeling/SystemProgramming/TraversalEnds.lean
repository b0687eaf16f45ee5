import Mathlib.Data.Finset.Range
import SystemProgramming.RepeatedList
import SystemProgramming.GrowingTree

/-!
# When the traversal of a growing tree ends

No directory is entered twice, so the traversal ends where its directories stay in
a finite set of paths. It makes the tree that it reads grow when the destination
lies below the source, and then it follows its own copies down without end, unless
something that is no directory stands on their way.
-/
namespace SystemProgramming.GrowingTree
open SystemProgramming.Transition SystemProgramming.RepeatedList

/-- A property of the directories below the source that the traversal cannot leave:
those there before have it, and so has a copy of one that has it. -/
structure Confines (fs : Tree) (src dst : Path) (P : Path → Prop) : Prop where
  start : ∀ r, fs.IsDir (src ++ r) → P r
  copy : ∀ r r', P r' → src ++ r = dst ++ r' →
    (∀ p, p <+: r → src ++ p ∈ fs.nodes → fs.kind (src ++ p) = .dir) → P r

/-- The source and the destination of an entry. -/
def Paired (src dst s d : Path) : Prop := ∃ r, s = src ++ r ∧ d = dst ++ r

/-- A directory that was called with and has no activation yet. -/
structure Entering (src dst : Path) (frames : List Frame) (calls : List Path)
    (s d : Path) : Prop where
  paired : Paired src dst s d
  called : s ∈ src :: calls
  fresh : s ∉ frames.map Frame.srcDir
  childless : ∀ a, s ++ [a] ∉ calls

/-- What is known of the next call. -/
def Place (src dst : Path) (tree : Tree) (frames : List Frame) (calls : List Path) : Pc → Prop
  | .opendir s d => Entering src dst frames calls s d
  | .mkdir s d => Entering src dst frames calls s d ∧ tree.IsDir s
  | .stat s d => ∃ f frames' a, frames = f :: frames' ∧ s = f.srcDir ++ [a] ∧
      d = f.dstDir ++ [a] ∧ a ∈ f.seen ∧ s ∉ calls
  | _ => True

structure Inv (fs : Tree) (src dst : Path) (P : Path → Prop) (t : State) : Prop where
  nodup : (src :: t.calls).Nodup
  closed : ∀ p a, p ++ [a] ∈ t.calls → p ∈ src :: t.calls
  calls : ∀ s ∈ t.calls, ∃ r, s = src ++ r ∧ P r
  frames : ∀ f ∈ t.frames, Paired src dst f.srcDir f.dstDir ∧ f.srcDir ∈ src :: t.calls ∧
    ∀ a, f.srcDir ++ [a] ∈ t.calls → a ∈ f.seen
  distinct : (t.frames.map Frame.srcDir).Nodup
  grows : Grows fs t.tree
  dirs : ∀ r, t.tree.IsDir (src ++ r) → P r
  place : Place src dst t.tree t.frames t.calls t.pc

theorem inv_start {fs : Tree} {src dst : Path} {P : Path → Prop} (hP : Confines fs src dst P) :
    Inv fs src dst P (start fs src dst) where
  nodup := List.nodup_singleton src
  closed := fun p a hp => by cases hp
  calls := fun s hs => by cases hs
  frames := fun f hf => by cases hf
  distinct := List.nodup_nil
  grows := .refl fs
  dirs := hP.start
  place := ⟨⟨[], by simp, by simp⟩, List.mem_cons_self, List.not_mem_nil, fun _ => List.not_mem_nil⟩

/-- The traversal goes on in the same activation. -/
lemma Inv.goto {fs : Tree} {src dst : Path} {P : Path → Prop} {t : State}
    (h : Inv fs src dst P t) (pc : Pc) (hplace : Place src dst t.tree t.frames t.calls pc) :
    Inv fs src dst P { t with pc := pc } :=
  ⟨h.nodup, h.closed, h.calls, h.frames, h.distinct, h.grows, h.dirs, hplace⟩

/-- Something is created that is no directory, or a directory that has the property. -/
lemma Inv.create {fs : Tree} {src dst : Path} {P : Path → Prop} {t : State}
    (h : Inv fs src dst P t) {p : Path} {k : Kind} (hp : t.tree.Vacant p)
    (hnew : k = .dir → ∀ r, (t.tree.create p k hp).IsDir (src ++ r) → src ++ r = p → P r) :
    Inv fs src dst P { t.create p k hp with pc := .readdir } := by
  refine ⟨h.nodup, h.closed, h.calls, h.frames, h.distinct, h.grows.trans (grows_create hp),
    fun r hr => ?_, trivial⟩
  rcases isDir_create hp hr with hold | ⟨heq, rfl⟩
  · exact h.dirs r hold
  · exact hnew rfl r hr heq

/-- A new activation. -/
lemma Inv.enter {fs : Tree} {src dst : Path} {P : Path → Prop} {t : State}
    (h : Inv fs src dst P t) {s d : Path} (he : Entering src dst t.frames t.calls s d) :
    Inv fs src dst P (t.enter s d) := by
  refine ⟨h.nodup, h.closed, h.calls, fun f hf => ?_, ?_, h.grows, h.dirs, trivial⟩
  · rcases List.mem_cons.mp hf with rfl | hf
    · exact ⟨he.paired, he.called, fun a ha => absurd ha (he.childless a)⟩
    · exact h.frames f hf
  · exact List.nodup_cons.mpr ⟨he.fresh, h.distinct⟩

lemma Inv.leave {fs : Tree} {src dst : Path} {P : Path → Prop} {t : State}
    (h : Inv fs src dst P t) : Inv fs src dst P t.leave := by
  refine ⟨h.nodup, h.closed, h.calls, fun f hf => h.frames f (List.mem_of_mem_tail hf), ?_,
    h.grows, h.dirs, ?_⟩
  · have htail := h.distinct.sublist ((List.tail_sublist t.frames).map Frame.srcDir)
    exact htail
  · unfold State.leave
    split_ifs
    all_goals trivial

/-- `readdir` returns an entry: it was not called with before. -/
lemma Inv.entry {fs : Tree} {src dst : Path} {P : Path → Prop} {t : State}
    (h : Inv fs src dst P t) {s d : Path} {seen : List Entry} {frames : List Frame}
    (hframes : t.frames = ⟨s, d, seen⟩ :: frames) {a : Entry} (ha : a ∉ seen) :
    Inv fs src dst P { t with
      frames := ⟨s, d, seen ++ [a]⟩ :: frames, pc := .stat (s ++ [a]) (d ++ [a]) } := by
  have hdistinct := h.distinct
  have hold := h.frames
  rw [hframes] at hdistinct hold
  obtain ⟨hpaired, hcalled, hseen⟩ := hold _ List.mem_cons_self
  refine ⟨h.nodup, h.closed, h.calls, fun f hf => ?_, hdistinct, h.grows, h.dirs,
    ⟨_, frames, a, rfl, rfl, rfl, by simp, fun hmem => ha (hseen a hmem)⟩⟩
  rcases List.mem_cons.mp hf with rfl | hf
  · exact ⟨hpaired, hcalled, fun b hb => List.mem_append_left _ (hseen b hb)⟩
  · exact hold f (List.mem_cons_of_mem _ hf)

/-- `traverse_directory` is called with the directory that `stat` has found. -/
lemma Inv.call {fs : Tree} {src dst : Path} {P : Path → Prop} {t : State}
    (h : Inv fs src dst P t) {s d : Path} (hplace : t.pc = .stat s d) (hdir : t.tree.IsDir s) :
    Inv fs src dst P { t with pc := .opendir s d, calls := t.calls ++ [s] } := by
  have hstat := h.place
  rw [hplace] at hstat
  obtain ⟨f, frames, a, hframes, rfl, rfl, hseen, hnew⟩ := hstat
  have hf : f ∈ t.frames := hframes ▸ List.mem_cons_self
  obtain ⟨⟨r, hsrc, hdst⟩, hcalled, -⟩ := h.frames f hf
  have hcalls : ∀ {q}, q ∈ src :: t.calls → q ∈ src :: (t.calls ++ [f.srcDir ++ [a]]) :=
    fun hq => List.mem_append_left [f.srcDir ++ [a]] hq
  -- the new directory lies below the source
  have hne : f.srcDir ++ [a] ≠ src := by
    intro heq
    have hlength := congrArg List.length heq
    rw [hsrc, List.length_append, List.length_append, List.length_singleton] at hlength
    omega
  have hunseen : f.srcDir ++ [a] ∉ src :: t.calls := by simp [hne, hnew]
  refine ⟨?_, fun p b hp => ?_, fun q hq => ?_, fun g hg => ?_, h.distinct, h.grows, h.dirs,
    ⟨r ++ [a], by rw [hsrc, List.append_assoc], by rw [hdst, List.append_assoc]⟩, by simp,
    fun hmem => ?_, fun b hb => ?_⟩
  · have happend : (src :: t.calls ++ [f.srcDir ++ [a]]).Nodup :=
      List.nodup_append.mpr ⟨h.nodup, List.nodup_singleton _, fun q hq q' hq' hqq =>
        hunseen (List.mem_singleton.mp hq' ▸ hqq ▸ hq)⟩
    exact happend
  · rcases List.mem_append.mp hp with hp | hp
    · exact hcalls (h.closed p b hp)
    · rw [(List.append_inj' (List.mem_singleton.mp hp) rfl).1]
      exact hcalls hcalled
  · rcases List.mem_append.mp hq with hq | hq
    · exact h.calls q hq
    · rw [List.mem_singleton.mp hq] at *
      refine ⟨r ++ [a], by rw [hsrc, List.append_assoc], h.dirs _ ?_⟩
      rw [← List.append_assoc, ← hsrc]
      exact hdir
  · obtain ⟨hpaired, hgcalled, hgseen⟩ := h.frames g hg
    refine ⟨hpaired, hcalls hgcalled, fun b hb => ?_⟩
    rcases List.mem_append.mp hb with hb | hb
    · exact hgseen b hb
    · obtain ⟨hgf, hba⟩ := List.append_inj' (List.mem_singleton.mp hb) rfl
      have hsame : g = f := List.inj_on_of_nodup_map h.distinct hg hf hgf
      rw [hsame, List.singleton_inj.mp hba]
      exact hseen
  · obtain ⟨g, hg, hgs⟩ := List.mem_map.mp hmem
    exact hunseen (hgs ▸ (h.frames g hg).2.1)
  · rcases List.mem_append.mp hb with hb | hb
    · exact hunseen (h.closed _ b hb)
    · have hlength := congrArg List.length (List.mem_singleton.mp hb)
      simp at hlength

/-- Only the loop over the entries does anything but make a call. -/
lemma call_of_step {t u : State} {a : Act} (hst : step t a = some u) (hpc : t.pc ≠ .readdir) :
    ∃ ok, a = .call ok := by
  cases a with
  | call ok => exact ⟨ok, rfl⟩
  | _ => cases h : t.pc <;> simp_all [GrowingTree.step]

/-- The loop over the entries. -/
lemma Inv.readdir {fs : Tree} {src dst : Path} {P : Path → Prop} {t u : State} {a : Act}
    (h : Inv fs src dst P t) (hpc : t.pc = .readdir) (hst : step t a = some u) :
    Inv fs src dst P u := by
  cases a with
  | call ok => simp [GrowingTree.step, hpc] at hst
  | dot =>
    simp only [GrowingTree.step, hpc] at hst
    split_ifs at hst
    cases hst
    exact h
  | entry a =>
    simp only [GrowingTree.step, hpc] at hst
    split at hst
    · cases hst
    · rename_i s d seen frames hframes
      split_ifs at hst with ha
      cases hst
      exact h.entry hframes ha.1
  | last =>
    simp only [GrowingTree.step, hpc] at hst
    split at hst
    · cases hst
    · split_ifs at hst
      cases hst
      exact h.leave

/-- The destination directory is created, which makes the tree grow below the source if
it lies there, or it is there already. -/
lemma Inv.mkdir {fs : Tree} {src dst : Path} {P : Path → Prop} {t u : State} {s d : Path}
    {ok : Bool} (h : Inv fs src dst P t) (hP : Confines fs src dst P) (hpc : t.pc = .mkdir s d)
    (hst : step t (.call ok) = some u) : Inv fs src dst P u := by
  have hplace := h.place
  rw [hpc] at hplace
  obtain ⟨hentering, hdir⟩ := hplace
  simp only [GrowingTree.step, hpc] at hst
  split_ifs at hst with hok hvacant hmem
  · cases hst
    obtain ⟨r, rfl, rfl⟩ := hentering.paired
    refine (h.create hvacant fun _ r' hr' heq => ?_).enter hentering
    refine hP.copy r' r (h.dirs r hdir) heq fun p hp hpfs => ?_
    have habove := Tree.isDir_above hr' ((List.prefix_append_right_inj src).mpr hp)
    rw [← ((h.grows.trans (grows_create hvacant)) _ hpfs).2]
    exact habove.2
  · cases hst
    exact h.enter hentering
  · cases hst
    exact h.goto _ trivial

/-- Every step keeps the books. -/
theorem Inv.step {fs : Tree} {src dst : Path} {P : Path → Prop} {t u : State} {a : Act}
    (h : Inv fs src dst P t) (hP : Confines fs src dst P)
    (hst : step t a = some u) : Inv fs src dst P u := by
  by_cases hread : t.pc = .readdir
  · exact h.readdir hread hst
  obtain ⟨ok, rfl⟩ := call_of_step hst hread
  cases hpc : t.pc with
  | opendir s d =>
    have hplace := h.place
    rw [hpc] at hplace
    simp only [GrowingTree.step, hpc] at hst
    split_ifs at hst with hok hdir
    · cases hst
      exact h.goto _ ⟨hplace, hdir⟩
    · cases hst
      exact h.goto _ trivial
  | mkdir s d => exact h.mkdir hP hpc hst
  | readdir => exact absurd hpc hread
  | stat s d =>
    simp only [GrowingTree.step, hpc] at hst
    split_ifs at hst with hok hmem
    · cases hkind : t.tree.kind s with
      | dir =>
        rw [hkind] at hst
        cases hst
        exact h.call hpc ⟨hmem, hkind⟩
      | file | fifo | other =>
        rw [hkind] at hst
        cases hst
        exact h.goto _ trivial
    · cases hst
      exact h.goto _ trivial
  | openSrc d =>
    simp only [GrowingTree.step, hpc] at hst
    cases hst
    exact h.goto _ (by cases ok <;> trivial)
  | openDst d =>
    simp only [GrowingTree.step, hpc] at hst
    split_ifs at hst with hok hvacant hkind
    · cases hst
      exact (h.create hvacant fun hk => by cases hk).goto .handOver trivial
    all_goals
      cases hst
      exact h.goto _ trivial
  | handOver =>
    simp only [GrowingTree.step, hpc] at hst
    cases hst
    cases ok with
    | false => exact h.leave
    | true => exact h.goto _ trivial
  | mkfifo d =>
    simp only [GrowingTree.step, hpc] at hst
    split_ifs at hst with hok hvacant
    · cases hst
      exact h.create hvacant fun hk => by cases hk
    · cases hst
      exact h.goto _ trivial
  | returned | exited => simp [GrowingTree.step, hpc] at hst

/-- No directory is entered twice, in whatever way the tree grows. -/
theorem entered_once {fs : Tree} {src dst : Path} {t : State}
    (hr : Reach step always (start fs src dst) t) : (src :: t.calls).Nodup := by
  have hP : Confines fs src dst fun _ => True := ⟨fun _ _ => trivial, fun _ _ _ _ _ => trivial⟩
  have h : Inv fs src dst (fun _ => True) t :=
    hr.invariant (inv_start hP) fun _ _ _ hu _ hst => hu.step hP hst
  exact h.nodup

/-- So a finite set of directories bounds the calls. -/
theorem calls_le {fs : Tree} {src dst : Path} {P : Path → Prop} (hP : Confines fs src dst P)
    {X : Finset Path} (hX : ∀ r, P r → r ∈ X) {t : State}
    (hr : Reach step always (start fs src dst) t) : t.calls.length ≤ X.card := by
  have h : Inv fs src dst P t :=
    hr.invariant (inv_start hP) fun _ _ _ hu _ hst => hu.step hP hst
  have hsubset : t.calls.toFinset ⊆ X.image fun r => src ++ r := by
    intro s hs
    obtain ⟨r, rfl, hr⟩ := h.calls s (List.mem_toFinset.mp hs)
    exact Finset.mem_image_of_mem _ (hX r hr)
  calc
    t.calls.length = t.calls.toFinset.card :=
      (List.toFinset_card_of_nodup (List.nodup_cons.mp (entered_once hr)).2).symm
    _ ≤ (X.image fun r => src ++ r).card := Finset.card_le_card hsubset
    _ ≤ X.card := Finset.card_image_le

/-- The ends of the paths of the tree. -/
def Tree.suffixes (t : Tree) : Finset Path := t.nodes.biUnion fun p => p.tails.toFinset

lemma Tree.mem_suffixes {t : Tree} {r : Path} : r ∈ t.suffixes ↔ ∃ p ∈ t.nodes, r <:+ p := by
  simp [Tree.suffixes]

/-- The destination is not below the source: the copies are no longer than what they
are copies of. -/
lemma confines_of_not_below {fs : Tree} {src dst : Path}
    (h : ∀ q, dst = src ++ q → q = []) : Confines fs src dst fun r => r ∈ fs.suffixes where
  start := fun r hr => Tree.mem_suffixes.mpr ⟨_, hr.1, List.suffix_append ..⟩
  copy := by
    intro r r' hr' heq _
    rcases List.append_eq_append_iff.mp heq with ⟨q, hdst, rfl⟩ | ⟨q, -, rfl⟩
    · rw [h q hdst]
      exact hr'
    · obtain ⟨p, hp, hsuffix⟩ := Tree.mem_suffixes.mp hr'
      exact Tree.mem_suffixes.mpr ⟨p, hp, (List.suffix_append ..).trans hsuffix⟩

/-- Something that is no directory stands in the way of the copies of the copies. -/
lemma confines_of_blocked {fs : Tree} {src q p : Path} {n : ℕ}
    (hp : p <+: (List.replicate n q).flatten) (hmem : src ++ p ∈ fs.nodes)
    (hkind : fs.kind (src ++ p) ≠ .dir) :
    Confines fs src (src ++ q) fun r =>
      ∃ j ≤ n, ∃ o ∈ fs.suffixes, r = (List.replicate j q).flatten ++ o where
  start := fun r hr =>
    ⟨0, Nat.zero_le n, r, Tree.mem_suffixes.mpr ⟨_, hr.1, List.suffix_append ..⟩, rfl⟩
  copy := by
    rintro r r' ⟨j, hj, o, ho, rfl⟩ heq hdirs
    rw [List.append_assoc] at heq
    have hr : r = (List.replicate (j + 1) q).flatten ++ o := by
      rw [List.append_cancel_left heq, List.replicate_succ, List.flatten_cons, List.append_assoc]
    refine ⟨j + 1, ?_, o, ho, hr⟩
    by_contra hlt
    have hprefix : p <+: r := by
      rw [hr]
      exact (hp.trans (replicate_prefix_of_le q (by omega))).trans (List.prefix_append ..)
    exact hkind (hdirs p hprefix hmem)

/-- The first call cannot create the destination, and ends the process. -/
lemma calls_of_no_parent {fs : Tree} {src dst : Path} (hnil : dst ≠ [])
    (hparent : ¬ fs.IsDir dst.dropLast) {t : State}
    (hr : Reach step always (start fs src dst) t) : t.calls = [] := by
  have hnone : dst ∉ fs.nodes := by
    intro hmem
    rw [← List.dropLast_append_getLast hnil] at hmem
    exact hparent (fs.parent hmem)
  have h : t.calls = [] ∧ t.tree = fs ∧
      (t.pc = .opendir src dst ∨ t.pc = .mkdir src dst ∨ t.pc = .exited) := by
    refine hr.invariant (P := fun t => t.calls = [] ∧ t.tree = fs ∧
      (t.pc = .opendir src dst ∨ t.pc = .mkdir src dst ∨ t.pc = .exited))
      ⟨rfl, rfl, Or.inl rfl⟩ ?_
    rintro u a v ⟨hcalls, htree, hpc⟩ - hst
    obtain ⟨ok, rfl⟩ := call_of_step hst (by rcases hpc with hpc | hpc | hpc <;> simp [hpc])
    rcases hpc with hpc | hpc | hpc
    · simp only [step, hpc] at hst
      split_ifs at hst
      all_goals cases hst
      · exact ⟨hcalls, htree, Or.inr (Or.inl rfl)⟩
      · exact ⟨hcalls, htree, Or.inr (Or.inr rfl)⟩
    · simp only [step, hpc] at hst
      split_ifs at hst with hok hvacant hmem
      · exact absurd (htree ▸ hvacant.2.2) hparent
      · exact absurd (htree ▸ hmem) hnone
      · cases hst
        exact ⟨hcalls, htree, Or.inr (Or.inr rfl)⟩
    · simp [step, hpc] at hst
  exact h.1

/-- The destination is below the source, it is there or can be created, and nothing but
directories stands where the copies of the copies go. -/
def Endless (fs : Tree) (src dst : Path) : Prop :=
  ∃ q, q ≠ [] ∧ dst = src ++ q ∧ fs.IsDir dst.dropLast ∧
    ∀ p, Repeats q p → src ++ p ∈ fs.nodes → fs.kind (src ++ p) = .dir

/-- Otherwise the number of calls has a bound that only depends on the tree and the two
directories. -/
theorem calls_bounded {fs : Tree} {src dst : Path} (h : ¬ Endless fs src dst) :
    ∃ N, ∀ t, Reach step always (start fs src dst) t → t.calls.length ≤ N := by
  by_cases hbelow : ∀ q, dst = src ++ q → q = []
  · exact ⟨_, fun t ht => calls_le (confines_of_not_below hbelow) (fun r hr => hr) ht⟩
  push Not at hbelow
  obtain ⟨q, rfl, hq⟩ := hbelow
  by_cases hparent : fs.IsDir (src ++ q).dropLast
  · have hblocked : ∃ p, Repeats q p ∧ src ++ p ∈ fs.nodes ∧ fs.kind (src ++ p) ≠ .dir := by
      by_contra hnone
      push Not at hnone
      exact h ⟨q, hq, rfl, hparent, hnone⟩
    obtain ⟨p, ⟨n, hp⟩, hmem, hkind⟩ := hblocked
    refine ⟨((Finset.range (n + 1)).biUnion fun j =>
      fs.suffixes.image fun o => (List.replicate j q).flatten ++ o).card, fun t ht =>
      calls_le (confines_of_blocked hp hmem hkind) ?_ ht⟩
    rintro r ⟨j, hj, o, ho, rfl⟩
    exact Finset.mem_biUnion.mpr ⟨j, Finset.mem_range.mpr (by omega),
      Finset.mem_image.mpr ⟨o, ho, rfl⟩⟩
  · refine ⟨0, fun t ht => ?_⟩
    rw [calls_of_no_parent (by simp [hq]) hparent ht]
    exact le_rfl

/-- The traversal is at the beginning of the copy of a copy, at `src ++ p`, and has created
all directories on the way there. -/
structure Spine (fs : Tree) (src dst p : Path) (t : State) : Prop where
  pc : t.pc = .readdir
  frame : ∃ frames, t.frames = ⟨src ++ p, dst ++ p, []⟩ :: frames
  calls : t.calls.length = p.length
  grows : Grows fs t.tree
  new : ∀ s ∈ t.tree.nodes, s ∈ fs.nodes ∨ t.tree.kind s = .dir
  copied : ∀ p', p' <+: p → t.tree.IsDir (dst ++ p')

/-- The call for a directory whose destination is or can be one, with no call failing. -/
lemma reach_enter {t : State} {s d : Path} (hpc : t.pc = .opendir s d) (hs : t.tree.IsDir s)
    (hd : t.tree.IsDir d ∨ t.tree.Vacant d) :
    ∃ u : State, Reach step always t u ∧ u.pc = .readdir ∧ u.frames = ⟨s, d, []⟩ :: t.frames ∧
      u.calls = t.calls ∧ u.tree.IsDir d ∧ Grows t.tree u.tree ∧
      ∀ p ∈ u.tree.nodes, p ∈ t.tree.nodes ∨ u.tree.kind p = .dir := by
  have hopen : Reach step always t { t with pc := .mkdir s d } :=
    Reach.start.next (a := .call true) trivial (by simp [step, hpc, hs])
  by_cases hvacant : t.tree.Vacant d
  · refine ⟨(t.create d .dir hvacant).enter s d, hopen.next (a := .call true) trivial ?_, rfl, rfl,
      rfl, ⟨Finset.mem_insert_self .., Function.update_self ..⟩, grows_create hvacant,
      fun p hp => ?_⟩
    · simp only [step, if_true, dif_pos hvacant]
      rfl
    · rcases Finset.mem_insert.mp hp with rfl | hp
      · exact Or.inr (Function.update_self ..)
      · exact Or.inl hp
  · have hdir := hd.resolve_right hvacant
    refine ⟨t.enter s d, hopen.next (a := .call false) trivial ?_, rfl, rfl, rfl, hdir, .refl _,
      fun p hp => Or.inl hp⟩
    simp only [step, if_neg Bool.false_ne_true, if_pos hdir.1]
    rfl

/-- `readdir` returns a directory, and `traverse_directory` is called with it. -/
lemma reach_call {t : State} {s d : Path} {seen : List Entry} {frames : List Frame} {a : Entry}
    (hpc : t.pc = .readdir) (hframes : t.frames = ⟨s, d, seen⟩ :: frames) (ha : a ∉ seen)
    (hdir : t.tree.IsDir (s ++ [a])) :
    ∃ u : State, Reach step always t u ∧ u.pc = .opendir (s ++ [a]) (d ++ [a]) ∧
      u.tree = t.tree ∧ u.calls = t.calls ++ [s ++ [a]] ∧
      u.frames = ⟨s, d, seen ++ [a]⟩ :: frames := by
  have hread : Reach step always t { t with
      frames := ⟨s, d, seen ++ [a]⟩ :: frames, pc := .stat (s ++ [a]) (d ++ [a]) } :=
    Reach.start.next (a := .entry a) trivial (by
      simp only [step, hpc, hframes]
      rw [if_pos ⟨ha, hdir.1⟩])
  have hcall : Reach step always t { t with
      frames := ⟨s, d, seen ++ [a]⟩ :: frames
      pc := .opendir (s ++ [a]) (d ++ [a])
      calls := t.calls ++ [s ++ [a]] } :=
    hread.next (a := .call true) trivial (by simp only [step, if_true, if_pos hdir.1, hdir.2])
  exact ⟨_, hcall, rfl, rfl, rfl, rfl⟩

/-- The traversal comes to the first copy. -/
lemma Endless.first {fs : Tree} {src dst : Path} (h : Endless fs src dst) :
    ∃ t, Reach step always (start fs src dst) t ∧ Spine fs src dst [] t := by
  obtain ⟨q, hq, rfl, hparent, hdirs⟩ := h
  have hsrc : fs.IsDir src := by
    refine Tree.isDir_above hparent ?_
    rw [List.dropLast_append_of_ne_nil hq]
    exact List.prefix_append ..
  have hdst : fs.IsDir (src ++ q) ∨ fs.Vacant (src ++ q) := by
    by_cases hmem : src ++ q ∈ fs.nodes
    · have hrepeats : Repeats q q := by simpa using (repeats_nil q).append
      exact Or.inl ⟨hmem, hdirs q hrepeats hmem⟩
    · exact Or.inr ⟨hmem, by simp [hq], hparent⟩
  obtain ⟨t, hr, hpc, hframes, hcalls, hdir, hgrows, hnew⟩ :=
    reach_enter (t := start fs src (src ++ q)) rfl hsrc hdst
  refine ⟨t, hr, hpc, ⟨[], by simpa [start] using hframes⟩, by rw [hcalls]; rfl, hgrows, hnew,
    fun p' hp' => ?_⟩
  rw [List.prefix_nil.mp hp', List.append_nil]
  exact hdir

/-- In each copy it finds the next one. -/
lemma Endless.next {fs : Tree} {src q : Path} (hq : q ≠ [])
    (hparent : fs.IsDir (src ++ q).dropLast)
    (hdirs : ∀ p, Repeats q p → src ++ p ∈ fs.nodes → fs.kind (src ++ p) = .dir) {p : Path}
    {a : Entry} (ha : Repeats q (p ++ [a])) {t : State} (h : Spine fs src (src ++ q) p t) :
    ∃ u, Reach step always t u ∧ Spine fs src (src ++ q) (p ++ [a]) u := by
  obtain ⟨frames, hframes⟩ := h.frame
  -- the entry lies above the destination, is the destination, or is a copy
  have hentry : t.tree.IsDir (src ++ p ++ [a]) := by
    rw [List.append_assoc]
    have hcopy : ∀ p', p ++ [a] = q ++ p' → Repeats q p' → t.tree.IsDir (src ++ (p ++ [a])) := by
      intro p' heq hp'
      have hlength := congrArg List.length heq
      have hpos := List.length_pos_iff.mpr hq
      rw [List.length_append, List.length_append, List.length_singleton] at hlength
      have hprefix := hp'.prefix_of_le (ha.mono (List.prefix_append p [a])) (by omega)
      rw [heq, ← List.append_assoc]
      exact h.copied p' hprefix
    rcases ha.first_or with hfirst | ⟨p', heq, hp'⟩
    · obtain ⟨r, hr⟩ := hfirst
      rcases List.eq_nil_or_concat r with rfl | ⟨r', b, rfl⟩
      · exact hcopy [] (by simpa using hr) (repeats_nil q)
      · have habove : (src ++ q).dropLast = src ++ (p ++ [a]) ++ r' := by
          rw [← hr, List.concat_eq_append, ← List.append_assoc, ← List.append_assoc,
            List.dropLast_concat]
        refine h.grows.isDir (Tree.isDir_above hparent ?_)
        rw [habove]
        exact List.prefix_append ..
    · exact hcopy p' heq hp'
  have hplace : t.tree.IsDir (src ++ q ++ p ++ [a]) ∨ t.tree.Vacant (src ++ q ++ p ++ [a]) := by
    by_cases hmem : src ++ q ++ p ++ [a] ∈ t.tree.nodes
    · refine Or.inl ⟨hmem, (h.new _ hmem).elim (fun hold => ?_) id⟩
      have hsame : src ++ q ++ p ++ [a] = src ++ (q ++ (p ++ [a])) := by simp
      rw [(h.grows _ hold).2, hsame]
      exact hdirs _ ha.append (hsame ▸ hold)
    · exact Or.inr ⟨hmem, by simp, by simpa using h.copied p (List.prefix_refl p)⟩
  obtain ⟨v, hv, hvpc, hvtree, hvcalls, -⟩ := reach_call h.pc hframes List.not_mem_nil hentry
  rw [← hvtree] at hentry hplace
  obtain ⟨u, hu, hpc, huframes, hcalls, hdir, hgrows, hnew⟩ := reach_enter hvpc hentry hplace
  rw [hvtree] at hgrows hnew
  refine ⟨u, hv.trans hu, hpc, ⟨_, by simpa using huframes⟩, ?_, h.grows.trans hgrows,
    fun s hs => ?_, fun p' hp' => ?_⟩
  · rw [hcalls, hvcalls, List.length_append, List.length_append, h.calls]
    rfl
  · rcases hnew s hs with hold | hkind
    · exact (h.new s hold).imp_right fun hkind => (hgrows s hold).2.trans hkind
    · exact Or.inr hkind
  · rcases List.prefix_concat_iff.mp hp' with rfl | hp'
    · rw [← List.append_assoc]
      exact hdir
    · exact hgrows.isDir (h.copied p' hp')

/-- A run that calls `traverse_directory` once more and once more. -/
theorem Endless.run {fs : Tree} {src dst : Path} (h : Endless fs src dst) :
    ∃ u : ℕ → State, u 0 = start fs src dst ∧ (∀ k, Reach step always (u k) (u (k + 1))) ∧
      ∀ k, k ≤ (u (k + 1)).calls.length := by
  obtain ⟨t, ht, hspine⟩ := h.first
  obtain ⟨q, hq, rfl, hparent, hdirs⟩ := h
  have hnext : ∀ s : { s : State // ∃ p, Repeats q p ∧ Spine fs src (src ++ q) p s },
      ∃ u : { s : State // ∃ p, Repeats q p ∧ Spine fs src (src ++ q) p s },
        Reach step always s.1 u.1 ∧ u.1.calls.length = s.1.calls.length + 1 := by
    rintro ⟨s, p, hp, hs⟩
    obtain ⟨a, ha⟩ := hp.next hq
    obtain ⟨u, hu, hspine⟩ := Endless.next hq hparent hdirs ha hs
    refine ⟨⟨u, p ++ [a], ha, hspine⟩, hu, ?_⟩
    rw [hspine.calls, hs.calls, List.length_append, List.length_singleton]
  choose f hreach hcalls using hnext
  let v : ℕ → { s : State // ∃ p, Repeats q p ∧ Spine fs src (src ++ q) p s } :=
    fun k => f^[k] ⟨t, [], repeats_nil q, hspine⟩
  have hv : ∀ k, v (k + 1) = f (v k) := fun k => Function.iterate_succ_apply' f k _
  refine ⟨fun k => k.casesOn (start fs src (src ++ q)) fun k => (v k).1, rfl, fun k => ?_,
    fun k => ?_⟩
  · cases k with
    | zero => exact ht
    | succ k =>
      have hstep := hreach (v k)
      rw [← hv k] at hstep
      exact hstep
  · have hlength : (v k).1.calls.length = k := by
      induction k with
      | zero => exact hspine.calls
      | succ k ih => rw [hv k, hcalls, ih]
    exact hlength.ge

/-- In every run `traverse_directory` is called finitely often if and only if the copies
of the copies have an end. -/
theorem finitely_many_calls_iff (fs : Tree) (src dst : Path) :
    (∀ u : ℕ → State, u 0 = start fs src dst → (∀ k, Reach step always (u k) (u (k + 1))) →
      ∃ N, ∀ k, (u k).calls.length ≤ N) ↔ ¬ Endless fs src dst := by
  constructor
  · intro hfinite hendless
    obtain ⟨u, hstart, hreach, hcalls⟩ := hendless.run
    obtain ⟨N, hN⟩ := hfinite u hstart hreach
    have hmore := (hcalls (N + 1)).trans (hN (N + 1 + 1))
    omega
  · intro hends u hstart hreach
    obtain ⟨N, hN⟩ := calls_bounded hends
    refine ⟨N, fun k => hN (u k) ?_⟩
    induction k with
    | zero => exact hstart ▸ .start
    | succ k ih => exact ih.trans (hreach k)

def nameU : Entry := ⟨⟨['u'], by decide⟩, by decide⟩
def nameV : Entry := ⟨⟨['v'], by decide⟩, by decide⟩

/-- The root with an empty directory `/u`. -/
def emptySource : Tree where
  nodes := {[], [nameU]}
  kind := fun _ => .dir
  parent := by
    intro p a hp
    have hnil : p = [] := by
      simp only [Finset.mem_insert, Finset.mem_singleton, List.append_eq_nil_iff,
        List.cons_ne_nil, and_false, false_or] at hp
      simpa using congrArg List.dropLast hp
    rw [hnil]
    exact ⟨by simp, rfl⟩

/-- Copying the empty directory `/u` to `/u/v` makes `/u/v/v`, `/u/v/v/v` and so on. -/
theorem copy_into_source : ∃ u : ℕ → State, u 0 = start emptySource [nameU] [nameU, nameV] ∧
    (∀ k, Reach step always (u k) (u (k + 1))) ∧ ¬ ∃ N, ∀ k, (u k).calls.length ≤ N := by
  have hendless : Endless emptySource [nameU] [nameU, nameV] :=
    ⟨[nameV], by simp, rfl, by decide, fun _ _ _ => rfl⟩
  obtain ⟨u, hstart, hreach, hcalls⟩ := hendless.run
  refine ⟨u, hstart, hreach, fun ⟨N, hN⟩ => ?_⟩
  have hmore := (hcalls (N + 1)).trans (hN (N + 1 + 1))
  omega

end SystemProgramming.GrowingTree
