import Mathlib.Algebra.BigOperators.Group.Finset.Basic
import SystemProgramming.TreeCopyCalls

/-!
# The whole tree is copied

Every step of the program keeps the books about the files and about the
traversal. When all workers have left their loops nothing is left to visit and
no file is left to copy, so the destination has a copy of the source tree.
-/
namespace SystemProgramming.TreeCopy
open SystemProgramming.Transition SystemProgramming.TreeWalk
open SystemProgramming.CopyBuffer (FileInformation)
open scoped BigOperators

structure Books {n : ℕ} (readdir : Path → List Name) (src dst : Path) (fs₀ : FileSystem)
    (w : World n) : Prop where
  inv : CopyBuffer.Inv w.proc
  calm : CopyBuffer.Calm w.proc
  traversed : ∃ visited stack todo pending,
    Traversed readdir src dst fs₀ visited stack todo pending w ∧
    Carried src dst fs₀ (regularFiles fs₀ src visited) w
  returned : w.proc.manager.past = true → w.trav = .returned

lemma carried_init {n size : ℕ} {junk : ℕ → FileInformation} {src dst : Path} {fs₀ : FileSystem} :
    Carried src dst fs₀ [] (init n size junk fs₀ src dst) where
  nodup := List.nodup_nil
  names := rfl
  waiting := fun f hf => by cases hf
  working := fun i ph f hf => by cases hf
  copied := fun i f hf => by cases hf
  bytes := by
    simp [CopyBuffer.State.bytes, init, CopyBuffer.init, CopyBuffer.WorkerPc.owed]
  pieces := fun i hi => absurd rfl hi

lemma children_nodup {readdir : Path → List Name} {fs₀ : FileSystem} {src : Path}
    {nodes : Finset Path} (h : SourceTree readdir fs₀ src nodes) (r : Path) :
    (children readdir fs₀ src r).Nodup := by
  unfold children
  split_ifs with hdir
  · exact (h.lists r hdir).1.filter _
  · exact List.nodup_nil

/-- The traversal starts at the two directories. -/
lemma position_init {readdir : Path → List Name} {src dst : Path} {fs₀ : FileSystem}
    (hroot : fs₀ src = some .dir) (fds : ℤ → Option OpenFile) :
    Position readdir src dst fs₀ fds [] (.opendir src dst)
      (childPaths (children readdir fs₀ src) []) (some []) := by
  have hpos : Position readdir src dst fs₀ fds [] (.opendir (src ++ []) (dst ++ []))
      (childPaths (children readdir fs₀ src) [] ++ upcoming []) (some []) :=
    .opendir (by rw [List.append_nil]; exact hroot)
  rw [List.append_nil, List.append_nil] at hpos
  exact (List.append_nil (childPaths (children readdir fs₀ src) [])) ▸ hpos

theorem books_init {n size : ℕ} {junk : ℕ → FileInformation} {readdir : Path → List Name}
    {src dst : Path} {fs₀ : FileSystem} {nodes : Finset Path} (hsize : 0 < size)
    (htree : SourceTree readdir fs₀ src nodes) :
    Books readdir src dst fs₀ (init n size junk fs₀ src dst) where
  inv := CopyBuffer.inv_init n hsize junk
  calm := CopyBuffer.calm_init n size junk
  traversed := by
    refine ⟨[], [], childPaths (children readdir fs₀ src) [], some [],
      ⟨rfl, position_init htree.root _, walk_init (children_nodup htree []), fun r => rfl, ?_, rfl,
        rfl⟩, carried_init⟩
    rintro r (rfl | hr) hne
    · exact absurd rfl hne
    · cases hr
  returned := fun h => by cases h

/-- The threads keep their own invariants, and end the traversal when it returns. -/
lemma Books.proc {n : ℕ} {readdir : Path → List Name} {src dst : Path} {fs₀ : FileSystem}
    {w t : World n} (h : Books readdir src dst fs₀ w) (hp : ProcStep w t)
    (htrav : w.trav = .returned → t.trav = .returned) :
    CopyBuffer.Inv t.proc ∧ CopyBuffer.Calm t.proc ∧
    (t.proc.manager.past = true → t.trav = .returned) := by
  rcases hp with hp | ⟨a, ha, hend, hst⟩
  · rw [hp]
    exact ⟨h.inv, h.calm, fun hpast => htrav (h.returned hpast)⟩
  · refine ⟨h.inv.step hst, (h.calm.step h.inv ha hst).1, fun hpast => ?_⟩
    by_cases heq : a = .endTraversal
    · exact hend heq
    · exact htrav (h.returned (CopyBuffer.past_of_step heq hst hpast))

/-- A call of the traversal. -/
lemma Books.traverse {n : ℕ} {readdir : Path → List Name} {src dst : Path} {fs₀ : FileSystem}
    {nodes : Finset Path} {w t : World n} (h : Books readdir src dst fs₀ w)
    (htree : SourceTree readdir fs₀ src nodes) (hapart : Apart src dst)
    (hscan : w.proc.manager = .scan) {ok : Bool} {fd : ℤ} (hok : ok = true ∨ w.mkdirFinds = true)
    (hst : w.traverse readdir ok fd = some t) : Books readdir src dst fs₀ t := by
  obtain ⟨visited, stack, todo, pending, htr, hc⟩ := h.traversed
  have hall : (∀ s d, w.trav ≠ .mkdir s d) → ok = true := by
    intro hne
    refine hok.resolve_right fun hfinds => ?_
    unfold World.mkdirFinds at hfinds
    split at hfinds
    · rename_i s d heq
      exact hne s d heq
    · cases hfinds
  have honward : Onward readdir src dst fs₀ w t := by
    cases htrav : w.trav with
    | opendir s d =>
      rw [hall (by simp [htrav])] at hst
      exact htr.opendir hc hapart htrav hst
    | mkdir s d =>
      exact htr.mkdir hc hapart htrav (by simpa [World.mkdirFinds, htrav] using hok) hst
    | readdir => exact htr.readdir hc hapart htrav hst
    | stat s d =>
      rw [hall (by simp [htrav])] at hst
      exact htr.stat hc hapart (children_nodup htree) htrav hst
    | openSrc s d =>
      rw [hall (by simp [htrav])] at hst
      exact htr.openSrc hc hapart htrav hst
    | openDst s d srcFd =>
      rw [hall (by simp [htrav])] at hst
      exact htr.openDst hc hapart hscan htrav hst
    | mkfifo d =>
      rw [hall (by simp [htrav])] at hst
      exact htr.mkfifo hc hapart htrav hst
    | returned => exact htr.returned hc hapart hscan htrav hst
  have hreturned : w.trav = .returned → t.trav = .returned := by
    intro htrav
    simp only [World.traverse, htrav] at hst
    obtain ⟨s, -, rfl⟩ := call_eq_some hst
    exact htrav
  obtain ⟨visited', stack', todo', pending', htr', hc', hproc⟩ := honward
  obtain ⟨hinv, hcalm, hpast⟩ := h.proc hproc hreturned
  exact ⟨hinv, hcalm, ⟨visited', stack', todo', pending', htr', hc'⟩, hpast⟩

/-- A statement that moves no file. -/
lemma Books.call {n : ℕ} {readdir : Path → List Name} {src dst : Path} {fs₀ : FileSystem}
    {w t : World n} (h : Books readdir src dst fs₀ w) (hapart : Apart src dst)
    {a : CopyBuffer.Act n} (ha : a ≠ .sigint) (hend : a ≠ .endTraversal)
    (hq : a.quiet w.proc = true) (hst : w.call a = some t) : Books readdir src dst fs₀ t := by
  obtain ⟨s, hs, rfl⟩ := call_eq_some hst
  obtain ⟨visited, stack, todo, pending, htr, hc⟩ := h.traversed
  have helse : ∀ touched, Elsewhere src dst touched w { w with proc := s } :=
    fun _ => elsewhere_of_eq rfl rfl
  obtain ⟨hinv, hcalm, hpast⟩ := h.proc (t := { w with proc := s })
    (Or.inr ⟨a, ha, fun heq => absurd heq hend, hs⟩) id
  exact ⟨hinv, hcalm, ⟨visited, stack, todo, pending,
    htr.away hapart (helse _) ⟨rfl, rfl, rfl, rfl⟩,
    hc.away hapart (fun _ _ => List.not_mem_nil) (helse _) ((h.calm.step h.inv ha hs).2 hq) rfl⟩,
    hpast⟩

/-- A worker reads, or executes its statement of `CopyBuffer`. -/
lemma proc_of_worker {n : ℕ} {w t : World n} {i : Fin n} {nread : ℕ}
    (hst : w.worker i true nread = some t) :
    t.proc = w.proc ∨ ∃ k, CopyBuffer.step w.proc (.worker i k) = some t.proc := by
  have hcall : ∀ {u : World n} {k : ℕ}, u.call (.worker i k) = some t → u.proc = w.proc →
      t.proc = w.proc ∨ ∃ k, CopyBuffer.step w.proc (.worker i k) = some t.proc := by
    intro u k hu hproc
    obtain ⟨s, hs, rfl⟩ := call_eq_some hu
    exact Or.inr ⟨k, hproc ▸ hs⟩
  simp only [World.worker, World.read, World.write, if_true] at hst
  split at hst
  · split_ifs at hst
    · split at hst
      · cases hst
      · split_ifs at hst
        · exact hcall hst rfl
        · cases hst
          exact Or.inl rfl
    · split at hst
      · cases hst
      · exact hcall hst rfl
  all_goals exact hcall hst rfl

lemma procStep_of_worker {n : ℕ} {w t : World n} {i : Fin n} {nread : ℕ}
    (hst : w.worker i true nread = some t) : ProcStep w t := by
  rcases proc_of_worker hst with hproc | ⟨k, hs⟩
  · exact Or.inl hproc
  · exact Or.inr ⟨.worker i k, by simp, by simp, hs⟩

/-- Every step keeps the books. -/
theorem Books.step {n : ℕ} {readdir : Path → List Name} {src dst : Path} {fs₀ : FileSystem}
    {nodes : Finset Path} {w t : World n} {a : Act n} (h : Books readdir src dst fs₀ w)
    (htree : SourceTree readdir fs₀ src nodes) (hapart : Apart src dst) (hok : Succeeds w a)
    (hst : step readdir w a = some t) : Books readdir src dst fs₀ t := by
  cases a with
  | traverse ok fd =>
    simp only [TreeCopy.step] at hst
    split_ifs at hst with hscan
    exact h.traverse htree hapart hscan.2 hok hst
  | manager c =>
    have hkeeps := h.calm.keeps
    have hcall : w.manager c = w.call (.manager c) := by
      unfold World.manager
      cases hp : w.proc.manager with
      | dropClose f => simp [hp, CopyBuffer.ManagerPc.drops] at hkeeps
      | _ => rfl
    rw [TreeCopy.step, hcall] at hst
    exact h.call hapart (by simp) (by simp) rfl hst
  | worker i ok nread =>
    simp only [TreeCopy.step] at hst
    split_ifs at hst with hexit
    obtain rfl : ok = true := hok
    obtain ⟨visited, stack, todo, pending, htr, hc⟩ := h.traversed
    obtain ⟨hc', helse, hplace⟩ := hc.worker h.inv hapart htr.source hst
    obtain ⟨hinv, hcalm, hpast⟩ := h.proc (procStep_of_worker hst) hplace.trav.trans
    exact ⟨hinv, hcalm, ⟨visited, stack, todo, pending, htr.away hapart helse hplace, hc'⟩, hpast⟩
  | main => exact h.call hapart (by simp) (by simp) rfl hst
  | sigint => exact hok.elim
  | spuriousManager => exact h.call hapart (by simp) (by simp) rfl hst
  | spuriousWorker i => exact h.call hapart (by simp) (by simp) rfl hst

/-- The walk from the source directory comes to all that lies below it. -/
lemma descendant_iff {readdir : Path → List Name} {fs₀ : FileSystem} {src : Path}
    {nodes : Finset Path} (h : SourceTree readdir fs₀ src nodes) {r : Path} :
    Descendant (children readdir fs₀ src) [] r ↔ r ∈ nodes := by
  have hchild : ∀ {q : Path} {a : Name},
      a ∈ children readdir fs₀ src q ↔ fs₀ (src ++ (q ++ [a])) ≠ none := by
    intro q a
    unfold children
    split_ifs with hdir
    · exact (h.lists q hdir).2 a
    · exact iff_of_false List.not_mem_nil fun hne => hdir (h.parent q a hne)
  rw [h.mem_nodes]
  constructor
  · intro hr
    cases hr with
    | child ha => exact ⟨by simp, hchild.mp ha⟩
    | step hp ha => exact ⟨by simp, hchild.mp ha⟩
  · rintro ⟨hnil, hne⟩
    induction r using List.reverseRecOn with
    | nil => exact absurd rfl hnil
    | append_singleton q a ih =>
      by_cases hq : q = []
      · rw [hq] at hne ⊢
        exact .child (hchild.mpr hne)
      · exact .step (ih hq (by rw [h.parent q a hne]; simp)) (hchild.mpr hne)

/-- The destination has a copy of the tree, which is as it was, and the counters
count what is in it. -/
structure CopiedTree {n : ℕ} (fs₀ : FileSystem) (src dst : Path) (nodes : Finset Path)
    (w : World n) : Prop where
  source : ∀ r, w.fs (src ++ r) = fs₀ (src ++ r)
  copied : ∀ r node, fs₀ (src ++ r) = some node → w.fs (dst ++ r) = some node
  numFilesCopied : w.proc.numFilesCopied = (nodes.filter fun r => isFile (fs₀ (src ++ r))).card
  numDirectories : w.numDirectories = (nodes.filter fun r => isDir (fs₀ (src ++ r))).card
  numFifoFiles : w.numFifoFiles = (nodes.filter fun r => isFifo (fs₀ (src ++ r))).card
  totalBytesCopied : w.proc.totalBytesCopied = ∑ r ∈ nodes, size (fs₀ (src ++ r))

lemma countP_eq_card {l : List Path} (hnodup : l.Nodup) (p : Path → Bool) :
    l.countP p = (l.toFinset.filter fun r => p r).card := by
  rw [← List.toFinset_filter, List.toFinset_card_of_nodup (hnodup.filter p),
    List.countP_eq_length_filter]

lemma size_of_not_isFile {node : Option Node} (h : ¬ isFile node = true) : size node = 0 := by
  cases node with
  | none => rfl
  | some node => cases node <;> simp_all [isFile, size]

/-- Whatever the interleaving and the sizes of the pieces that `read` returns: when all
workers have left their loops, and so when all threads have finished, the whole
tree is copied. The barrier comes after the loops. -/
theorem tree_copied {n size : ℕ} {junk : ℕ → FileInformation} {readdir : Path → List Name}
    {src dst : Path} {fs₀ : FileSystem} {nodes : Finset Path} (hn : 0 < n) (hsize : 0 < size)
    (htree : SourceTree readdir fs₀ src nodes) (hapart : Apart src dst) {w : World n}
    (hr : Reach (step readdir) Succeeds (init n size junk fs₀ src dst) w)
    (hall : ∀ i, (w.proc.worker i).left = true) : CopiedTree fs₀ src dst nodes w := by
  have h : Books readdir src dst fs₀ w := hr.invariant (books_init hsize htree)
    fun _ _ _ hu hok hst => hu.step htree hapart hok hst
  obtain ⟨visited, stack, todo, pending, htr, hc⟩ := h.traversed
  have hended := h.calm.done (h.inv.left ⟨0, hn⟩ (hall _)).1
  have htrav : w.trav = .returned := h.returned (by
    cases hp : w.proc.manager <;> simp_all [CopyBuffer.ManagerPc.ended, CopyBuffer.ManagerPc.past])
  have hhand : w.proc.manager.hand = [] := by
    cases hp : w.proc.manager <;>
      simp_all [CopyBuffer.ManagerPc.ended, CopyBuffer.ManagerPc.hand]
  have hpos := htr.position
  rw [htrav] at hpos
  cases hpos
  obtain ⟨hfile, hcount, hbytes⟩ := hc.complete h.inv hn hall hhand
  have hvisited : ∀ r, r ∈ visited ↔ r ∈ nodes := fun r =>
    htr.walk.mem_visited_iff.trans (descendant_iff htree)
  have hnodup := htr.walk.nodup
  obtain rfl : nodes = visited.toFinset := by
    ext r
    rw [List.mem_toFinset, hvisited]
  refine ⟨htr.source, fun r node hnode => ?_, ?_, ?_, ?_, ?_⟩
  · have hmem : r = [] ∨ r ∈ visited := by
      rw [hvisited, htree.mem_nodes]
      by_cases hr : r = []
      · exact Or.inl hr
      · exact Or.inr ⟨hr, by simp [hnode]⟩
    by_cases hkind : isFile (some node) = true
    · have hreg : r ∈ regularFiles fs₀ src visited := by
        refine List.mem_filter.mpr ⟨hmem.resolve_left ?_, by rwa [hnode]⟩
        rintro rfl
        rw [List.append_nil, htree.root] at hnode
        cases hnode
        cases hkind
      obtain ⟨content, hcontent, hcopy⟩ := hfile r hreg
      rw [hcopy, ← hcontent, hnode]
    · exact htr.placed r hmem (by simp) node hnode (by simpa using hkind)
  · rw [hcount, regularFiles, ← List.countP_eq_length_filter, countP_eq_card hnodup]
  · rw [htr.numDirectories, countP_eq_card hnodup]
  · rw [htr.numFifoFiles, countP_eq_card hnodup]
  · rw [hbytes, regularFiles, ← List.sum_toFinset _ (hnodup.filter _), List.toFinset_filter,
      Finset.sum_filter]
    refine Finset.sum_congr rfl fun r _ => ?_
    split_ifs with hkind
    · rfl
    · exact (size_of_not_isFile hkind).symm

def nameA : Name := ⟨['a'], by decide⟩
def nameE : Name := ⟨['e'], by decide⟩
def nameP : Name := ⟨['p'], by decide⟩
def nameS : Name := ⟨['s'], by decide⟩
def nameD : Name := ⟨['d'], by decide⟩
def nameDot : Name := ⟨['.'], by decide⟩

/-- The directory `/s` with a file `a` and a directory `e` that has a FIFO `p`. -/
def smallFs : FileSystem := fun p =>
  if p = [] ∨ p = [nameS] ∨ p = [nameS, nameE] then some .dir
  else if p = [nameS, nameA] then some (.file ['x', 'y'])
  else if p = [nameS, nameE, nameP] then some .fifo
  else none

def smallReaddir (p : Path) : List Name :=
  if p = [nameS] then [nameDot, nameA, nameE]
  else if p = [nameS, nameE] then [nameDot, nameP]
  else []

lemma small_tree :
    SourceTree smallReaddir smallFs [nameS] {[nameA], [nameE], [nameE, nameP]} where
  root := by decide
  mem_nodes := by
    intro r
    simp only [smallFs, Finset.mem_insert, Finset.mem_singleton, List.cons_append,
      List.nil_append, List.cons.injEq, true_and, reduceCtorEq, false_or]
    by_cases h₁ : r = [nameA]
    · subst h₁
      decide
    by_cases h₂ : r = [nameE]
    · subst h₂
      decide
    by_cases h₃ : r = [nameE, nameP]
    · subst h₃
      decide
    simp_all
  parent := by
    intro r x hne
    have hchild : r ++ [x] = [nameA] ∨ r ++ [x] = [nameE] ∨ r ++ [x] = [nameE, nameP] := by
      by_contra hnone
      simp_all [smallFs]
    have hr : r = [] ∨ r = [nameE] := by
      rcases hchild with h | h | h
      · exact Or.inl (by simpa using congrArg List.dropLast h)
      · exact Or.inl (by simpa using congrArg List.dropLast h)
      · exact Or.inr (by simpa using congrArg List.dropLast h)
    rcases hr with rfl | rfl <;> decide
  lists := by
    intro r hdir
    have hr : r = [] ∨ r = [nameE] := by
      by_contra hnone
      simp [smallFs, not_or.mp hnone] at hdir
      split_ifs at hdir
      all_goals cases hdir
    have hae : nameA ≠ nameE := by decide
    rcases hr with rfl | rfl
    · have hread : (smallReaddir ([nameS] ++ [])).filter (fun a => !isDot a) = [nameA, nameE] := by
        decide
      refine ⟨by decide, fun x => ?_⟩
      rw [hread]
      simp only [smallFs, List.mem_cons, List.not_mem_nil, or_false]
      by_cases h₁ : x = nameA
      · subst h₁
        simp [hae]
      · by_cases h₂ : x = nameE
        · subst h₂
          simp
        · simp [h₁, h₂]
    · have hread : (smallReaddir ([nameS] ++ [nameE])).filter (fun a => !isDot a) = [nameP] := by
        decide
      refine ⟨by decide, fun x => ?_⟩
      rw [hread]
      simp [smallFs]

/-- One worker copies `/s` to `/d`, reading its file byte by byte. -/
theorem tree_copied_small : ∃ w : World 1, w.proc.manager = .finished ∧
    w.proc.worker 0 = .finished ∧ w.fs [nameD, nameA] = some (.file ['x', 'y']) ∧
    CopiedTree smallFs [nameS] [nameD] {[nameA], [nameE], [nameE, nameP]} w := by
  have hr : Reach (step smallReaddir) Succeeds
      (init 1 1 (fun _ => ⟨0, 0, [], []⟩) smallFs [nameS] [nameD]) _ := reach_of_checked_run
    [.traverse true 0, .traverse true 0, .traverse true 0, .traverse true 0, .traverse true 0,
      .traverse true 3, .traverse true 4, .manager none, .manager none, .manager none,
      .manager none, .manager none, .traverse true 0, .worker 0 true 0, .worker 0 true 0,
      .worker 0 true 0, .worker 0 true 0, .worker 0 true 0, .worker 0 true 1, .traverse true 0,
      .worker 0 true 0, .worker 0 true 0, .worker 0 true 0, .worker 0 true 0, .worker 0 true 1,
      .worker 0 true 0, .worker 0 true 0, .worker 0 true 0, .worker 0 true 0, .worker 0 true 0,
      .worker 0 true 0, .worker 0 true 0, .worker 0 true 0, .worker 0 true 0, .worker 0 true 0,
      .traverse true 0, .traverse true 0, .traverse true 0, .traverse true 0, .traverse true 0,
      .traverse true 0, .traverse true 0, .traverse true 0, .traverse true 0, .manager none,
      .manager none, .manager none, .manager none, .manager none, .worker 0 true 0,
      .worker 0 true 0, .worker 0 true 0, .worker 0 true 0, .manager none, .worker 0 true 0] rfl
  exact ⟨_, by rfl, by rfl, by rfl, tree_copied (by decide) (by decide) small_tree
    ⟨by decide, by decide⟩ hr (by decide)⟩

end SystemProgramming.TreeCopy
