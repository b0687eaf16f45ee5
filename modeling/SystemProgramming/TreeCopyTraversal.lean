import SystemProgramming.TreeCopyWorkers
import SystemProgramming.TreeWalk

/-!
# The traversal walks the source tree

The activations of `traverse_directory` are a walk of the source tree: what they
have still to read is what the walk will come to. A directory or a FIFO that was
visited is there in the destination, unless the call that creates it comes next.
-/
namespace SystemProgramming.TreeCopy
open SystemProgramming.TreeWalk
open SystemProgramming.CopyBuffer (FileInformation Quiet)

def isDir (node : Option Node) : Bool := node = some .dir

def isFifo (node : Option Node) : Bool := node = some .fifo

def isFile : Option Node → Bool
  | some (.file _) => true
  | _ => false

/-- The names in a directory of the source that the traversal looks at. -/
def children (readdir : Path → List Name) (fs₀ : FileSystem) (src r : Path) : List Name :=
  if fs₀ (src ++ r) = some .dir then (readdir (src ++ r)).filter fun a => !isDot a else []

/-- What the activations have still to look at. -/
def upcoming (stack : List (Path × List Name)) : List Path :=
  stack.flatMap fun p => (p.2.filter fun a => !isDot a).map fun a => p.1 ++ [a]

/-- The next call of the traversal, the activations, what the walk will come to, and
the path that the next calls create in the destination. -/
inductive Position (readdir : Path → List Name) (src dst : Path) (fs₀ : FileSystem)
    (fds : ℤ → Option OpenFile) (stack : List (Path × List Name)) :
    TravPc → List Path → Option Path → Prop
  | opendir {r : Path} (hdir : fs₀ (src ++ r) = some .dir) :
    Position readdir src dst fs₀ fds stack (.opendir (src ++ r) (dst ++ r))
      (childPaths (children readdir fs₀ src) r ++ upcoming stack) (some r)
  | mkdir {r : Path} (hdir : fs₀ (src ++ r) = some .dir) :
    Position readdir src dst fs₀ fds stack (.mkdir (src ++ r) (dst ++ r))
      (childPaths (children readdir fs₀ src) r ++ upcoming stack) (some r)
  | readdir : Position readdir src dst fs₀ fds stack .readdir (upcoming stack) none
  | stat (r : Path) : Position readdir src dst fs₀ fds stack (.stat (src ++ r) (dst ++ r))
      (r :: upcoming stack) none
  | openSrc {r : Path} (hfile : isFile (fs₀ (src ++ r)) = true) :
    Position readdir src dst fs₀ fds stack (.openSrc (src ++ r) (dst ++ r))
      (r :: upcoming stack) none
  | openDst {r : Path} {fd : ℤ} (hfile : isFile (fs₀ (src ++ r)) = true)
      (hfd : fds fd = some ⟨src ++ r, 0⟩) :
    Position readdir src dst fs₀ fds stack (.openDst (src ++ r) (dst ++ r) fd)
      (r :: upcoming stack) none
  | mkfifo {r : Path} (hfifo : fs₀ (src ++ r) = some .fifo) :
    Position readdir src dst fs₀ fds stack (.mkfifo (dst ++ r)) (upcoming stack) (some r)
  | returned (hstack : stack = []) : Position readdir src dst fs₀ fds stack .returned [] none

/-- What is not a regular file is in the destination. -/
def Placed {n : ℕ} (src dst : Path) (fs₀ : FileSystem) (w : World n) (r : Path) : Prop :=
  ∀ node, fs₀ (src ++ r) = some node → isFile (some node) = false → w.fs (dst ++ r) = some node

structure Traversed {n : ℕ} (readdir : Path → List Name) (src dst : Path) (fs₀ : FileSystem)
    (visited : List Path) (stack : List (Path × List Name)) (todo : List Path)
    (pending : Option Path) (w : World n) : Prop where
  frames : w.frames = stack.map fun p => ⟨src ++ p.1, dst ++ p.1, p.2⟩
  position : Position readdir src dst fs₀ w.fds stack w.trav todo pending
  walk : Walk (children readdir fs₀ src) [] visited todo
  source : ∀ r, w.fs (src ++ r) = fs₀ (src ++ r)
  placed : ∀ r, r = [] ∨ r ∈ visited → pending ≠ some r → Placed src dst fs₀ w r
  numDirectories : w.numDirectories = visited.countP fun r => isDir (fs₀ (src ++ r))
  numFifoFiles : w.numFifoFiles = visited.countP fun r => isFifo (fs₀ (src ++ r))

/-- The regular files among the visited paths. -/
def regularFiles (fs₀ : FileSystem) (src : Path) (visited : List Path) : List Path :=
  visited.filter fun r => isFile (fs₀ (src ++ r))

/-- Other files have other paths. -/
lemma Placed.elsewhere {n : ℕ} {src dst : Path} {fs₀ : FileSystem} {touched : List Path}
    {w t : World n} {r : Path} (h : Placed src dst fs₀ w r) (he : Elsewhere src dst touched w t)
    (hr : r ∈ touched → isFile (fs₀ (src ++ r)) = true) : Placed src dst fs₀ t r := by
  intro node hnode hkind
  rw [he.fs_eq fun hmem => ?_]
  · exact h node hnode hkind
  · have hfile := hr hmem
    rw [hnode, hkind] at hfile
    cases hfile

lemma Elsewhere.source {n : ℕ} {src dst : Path} {touched : List Path} {w t : World n}
    (h : Elsewhere src dst touched w t) (hapart : Apart src dst) (r : Path) :
    t.fs (src ++ r) = w.fs (src ++ r) :=
  h.fs _ fun q _ => hapart.ne r q

lemma Position.elsewhere {n : ℕ} {readdir : Path → List Name} {src dst : Path} {fs₀ : FileSystem}
    {stack : List (Path × List Name)} {pc : TravPc} {todo : List Path} {pending : Option Path}
    {touched : List Path} {w t : World n}
    (h : Position readdir src dst fs₀ w.fds stack pc todo pending) (hapart : Apart src dst)
    (he : Elsewhere src dst touched w t) (htodo : ∀ r ∈ todo, r ∉ touched) :
    Position readdir src dst fs₀ t.fds stack pc todo pending := by
  cases h with
  | opendir hdir => exact .opendir hdir
  | mkdir hdir => exact .mkdir hdir
  | readdir => exact .readdir
  | stat r => exact .stat r
  | openSrc hfile => exact .openSrc hfile
  | openDst hfile hfd =>
    exact .openDst hfile (he.fds_eq hapart (htodo _ List.mem_cons_self) hfd (Or.inl rfl))
  | mkfifo hfifo => exact .mkfifo hfifo
  | returned hstack => exact .returned hstack

/-- The workers touch regular files that have been visited. -/
lemma Traversed.away {n : ℕ} {readdir : Path → List Name} {src dst : Path} {fs₀ : FileSystem}
    {visited : List Path} {stack : List (Path × List Name)} {todo : List Path}
    {pending : Option Path} {w t : World n}
    (h : Traversed readdir src dst fs₀ visited stack todo pending w) (hapart : Apart src dst)
    (he : Elsewhere src dst (regularFiles fs₀ src visited) w t) (hplace : SamePlace w t) :
    Traversed readdir src dst fs₀ visited stack todo pending t where
  frames := hplace.frames.trans h.frames
  position := by
    rw [hplace.trav]
    refine h.position.elsewhere hapart he fun r hr hmem => ?_
    exact h.walk.unvisited r hr r (List.mem_filter.mp hmem).1 (List.prefix_refl r)
  walk := h.walk
  source := fun r => (he.source hapart r).trans (h.source r)
  placed := fun r hr hpending => (h.placed r hr hpending).elsewhere he fun hmem =>
    (List.mem_filter.mp hmem).2
  numDirectories := hplace.numDirectories.trans h.numDirectories
  numFifoFiles := hplace.numFifoFiles.trans h.numFifoFiles

/-- The traversal goes on without coming to a new path; it may create the path that
was pending. -/
lemma Traversed.next {n : ℕ} {readdir : Path → List Name} {src dst : Path} {fs₀ : FileSystem}
    {visited : List Path} {stack stack' : List (Path × List Name)} {todo touched : List Path}
    {pending pending' : Option Path} {w t : World n}
    (h : Traversed readdir src dst fs₀ visited stack todo pending w) (hapart : Apart src dst)
    (he : Elsewhere src dst touched w t)
    (htouched : ∀ r ∈ touched, pending = some r ∨ r ≠ [] ∧ r ∉ visited)
    (hframes : t.frames = stack'.map fun p => ⟨src ++ p.1, dst ++ p.1, p.2⟩)
    (hpos : Position readdir src dst fs₀ t.fds stack' t.trav todo pending')
    (hplaced : ∀ r, pending = some r → pending' ≠ some r → Placed src dst fs₀ t r)
    (hdirs : t.numDirectories = w.numDirectories) (hfifos : t.numFifoFiles = w.numFifoFiles) :
    Traversed readdir src dst fs₀ visited stack' todo pending' t := by
  refine ⟨hframes, hpos, h.walk, fun r => (he.source hapart r).trans (h.source r),
    fun r hr hpending => ?_, hdirs.trans h.numDirectories, hfifos.trans h.numFifoFiles⟩
  by_cases hold : pending = some r
  · exact hplaced r hold hpending
  · refine (h.placed r hr hold).elsewhere he fun hmem => ?_
    rcases htouched r hmem with hp | ⟨hnil, hnew⟩
    · exact absurd hp hold
    · exact absurd hr (not_or.mpr ⟨hnil, hnew⟩)

lemma descendant_ne_nil {children : Path → List Name} {r : Path}
    (h : Descendant children [] r) : r ≠ [] := by
  cases h <;> simp

/-- The traversal comes to the next path. If that is a regular file it is opened,
and else it has to be created. -/
lemma Traversed.visit {n : ℕ} {readdir : Path → List Name} {src dst : Path} {fs₀ : FileSystem}
    {visited : List Path} {stack : List (Path × List Name)} {todo : List Path} {r : Path}
    {pending : Option Path} {w t : World n}
    (h : Traversed readdir src dst fs₀ visited stack (r :: todo) none w) (hapart : Apart src dst)
    (hnodup : (children readdir fs₀ src r).Nodup) (he : Elsewhere src dst [r] w t)
    (hframes : t.frames = w.frames)
    (hpos : Position readdir src dst fs₀ t.fds stack t.trav
      (childPaths (children readdir fs₀ src) r ++ todo) pending)
    (hpending : isFile (fs₀ (src ++ r)) = true ∨ pending = some r)
    (hdirs : t.numDirectories = w.numDirectories + (isDir (fs₀ (src ++ r))).toNat)
    (hfifos : t.numFifoFiles = w.numFifoFiles + (isFifo (fs₀ (src ++ r))).toNat) :
    Traversed readdir src dst fs₀ (visited ++ [r]) stack
      (childPaths (children readdir fs₀ src) r ++ todo) pending t := by
  have hnew : r ∉ visited := fun hmem =>
    h.walk.unvisited r List.mem_cons_self r hmem (List.prefix_refl r)
  have hnil : r ≠ [] := descendant_ne_nil (h.walk.sound r (Or.inr List.mem_cons_self))
  refine ⟨hframes.trans h.frames, hpos, h.walk.visit hnodup,
    fun q => (he.source hapart q).trans (h.source q), fun q hq hne => ?_, ?_, ?_⟩
  · rcases eq_or_ne q r with rfl | hqr
    · intro node hnode hkind
      have hfile := hpending.resolve_right hne
      rw [hnode, hkind] at hfile
      cases hfile
    · have hold : q = [] ∨ q ∈ visited := by simpa [hqr] using hq
      exact (h.placed q hold (by simp)).elsewhere he fun hmem =>
        absurd (List.mem_singleton.mp hmem) hqr
  · rw [hdirs, h.numDirectories, List.countP_append, List.countP_singleton]
    cases isDir (fs₀ (src ++ r)) <;> rfl
  · rw [hfifos, h.numFifoFiles, List.countP_append, List.countP_singleton]
    cases isFifo (fs₀ (src ++ r)) <;> rfl

end SystemProgramming.TreeCopy
