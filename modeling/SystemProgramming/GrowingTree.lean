import Mathlib.Data.Finset.Union
import Mathlib.Data.List.Nodup
import SystemProgramming.Transition
import SystemProgramming.TreeCopy

/-!
# A traversal of a tree that it makes grow

`traverse_directory` of both copy programs with a file system whose directories
list what is in them now: an entry created after `opendir` is reported as well.
Paths have no bound and no links. The threads matter only where a file is handed
over, as the traversal may find `done` set there and leave its loop.
-/
namespace SystemProgramming.GrowingTree
open SystemProgramming.Transition
open SystemProgramming.TreeCopy (Name isDot)

/-- A name other than `.` and `..`. -/
abbrev Entry := { a : Name // isDot a = false }

abbrev Path := List Entry

/-- What `stat` tells apart: in `other` are devices and sockets. -/
inductive Kind where
  | dir
  | file
  | fifo
  | other
  deriving DecidableEq, Repr

/-- The paths that exist, with what they are; entries are in directories. -/
structure Tree where
  nodes : Finset Path
  kind : Path → Kind
  parent : ∀ {p : Path} {a : Entry}, p ++ [a] ∈ nodes → p ∈ nodes ∧ kind p = .dir

def Tree.IsDir (t : Tree) (p : Path) : Prop := p ∈ t.nodes ∧ t.kind p = .dir

instance (t : Tree) (p : Path) : Decidable (t.IsDir p) := inferInstanceAs (Decidable (_ ∧ _))

/-- Nothing has the path, and its directory exists. -/
def Tree.Vacant (t : Tree) (p : Path) : Prop := p ∉ t.nodes ∧ p ≠ [] ∧ t.IsDir p.dropLast

instance (t : Tree) (p : Path) : Decidable (t.Vacant p) := inferInstanceAs (Decidable (_ ∧ _))

def Tree.create (t : Tree) (p : Path) (k : Kind) (h : t.Vacant p) : Tree where
  nodes := insert p t.nodes
  kind := Function.update t.kind p k
  parent := by
    intro q a hq
    have hparent : t.IsDir q := by
      rcases Finset.mem_insert.mp hq with rfl | hq
      · simpa using h.2.2
      · exact t.parent hq
    have hne : q ≠ p := fun heq => h.1 (heq ▸ hparent.1)
    exact ⟨Finset.mem_insert_of_mem hparent.1, by rw [Function.update_of_ne hne]; exact hparent.2⟩

/-- An activation of `traverse_directory`, with the names that `readdir` has returned. -/
structure Frame where
  srcDir : Path
  dstDir : Path
  seen : List Entry
  deriving DecidableEq

/-- The next call of `traverse_directory`. In `handOver` it is about to look at `done`
with both files open. -/
inductive Pc where
  | opendir (srcDir dstDir : Path)
  | mkdir (srcDir dstDir : Path)
  | readdir
  | stat (srcPath dstPath : Path)
  | openSrc (dstPath : Path)
  | openDst (dstPath : Path)
  | handOver
  | mkfifo (dstPath : Path)
  | returned
  | exited
  deriving DecidableEq

/-- `calls` are the source directories of the recursive calls. -/
structure State where
  tree : Tree
  frames : List Frame
  pc : Pc
  calls : List Path

/-- The loop over the entries starts. -/
def State.enter (t : State) (s d : Path) : State :=
  { t with frames := ⟨s, d, []⟩ :: t.frames, pc := .readdir }

/-- The activation returns to the loop of its caller. -/
def State.leave (t : State) : State :=
  { t with
    frames := t.frames.tail
    pc := if t.frames.tail = [] then .returned else .readdir }

def State.create (t : State) (p : Path) (k : Kind) (h : t.tree.Vacant p) : State :=
  { t with tree := t.tree.create p k h }

/-- A call succeeds or not, which for `handOver` says whether the file is added;
`readdir` returns `.` or `..`, an entry, or no more entries. -/
inductive Act where
  | call (ok : Bool)
  | dot
  | entry (a : Entry)
  | last
  deriving DecidableEq

def step (t : State) (a : Act) : Option State :=
  match t.pc, a with
  | .opendir s d, .call ok =>
    if ok then
      if t.tree.IsDir s then some { t with pc := .mkdir s d } else none
    else some { t with pc := .exited }
  | .mkdir s d, .call ok =>
    if ok then
      if h : t.tree.Vacant d then some ((t.create d .dir h).enter s d) else none
    else if d ∈ t.tree.nodes then some (t.enter s d)
    else some { t with pc := .exited }
  | .readdir, .dot => if t.frames = [] then none else some t
  | .readdir, .entry a =>
    match t.frames with
    | [] => none
    | ⟨s, d, seen⟩ :: frames =>
      if a ∉ seen ∧ s ++ [a] ∈ t.tree.nodes then some { t with
        frames := ⟨s, d, seen ++ [a]⟩ :: frames
        pc := .stat (s ++ [a]) (d ++ [a]) }
      else none
  | .readdir, .last =>
    match t.frames with
    | [] => none
    | ⟨s, _, seen⟩ :: _ =>
      if ∀ p ∈ t.tree.nodes, p ≠ [] → p.dropLast = s → p ∈ seen.map fun a => s ++ [a] then
        some t.leave
      else none
  | .stat s d, .call ok =>
    if ok then
      if s ∈ t.tree.nodes then
        match t.tree.kind s with
        | .dir => some { t with pc := .opendir s d, calls := t.calls ++ [s] }
        | .file => some { t with pc := .openSrc d }
        | .fifo => some { t with pc := .mkfifo d }
        | .other => some { t with pc := .readdir }
      else none
    else some { t with pc := .readdir }
  | .openSrc d, .call ok => some { t with pc := if ok then .openDst d else .readdir }
  | .openDst d, .call ok =>
    if ok then
      if h : t.tree.Vacant d then some { t.create d .file h with pc := .handOver }
      else if d ∈ t.tree.nodes ∧ t.tree.kind d ≠ .dir then some { t with pc := .handOver }
      else none
    else some { t with pc := .readdir }
  | .handOver, .call ok => some (if ok then { t with pc := .readdir } else t.leave)
  | .mkfifo d, .call ok =>
    if ok then
      if h : t.tree.Vacant d then some { t.create d .fifo h with pc := .readdir } else none
    else some { t with pc := .readdir }
  | _, _ => none

def start (fs : Tree) (src dst : Path) : State := ⟨fs, [], .opendir src dst, []⟩

/-- The tree has what it had before. -/
def Grows (fs t : Tree) : Prop := ∀ p ∈ fs.nodes, p ∈ t.nodes ∧ t.kind p = fs.kind p

lemma Grows.refl (t : Tree) : Grows t t := fun _ hp => ⟨hp, rfl⟩

lemma Grows.trans {fs t u : Tree} (h : Grows fs t) (h' : Grows t u) : Grows fs u := by
  intro p hp
  obtain ⟨hpt, hkind⟩ := h p hp
  exact ⟨(h' p hpt).1, (h' p hpt).2.trans hkind⟩

lemma Grows.isDir {fs t : Tree} (h : Grows fs t) {p : Path} (hp : fs.IsDir p) : t.IsDir p :=
  ⟨(h p hp.1).1, (h p hp.1).2.trans hp.2⟩

lemma grows_create {t : Tree} {p : Path} {k : Kind} (h : t.Vacant p) :
    Grows t (t.create p k h) := by
  intro q hq
  have hne : q ≠ p := fun heq => h.1 (heq ▸ hq)
  exact ⟨Finset.mem_insert_of_mem hq, Function.update_of_ne hne ..⟩

/-- A directory that was there before, or the new one. -/
lemma isDir_create {t : Tree} {p q : Path} {k : Kind} (h : t.Vacant p)
    (hq : (t.create p k h).IsDir q) : t.IsDir q ∨ q = p ∧ k = .dir := by
  obtain ⟨hmem, hkind⟩ := hq
  rcases eq_or_ne q p with rfl | hne
  · exact Or.inr ⟨rfl, by simpa [Tree.create] using hkind⟩
  · have hold : q ∈ t.nodes := by simpa [Tree.create, hne] using hmem
    exact Or.inl ⟨hold, by simpa [Tree.create, hne] using hkind⟩

/-- What lies above an existing path is a directory. -/
lemma Tree.isDir_above {t : Tree} {p q : Path} (hq : t.IsDir q) (hp : p <+: q) :
    t.IsDir p := by
  obtain ⟨r, rfl⟩ := hp
  induction r using List.reverseRecOn with
  | nil => simpa using hq
  | append_singleton r a ih =>
    rw [← List.append_assoc] at hq
    exact ih (t.parent hq.1)

end SystemProgramming.GrowingTree
