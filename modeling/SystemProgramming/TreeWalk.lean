import Mathlib.Data.List.Nodup
import Mathlib.Data.List.Infix

/-!
# Walks that visit every path of a tree once

A tree is given by the names of the children of each of its paths. A walk has a
list of the paths it has visited and a list of those it will come to next. It
visits the first of these and puts the children of that path before the rest.
The paths still to come have disjoint subtrees that no visited path lies in, so
no path is visited twice, and when nothing is left every descendant was visited.
-/
namespace SystemProgramming.TreeWalk

def childPaths {α : Type*} (children : List α → List α) (p : List α) : List (List α) :=
  (children p).map fun a => p ++ [a]

@[simp] lemma mem_childPaths {α : Type*} {children : List α → List α} {p q : List α} :
    q ∈ childPaths children p ↔ ∃ a ∈ children p, p ++ [a] = q := by
  simp [childPaths]

/-- The paths below `root` that its children, their children and so on lead to. -/
inductive Descendant {α : Type*} (children : List α → List α) (root : List α) : List α → Prop
  | child {a : α} (ha : a ∈ children root) : Descendant children root (root ++ [a])
  | step {p : List α} {a : α} (hp : Descendant children root p) (ha : a ∈ children p) :
      Descendant children root (p ++ [a])

/-- What a walk from `root` keeps to: `todo` is what it will come to. -/
structure Walk {α : Type*} (children : List α → List α) (root : List α)
    (visited todo : List (List α)) : Prop where
  nodup : visited.Nodup
  apart : todo.Pairwise fun t u => ¬ t <+: u ∧ ¬ u <+: t
  unvisited : ∀ t ∈ todo, ∀ v ∈ visited, ¬ t <+: v
  closed : ∀ p, p = root ∨ p ∈ visited → ∀ q ∈ childPaths children p, q ∈ visited ∨ q ∈ todo
  sound : ∀ q, q ∈ visited ∨ q ∈ todo → Descendant children root q

/-- A path is a prefix of a child of another one if it is a prefix of that one, or
the child. -/
lemma prefix_child {α : Type*} {p q : List α} {a : α} (h : p <+: q ++ [a]) :
    p = q ++ [a] ∨ p <+: q := List.prefix_concat_iff.mp h

lemma isPrefix_of_child {α : Type*} {p q : List α} {a : α} (h : p ++ [a] <+: q) : p <+: q :=
  (List.prefix_append p [a]).trans h

lemma not_child_prefix_self {α : Type*} (p : List α) (a : α) : ¬ p ++ [a] <+: p := by
  intro h
  have hlength := h.length_le
  rw [List.length_append, List.length_singleton] at hlength
  omega

/-- Different children have disjoint subtrees. -/
lemma childPaths_apart {α : Type*} {children : List α → List α} {p : List α}
    (hnodup : (children p).Nodup) :
    (childPaths children p).Pairwise fun t u => ¬ t <+: u ∧ ¬ u <+: t := by
  refine List.pairwise_map.mpr (hnodup.imp fun {a b} hab => ?_)
  simp [List.prefix_append_right_inj, hab, hab.symm]

theorem walk_init {α : Type*} {children : List α → List α} {root : List α}
    (hnodup : (children root).Nodup) : Walk children root [] (childPaths children root) where
  nodup := List.nodup_nil
  apart := childPaths_apart hnodup
  unvisited := fun t _ v hv => by cases hv
  closed := fun p hp q hq => by
    rcases hp with rfl | hp
    · exact Or.inr hq
    · cases hp
  sound := fun q hq => by
    obtain ⟨a, ha, rfl⟩ := mem_childPaths.mp (hq.resolve_left List.not_mem_nil)
    exact .child ha

/-- What a walk keeps to that may leave out subtrees and does not say which. -/
structure Roam {α : Type*} (visited todo : List (List α)) : Prop where
  apart : todo.Pairwise fun t u => ¬ t <+: u ∧ ¬ u <+: t
  unvisited : ∀ t ∈ todo, ∀ v ∈ visited, ¬ t <+: v

lemma Walk.roam {α : Type*} {children : List α → List α} {root : List α}
    {visited todo : List (List α)} (h : Walk children root visited todo) : Roam visited todo :=
  ⟨h.apart, h.unvisited⟩

lemma roam_init {α : Type*} {children : List α → List α} {p : List α}
    (hnodup : (children p).Nodup) : Roam [] (childPaths children p) :=
  ⟨childPaths_apart hnodup, fun _ _ v hv => by cases hv⟩

lemma Roam.not_mem {α : Type*} {t : List α} {visited todo : List (List α)}
    (h : Roam visited (t :: todo)) : t ∉ visited :=
  fun ht => h.unvisited t List.mem_cons_self t ht (List.prefix_refl t)

/-- The walk may leave out what it was to come to, and forget what it has visited. -/
lemma Roam.mono {α : Type*} {visited visited' todo todo' : List (List α)} (h : Roam visited todo)
    (hvisited : visited' ⊆ visited) (htodo : todo'.Sublist todo) : Roam visited' todo' :=
  ⟨h.apart.sublist htodo, fun t ht v hv => h.unvisited t (htodo.subset ht) v (hvisited hv)⟩

/-- The walk visits the next path, and will come to its children. -/
theorem Roam.visit {α : Type*} {children : List α → List α} {t : List α}
    {visited todo : List (List α)} (h : Roam visited (t :: todo)) (hnodup : (children t).Nodup) :
    Roam (visited ++ [t]) (childPaths children t ++ todo) := by
  obtain ⟨hapart, htodo⟩ := List.pairwise_cons.mp h.apart
  constructor
  · refine List.pairwise_append.mpr ⟨childPaths_apart hnodup, htodo, fun c hc u hu => ?_⟩
    obtain ⟨a, -, rfl⟩ := mem_childPaths.mp hc
    obtain ⟨htu, hut⟩ := hapart u hu
    refine ⟨fun hcu => htu (isPrefix_of_child hcu), fun huc => ?_⟩
    rcases prefix_child huc with rfl | hut'
    · exact htu (List.prefix_append t [a])
    · exact hut hut'
  · intro c hc v hv hcv
    rcases List.mem_append.mp hc with hc | hc
    · obtain ⟨a, -, rfl⟩ := mem_childPaths.mp hc
      rcases List.mem_append.mp hv with hv | hv
      · exact h.unvisited t List.mem_cons_self v hv (isPrefix_of_child hcv)
      · rw [List.mem_singleton.mp hv] at hcv
        exact not_child_prefix_self t a hcv
    · rcases List.mem_append.mp hv with hv | hv
      · exact h.unvisited c (List.mem_cons_of_mem t hc) v hv hcv
      · rw [List.mem_singleton.mp hv] at hcv
        exact (hapart c hc).2 hcv

/-- The walk visits the next path. -/
theorem Walk.visit {α : Type*} {children : List α → List α} {root t : List α}
    {visited todo : List (List α)} (h : Walk children root visited (t :: todo))
    (hnodup : (children t).Nodup) :
    Walk children root (visited ++ [t]) (childPaths children t ++ todo) := by
  have hroam := h.roam.visit hnodup
  have hnew : t ∉ visited := h.roam.not_mem
  refine ⟨?_, hroam.apart, hroam.unvisited, ?_, ?_⟩
  · exact List.nodup_append.mpr ⟨h.nodup, List.nodup_singleton t, by
      rintro v hv u hu rfl
      rw [List.mem_singleton.mp hu] at hv
      exact hnew hv⟩
  · intro p hp q hq
    have hcases : (p = root ∨ p ∈ visited) ∨ p = t := by
      rcases hp with hp | hp
      · exact Or.inl (Or.inl hp)
      · rcases List.mem_append.mp hp with hp | hp
        · exact Or.inl (Or.inr hp)
        · exact Or.inr (List.mem_singleton.mp hp)
    rcases hcases with hp | rfl
    · rcases h.closed p hp q hq with hq | hq
      · exact Or.inl (List.mem_append_left _ hq)
      · rcases List.mem_cons.mp hq with rfl | hq
        · exact Or.inl (List.mem_append_right _ List.mem_cons_self)
        · exact Or.inr (List.mem_append_right _ hq)
    · exact Or.inr (List.mem_append_left _ hq)
  · have ht := h.sound t (Or.inr List.mem_cons_self)
    rintro q (hq | hq)
    · rcases List.mem_append.mp hq with hq | hq
      · exact h.sound q (Or.inl hq)
      · rw [List.mem_singleton.mp hq]
        exact ht
    · rcases List.mem_append.mp hq with hq | hq
      · obtain ⟨a, ha, rfl⟩ := mem_childPaths.mp hq
        exact .step ht ha
      · exact h.sound q (Or.inr (List.mem_cons_of_mem t hq))

/-- With nothing left to come, exactly the descendants have been visited. -/
theorem Walk.mem_visited_iff {α : Type*} {children : List α → List α} {root : List α}
    {visited : List (List α)} (h : Walk children root visited []) {q : List α} :
    q ∈ visited ↔ Descendant children root q := by
  refine ⟨fun hq => h.sound q (Or.inl hq), fun hq => ?_⟩
  induction hq with
  | child ha =>
    exact (h.closed root (Or.inl rfl) _ (mem_childPaths.mpr ⟨_, ha, rfl⟩)).resolve_right
      List.not_mem_nil
  | step hp ha ih =>
    exact (h.closed _ (Or.inr ih) _ (mem_childPaths.mpr ⟨_, ha, rfl⟩)).resolve_right
      List.not_mem_nil

end SystemProgramming.TreeWalk
