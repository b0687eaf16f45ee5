import SystemProgramming.BubbleSort
import SystemProgramming.Strcmp
import SystemProgramming.LineReader

/-!
# Sorting students by grade

`sortByGrade` bubbles up or down in the order of the grades; `bubbleSort` does so with a
comparison function that it is given.
-/
namespace SystemProgramming.Grades
open SystemProgramming.BubbleSort SystemProgramming.Strcmp SystemProgramming.LineReader

/-- The two strings of a student. -/
structure Student where
  name : Text
  grade : Text
  deriving DecidableEq, Repr

/-- Two neighbours change places; any flag but 0 and 1 leaves them. -/
def gradesWrong (flag : ℤ) (a b : Student) : Bool :=
  if flag = 1 then 0 < strcmp a.grade b.grade
  else if flag = 0 then strcmp a.grade b.grade < 0
  else false

def sortByGrade (students : List Student) (count flag : ℤ) : Option (List Student) :=
  BubbleSort.sort (gradesWrong flag) students count

def ascendingNameCompare (a b : Text) : ℤ := strcmp a b

def descendingNameCompare (a b : Text) : ℤ := strcmp b a

def bubbleSort (arr : List Text) (n : ℤ) (compareFunction : Text → Text → ℤ) :
    Option (List Text) :=
  BubbleSort.sort (fun a b => 0 < compareFunction a b) arr n

/-- Whatever is compared with `strcmp`, up or down, is compared in a total preorder. -/
lemma weakOrder_strcmp {α : Type*} (key : α → Text) :
    WeakOrder fun a b => decide (0 < strcmp (key a) (key b)) := by
  refine ⟨fun h => ?_, fun hab hbc => ?_⟩
  · simp only [decide_eq_true_eq, decide_eq_false_iff_not, strcmp_pos] at h ⊢
    exact lt_asymm h
  · simp only [decide_eq_false_iff_not, strcmp_pos, not_lt] at hab hbc ⊢
    exact hab.trans hbc

lemma weakOrder_strcmp_flip {α : Type*} (key : α → Text) :
    WeakOrder fun a b => decide (0 < strcmp (key b) (key a)) := by
  refine ⟨fun h => ?_, fun hab hbc => ?_⟩
  · simp only [decide_eq_true_eq, decide_eq_false_iff_not, strcmp_pos] at h ⊢
    exact lt_asymm h
  · simp only [decide_eq_false_iff_not, strcmp_pos, not_lt] at hab hbc ⊢
    exact hbc.trans hab

lemma gradesWrong_one : gradesWrong 1 = fun a b => decide (0 < strcmp a.grade b.grade) := rfl

/-- Downwards the strings are compared the other way round. -/
lemma gradesWrong_zero : gradesWrong 0 = fun a b => decide (0 < strcmp b.grade a.grade) := by
  funext a b
  have hflip : strcmp a.grade b.grade < 0 ↔ 0 < strcmp b.grade a.grade := by
    rw [strcmp_neg, strcmp_pos]
  simp [gradesWrong, hflip]

/-- Every comparison function of the program sorts the strings. -/
theorem bubbleSort_spec (arr : List Text) (n : ℤ) (hn : n ≤ arr.length) :
    (∃ lines, bubbleSort arr n ascendingNameCompare = some (lines ++ arr.drop n.toNat) ∧
      StableSort (fun a b => decide (0 < ascendingNameCompare a b)) (arr.take n.toNat) lines) ∧
    ∃ lines, bubbleSort arr n descendingNameCompare = some (lines ++ arr.drop n.toNat) ∧
      StableSort (fun a b => decide (0 < descendingNameCompare a b)) (arr.take n.toNat) lines :=
  ⟨sort_spec (weakOrder_strcmp fun a => a) arr n hn,
    sort_spec (weakOrder_strcmp_flip fun a => a) arr n hn⟩

/-- Students with equal grades keep their order. -/
lemma stable_grades {flag : ℤ} {xs ys : List Student} (h : Stable (gradesWrong flag) xs ys)
    (g : Text) : ys.filter (fun s => strcmp s.grade g = 0) =
      xs.filter fun s => strcmp s.grade g = 0 := by
  refine h _ fun a b ha hb => ?_
  rw [decide_eq_true_eq, strcmp_eq_zero] at ha hb
  have hab : strcmp a.grade b.grade = 0 := strcmp_eq_zero.mpr (ha.trans hb.symm)
  simp [gradesWrong, hab]

/-- The first `count` students are sorted, upwards or downwards as the flag says; equal
grades keep their order, and the students behind stay where they are. -/
theorem sort_by_grade (students : List Student) (count : ℤ) (hcount : count ≤ students.length) :
    (∃ sorted, sortByGrade students count 1 = some (sorted ++ students.drop count.toNat) ∧
      sorted.Perm (students.take count.toNat) ∧
      sorted.Pairwise (fun a b => strcmp a.grade b.grade ≤ 0) ∧
      ∀ g, sorted.filter (fun s => strcmp s.grade g = 0) =
        (students.take count.toNat).filter fun s => strcmp s.grade g = 0) ∧
    ∃ sorted, sortByGrade students count 0 = some (sorted ++ students.drop count.toNat) ∧
      sorted.Perm (students.take count.toNat) ∧
      sorted.Pairwise (fun a b => 0 ≤ strcmp a.grade b.grade) ∧
      ∀ g, sorted.filter (fun s => strcmp s.grade g = 0) =
        (students.take count.toNat).filter fun s => strcmp s.grade g = 0 := by
  constructor
  · have hweak : WeakOrder (gradesWrong 1) := gradesWrong_one ▸ weakOrder_strcmp Student.grade
    obtain ⟨sorted, hrun, hsort⟩ := sort_spec hweak students count hcount
    refine ⟨sorted, hrun, hsort.perm, hsort.sorted.imp fun hab => ?_, stable_grades hsort.stable⟩
    simpa [gradesWrong] using hab
  · have hweak : WeakOrder (gradesWrong 0) := gradesWrong_zero ▸ weakOrder_strcmp_flip Student.grade
    obtain ⟨sorted, hrun, hsort⟩ := sort_spec hweak students count hcount
    refine ⟨sorted, hrun, hsort.perm, hsort.sorted.imp fun hab => ?_, stable_grades hsort.stable⟩
    simpa [gradesWrong] using hab

/-- Three students, two of them with the same grade. -/
theorem sort_by_grade_three :
    (3 : ℤ) ≤ [Student.mk ['a'] ['C', 'B'], ⟨['b'], ['A', 'A']⟩, ⟨['c'], ['C', 'B']⟩].length ∧
    ∃ sorted, sortByGrade [⟨['a'], ['C', 'B']⟩, ⟨['b'], ['A', 'A']⟩, ⟨['c'], ['C', 'B']⟩] 3 1 =
      some (sorted ++ []) ∧ sorted.Pairwise fun a b => strcmp a.grade b.grade ≤ 0 := by
  refine ⟨by decide, ?_⟩
  obtain ⟨⟨sorted, hrun, -, hsorted, -⟩, -⟩ := sort_by_grade
    [⟨['a'], ['C', 'B']⟩, ⟨['b'], ['A', 'A']⟩, ⟨['c'], ['C', 'B']⟩] 3 (by decide)
  exact ⟨sorted, hrun, hsorted⟩

end SystemProgramming.Grades
