import Mathlib.Data.BitVec
import Mathlib.Algebra.BigOperators.Group.List.Basic
import Mathlib.Tactic.LinearCombination
import SystemProgramming.Interleave

/-!
# The two-FIFO computation

The parent sends the array through the first FIFO to child 1, which answers with
the sum through the second one; the parent also writes the command and then each
number to the second FIFO. Child 2 reads a command, the numbers and the sum from
one byte stream, where nothing tells the sum from a number. `int` is a 32-bit
word, stored with its low byte first.
-/
namespace SystemProgramming.TwoFifos
open SystemProgramming.Interleave

abbrev Byte := BitVec 8
abbrev CInt := BitVec 32

/-- The four bytes of an `int` in memory. -/
def intBytes (x : CInt) : List Byte :=
  [x.extractLsb' 0 8, x.extractLsb' 8 8, x.extractLsb' 16 8, x.extractLsb' 24 8]

/-- The `int` whose bytes lie in memory. -/
def bytesInt : List Byte → CInt
  | [a, b, c, d] =>
    BitVec.ofNat 32 (a.toNat + 256 * b.toNat + 65536 * c.toNat + 16777216 * d.toNat)
  | _ => 0

/-- The string literal with its terminating zero. -/
def multiply : List Byte := "multiply".toList.map (fun c => BitVec.ofNat 8 c.toNat) ++ [0]

/-- `strcmp` finds the two strings equal. -/
def strcmpEq : List Byte → List Byte → Bool
  | a :: as, b :: bs => if a = b then (if a = 0 then true else strcmpEq as bs) else false
  | _, _ => false

/-- What child 1 writes to the second FIFO, having read the array. -/
def childProcess1 (numbers : List CInt) : List (List Byte) :=
  [intBytes (numbers.foldl (fun sum number => sum + number) 0)]

/-- What the parent writes to the second FIFO. -/
def parentProcess (numbers : List CInt) : List (List Byte) := multiply :: numbers.map intBytes

/-- The multiplication loop of child 2, with what is left of the stream. -/
def multiplyLoop : ℕ → CInt → List Byte → CInt × List Byte
  | 0, result, stream => (result, stream)
  | arraySize + 1, result, stream =>
    multiplyLoop arraySize (result * bytesInt (stream.take 4)) (stream.drop 4)

/-- Child 2 on the stream it reads: the final result, or none when it rejects the
command. -/
def childProcess2 (arraySize : ℕ) (stream : List Byte) : Option CInt :=
  if strcmpEq (stream.take 9) multiply then
    let r := multiplyLoop arraySize 1 (stream.drop 9)
    some (r.1 + bytesInt (r.2.take 4))
  else none

lemma multiply_eq : multiply = [109, 117, 108, 116, 105, 112, 108, 121, 0] := by decide

@[simp] lemma bytesInt_intBytes (x : CInt) : bytesInt (intBytes x) = x := by
  apply BitVec.eq_of_toNat_eq
  simp only [intBytes, bytesInt, BitVec.toNat_ofNat, BitVec.extractLsb'_toNat,
    Nat.shiftRight_eq_div_pow]
  have hlt := x.isLt
  omega

@[simp] lemma length_intBytes (x : CInt) : (intBytes x).length = 4 := rfl

@[simp] lemma length_multiply : multiply.length = 9 := by rw [multiply_eq]; rfl

lemma childProcess1_eq (numbers : List CInt) : childProcess1 numbers = [intBytes numbers.sum] := by
  rw [List.sum_eq_foldl]
  rfl

/-- The loop multiplies the numbers it reads, whoever wrote them. -/
lemma multiplyLoop_eq (xs : List CInt) (result : CInt) (rest : List Byte) :
    multiplyLoop xs.length result ((xs.map intBytes).flatten ++ rest) =
      (result * xs.prod, rest) := by
  induction xs generalizing result with
  | nil => simp [multiplyLoop]
  | cons x xs ih =>
    have hstream : ((x :: xs).map intBytes).flatten ++ rest =
        intBytes x ++ ((xs.map intBytes).flatten ++ rest) := by simp
    rw [hstream, List.length_cons, multiplyLoop, List.take_left' (length_intBytes x),
      List.drop_left' (length_intBytes x), ih, bytesInt_intBytes, List.prod_cons, mul_assoc]

/-- Child 2 takes the last number it reads for the sum. -/
lemma childProcess2_eq (xs : List CInt) (x : CInt) :
    childProcess2 xs.length ((multiply :: (xs ++ [x]).map intBytes).flatten) =
      some (xs.prod + x) := by
  have hstream : (multiply :: (xs ++ [x]).map intBytes).flatten =
      multiply ++ ((xs.map intBytes).flatten ++ intBytes x) := by simp
  have hcmp : strcmpEq multiply multiply = true := by rw [multiply_eq]; decide
  rw [hstream, childProcess2, List.take_left' length_multiply, List.drop_left' length_multiply,
    multiplyLoop_eq, if_pos hcmp, one_mul]
  simp [List.take_of_length_le (length_intBytes x).le]

/-- Two strings that differ before the second one ends are not equal. -/
lemma strcmpEq_of_ne {xs ys as bs : List Byte} {a b : Byte} (hlen : xs.length = ys.length)
    (hy : ∀ y ∈ ys, y ≠ 0) (hab : a ≠ b) : strcmpEq (xs ++ a :: as) (ys ++ b :: bs) = false := by
  induction ys generalizing xs with
  | nil =>
    obtain rfl := List.length_eq_zero_iff.mp hlen
    exact if_neg hab
  | cons y ys ih =>
    cases xs with
    | nil => cases hlen
    | cons x xs =>
      have hrest := ih (Nat.succ.inj hlen) fun z hz => hy z (List.mem_cons_of_mem y hz)
      have hzero : y ≠ 0 := hy y List.mem_cons_self
      simp only [List.cons_append, strcmpEq]
      split_ifs with hxy hx
      · exact absurd (hxy ▸ hx) hzero
      · exact hrest
      · rfl

/-- A sum in front of the command makes it unreadable: its fifth byte is the first
letter of the command. -/
lemma childProcess2_sum_first (arraySize : ℕ) (x : CInt) (rest : List Byte) :
    childProcess2 arraySize (intBytes x ++ (multiply ++ rest)) = none := by
  have htake : (intBytes x ++ (multiply ++ rest)).take 9 =
      intBytes x ++ 109 :: [117, 108, 116, 105] := by
    rw [List.take_append, List.take_append, multiply_eq]
    rfl
  have hcmp : strcmpEq (intBytes x ++ 109 :: [117, 108, 116, 105]) multiply = false := by
    have hsplit : multiply = [109, 117, 108, 116] ++ 105 :: [112, 108, 121, 0] := multiply_eq
    rw [hsplit]
    exact strcmpEq_of_ne rfl (by decide) (by decide)
  rw [childProcess2, htake, if_neg (by rw [hcmp]; decide)]

lemma intBytes_inj {x y : CInt} : intBytes x = intBytes y ↔ x = y := by
  refine ⟨fun h => ?_, congrArg intBytes⟩
  rw [← bytesInt_intBytes x, h, bytesInt_intBytes]

lemma getLast?_messages (xs : List CInt) (x : CInt) :
    (multiply :: (xs ++ [x]).map intBytes).getLast? = some (intBytes x) := by
  rw [List.map_append, ← List.cons_append]
  exact List.getLast?_concat

/-- The computation gives the product plus the sum of the numbers exactly when the
command arrives first and the sum last, or the numbers before the last one make
the difference vanish: their product is one or their sum zero, or the two factors
multiply to zero as `int`s. -/
theorem final_result_iff {numbers : List CInt} {messages : List (List Byte)}
    (hm : Merge (parentProcess numbers) (childProcess1 numbers) messages) :
    childProcess2 numbers.length messages.flatten = some (numbers.prod + numbers.sum) ↔
      messages.head? = some multiply ∧
        (messages.getLast? = some (intBytes numbers.sum) ∨
          (numbers.dropLast.prod - 1) * numbers.dropLast.sum = 0) := by
  rw [childProcess1_eq, merge_singleton] at hm
  obtain ⟨before, after, hsplit, rfl⟩ := hm
  cases before with
  | nil =>
    rw [List.nil_append] at hsplit
    subst hsplit
    have hnone : childProcess2 numbers.length
        (([] ++ intBytes numbers.sum :: parentProcess numbers).flatten) = none := by
      simpa [parentProcess] using childProcess2_sum_first numbers.length numbers.sum
        (numbers.map intBytes).flatten
    have hfirst : intBytes numbers.sum ≠ multiply := fun he => by
      have hlen := congrArg List.length he
      rw [length_intBytes, length_multiply] at hlen
      cases hlen
    rw [hnone]
    simp [hfirst]
  | cons command before =>
    obtain ⟨rfl, hrest⟩ := List.cons.inj hsplit
    obtain ⟨xs, ys, rfl, rfl, rfl⟩ := List.map_eq_append_iff.mp hrest
    rcases List.eq_nil_or_concat ys with rfl | ⟨ys, last, rfl⟩
    · have hmessages : multiply :: xs.map intBytes ++ intBytes (xs ++ []).sum :: [].map intBytes =
          multiply :: (xs ++ [xs.sum]).map intBytes := by simp
      rw [hmessages, getLast?_messages, List.append_nil, childProcess2_eq]
      simp
    · have hmessages : multiply :: xs.map intBytes ++
          intBytes (xs ++ ys.concat last).sum :: (ys.concat last).map intBytes =
          multiply :: ((xs ++ (xs ++ ys.concat last).sum :: ys) ++ [last]).map intBytes := by simp
      have hlen : (xs ++ ys.concat last).length =
          (xs ++ (xs ++ ys.concat last).sum :: ys).length := by simp
      have hdrop : (xs ++ ys.concat last).dropLast = xs ++ ys := by
        rw [List.concat_eq_append, ← List.append_assoc, List.dropLast_concat]
      rw [hmessages, getLast?_messages, hlen, childProcess2_eq, hdrop, Option.some.injEq,
        Option.some.injEq, intBytes_inj]
      simp only [List.concat_eq_append, List.prod_append, List.sum_append, List.prod_cons,
        List.sum_cons, List.prod_nil, List.sum_nil, List.head?_cons, true_and]
      constructor
      · intro h
        right
        linear_combination h
      · rintro (h | h)
        · linear_combination (1 - xs.prod * ys.prod) * h
        · linear_combination h

/-- The sum of 2 and 3 arrives last: the result is their product plus their sum. -/
theorem final_result_sum_last :
    childProcess2 2 [multiply, intBytes 2, intBytes 3, intBytes 5].flatten = some 11 :=
  (@final_result_iff [2, 3] _ (.left _ (.left _ (.left _ (.right _ .nil))))).mpr (by decide)

/-- The sum of 2 and 3 arrives between them and is multiplied, or before the command,
which is then rejected. -/
theorem final_result_sum_early :
    (∃ messages, Merge (parentProcess [2, 3]) (childProcess1 [2, 3]) messages ∧
      childProcess2 2 messages.flatten = some 13) ∧
    ∃ messages, Merge (parentProcess [2, 3]) (childProcess1 [2, 3]) messages ∧
      childProcess2 2 messages.flatten = none :=
  ⟨⟨_, .left _ (.left _ (.right _ (.left _ .nil))), by decide⟩,
    ⟨_, .right _ (.left _ (.left _ (.left _ .nil))), by decide⟩⟩

end SystemProgramming.TwoFifos
