import Mathlib.Algebra.Order.BigOperators.Ring.List
import Mathlib.Data.List.TakeWhile
import SystemProgramming.TwoFifos

/-!
# Overflow in the two-FIFO computation

Child 1 adds the numbers in an `int`; child 2 multiplies them in an `int` and adds the
sum to the product. `main` draws digits and only checks that there are any. This module
says for which digits all these operations are exact.
-/
namespace SystemProgramming.TwoFifos

/-- The array that `main` fills with `rand() % 10`. -/
def digitArray (digits : List (Fin 10)) : List CInt := digits.map fun d => BitVec.ofNat 32 d.val

/-- An addition in the loop of child 1 overflows. -/
def sumOverflows : CInt → List CInt → Bool
  | _, [] => false
  | sum, number :: numbers => sum.saddOverflow number || sumOverflows (sum + number) numbers

/-- A multiplication in the loop of child 2 overflows. -/
def multiplyOverflows : ℕ → CInt → List Byte → Bool
  | 0, _, _ => false
  | arraySize + 1, result, stream =>
    result.smulOverflow (bytesInt (stream.take 4)) ||
      multiplyOverflows arraySize (result * bytesInt (stream.take 4)) (stream.drop 4)

/-- The last addition of child 2 overflows. -/
def resultOverflows (arraySize : ℕ) (stream : List Byte) : Bool :=
  let r := multiplyLoop arraySize 1 (stream.drop 9)
  r.1.saddOverflow (bytesInt (r.2.take 4))

/-- What child 2 reads when the sum arrives behind the numbers. -/
def inOrder (numbers : List CInt) : List Byte :=
  (parentProcess numbers ++ childProcess1 numbers).flatten

/-- No operation on `int`s overflows. -/
structure NoOverflow (numbers : List CInt) : Prop where
  sum : sumOverflows 0 numbers = false
  product : multiplyOverflows numbers.length 1 ((inOrder numbers).drop 9) = false
  result : resultOverflows numbers.length (inOrder numbers) = false

/-- The numbers that a run of `main` prints and computes with. -/
def values (digits : List (Fin 10)) : List ℕ := digits.map Fin.val

/-- The numbers before the first zero. -/
def beforeZero (digits : List (Fin 10)) : List ℕ := (values digits).takeWhile (· ≠ 0)

@[simp] lemma length_digitArray (digits : List (Fin 10)) :
    (digitArray digits).length = digits.length := List.length_map _

lemma toInt_ofNat {n : ℕ} (hn : n < 2 ^ 31) : (BitVec.ofNat 32 n).toInt = n := by
  rw [BitVec.toInt_ofNat', Int.bmod_eq_of_le] <;> omega

lemma toNat_ofNat {n : ℕ} (hn : n < 2 ^ 31) : (BitVec.ofNat 32 n).toNat = n := by
  rw [BitVec.toNat_ofNat, Nat.mod_eq_of_lt (by omega)]

lemma ofNat_inj {m n : ℕ} (hm : m < 2 ^ 31) (hn : n < 2 ^ 31) :
    BitVec.ofNat 32 m = BitVec.ofNat 32 n ↔ m = n := by
  refine ⟨fun h => ?_, fun h => by rw [h]⟩
  have hint := congrArg BitVec.toInt h
  rw [toInt_ofNat hm, toInt_ofNat hn] at hint
  exact Int.natCast_inj.mp hint

lemma ofNat_eq_zero {m : ℕ} (hm : m < 2 ^ 31) : BitVec.ofNat 32 m = 0 ↔ m = 0 :=
  ofNat_inj (n := 0) hm (by omega)

/-- Two numbers that are not negative are added exactly if the sum fits. -/
lemma saddOverflow_ofNat {m n : ℕ} (hm : m < 2 ^ 31) (hn : n < 2 ^ 31) :
    (BitVec.ofNat 32 m).saddOverflow (BitVec.ofNat 32 n) = false ↔ m + n < 2 ^ 31 := by
  simp only [BitVec.saddOverflow, toInt_ofNat hm, toInt_ofNat hn, Bool.or_eq_false_iff,
    decide_eq_false_iff_not]
  omega

lemma smulOverflow_ofNat {m n : ℕ} (hm : m < 2 ^ 31) (hn : n < 2 ^ 31) :
    (BitVec.ofNat 32 m).smulOverflow (BitVec.ofNat 32 n) = false ↔ m * n < 2 ^ 31 := by
  simp only [BitVec.smulOverflow, toInt_ofNat hm, toInt_ofNat hn, Bool.or_eq_false_iff,
    decide_eq_false_iff_not]
  rw [← Int.natCast_mul]
  omega

/-- The partial sums grow, so that the last one decides. -/
lemma sumOverflows_iff (digits : List (Fin 10)) (sum : ℕ) (hsum : sum < 2 ^ 31) :
    sumOverflows (BitVec.ofNat 32 sum) (digitArray digits) = false ↔
      sum + (values digits).sum < 2 ^ 31 := by
  induction digits generalizing sum with
  | nil => simpa [sumOverflows, digitArray, values] using hsum
  | cons d digits ih =>
    have hadd := saddOverflow_ofNat hsum (show d.val < 2 ^ 31 by omega)
    simp only [digitArray, List.map_cons, sumOverflows, Bool.or_eq_false_iff, hadd,
      ← BitVec.ofNat_add]
    simp only [values, List.map_cons, List.sum_cons]
    constructor
    · rintro ⟨hfits, hrest⟩
      have := (ih (sum + d.val) hfits).mp hrest
      simp only [values] at this
      omega
    · intro h
      have hfits : sum + d.val < 2 ^ 31 := by omega
      exact ⟨hfits, (ih (sum + d.val) hfits).mpr (by simp only [values]; omega)⟩

lemma beforeZero_prod_pos (digits : List (Fin 10)) : 0 < (beforeZero digits).prod := by
  rw [CanonicallyOrderedAdd.list_prod_pos]
  intro n hn
  have hne : n ≠ 0 := by simpa using List.mem_takeWhile_imp hn
  omega

/-- The partial products grow up to the first zero. -/
lemma multiplyOverflows_iff (digits : List (Fin 10)) (rest : List Byte) (result : ℕ)
    (hresult : result < 2 ^ 31) :
    multiplyOverflows digits.length (BitVec.ofNat 32 result)
        (((digitArray digits).map intBytes).flatten ++ rest) = false ↔
      result * (beforeZero digits).prod < 2 ^ 31 := by
  induction digits generalizing result with
  | nil => simpa [multiplyOverflows, beforeZero, values] using hresult
  | cons d digits ih =>
    have hstream : ((digitArray (d :: digits)).map intBytes).flatten ++ rest =
        intBytes (BitVec.ofNat 32 d.val) ++
          (((digitArray digits).map intBytes).flatten ++ rest) := by simp [digitArray]
    have hmul := smulOverflow_ofNat hresult (show d.val < 2 ^ 31 by omega)
    rw [hstream, List.length_cons, multiplyOverflows, List.take_left' (length_intBytes _),
      List.drop_left' (length_intBytes _), bytesInt_intBytes, Bool.or_eq_false_iff, hmul,
      ← BitVec.ofNat_mul]
    rcases Nat.eq_zero_or_pos d.val with hzero | hpos
    · have hbefore : beforeZero (d :: digits) = [] := by simp [beforeZero, values, hzero]
      have hrest : multiplyOverflows digits.length (BitVec.ofNat 32 0)
          (((digitArray digits).map intBytes).flatten ++ rest) = false :=
        (ih 0 (by omega)).mpr (by omega)
      rw [hbefore, hzero, mul_zero, hrest]
      simpa using hresult
    · have hbefore : beforeZero (d :: digits) = d.val :: beforeZero digits := by
        simp [beforeZero, values, hpos.ne']
      rw [hbefore, List.prod_cons, ← mul_assoc]
      constructor
      · rintro ⟨hfits, hrest⟩
        exact (ih _ hfits).mp hrest
      · intro h
        have hfits : result * d.val < 2 ^ 31 :=
          lt_of_le_of_lt (Nat.le_mul_of_pos_right _ (beforeZero_prod_pos digits)) h
        exact ⟨hfits, (ih _ hfits).mpr h⟩

lemma prod_digitArray (digits : List (Fin 10)) :
    (digitArray digits).prod = BitVec.ofNat 32 (values digits).prod := by
  induction digits with
  | nil => rfl
  | cons d digits ih =>
    simp only [digitArray, values, List.map_cons, List.prod_cons] at ih ⊢
    rw [ih, BitVec.ofNat_mul]

lemma sum_digitArray (digits : List (Fin 10)) :
    (digitArray digits).sum = BitVec.ofNat 32 (values digits).sum := by
  induction digits with
  | nil => rfl
  | cons d digits ih =>
    simp only [digitArray, values, List.map_cons, List.sum_cons] at ih ⊢
    rw [ih, BitVec.ofNat_add]

/-- The product is that of the numbers before the first zero, or zero. -/
lemma prod_le_beforeZero (digits : List (Fin 10)) :
    (values digits).prod ≤ (beforeZero digits).prod := by
  induction digits with
  | nil => exact le_rfl
  | cons d digits ih =>
    rcases Nat.eq_zero_or_pos d.val with hzero | hpos
    · simp [values, hzero]
    · simpa [beforeZero, values, List.takeWhile_cons, hpos.ne'] using
        Nat.mul_le_mul_left d.val ih

lemma inOrder_eq (numbers : List CInt) :
    inOrder numbers = multiply ++ ((numbers.map intBytes).flatten ++ intBytes numbers.sum) := by
  simp [inOrder, parentProcess, childProcess1_eq]

lemma childProcess2_inOrder (numbers : List CInt) :
    childProcess2 numbers.length (inOrder numbers) = some (numbers.prod + numbers.sum) := by
  have hmessages : inOrder numbers =
      (multiply :: (numbers ++ [numbers.sum]).map intBytes).flatten := by
    rw [inOrder_eq]
    simp
  rw [hmessages, childProcess2_eq]

lemma resultOverflows_inOrder (numbers : List CInt) :
    resultOverflows numbers.length (inOrder numbers) =
      numbers.prod.saddOverflow numbers.sum := by
  rw [resultOverflows, inOrder_eq, List.drop_left' length_multiply, multiplyLoop_eq, one_mul]
  simp [List.take_of_length_le (length_intBytes numbers.sum).le]

/-- With the messages in order all operations on `int`s are exact, and with them the
final result, just when the product of the numbers before the first zero fits, and so
does the product of all of them plus their sum. -/
theorem no_overflow_iff (digits : List (Fin 10)) :
    (NoOverflow (digitArray digits) ∧
      ∃ result, childProcess2 digits.length (inOrder (digitArray digits)) = some result ∧
        result.toInt = (values digits).prod + (values digits).sum) ↔
      (beforeZero digits).prod < 2 ^ 31 ∧ (values digits).prod + (values digits).sum < 2 ^ 31 := by
  have hsum := sumOverflows_iff digits 0 (by omega)
  have hproduct := multiplyOverflows_iff digits (intBytes (digitArray digits).sum) 1 (by omega)
  have hresult := resultOverflows_inOrder (digitArray digits)
  have hfinal := childProcess2_inOrder (digitArray digits)
  have hle := prod_le_beforeZero digits
  rw [length_digitArray] at hresult hfinal
  rw [prod_digitArray, sum_digitArray] at hresult hfinal
  constructor
  · rintro ⟨⟨hs, hp, hr⟩, -⟩
    rw [inOrder_eq, List.drop_left' length_multiply, length_digitArray] at hp
    rw [length_digitArray, hresult] at hr
    have hprod := hproduct.mp hp
    have hsum' := hsum.mp hs
    exact ⟨by omega, (saddOverflow_ofNat (by omega) (by omega)).mp hr⟩
  · rintro ⟨hprod, htotal⟩
    refine ⟨⟨hsum.mpr (by omega), ?_, ?_⟩, _, hfinal, ?_⟩
    · rw [inOrder_eq, List.drop_left' length_multiply, length_digitArray]
      exact hproduct.mpr (by omega)
    · rw [length_digitArray, hresult]
      exact (saddOverflow_ofNat (by omega) (by omega)).mpr htotal
    · rw [← BitVec.ofNat_add, toInt_ofNat htotal, Nat.cast_add]

/-- Ten nines: their product does not fit, and a negative number is printed. -/
theorem ten_nines_overflow : ¬ NoOverflow (digitArray (List.replicate 10 9)) ∧
    ∃ result, childProcess2 10 (inOrder (digitArray (List.replicate 10 9))) = some result ∧
      result.toInt = -808182805 := by
  refine ⟨fun h => absurd h.product (by decide), _, rfl, by decide⟩

end SystemProgramming.TwoFifos
