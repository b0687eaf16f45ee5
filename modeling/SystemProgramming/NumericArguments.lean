import SystemProgramming.FileServerReplies

/-!
# Numbers in requests

`str_to_int` reads a number with `strtol`, and returns its value twice: as its result,
narrowed to an `int`, and as the status, unless that is `-1` for an error. This module
says for which texts the status tells a number from other texts, and for which ones a
line number that is accepted is the number written.
-/
namespace SystemProgramming.NumericArguments
open SystemProgramming.LineReader SystemProgramming.FileServer

inductive Sign where
  | none
  | plus
  | minus
  deriving DecidableEq, Repr

def Sign.text : Sign → Text
  | .none => []
  | .plus => ['+']
  | .minus => ['-']

def Sign.value : Sign → ℤ → ℤ
  | .minus, n => -n
  | _, n => n

/-- The text is an optionally signed decimal numeral behind blanks, of the given value. -/
def Numeral (s : Text) (v : ℤ) : Prop :=
  ∃ (lead : Text) (sign : Sign) (digits : Text), s = lead ++ sign.text ++ digits ∧
    (∀ c, c ∈ lead → isSpace c = true) ∧ digits ≠ [] ∧ (∀ c, c ∈ digits → c.isDigit = true) ∧
    v = sign.value (decimal digits)

/-- The values of a type `int`. -/
def FitsInt (v : ℤ) : Prop := -2 ^ 31 ≤ v ∧ v < 2 ^ 31

instance decidableFitsInt (v : ℤ) : Decidable (FitsInt v) :=
  inferInstanceAs (Decidable (-2 ^ 31 ≤ v ∧ v < 2 ^ 31))

/-- The values of a type `long`. -/
def FitsLong (v : ℤ) : Prop := -longMax - 1 ≤ v ∧ v ≤ longMax

instance decidableFitsLong (v : ℤ) : Decidable (FitsLong v) :=
  inferInstanceAs (Decidable (-longMax - 1 ≤ v ∧ v ≤ longMax))

lemma isDigit_ne {c d : Char} (hc : c.isDigit = true) (hd : d.isDigit = false) : c ≠ d := by
  rintro rfl
  rw [hc] at hd
  cases hd

lemma isSpace_of_isDigit {c : Char} (hc : c.isDigit = true) : isSpace c = false := by
  have hne : ∀ d, d.isDigit = false → decide (c = d) = false := fun d hd =>
    decide_eq_false (isDigit_ne hc hd)
  simp only [isSpace, hne ' ' (by decide), hne '\t' (by decide), hne '\n' (by decide),
    hne '\x0b' (by decide), hne '\x0c' (by decide), hne '\r' (by decide), Bool.or_false]

/-- What `strtol` returns for a number. -/
def ranged (v : ℤ) : ℤ × Text × Bool :=
  if longMax < v then (longMax, [], true)
  else if v < -longMax - 1 then (-longMax - 1, [], true)
  else (v, [], false)

/-- `strtol` reads a numeral to its end. -/
lemma strtol_numeral {s : Text} {v : ℤ} (h : Numeral s v) : strtol s = ranged v := by
  obtain ⟨lead, sign, digits, rfl, hlead, hne, hdigits, rfl⟩ := h
  obtain ⟨d, ds, rfl⟩ := List.exists_cons_of_ne_nil hne
  have hd := hdigits d List.mem_cons_self
  have hspace := isSpace_of_isDigit hd
  have hplus := isDigit_ne hd (d := '+') (by decide)
  have hminus := isDigit_ne hd (d := '-') (by decide)
  have hbody : (lead ++ sign.text ++ d :: ds).dropWhile isSpace = sign.text ++ d :: ds := by
    rw [List.append_assoc, List.dropWhile_append_of_pos hlead]
    cases sign
    · exact List.dropWhile_cons_of_neg (by simp [hspace])
    · rfl
    · rfl
  have htake : (d :: ds).takeWhile Char.isDigit = d :: ds := List.takeWhile_eq_self_iff.mpr hdigits
  have hdrop : (d :: ds).dropWhile Char.isDigit = [] := List.dropWhile_eq_nil_iff.mpr hdigits
  have hunsigned : (if (sign.text ++ d :: ds).head? = some '-' ∨
      (sign.text ++ d :: ds).head? = some '+' then (sign.text ++ d :: ds).tail
      else sign.text ++ d :: ds) = d :: ds := by
    cases sign <;> simp [Sign.text, hplus, hminus]
  have hvalue : (if (sign.text ++ d :: ds).head? = some '-' then -decimal (d :: ds)
      else decimal (d :: ds)) = sign.value (decimal (d :: ds)) := by
    cases sign <;> simp [Sign.text, Sign.value, hminus]
  simp only [strtol, hbody, hunsigned, hvalue, htake, hdrop, if_neg hne]
  rfl

/-- Where `strtol` reads digits to the end of the text, the text is a numeral. -/
lemma numeral_of_strtol {s : Text} (hne : s ≠ []) (h : (strtol s).2.1 = []) :
    ∃ v, Numeral s v := by
  have hsplit := List.takeWhile_append_dropWhile (p := isSpace) (l := s)
  have hlead : ∀ c, c ∈ s.takeWhile isSpace → isSpace c = true :=
    fun c hc => List.mem_takeWhile_imp hc
  obtain ⟨sign, hsign⟩ : ∃ sign : Sign, s.dropWhile isSpace = sign.text ++
      (if (s.dropWhile isSpace).head? = some '-' ∨ (s.dropWhile isSpace).head? = some '+' then
        (s.dropWhile isSpace).tail else s.dropWhile isSpace) := by
    cases hbody : s.dropWhile isSpace with
    | nil => exact ⟨.none, rfl⟩
    | cons c cs =>
      by_cases hminus : c = '-'
      · exact ⟨.minus, by simp [hminus, Sign.text]⟩
      · by_cases hplus : c = '+'
        · exact ⟨.plus, by simp [hplus, Sign.text]⟩
        · exact ⟨.none, by simp [hminus, hplus, Sign.text]⟩
  simp only [strtol] at h
  generalize (if (s.dropWhile isSpace).head? = some '-' ∨ (s.dropWhile isSpace).head? = some '+'
    then (s.dropWhile isSpace).tail else s.dropWhile isSpace) = unsigned at hsign h
  have hdigits : ∀ c, c ∈ unsigned.takeWhile Char.isDigit → c.isDigit = true :=
    fun c hc => List.mem_takeWhile_imp hc
  have hrest := List.takeWhile_append_dropWhile (p := Char.isDigit) (l := unsigned)
  by_cases hnil : unsigned.takeWhile Char.isDigit = []
  · rw [if_pos hnil] at h
    exact absurd h hne
  · rw [if_neg hnil] at h
    have hdrop : unsigned.dropWhile Char.isDigit = [] := by split_ifs at h <;> exact h
    rw [hdrop, List.append_nil] at hrest
    refine ⟨_, s.takeWhile isSpace, sign, unsigned, ?_, hlead, hrest ▸ hnil, hrest ▸ hdigits, rfl⟩
    rw [List.append_assoc, ← hsign, hsplit]

/-- A number that is no `long` is an error; any other is narrowed, and an error only if
that makes it `-1`. -/
lemma strToInt_numeral {s : Text} {v : ℤ} (h : Numeral s v) :
    (strToInt s).2 ≠ -1 ↔ FitsLong v ∧ v.bmod (2 ^ 32) ≠ -1 := by
  unfold strToInt FitsLong
  rw [strtol_numeral h, ranged]
  split_ifs with hhigh hlow
  · simp only [or_true, if_true]
    omega
  · simp only [or_true, if_true]
    omega
  · simp
    omega

lemma strToInt_value {s : Text} {v : ℤ} (h : Numeral s v) (hv : FitsLong v) :
    (strToInt s).1 = v.bmod (2 ^ 32) := by
  unfold strToInt
  rw [strtol_numeral h, ranged, if_neg (not_lt.mpr hv.2), if_neg (not_lt.mpr hv.1)]

/-- Of the texts that are no numerals only the empty one is accepted, as zero. -/
lemma strToInt_other {s : Text} (h : ∀ v, ¬ Numeral s v) (hne : s ≠ []) :
    (strToInt s).2 = -1 := by
  have hrest : (strtol s).2.1 ≠ [] := fun hnil => by
    obtain ⟨v, hv⟩ := numeral_of_strtol hne hnil
    exact h v hv
  simp [strToInt, hrest]

lemma not_numeral_nil (v : ℤ) : ¬ Numeral [] v := by
  rintro ⟨lead, sign, digits, heq, -, hne, -⟩
  simp [hne] at heq

lemma Numeral.unique {s : Text} {v w : ℤ} (hv : Numeral s v) (hw : Numeral s w)
    (hlong : FitsLong v) : w = v := by
  have heq := (strtol_numeral hw).symm.trans (strtol_numeral hv)
  have hone : ranged v = (v, [], false) := by
    rw [ranged, if_neg (not_lt.mpr hlong.2), if_neg (not_lt.mpr hlong.1)]
  rw [hone, ranged] at heq
  split_ifs at heq
  · simp at heq
  · simp at heq
  · exact congrArg Prod.fst heq

lemma FitsInt.fitsLong {v : ℤ} (h : FitsInt v) : FitsLong v := by
  unfold FitsInt at h
  unfold FitsLong longMax
  omega

lemma FitsInt.bmod_eq {v : ℤ} (h : FitsInt v) : v.bmod (2 ^ 32) = v := by
  unfold FitsInt at h
  exact Int.bmod_eq_of_le (by omega) (by push_cast; omega)

/-- The status is that of a number just when the text is one that fits into an `int`,
and the number is then the result. -/
def ReadAsInt (s : Text) : Prop :=
  ((strToInt s).2 ≠ -1 ↔ ∃ v, Numeral s v ∧ FitsInt v) ∧
    ((strToInt s).2 ≠ -1 → Numeral s (strToInt s).1)

/-- The accepted line is the positive number that is written. -/
def LineWritten (arg : Text) : Prop :=
  ∀ n, acceptedLine arg = some n → Numeral arg n ∧ 0 < n

lemma read_as_int_iff (s : Text) :
    ReadAsInt s ↔ s ≠ [] ∧ ∀ v, Numeral s v →
      v ≠ -1 ∧ (FitsLong v → FitsInt v ∨ v.bmod (2 ^ 32) = -1) := by
  constructor
  · rintro ⟨hstatus, -⟩
    refine ⟨?_, fun v hv => ⟨?_, fun hlong => ?_⟩⟩
    · rintro rfl
      obtain ⟨v, hv, -⟩ := hstatus.mp (by decide)
      exact not_numeral_nil v hv
    · rintro rfl
      have hfits : FitsInt (-1) := by decide
      have hread := hstatus.mpr ⟨-1, hv, hfits⟩
      rw [strToInt_numeral hv] at hread
      exact hread.2 hfits.bmod_eq
    · by_contra hnot
      rw [not_or] at hnot
      have hread := (strToInt_numeral hv).mpr ⟨hlong, hnot.2⟩
      obtain ⟨w, hw, hfits⟩ := hstatus.mp hread
      exact hnot.1 (hv.unique hw hlong ▸ hfits)
  · rintro ⟨hne, hall⟩
    by_cases hnumeral : ∃ v, Numeral s v
    · obtain ⟨v, hv⟩ := hnumeral
      obtain ⟨hminus, hlong⟩ := hall v hv
      have hstatus : (strToInt s).2 ≠ -1 ↔ FitsInt v := by
        rw [strToInt_numeral hv]
        constructor
        · rintro ⟨hl, hb⟩
          exact (hlong hl).resolve_right hb
        · intro hfits
          exact ⟨hfits.fitsLong, by rwa [hfits.bmod_eq]⟩
      refine ⟨hstatus.trans ⟨fun hfits => ⟨v, hv, hfits⟩, ?_⟩, fun hread => ?_⟩
      · rintro ⟨w, hw, hfits⟩
        rwa [hw.unique hv hfits.fitsLong]
      · have hfits := hstatus.mp hread
        rwa [strToInt_value hv hfits.fitsLong, hfits.bmod_eq]
    · have hother := strToInt_other (not_exists.mp hnumeral) hne
      refine ⟨iff_of_false (fun h => h hother) ?_, fun h => absurd hother h⟩
      rintro ⟨v, hv, -⟩
      exact hnumeral ⟨v, hv⟩

lemma line_written_iff (s : Text) :
    LineWritten s ↔ ∀ v, Numeral s v → FitsLong v → 1 ≤ v.bmod (2 ^ 32) → FitsInt v := by
  constructor
  · intro hline v hv hlong hpos
    have hstatus := (strToInt_numeral hv).mpr ⟨hlong, by omega⟩
    have hvalue := strToInt_value hv hlong
    have haccept : acceptedLine s = some (v.bmod (2 ^ 32)) := by
      rw [acceptedLine, hvalue, if_neg]
      rintro (h | h)
      · exact hstatus h
      · omega
    have heq := hv.unique (hline _ haccept).1 hlong
    have hle := Int.le_bmod (x := v) (m := 2 ^ 32) (by decide)
    have hlt := Int.bmod_lt (x := v) (m := 2 ^ 32) (by decide)
    rw [heq] at hle hlt
    exact ⟨by omega, by omega⟩
  · intro hall n haccept
    unfold acceptedLine at haccept
    split_ifs at haccept with hreject
    rw [not_or, not_lt] at hreject
    have hn := Option.some.inj haccept
    have hne : s ≠ [] := by
      rintro rfl
      exact absurd hreject.2 (by decide)
    by_cases hnumeral : ∃ v, Numeral s v
    · obtain ⟨v, hv⟩ := hnumeral
      have hlong := ((strToInt_numeral hv).mp hreject.1).1
      have hvalue := strToInt_value hv hlong
      have hfits := hall v hv hlong (by rw [← hvalue]; exact hreject.2)
      rw [hfits.bmod_eq] at hvalue
      rw [← hn, hvalue]
      exact ⟨hv, by omega⟩
    · exact absurd (strToInt_other (not_exists.mp hnumeral) hne) hreject.1

/-- `str_to_int` tells numbers from other texts except for the empty text, `-1`, and
numbers that do not fit into an `int` but into a `long`, unless they narrow to `-1`. An
accepted line is the one written except for numbers of this kind that narrow to a
positive one. -/
theorem numbers_read_iff (s : Text) :
    (ReadAsInt s ↔ s ≠ [] ∧ ∀ v, Numeral s v →
      v ≠ -1 ∧ (FitsLong v → FitsInt v ∨ v.bmod (2 ^ 32) = -1)) ∧
    (LineWritten s ↔ ∀ v, Numeral s v → FitsLong v → 1 ≤ v.bmod (2 ^ 32) → FitsInt v) :=
  ⟨read_as_int_iff s, line_written_iff s⟩

/-- Line `2 ^ 32 + 1` is accepted as line one. -/
theorem narrowed_line : acceptedLine "4294967297".toList = some 1 ∧
    ¬ LineWritten "4294967297".toList ∧ ¬ ReadAsInt "4294967297".toList ∧
    ¬ ReadAsInt "-1".toList ∧ ¬ ReadAsInt [] := by
  have hdigits : "4294967297".toList.all Char.isDigit = true := by decide
  have hlarge : Numeral "4294967297".toList 4294967297 :=
    ⟨[], .none, "4294967297".toList, rfl, by simp, by decide, List.all_eq_true.mp hdigits,
      by decide⟩
  have hone : ['1'].all Char.isDigit = true := by decide
  have hminus : Numeral "-1".toList (-1) :=
    ⟨[], .minus, ['1'], rfl, by simp, by decide, List.all_eq_true.mp hone, by decide⟩
  have hlong : FitsLong 4294967297 := by norm_num [FitsLong, longMax]
  refine ⟨by decide, fun h => ?_, fun h => ?_, fun h => ?_, fun h => ?_⟩
  · have hfits := (line_written_iff _).mp h _ hlarge hlong (by decide)
    exact absurd hfits (by decide)
  · have hfits := (((read_as_int_iff _).mp h).2 _ hlarge).2 hlong
    exact absurd hfits (by decide)
  · exact (((read_as_int_iff _).mp h).2 _ hminus).1 rfl
  · exact ((read_as_int_iff _).mp h).1 rfl

end SystemProgramming.NumericArguments
