import Mathlib.Data.List.TakeWhile
import Mathlib.Data.List.Basic
import Mathlib.Data.List.Induction

/-!
# Splitting a text at delimiters

`strtok` skips delimiters and returns the token behind them with the rest of the
text. Called until it returns nothing, it lists the tokens; every call consumes
at least one character, so the length of the text bounds the number of calls.
-/
namespace SystemProgramming.Strtok

/-- One call: the next token and what follows the delimiter behind it. -/
def strtok {α : Type*} (delim : α → Bool) (s : List α) : Option (List α × List α) :=
  match s.dropWhile delim with
  | [] => none
  | c :: cs => some ((c :: cs).takeWhile (fun x => !delim x),
      ((c :: cs).dropWhile (fun x => !delim x)).tail)

/-- The tokens of at most `fuel` calls. -/
def tokensFuel {α : Type*} (delim : α → Bool) : ℕ → List α → List (List α)
  | 0, _ => []
  | fuel + 1, s =>
    match strtok delim s with
    | none => []
    | some (token, rest) => token :: tokensFuel delim fuel rest

/-- The tokens of a text. -/
def tokens {α : Type*} (delim : α → Bool) (s : List α) : List (List α) :=
  tokensFuel delim s.length s

theorem strtok_eq_none {α : Type*} {delim : α → Bool} {s : List α} :
    strtok delim s = none ↔ ∀ x, x ∈ s → delim x = true := by
  rw [← List.dropWhile_eq_nil_iff]
  unfold strtok
  split <;> simp_all

/-- The rest starts behind the delimiter that ends the token. -/
lemma strtok_split {α : Type*} {delim : α → Bool} {s token rest : List α}
    (h : strtok delim s = some (token, rest)) :
    ∃ tail, s = s.takeWhile delim ++ token ++ tail ∧ rest = tail.tail ∧
      ∀ c, tail.head? = some c → delim c = true := by
  have hsplit := List.takeWhile_append_dropWhile (p := delim) (l := s)
  unfold strtok at h
  split at h
  · cases h
  case h_2 c cs hdrop =>
    cases h
    refine ⟨(c :: cs).dropWhile (fun x => !delim x), ?_, rfl, fun d hd => ?_⟩
    · rw [List.append_assoc, List.takeWhile_append_dropWhile, ← hdrop, hsplit]
    · have hne : (c :: cs).dropWhile (fun x => !delim x) ≠ [] := by
        intro hnil
        rw [hnil] at hd
        cases hd
      have hhead := List.head_dropWhile_not (fun x => !delim x) hne
      rw [List.head?_eq_some_head hne, Option.some.injEq] at hd
      rw [hd] at hhead
      simpa using hhead

/-- A token is not empty and has no delimiter, and it is gone from the rest. -/
theorem strtok_spec {α : Type*} {delim : α → Bool} {s token rest : List α}
    (h : strtok delim s = some (token, rest)) :
    token ≠ [] ∧ (∀ x, x ∈ token → delim x = false) ∧ rest.length < s.length := by
  obtain ⟨tail, hsplit, hrest, -⟩ := strtok_split h
  unfold strtok at h
  split at h
  · cases h
  case h_2 c cs hdrop =>
    cases h
    have hc : delim c = false := by
      have := List.head_dropWhile_not delim (w := by rw [hdrop]; simp)
      simpa [hdrop] using this
    have hne : (c :: cs).takeWhile (fun x => !delim x) ≠ [] := by simp [hc]
    refine ⟨hne, fun x hx => by simpa using List.mem_takeWhile_imp hx, ?_⟩
    have hlength := congrArg List.length hsplit
    have hpos := List.length_pos_iff.mpr hne
    rw [List.length_append, List.length_append] at hlength
    rw [hrest, List.length_tail]
    omega

/-- Enough calls find the same tokens. -/
lemma tokensFuel_eq {α : Type*} (delim : α → Bool) (fuel fuel' : ℕ) (s : List α)
    (h : s.length ≤ fuel) (h' : s.length ≤ fuel') :
    tokensFuel delim fuel s = tokensFuel delim fuel' s := by
  induction fuel generalizing fuel' s with
  | zero =>
    obtain rfl := List.length_eq_zero_iff.mp (Nat.le_zero.mp h)
    cases fuel' <;> rfl
  | succ fuel ih =>
    cases fuel' with
    | zero =>
      obtain rfl := List.length_eq_zero_iff.mp (Nat.le_zero.mp h')
      rfl
    | succ fuel' =>
      simp only [tokensFuel]
      cases hs : strtok delim s with
      | none => rfl
      | some r =>
        have hlt := (strtok_spec hs).2.2
        simp only [ih fuel' r.2 (by omega) (by omega)]

/-- The tokens are the first token and the tokens of the rest. -/
theorem tokens_eq {α : Type*} (delim : α → Bool) (s : List α) :
    tokens delim s = match strtok delim s with
      | none => []
      | some (token, rest) => token :: tokens delim rest := by
  unfold tokens
  cases hs : strtok delim s with
  | none => cases s <;> simp [tokensFuel, hs]
  | some r =>
    have hlt := (strtok_spec hs).2.2
    cases s with
    | nil => simp at hlt
    | cons x xs =>
      simp only [List.length_cons, tokensFuel, hs, List.cons.injEq, true_and]
      apply tokensFuel_eq
      · simpa [Nat.lt_succ_iff] using hlt
      · exact le_rfl

/-- Only delimiters leave no token. -/
lemma tokens_eq_nil {α : Type*} {delim : α → Bool} {s : List α} :
    tokens delim s = [] ↔ ∀ x, x ∈ s → delim x = true := by
  rw [tokens_eq, ← strtok_eq_none]
  cases strtok delim s <;> simp

@[simp] lemma tokens_nil {α : Type*} (delim : α → Bool) : tokens delim [] = [] := rfl

/-- A delimiter in front is skipped. -/
lemma tokens_cons_delim {α : Type*} {delim : α → Bool} {c : α} (hc : delim c = true)
    (s : List α) : tokens delim (c :: s) = tokens delim s := by
  have hskip : strtok delim (c :: s) = strtok delim s := by simp [strtok, hc]
  rw [tokens_eq, tokens_eq delim s, hskip]

/-- The first token starts at the first character that is no delimiter. -/
lemma tokens_cons {α : Type*} {delim : α → Bool} {c : α} (hc : delim c = false) (s : List α) :
    tokens delim (c :: s) = (c :: s.takeWhile fun x => !delim x) ::
      tokens delim (s.dropWhile fun x => !delim x).tail := by
  have htoken : strtok delim (c :: s) = some (c :: s.takeWhile fun x => !delim x,
      (s.dropWhile fun x => !delim x).tail) := by simp [strtok, hc]
  rw [tokens_eq, htoken]

/-- Single characters with one delimiter between neighbours. -/
def Tight {α : Type*} (delim : α → Bool) : List α → Prop
  | [] => False
  | [c] => delim c = false
  | c :: d :: s => delim c = false ∧ delim d = true ∧ Tight delim s

instance decidableTight {α : Type*} (delim : α → Bool) : (s : List α) → Decidable (Tight delim s)
  | [] => inferInstanceAs (Decidable False)
  | [c] => inferInstanceAs (Decidable (delim c = false))
  | c :: d :: s =>
    have := decidableTight delim s
    inferInstanceAs (Decidable (delim c = false ∧ delim d = true ∧ Tight delim s))

lemma Tight.head {α : Type*} {delim : α → Bool} {c : α} {s : List α} (h : Tight delim (c :: s)) :
    delim c = false := by
  cases s with
  | nil => exact h
  | cons d s => exact h.1

/-- Every token but the last takes two characters, itself and a delimiter; only a
text of single characters and single delimiters has no other characters. -/
theorem length_tokens {α : Type*} (delim : α → Bool) (s : List α) :
    2 * (tokens delim s).length ≤ s.length + 1 ∧
      (2 * (tokens delim s).length = s.length + 1 ↔ Tight delim s) := by
  induction s using List.twoStepInduction with
  | nil => simp [Tight]
  | singleton c =>
    cases hc : delim c with
    | true => simp [tokens_cons_delim hc, Tight, hc]
    | false => simp [tokens_cons hc, Tight, hc]
  | cons_cons c d s ih ih' =>
    have hd := ih' d
    simp only [List.length_cons] at hd ⊢
    cases hc : delim c with
    | true =>
      rw [tokens_cons_delim hc]
      refine ⟨by omega, iff_of_false (by omega) fun h => ?_⟩
      rw [h.head] at hc
      cases hc
    | false =>
      cases hdelim : delim d with
      | true =>
        simp only [tokens_cons hc, List.takeWhile_cons, List.dropWhile_cons, hdelim, Bool.not_true,
          Bool.false_eq_true, if_false, List.tail_cons, List.length_cons, Tight, hc, true_and]
        rw [← ih.2]
        omega
      | false =>
        -- two characters of one token: as many tokens as without the first of them
        have hsame : (tokens delim (c :: d :: s)).length = (tokens delim (d :: s)).length := by
          simp [tokens_cons hc, tokens_cons hdelim, hdelim]
        rw [hsame]
        refine ⟨by omega, iff_of_false (by omega) fun h => ?_⟩
        rw [h.2.1] at hdelim
        cases hdelim

/-- A token that a delimiter ends, and what stands behind the delimiter. -/
lemma strtok_append {α : Type*} {delim : α → Bool} {w : List α} (hne : w ≠ [])
    (hw : ∀ x, x ∈ w → delim x = false) {d : α} (hd : delim d = true) (s : List α) :
    strtok delim (w ++ d :: s) = some (w, s) := by
  cases w with
  | nil => exact absurd rfl hne
  | cons c w =>
    have hc := hw c List.mem_cons_self
    have hrest : ∀ x, x ∈ w → (!delim x) = true := fun x hx => by
      simp [hw x (List.mem_cons_of_mem c hx)]
    simp [strtok, hc, hd, List.takeWhile_append_of_pos hrest, List.dropWhile_append_of_pos hrest]

/-- A text without delimiters is one token, if it is not empty. -/
lemma strtok_of_not_mem {α : Type*} {delim : α → Bool} {w : List α} (hne : w ≠ [])
    (hw : ∀ x, x ∈ w → delim x = false) : strtok delim w = some (w, []) := by
  cases w with
  | nil => exact absurd rfl hne
  | cons c w =>
    have hc := hw c List.mem_cons_self
    have hrest : ∀ x, x ∈ w → (!delim x) = true := fun x hx => by
      simp [hw x (List.mem_cons_of_mem c hx)]
    simp [strtok, hc, List.takeWhile_eq_self_iff.mpr hrest, List.dropWhile_eq_nil_iff.mpr hrest]

lemma tokens_append {α : Type*} {delim : α → Bool} {w : List α} (hne : w ≠ [])
    (hw : ∀ x, x ∈ w → delim x = false) {d : α} (hd : delim d = true) (s : List α) :
    tokens delim (w ++ d :: s) = w :: tokens delim s := by
  rw [tokens_eq, strtok_append hne hw hd]

lemma tokens_of_not_mem {α : Type*} {delim : α → Bool} {w : List α} (hne : w ≠ [])
    (hw : ∀ x, x ∈ w → delim x = false) : tokens delim w = [w] := by
  rw [tokens_eq, strtok_of_not_mem hne hw]
  rfl

lemma mem_tokens {α : Type*} {delim : α → Bool} {s t : List α} (h : t ∈ tokens delim s) :
    t ≠ [] ∧ (∀ x, x ∈ t → delim x = false) ∧ ∀ x, x ∈ t → x ∈ s := by
  induction hn : s.length using Nat.strong_induction_on generalizing s with
  | h n ih =>
    rw [tokens_eq] at h
    cases hs : strtok delim s with
    | none =>
      rw [hs] at h
      cases h
    | some r =>
      obtain ⟨token, rest⟩ := r
      obtain ⟨hne, hfree, hlt⟩ := strtok_spec hs
      obtain ⟨tail, hsplit, hrest, -⟩ := strtok_split hs
      rw [hs] at h
      rcases List.mem_cons.mp h with rfl | h
      · refine ⟨hne, hfree, fun x hx => ?_⟩
        rw [hsplit]
        simp [hx]
      · obtain ⟨hne', hfree', hmem⟩ := ih rest.length (hn ▸ hlt) h rfl
        refine ⟨hne', hfree', fun x hx => ?_⟩
        have hx' := List.mem_of_mem_tail (hrest ▸ hmem x hx)
        rw [hsplit]
        simp [hx']

lemma sublist_of_mem_tokens {α : Type*} {delim : α → Bool} {s t : List α}
    (h : t ∈ tokens delim s) : t.Sublist s := by
  induction hn : s.length using Nat.strong_induction_on generalizing s with
  | h n ih =>
    rw [tokens_eq] at h
    cases hs : strtok delim s with
    | none =>
      rw [hs] at h
      cases h
    | some r =>
      obtain ⟨token, rest⟩ := r
      obtain ⟨-, -, hlt⟩ := strtok_spec hs
      obtain ⟨tail, hsplit, hrest, -⟩ := strtok_split hs
      rw [hs] at h
      rw [hsplit]
      rcases List.mem_cons.mp h with rfl | h
      · exact (List.sublist_append_right _ _).trans (List.sublist_append_left _ tail)
      · have htail : rest.Sublist tail := hrest ▸ List.tail_sublist tail
        exact (ih rest.length (hn ▸ hlt) h rfl).trans (htail.trans (List.sublist_append_right _ _))

/-- Words joined by one delimiter are its tokens. -/
theorem tokens_intercalate {α : Type*} {delim : α → Bool} {d : α} (hd : delim d = true)
    {words : List (List α)} (hwords : ∀ w, w ∈ words → w ≠ [] ∧ ∀ x, x ∈ w → delim x = false) :
    tokens delim ([d].intercalate words) = words := by
  induction words with
  | nil => rfl
  | cons w words ih =>
    obtain ⟨hne, hw⟩ := hwords w List.mem_cons_self
    have hrest := ih fun v hv => hwords v (List.mem_cons_of_mem w hv)
    cases words with
    | nil => rw [List.intercalate_singleton, tokens_of_not_mem hne hw]
    | cons v words =>
      rw [List.intercalate_cons_cons, List.append_assoc, List.singleton_append,
        tokens_append hne hw hd, hrest]

lemma mem_intercalate {α : Type*} {d x : α} {words : List (List α)}
    (h : x ∈ [d].intercalate words) : x = d ∨ ∃ w, w ∈ words ∧ x ∈ w := by
  induction words with
  | nil => cases h
  | cons w words ih =>
    cases words with
    | nil =>
      rw [List.intercalate_singleton] at h
      exact Or.inr ⟨w, List.mem_cons_self, h⟩
    | cons v words =>
      rw [List.intercalate_cons_cons, List.append_assoc, List.singleton_append, List.mem_append,
        List.mem_cons] at h
      rcases h with h | h | h
      · exact Or.inr ⟨w, List.mem_cons_self, h⟩
      · exact Or.inl h
      · exact (ih h).imp_right fun ⟨u, hu, hx⟩ => ⟨u, List.mem_cons_of_mem w hu, hx⟩

/-- The first tokens, joined, are no longer than the text. -/
lemma length_intercalate_take {α : Type*} (delim : α → Bool) (d : α) (n : ℕ) (s : List α) :
    ([d].intercalate ((tokens delim s).take n)).length ≤ s.length := by
  induction hn : s.length using Nat.strong_induction_on generalizing s n with
  | h m ih =>
    rw [tokens_eq]
    cases hs : strtok delim s with
    | none => simp
    | some r =>
      obtain ⟨token, rest⟩ := r
      obtain ⟨-, -, hlt⟩ := strtok_spec hs
      obtain ⟨tail, hsplit, hrest, -⟩ := strtok_split hs
      have hlength := congrArg List.length hsplit
      simp only [List.length_append] at hlength
      cases n with
      | zero => simp
      | succ n =>
        rw [List.take_succ_cons]
        cases htail : (tokens delim rest).take n with
        | nil =>
          rw [List.intercalate_singleton]
          omega
        | cons v words =>
          have hrec := ih rest.length (hn ▸ hlt) n rest rfl
          rw [htail] at hrec
          rw [List.intercalate_cons_cons, List.length_append, List.length_append,
            List.length_singleton]
          have hcons : rest ≠ [] := by
            rintro rfl
            rw [tokens_nil, List.take_nil] at htail
            cases htail
          have hpos := List.length_pos_iff.mpr hcons
          rw [hrest, List.length_tail] at hrec hpos
          omega

/-- No token reaches from the first text into the second. -/
def Apart {α : Type*} (delim : α → Bool) (p q : List α) : Prop :=
  (∀ c, p.getLast? = some c → delim c = true) ∨ ∀ c, q.head? = some c → delim c = true

/-- No token is cut where the pieces are joined. -/
def AllApart {α : Type*} (delim : α → Bool) : List (List α) → Prop
  | [] => True
  | p :: ps => Apart delim p ps.flatten ∧ AllApart delim ps

/-- A delimiter separates tokens. -/
lemma tokens_append_cons {α : Type*} {delim : α → Bool} {d : α} (hd : delim d = true)
    (p q : List α) : tokens delim (p ++ d :: q) = tokens delim p ++ tokens delim q := by
  induction hn : p.length using Nat.strong_induction_on generalizing p with
  | h n ih =>
    cases p with
    | nil => rw [List.nil_append, tokens_cons_delim hd, tokens_nil, List.nil_append]
    | cons c p =>
      rw [List.length_cons] at hn
      cases hc : delim c with
      | true =>
        rw [List.cons_append, tokens_cons_delim hc, tokens_cons_delim hc]
        exact ih p.length (by omega) p rfl
      | false =>
        have hsplit := List.takeWhile_append_dropWhile (p := fun x => !delim x) (l := p)
        have hfree : ∀ x, x ∈ c :: p.takeWhile (fun x => !delim x) → delim x = false := by
          intro x hx
          rcases List.mem_cons.mp hx with rfl | hx
          · exact hc
          · simpa using List.mem_takeWhile_imp hx
        have hlength := congrArg List.length hsplit
        rw [List.length_append] at hlength
        cases htail : p.dropWhile (fun x => !delim x) with
        | nil =>
          rw [htail, List.append_nil] at hsplit
          rw [hsplit] at hfree
          rw [tokens_append (List.cons_ne_nil c p) hfree hd,
            tokens_of_not_mem (List.cons_ne_nil c p) hfree]
          rfl
        | cons e tail =>
          have he : delim e = true := by
            have hhead := List.head_dropWhile_not (fun x => !delim x) (l := p) (by rw [htail]; simp)
            simpa [htail] using hhead
          rw [htail, List.length_cons] at hlength
          have hp : c :: p = c :: p.takeWhile (fun x => !delim x) ++ e :: tail := by
            rw [List.cons_append, ← htail, hsplit]
          rw [hp, tokens_append (List.cons_ne_nil _ _) hfree he, List.append_assoc]
          change tokens delim (_ ++ e :: (tail ++ d :: q)) = _
          rw [tokens_append (List.cons_ne_nil _ _) hfree he, ih tail.length (by omega) tail rfl,
            List.cons_append]

lemma tokens_append_of_head {α : Type*} {delim : α → Bool} (p : List α) {q : List α}
    (h : ∀ c, q.head? = some c → delim c = true) :
    tokens delim (p ++ q) = tokens delim p ++ tokens delim q := by
  cases q with
  | nil => simp
  | cons c q => rw [tokens_append_cons (h c rfl), tokens_cons_delim (h c rfl)]

lemma tokens_append_of_last {α : Type*} {delim : α → Bool} {p : List α} (q : List α)
    (h : ∀ c, p.getLast? = some c → delim c = true) :
    tokens delim (p ++ q) = tokens delim p ++ tokens delim q := by
  rcases List.eq_nil_or_concat' p with rfl | ⟨p, c, rfl⟩
  · simp
  · have hc := h c (by simp)
    rw [List.append_assoc, List.singleton_append, tokens_append_cons hc, tokens_append_cons hc,
      tokens_nil, List.append_nil]

/-- A text that does not end with a delimiter ends with its last token. -/
lemma exists_last_token {α : Type*} {delim : α → Bool} {p : List α}
    (h : ¬ ∀ c, p.getLast? = some c → delim c = true) :
    ∃ a w, p = a ++ w ∧ w ≠ [] ∧ (∀ x, x ∈ w → delim x = false) ∧
      ∀ c, a.getLast? = some c → delim c = true := by
  induction p using List.reverseRecOn with
  | nil => simp at h
  | append_singleton p c ih =>
    have hc : delim c = false := by simpa using h
    by_cases hp : ∀ c, p.getLast? = some c → delim c = true
    · exact ⟨p, [c], rfl, List.cons_ne_nil c [], fun x hx => List.mem_singleton.mp hx ▸ hc, hp⟩
    · obtain ⟨a, w, rfl, -, hw, ha⟩ := ih hp
      refine ⟨a, w ++ [c], List.append_assoc .., by simp, fun x hx => ?_, ha⟩
      rcases List.mem_append.mp hx with hx | hx
      · exact hw x hx
      · exact List.mem_singleton.mp hx ▸ hc

/-- The last token of the first text goes on in the second one. -/
lemma exists_joined {α : Type*} {delim : α → Bool} {p q : List α} (h : ¬ Apart delim p q) :
    ∃ ts w v us, tokens delim p = ts ++ [w] ∧ tokens delim q = v :: us ∧
      tokens delim (p ++ q) = ts ++ (w ++ v) :: us ∧ (v = q.takeWhile fun x => !delim x) ∧
      us = tokens delim (q.dropWhile fun x => !delim x) := by
  obtain ⟨hp, hq⟩ := not_or.mp h
  obtain ⟨a, w, rfl, hne, hw, ha⟩ := exists_last_token hp
  cases q with
  | nil => simp at hq
  | cons c q =>
    have hc : delim c = false := by simpa using hq
    have hsplit := List.takeWhile_append_dropWhile (p := fun x => !delim x) (l := c :: q)
    have hfree : ∀ x, x ∈ (c :: q).takeWhile (fun x => !delim x) → delim x = false :=
      fun x hx => by simpa using List.mem_takeWhile_imp hx
    have hv : (c :: q).takeWhile (fun x => !delim x) ≠ [] := by simp [hc]
    have hhead : ∀ d, ((c :: q).dropWhile fun x => !delim x).head? = some d →
        delim d = true := fun d hd => by
      have hnot := List.head?_dropWhile_not (fun x => !delim x) (c :: q)
      rw [hd] at hnot
      simpa using hnot
    refine ⟨tokens delim a, w, _, tokens delim ((c :: q).dropWhile fun x => !delim x), ?_, ?_, ?_,
      rfl, rfl⟩
    · rw [tokens_append_of_last w ha, tokens_of_not_mem hne hw]
    · conv_lhs => rw [← hsplit]
      rw [tokens_append_of_head _ hhead, tokens_of_not_mem hv hfree]
      rfl
    · have hjoined : ∀ x, x ∈ w ++ (c :: q).takeWhile (fun x => !delim x) → delim x = false := by
        intro x hx
        rcases List.mem_append.mp hx with hx | hx
        · exact hw x hx
        · exact hfree x hx
      conv_lhs => rw [← hsplit]
      rw [List.append_assoc, tokens_append_of_last _ ha, ← List.append_assoc w,
        tokens_append_of_head _ hhead,
        tokens_of_not_mem (List.append_ne_nil_of_left_ne_nil hne _) hjoined]
      rfl

lemma tokens_append_of_apart {α : Type*} {delim : α → Bool} {p q : List α}
    (h : Apart delim p q) : tokens delim (p ++ q) = tokens delim p ++ tokens delim q := by
  rcases h with h | h
  · exact tokens_append_of_last q h
  · exact tokens_append_of_head p h

/-- A token that is cut counts twice. -/
lemma length_tokens_append {α : Type*} (delim : α → Bool) (p q : List α) :
    (tokens delim (p ++ q)).length ≤ (tokens delim p).length + (tokens delim q).length ∧
      ((tokens delim (p ++ q)).length = (tokens delim p).length + (tokens delim q).length ↔
        Apart delim p q) := by
  by_cases h : Apart delim p q
  · rw [tokens_append_of_apart h, List.length_append]
    exact ⟨le_rfl, iff_of_true rfl h⟩
  · obtain ⟨ts, w, v, us, hp, hq, hpq, -, -⟩ := exists_joined h
    have hlength : (tokens delim (p ++ q)).length + 1 =
        (tokens delim p).length + (tokens delim q).length := by
      rw [hp, hq, hpq]
      simp only [List.length_append, List.length_cons, List.length_nil]
      omega
    exact ⟨by omega, iff_of_false (by omega) h⟩

/-- The tokens of the pieces are those of the whole text if no token is cut, and more in
number otherwise. -/
theorem length_flatMap_tokens {α : Type*} (delim : α → Bool) (ps : List (List α)) :
    (tokens delim ps.flatten).length ≤ (ps.flatMap (tokens delim)).length ∧
      ((tokens delim ps.flatten).length = (ps.flatMap (tokens delim)).length ↔
        AllApart delim ps) := by
  induction ps with
  | nil => simp [AllApart]
  | cons p ps ih =>
    obtain ⟨hle, hiff⟩ := length_tokens_append delim p ps.flatten
    rw [List.flatten_cons, List.flatMap_cons, List.length_append, AllApart, ← hiff, ← ih.2]
    have hle' := ih.1
    omega

theorem flatMap_tokens {α : Type*} {delim : α → Bool} {ps : List (List α)}
    (h : AllApart delim ps) : ps.flatMap (tokens delim) = tokens delim ps.flatten := by
  induction ps with
  | nil => rfl
  | cons p ps ih =>
    rw [List.flatMap_cons, List.flatten_cons, tokens_append_of_apart h.1, ih h.2]

end SystemProgramming.Strtok
