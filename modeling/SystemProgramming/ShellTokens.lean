import SystemProgramming.Shell
import SystemProgramming.ArrayStores

/-!
# The tokens of a command line

The command loop copies each token of its line into a buffer of its own. A token is a
word, which a space or the end of the line ends, or stands in double quotes. This module
says which lines keep the loop inside the line and its buffers, and for which lines the
commands get the tokens that stand on the line.
-/
namespace SystemProgramming.Shell
open SystemProgramming.LineReader SystemProgramming.FileServer SystemProgramming.ArrayStores
open SystemProgramming.Strcmp (chars_of_not_mem)

/-- The tokens with the indices that have been stored to, in their buffers and in
`tokens`. -/
structure Stored where
  tokens : List Text
  arr : List ℤ
  array : List ℤ

/-- Store a token and its NUL, and the pointer to it. -/
def Stored.push (s : Stored) (arr : Text) : Stored where
  tokens := s.tokens ++ [arr]
  arr := s.arr ++ stringStores 0 arr.length
  array := s.array ++ [(s.tokens.length : ℤ)]

/-- The loop that copies up to the closing quote; without one it reads on behind the NUL
of the line. -/
def copyQuoted : Text → Text → Option (Text × Text)
  | _, [] => none
  | arr, c :: token => if c = '"' then some (arr, c :: token) else copyQuoted (arr ++ [c]) token

/-- The loop that copies up to a space or the NUL. -/
def copyWord : Text → Text → Text × Text
  | arr, [] => (arr, [])
  | arr, c :: token => if c = ' ' then (arr, c :: token) else copyWord (arr ++ [c]) token

/-- The loop moves what stands before the quote from the line to the buffer. -/
lemma length_copyQuoted {arr token arr' rest : Text}
    (h : copyQuoted arr token = some (arr', rest)) :
    arr.length ≤ arr'.length ∧ arr'.length + rest.length = arr.length + token.length := by
  induction token generalizing arr with
  | nil => cases h
  | cons c token ih =>
    simp only [copyQuoted] at h
    split_ifs at h
    · cases h
      exact ⟨le_rfl, rfl⟩
    · obtain ⟨hle, heq⟩ := ih h
      simp only [List.length_append, List.length_cons, List.length_nil] at hle heq ⊢
      omega

lemma length_copyWord (arr token : Text) : arr.length ≤ (copyWord arr token).1.length ∧
    (copyWord arr token).1.length + (copyWord arr token).2.length =
      arr.length + token.length := by
  induction token generalizing arr with
  | nil => exact ⟨le_rfl, rfl⟩
  | cons c token ih =>
    simp only [copyWord]
    split_ifs
    · exact ⟨le_rfl, rfl⟩
    · obtain ⟨hle, heq⟩ := ih (arr ++ [c])
      simp only [List.length_append, List.length_cons, List.length_nil] at hle heq ⊢
      omega

/-- Step over a space. -/
def skipSpace (token : Text) : Text := if token.head? = some ' ' then token.tail else token

lemma length_skipSpace (token : Text) : (skipSpace token).length ≤ token.length := by
  unfold skipSpace
  split_ifs
  · simp
  · exact le_rfl

/-- A word takes its characters from the line. -/
lemma length_skip_copyWord (c : Char) (rest : Text) :
    (skipSpace (copyWord [c] rest).2).length ≤ rest.length := by
  have hskip := length_skipSpace (copyWord [c] rest).2
  obtain ⟨hle, heq⟩ := length_copyWord [c] rest
  omega

/-- The tokenizing loop from the character on that `token` points to. -/
def scanLoop (s : Stored) (token : Text) : Option Stored :=
  match token with
  | [] => some s
  | c :: rest =>
    if s.tokens.length = maxTokens ∨ c = '\n' then some s
    else if c = '"' then
      match _h : copyQuoted [] rest with
      | none => none
      | some (arr, rest') => scanLoop (s.push arr) rest'.tail
    else if c = ' ' then scanLoop s rest
    else scanLoop (s.push (copyWord [c] rest).1) (skipSpace (copyWord [c] rest).2)
termination_by token.length
decreasing_by
  · obtain ⟨hle, heq⟩ := length_copyQuoted _h
    simp only [List.length_tail, List.length_cons]
    omega
  · exact Nat.lt_succ_self _
  · exact Nat.lt_succ_of_le (length_skip_copyWord c rest)

/-- The loop from the start of a line. -/
def scan (line : Line) : Option Stored := scanLoop ⟨[], [], []⟩ line.text

lemma tokenLoop_quoted (arr : Text) (tokens : List Text) (line : Text) :
    tokenLoop (.quoted arr) tokens line =
      (copyQuoted arr line).bind fun r => tokenLoop .between (tokens ++ [r.1]) r.2.tail := by
  induction line generalizing arr with
  | nil => rfl
  | cons c line ih =>
    simp only [tokenLoop, copyQuoted]
    split_ifs
    · rfl
    · exact ih _

lemma tokenLoop_word (arr : Text) (tokens : List Text) (line : Text) :
    tokenLoop (.word arr) tokens line =
      tokenLoop .between (tokens ++ [(copyWord arr line).1]) (skipSpace (copyWord arr line).2) := by
  induction line generalizing arr with
  | nil => rfl
  | cons c line ih =>
    simp only [tokenLoop, copyWord]
    split_ifs with hc
    · simp [skipSpace, hc]
    · exact ih _

/-- The loop collects the tokens of `tokenLoop`. -/
theorem scanLoop_tokens (s : Stored) (token : Text) :
    (scanLoop s token).map Stored.tokens = tokenLoop .between s.tokens token := by
  induction hn : token.length using Nat.strong_induction_on generalizing s token with
  | h n ih =>
    subst hn
    cases token with
    | nil => simp [scanLoop, tokenLoop]
    | cons c rest =>
      rw [scanLoop, tokenLoop]
      split_ifs
      · rfl
      · rw [tokenLoop_quoted]
        split
        case h_1 hnone => simp [hnone]
        case h_2 arr rest' hsome =>
          obtain ⟨hle, heq⟩ := length_copyQuoted hsome
          rw [hsome, Option.bind_some]
          exact ih _ (by simp only [List.length_tail, List.length_cons]; omega) _ _ rfl
      · exact ih _ (Nat.lt_succ_self _) _ _ rfl
      · rw [tokenLoop_word]
        exact ih _ (Nat.lt_succ_of_le (length_skip_copyWord c rest)) _ _ rfl

/-- What is stored lies inside the buffers. -/
def Stored.Inside (s : Stored) : Prop :=
  Within bufferSize s.arr ∧ Within maxTokens s.array ∧ s.tokens.length ≤ maxTokens

lemma Stored.Inside.push {s : Stored} (h : s.Inside) {arr : Text} (harr : arr.length < bufferSize)
    (hcount : s.tokens.length < maxTokens) : (s.push arr).Inside := by
  obtain ⟨hbuffers, harray, -⟩ := h
  refine ⟨within_append.mpr ⟨hbuffers, ?_⟩, within_append.mpr ⟨harray, ?_⟩, ?_⟩
  · rw [within_stringStores]
    omega
  · rw [within_cons]
    exact ⟨by omega, within_nil _⟩
  · simp only [Stored.push, List.length_append, List.length_singleton]
    omega

/-- A token is no longer than what is left of the line, and fits into its buffer. -/
theorem scanLoop_inside {s t : Stored} {token : Text} (h : scanLoop s token = some t)
    (hs : s.Inside) (hlen : token.length < bufferSize) : t.Inside := by
  induction hn : token.length using Nat.strong_induction_on generalizing s token with
  | h n ih =>
    subst hn
    cases token with
    | nil =>
      rw [scanLoop] at h
      cases h
      exact hs
    | cons c rest =>
      rw [List.length_cons] at hlen
      rw [scanLoop] at h
      split_ifs at h with hstop hquote hspace
      · cases h
        exact hs
      · split at h
        · cases h
        case h_2 arr rest' hsome =>
          obtain ⟨hle, heq⟩ := length_copyQuoted hsome
          have hcount := hs.2.2
          rw [List.length_nil] at heq
          exact ih _ (by simp only [List.length_tail, List.length_cons]; omega) h
            (hs.push (by omega) (by omega)) (by rw [List.length_tail]; omega) rfl
      · exact ih _ (Nat.lt_succ_self _) h hs (by omega) rfl
      · have hle := length_skip_copyWord c rest
        obtain ⟨-, heq⟩ := length_copyWord [c] rest
        have hcount := hs.2.2
        rw [List.length_singleton] at heq
        exact ih _ (Nat.lt_succ_of_le hle) h (hs.push (by omega) (by omega)) (by omega) rfl

/-- A token as it stands on a line. -/
inductive Token where
  | quoted (text : Text)
  | word (text : Text)
  deriving DecidableEq, Repr

def Token.text : Token → Text
  | .quoted text => text
  | .word text => text

/-- A run of characters other than spaces that opens no quote. -/
structure IsWord (w : Text) : Prop where
  nonempty : w ≠ []
  spaceless : ' ' ∉ w
  unquoted : w.head? ≠ some '"'
  begun : w.head? ≠ some '\n'

/-- The start of a line that consists of whole tokens and spaces. -/
inductive Spelled : Text → List Token → Prop
  | nil : Spelled [] []
  | space {pre : Text} {ts : List Token} : Spelled pre ts → Spelled (pre ++ [' ']) ts
  | quoted {pre : Text} {ts : List Token} {q : Text} : Spelled pre ts → '"' ∉ q →
      Spelled (pre ++ ('"' :: (q ++ ['"']))) (ts ++ [.quoted q])
  | word {pre : Text} {ts : List Token} {w : Text} : Spelled pre ts → IsWord w →
      Spelled (pre ++ (w ++ [' '])) (ts ++ [.word w])

/-- The text before the newline of a line consists of the tokens. -/
inductive OnLine : Text → List Token → Prop
  | whole {body : Text} {ts : List Token} : Spelled body ts → OnLine body ts
  | word {pre : Text} {ts : List Token} {w : Text} : Spelled pre ts → IsWord w →
      OnLine (pre ++ w) (ts ++ [.word w])

lemma copyQuoted_append {q : Text} (hq : '"' ∉ q) (arr rest : Text) :
    copyQuoted arr (q ++ '"' :: rest) = some (arr ++ q, '"' :: rest) := by
  induction q generalizing arr with
  | nil => simp [copyQuoted]
  | cons c q ih =>
    rw [List.mem_cons, not_or] at hq
    simp only [List.cons_append, copyQuoted, Ne.symm hq.1, if_false]
    rw [ih hq.2, List.append_assoc]
    rfl

lemma copyQuoted_eq_none {post : Text} (hpost : '"' ∉ post) (arr : Text) :
    copyQuoted arr post = none := by
  induction post generalizing arr with
  | nil => rfl
  | cons c post ih =>
    rw [List.mem_cons, not_or] at hpost
    simp only [copyQuoted, Ne.symm hpost.1, if_false]
    exact ih hpost.2 _

lemma copyWord_append {w : Text} (hw : ' ' ∉ w) (arr rest : Text) :
    copyWord arr (w ++ ' ' :: rest) = (arr ++ w, ' ' :: rest) := by
  induction w generalizing arr with
  | nil => simp [copyWord]
  | cons c w ih =>
    rw [List.mem_cons, not_or] at hw
    simp only [List.cons_append, copyWord, Ne.symm hw.1, if_false]
    rw [ih hw.2, List.append_assoc]
    rfl

lemma copyWord_eq {w : Text} (hw : ' ' ∉ w) (arr : Text) : copyWord arr w = (arr ++ w, []) := by
  induction w generalizing arr with
  | nil => simp [copyWord]
  | cons c w ih =>
    rw [List.mem_cons, not_or] at hw
    simp only [copyWord, Ne.symm hw.1, if_false]
    rw [ih hw.2, List.append_assoc]
    rfl

lemma tokenLoop_between_quoted {tokens : List Text} {q : Text} (hq : '"' ∉ q) (rest : Text)
    (hcount : tokens.length < maxTokens) :
    tokenLoop .between tokens ('"' :: (q ++ '"' :: rest)) =
      tokenLoop .between (tokens ++ [q]) rest := by
  have hgo : ¬ (tokens.length = maxTokens ∨ '"' = '\n') := by
    rintro (h | h)
    · omega
    · exact absurd h (by decide)
  rw [tokenLoop, if_neg hgo, if_pos rfl, tokenLoop_quoted, copyQuoted_append hq]
  rfl

/-- A word is copied up to what stands behind it. -/
lemma tokenLoop_between_word {tokens : List Text} {w : Text} (hw : IsWord w) (rest : Text)
    (hcount : tokens.length < maxTokens) :
    tokenLoop .between tokens (w ++ rest) =
      tokenLoop .between (tokens ++ [(copyWord [] (w ++ rest)).1])
        (skipSpace (copyWord [] (w ++ rest)).2) := by
  cases w with
  | nil => exact absurd rfl hw.nonempty
  | cons c w =>
    have hspace : c ≠ ' ' := fun h => hw.spaceless (h ▸ List.mem_cons_self)
    have hquote : c ≠ '"' := fun h => hw.unquoted (congrArg some h)
    have hgo : ¬ (tokens.length = maxTokens ∨ c = '\n') := by
      rintro (h | h)
      · omega
      · exact hw.begun (congrArg some h)
    rw [List.cons_append, tokenLoop, if_neg hgo, if_neg hquote, if_neg hspace, tokenLoop_word,
      copyWord, if_neg hspace]
    rfl

/-- Behind the tenth token the loop ends. -/
lemma tokenLoop_full {tokens : List Text} (hcount : tokens.length = maxTokens) (line : Text) :
    tokenLoop .between tokens line = some tokens := by
  cases line with
  | nil => rfl
  | cons c line => rw [tokenLoop, if_pos (Or.inl hcount)]

lemma tokenLoop_between_space {tokens : List Text} (hcount : tokens.length ≤ maxTokens)
    (rest : Text) : tokenLoop .between tokens (' ' :: rest) = tokenLoop .between tokens rest := by
  rcases Nat.eq_or_lt_of_le hcount with heq | hlt
  · rw [tokenLoop_full heq, tokenLoop_full heq]
  · have hgo : ¬ (tokens.length = maxTokens ∨ ' ' = '\n') := by
      rintro (h | h)
      · omega
      · exact absurd h (by decide)
    rw [tokenLoop, if_neg hgo, if_neg (by decide), if_pos rfl]

/-- Behind whole tokens the loop goes on with what follows. -/
lemma Spelled.scanned {pre : Text} {ts : List Token} (h : Spelled pre ts)
    (hcount : ts.length ≤ maxTokens) (rest : Text) :
    tokenLoop .between [] (pre ++ rest) = tokenLoop .between (ts.map Token.text) rest := by
  induction h generalizing rest with
  | nil => rfl
  | space hpre ih =>
    rw [List.append_assoc, ih hcount]
    exact tokenLoop_between_space (by simpa using hcount) rest
  | quoted hpre hq ih =>
    rw [List.length_append, List.length_singleton] at hcount
    rw [List.append_assoc, ih (by omega)]
    have hstep := tokenLoop_between_quoted hq rest
      (show (List.map Token.text _).length < maxTokens by rw [List.length_map]; exact hcount)
    simpa [Token.text] using hstep
  | word hpre hw ih =>
    rw [List.length_append, List.length_singleton] at hcount
    rw [List.append_assoc, ih (by omega), List.append_assoc]
    have hstep := tokenLoop_between_word hw (' ' :: rest)
      (show (List.map Token.text _).length < maxTokens by rw [List.length_map]; exact hcount)
    rw [copyWord_append hw.spaceless] at hstep
    simpa [skipSpace, Token.text] using hstep

/-- What stands at the place of a token. -/
lemma next_cases (rest : Text) :
    rest = [] ∨ (∃ r, rest = '\n' :: r) ∨ (∃ r, rest = ' ' :: r) ∨
      (∃ q r, '"' ∉ q ∧ rest = '"' :: (q ++ '"' :: r)) ∨
      (∃ post, '"' ∉ post ∧ rest = '"' :: post) ∨
      (∃ w r, IsWord w ∧ rest = w ++ ' ' :: r) ∨ IsWord rest := by
  cases rest with
  | nil => exact Or.inl rfl
  | cons c rest =>
    right
    by_cases hnewline : c = '\n'
    · exact Or.inl ⟨rest, by rw [hnewline]⟩
    right
    by_cases hspace : c = ' '
    · exact Or.inl ⟨rest, by rw [hspace]⟩
    right
    by_cases hquote : c = '"'
    · subst hquote
      by_cases hmem : '"' ∈ rest
      · obtain ⟨q, r, rfl, hq⟩ := List.eq_append_cons_of_mem hmem
        exact Or.inl ⟨q, r, hq, rfl⟩
      · exact Or.inr (Or.inl ⟨rest, hmem, rfl⟩)
    right
    right
    by_cases hmem : ' ' ∈ c :: rest
    · obtain ⟨w, r, heq, hw⟩ := List.eq_append_cons_of_mem hmem
      cases w with
      | nil => exact absurd (List.cons.inj heq).1 hspace
      | cons d w =>
        obtain ⟨rfl, -⟩ := List.cons.inj heq
        exact Or.inl ⟨_, r, ⟨by simp, hw, by simpa using hquote, by simpa using hnewline⟩, heq⟩
    · exact Or.inr ⟨by simp, hmem, by simpa using hquote, by simpa using hnewline⟩

/-- Every quote that opens one of the first ten tokens is closed. -/
def Closed (line : Text) : Prop :=
  ∀ pre ts post, line = pre ++ '"' :: post → Spelled pre ts → ts.length < maxTokens → '"' ∈ post

/-- With all quotes closed the loop does not run out of the line. -/
lemma tokenLoop_isSome {line : Text} (hclosed : Closed line) (pre rest : Text) (ts : List Token)
    (hline : line = pre ++ rest) (hpre : Spelled pre ts) (hcount : ts.length ≤ maxTokens) :
    (tokenLoop .between (ts.map Token.text) rest).isSome = true := by
  induction hn : rest.length using Nat.strong_induction_on generalizing pre rest ts with
  | h n ih =>
    subst hn
    have hlength : (ts.map Token.text).length = ts.length := List.length_map _
    rcases Nat.eq_or_lt_of_le hcount with heq | hlt
    · rw [tokenLoop_full (hlength.trans heq)]
      rfl
    have hmore : (ts.map Token.text).length < maxTokens := hlength ▸ hlt
    rcases next_cases rest with rfl | ⟨r, rfl⟩ | ⟨r, rfl⟩ | ⟨q, r, hq, rfl⟩ | ⟨post, hpost, rfl⟩ |
      ⟨w, r, hw, rfl⟩ | hw
    · rfl
    · rw [tokenLoop, if_pos (Or.inr rfl)]
      rfl
    · rw [tokenLoop_between_space hmore.le]
      exact ih r.length (Nat.lt_succ_self _) (pre ++ [' ']) r ts (by simp [hline]) hpre.space
        hcount rfl
    · rw [tokenLoop_between_quoted hq r hmore]
      have hrec := ih r.length (by simp only [List.length_cons, List.length_append]; omega) _ r _
        (by simp [hline]) (hpre.quoted hq)
        (by rw [List.length_append, List.length_singleton]; exact hlt) rfl
      simpa [Token.text] using hrec
    · exact absurd (hclosed pre ts post hline hpre hlt) hpost
    · rw [tokenLoop_between_word hw (' ' :: r) hmore, copyWord_append hw.spaceless]
      have hrec := ih r.length (by simp only [List.length_append, List.length_cons]; omega) _ r _
        (by simp [hline]) (hpre.word hw)
        (by rw [List.length_append, List.length_singleton]; exact hlt) rfl
      simpa [skipSpace, Token.text] using hrec
    · have hstep := tokenLoop_between_word hw [] hmore
      rw [List.append_nil, copyWord_eq hw.spaceless] at hstep
      rw [hstep]
      rfl

/-- The tokenizing loop stays inside the line, its buffers and the array just when every
quote that opens a token is closed; a quote does so at the start of the line, behind a
space, or behind another quoted token. -/
theorem scan_safe_iff (line : Line) :
    (∃ s, scan line = some s ∧ Within bufferSize s.arr ∧ Within maxTokens s.array) ↔
      Closed line.text := by
  have htokens := scanLoop_tokens ⟨[], [], []⟩ line.text
  constructor
  · rintro ⟨s, hs, -⟩ pre ts post hline hpre hcount
    by_contra hpost
    have hmore : ¬ ((ts.map Token.text).length = maxTokens ∨ '"' = '\n') := by
      rw [List.length_map]
      rintro (h | h)
      · omega
      · exact absurd h (by decide)
    rw [scan] at hs
    rw [hs, hline, hpre.scanned hcount.le, tokenLoop, if_neg hmore, if_pos rfl, tokenLoop_quoted,
      copyQuoted_eq_none hpost] at htokens
    cases htokens
  · intro hclosed
    have hsome := tokenLoop_isSome hclosed [] line.text [] rfl .nil (Nat.zero_le _)
    rw [List.map_nil, ← htokens, Option.isSome_map] at hsome
    obtain ⟨s, hs⟩ := Option.isSome_iff_exists.mp hsome
    have hshort : line.text.length < bufferSize := lt_of_le_of_lt line.length_le (by decide)
    have hinside := scanLoop_inside hs ⟨within_nil _, within_nil _, Nat.zero_le _⟩ hshort
    exact ⟨s, hs, hinside.1, hinside.2.1⟩

/-- A name with its closing quote forgotten. -/
def unclosedLine : Line := ⟨"searchStudent \"Ali grades.txt\n".toList, by decide, by decide⟩

/-- The copying loop runs over the end of the line. -/
theorem unclosedLine_overruns :
    ¬ ∃ s, scan unclosedLine = some s ∧ Within bufferSize s.arr ∧ Within maxTokens s.array := by
  rintro ⟨s, hs, -⟩
  have htokens := scanLoop_tokens ⟨[], [], []⟩ unclosedLine.text
  have hnone : tokenLoop .between [] unclosedLine.text = none := by decide
  rw [scan] at hs
  rw [hs, hnone] at htokens
  cases htokens

lemma exists_onLine_behind {body : Text} (hbody : '\n' ∉ body)
    (hclosed : ∀ pre ts post, body = pre ++ '"' :: post → Spelled pre ts → '"' ∈ post)
    (pre rest : Text) (ts : List Token) (hsplit : body = pre ++ rest) (hpre : Spelled pre ts) :
    ∃ ts', OnLine body ts' := by
  induction hn : rest.length using Nat.strong_induction_on generalizing pre rest ts with
  | h n ih =>
    subst hn
    rcases next_cases rest with rfl | ⟨r, rfl⟩ | ⟨r, rfl⟩ | ⟨q, r, hq, rfl⟩ | ⟨post, hpost, rfl⟩ |
      ⟨w, r, hw, rfl⟩ | hw
    · rw [List.append_nil] at hsplit
      exact ⟨ts, hsplit ▸ .whole hpre⟩
    · exact absurd (hsplit ▸ List.mem_append_right pre List.mem_cons_self) hbody
    · exact ih r.length (Nat.lt_succ_self _) _ r ts (by simp [hsplit]) hpre.space rfl
    · exact ih r.length (by simp only [List.length_cons, List.length_append]; omega) _ r _
        (by simp [hsplit]) (hpre.quoted hq) rfl
    · exact absurd (hclosed pre ts post hsplit hpre) hpost
    · exact ih r.length (by simp only [List.length_append, List.length_cons]; omega) _ r _
        (by simp [hsplit]) (hpre.word hw) rfl
    · exact ⟨ts ++ [.word rest], hsplit ▸ .word hpre hw⟩

/-- A line on which every token that starts with a quote has a closing quote consists of
tokens. -/
theorem exists_onLine {body : Text} (hbody : '\n' ∉ body)
    (hclosed : ∀ pre ts post, body = pre ++ '"' :: post → Spelled pre ts → '"' ∈ post) :
    ∃ ts, OnLine body ts :=
  exists_onLine_behind hbody hclosed [] body [] rfl .nil

/-- Behind whole tokens that end with a word there is a space. -/
lemma Spelled.space_last {pre : Text} {ts : List Token} (h : Spelled pre ts) {w : Text}
    (hw : ts.getLast? = some (.word w)) : pre.getLast? = some ' ' := by
  cases h with
  | nil => cases hw
  | space h => exact List.getLast?_concat
  | quoted h hq => simp at hw
  | word h hw' => rw [← List.append_assoc, List.getLast?_concat]

/-- Before the newline, only a word takes the newline with it. -/
lemma tokenLoop_onLine {body : Text} {ts : List Token} (h : OnLine body ts)
    (hcount : ts.length ≤ maxTokens) :
    tokenLoop .between [] (body ++ ['\n']) = some (ts.map Token.text) ∧
        (∀ w, ts.getLast? = some (.word w) → body.getLast? = some ' ') ∨
      ∃ ts' w, ts = ts' ++ [.word w] ∧ body.getLast? ≠ some ' ' ∧
        tokenLoop .between [] (body ++ ['\n']) =
          some (ts'.map Token.text ++ [w ++ ['\n']]) := by
  cases h with
  | whole h =>
    refine Or.inl ⟨?_, fun w hw => h.space_last hw⟩
    rw [h.scanned hcount, tokenLoop, if_pos (Or.inr rfl)]
  | @word pre ts w h hw =>
    rw [List.length_append, List.length_singleton] at hcount
    have hfree : ' ' ∉ w ++ ['\n'] := by simpa using hw.spaceless
    have hmore : (ts.map Token.text).length < maxTokens := by rwa [List.length_map]
    refine Or.inr ⟨ts, w, rfl, ?_, ?_⟩
    · obtain ⟨init, last, rfl⟩ := List.eq_nil_or_concat w |>.resolve_left hw.nonempty
      rw [List.concat_eq_append, ← List.append_assoc, List.getLast?_concat]
      intro hlast
      exact hw.spaceless (by simp [Option.some.inj hlast])
    · rw [List.append_assoc, h.scanned (by omega), tokenLoop_between_word hw _ hmore,
        copyWord_eq hfree]
      rfl

lemma trim_eq_self {s : Text} : trim s = s ↔ ∀ c, s.getLast? = some c → isSpace c = false := by
  unfold trim
  rw [List.rdropWhile_eq_self_iff]
  rcases List.eq_nil_or_concat s with rfl | ⟨init, last, rfl⟩
  · simp
  · simp

lemma trim_newline (s : Text) : trim (s ++ ['\n']) = trim s := by
  unfold trim
  exact List.rdropWhile_concat_pos _ _ _ (by decide)

/-- Only the first token is trimmed. -/
lemma tokenize_eq_iff {line : Line} {tokens : List Text}
    (h : tokenLoop .between [] line.text = some tokens) (ts : List Text) :
    tokenize line = some ts ↔ ts.tail = tokens.tail ∧ ts.head? = tokens.head?.map trim := by
  rw [tokenize, h, Option.map_some, Option.some.injEq]
  cases tokens with
  | nil => cases ts <;> simp
  | cons token tokens =>
    cases ts with
    | nil => simp
    | cons t ts => simp [and_comm, eq_comm]

/-- The tokens of a line that has been read whole. -/
lemma tokenize_eq_texts_iff (line : Line) (body : Text) (ts : List Token)
    (hline : line.text = body ++ ['\n']) (hts : OnLine body ts) (hcount : ts.length ≤ maxTokens) :
    tokenize line = some (ts.map Token.text) ↔
      (∀ w, ts.getLast? = some (.word w) → ts.length = 1 ∨ body.getLast? = some ' ') ∧
      ∀ t c, ts.head? = some t → t.text.getLast? = some c → isSpace c = false := by
  have htrim : (∀ t c, ts.head? = some t → t.text.getLast? = some c → isSpace c = false) ↔
      ∀ t, ts.head? = some t → trim t.text = t.text :=
    ⟨fun h t ht => trim_eq_self.mpr fun c => h t c ht,
      fun h t c ht => trim_eq_self.mp (h t ht) c⟩
  rw [htrim]
  rcases tokenLoop_onLine hts hcount with ⟨hloop, hlast⟩ | ⟨ts', w, rfl, hlast, hloop⟩
  · rw [← hline] at hloop
    rw [tokenize_eq_iff hloop]
    have hword : ∀ w, ts.getLast? = some (.word w) → ts.length = 1 ∨ body.getLast? = some ' ' :=
      fun w hw => Or.inr (hlast w hw)
    cases ts with
    | nil => simp
    | cons t ts =>
      rw [and_iff_right hword]
      simp only [true_and, List.map_cons, List.tail_cons, List.head?_cons, Option.map_some,
        Option.some.injEq, forall_eq']
      exact eq_comm
  · rw [← hline] at hloop
    rw [tokenize_eq_iff hloop]
    cases ts' with
    | nil =>
      -- the newline behind the only token is trimmed away
      simp only [List.map_nil, List.nil_append, List.map_cons, List.tail_cons, List.head?_cons,
        Option.map_some, Option.some.injEq, forall_eq', Token.text, trim_newline, true_and,
        List.length_cons, List.length_nil, true_or, implies_true]
      exact eq_comm
    | cons t ts' =>
      refine iff_of_false (fun h => ?_) (fun h => ?_)
      · have htail := h.1
        simp [Token.text] at htail
      · rcases h.1 w (by rw [List.getLast?_concat]) with hone | hspace
        · simp at hone
        · exact hlast hspace

/-- The token that is being copied. -/
def Scan.begun : Scan → List Text
  | .between => []
  | .quoted arr => [arr]
  | .word arr => [arr]

/-- The characters of the tokens stand on the line. -/
lemma tokenLoop_nul_free {sc : Scan} {tokens : List Text} {line : Text} {ts : List Text}
    (h : tokenLoop sc tokens line = some ts) (hline : '\x00' ∉ line)
    (htokens : ∀ t ∈ tokens ++ sc.begun, '\x00' ∉ t) : ∀ t ∈ ts, '\x00' ∉ t := by
  induction line generalizing sc tokens with
  | nil =>
    cases sc with
    | between =>
      cases h
      rwa [Scan.begun, List.append_nil] at htokens
    | quoted arr => cases h
    | word arr =>
      cases h
      exact htokens
  | cons c line ih =>
    rw [List.mem_cons, not_or] at hline
    obtain ⟨hc, hline⟩ := hline
    rw [List.forall_mem_append] at htokens
    obtain ⟨htokens, hbegun⟩ := htokens
    cases sc with
    | between =>
      rw [tokenLoop] at h
      split_ifs at h
      · cases h
        exact htokens
      · exact ih h hline (by simpa [Scan.begun, or_imp, forall_and] using htokens)
      · exact ih h hline (by simpa [Scan.begun] using htokens)
      · exact ih h hline (by simpa [Scan.begun, or_imp, forall_and, hc] using htokens)
    | quoted arr =>
      have harr : '\x00' ∉ arr := hbegun arr (List.mem_singleton_self _)
      rw [tokenLoop] at h
      split_ifs at h
      · exact ih h hline (by simpa [Scan.begun, or_imp, forall_and, harr] using htokens)
      · exact ih h hline (by simpa [Scan.begun, or_imp, forall_and, harr, hc] using htokens)
    | word arr =>
      have harr : '\x00' ∉ arr := hbegun arr (List.mem_singleton_self _)
      rw [tokenLoop] at h
      split_ifs at h
      · exact ih h hline (by simpa [Scan.begun, or_imp, forall_and, harr] using htokens)
      · exact ih h hline (by simpa [Scan.begun, or_imp, forall_and, harr, hc] using htokens)

/-- The tokens that the commands get hold no NUL. -/
lemma tokenize_nul_free {line : Line} {ts : List Text} (h : tokenize line = some ts) :
    ∀ t ∈ ts, '\x00' ∉ t := by
  obtain ⟨tokens, htokens, rfl⟩ := Option.map_eq_some_iff.mp h
  have hfree := tokenLoop_nul_free htokens line.nul_free (by simp [Scan.begun])
  cases tokens with
  | nil => exact hfree
  | cons token tokens =>
    rw [List.forall_mem_cons] at hfree ⊢
    exact ⟨fun hmem => hfree.1 ((List.rdropWhile_prefix _ token).subset hmem), hfree.2⟩

/-- Every character of a line but its spaces and quotes belongs to a token. -/
lemma Spelled.mem_token {pre : Text} {ts : List Token} (h : Spelled pre ts) {c : Char}
    (hspace : c ≠ ' ') (hquote : c ≠ '"') (hc : c ∈ pre) : ∃ t, t ∈ ts ∧ c ∈ t.text := by
  induction h with
  | nil => cases hc
  | space h ih => exact ih (by simpa [hspace] using hc)
  | @quoted pre ts q h hq ih =>
    have hor : c ∈ pre ∨ c ∈ q := by simpa [hquote] using hc
    rcases hor with hc | hc
    · obtain ⟨t, ht, hmem⟩ := ih hc
      exact ⟨t, List.mem_append_left _ ht, hmem⟩
    · exact ⟨.quoted q, List.mem_append_right _ (List.mem_singleton_self _), hc⟩
  | @word pre ts w h hw ih =>
    have hor : c ∈ pre ∨ c ∈ w := by simpa [hspace] using hc
    rcases hor with hc | hc
    · obtain ⟨t, ht, hmem⟩ := ih hc
      exact ⟨t, List.mem_append_left _ ht, hmem⟩
    · exact ⟨.word w, List.mem_append_right _ (List.mem_singleton_self _), hc⟩

lemma OnLine.mem_token {body : Text} {ts : List Token} (h : OnLine body ts) {c : Char}
    (hspace : c ≠ ' ') (hquote : c ≠ '"') (hc : c ∈ body) : ∃ t, t ∈ ts ∧ c ∈ t.text := by
  cases h with
  | whole h => exact h.mem_token hspace hquote hc
  | @word pre ts w h hw =>
    rcases List.mem_append.mp hc with hc | hc
    · obtain ⟨t, ht, hmem⟩ := h.mem_token hspace hquote hc
      exact ⟨t, List.mem_append_left _ ht, hmem⟩
    · exact ⟨.word w, List.mem_append_right _ (List.mem_singleton_self _), hc⟩

lemma linesOf_nil : linesOf [] = [] := by
  rw [linesOf, dif_pos rfl]

lemma linesOf_of_ne_nil {input : Text} (h : input ≠ []) :
    linesOf input = Line.read input :: linesOf (fgetsLoop (bufferSize - 1) input).2 := by
  rw [linesOf, dif_neg h]

/-- A line of at most 99 bytes is one line of the shell. -/
lemma linesOf_short {body : Text} (hbody : '\n' ∉ body) (hlen : body.length + 1 < bufferSize) :
    linesOf (body ++ ['\n']) = [Line.read (body ++ ['\n'])] := by
  rw [linesOf_of_ne_nil (by simp), fgetsLoop_line hbody (Nat.lt_sub_of_add_lt hlen), linesOf_nil]

/-- A longer line becomes several. -/
lemma linesOf_long {body : Text} (hlen : bufferSize ≤ body.length + 1) (tokens : List Text) :
    (linesOf (body ++ ['\n'])).map tokenize ≠ [some tokens] := by
  have hleft : (fgetsLoop (bufferSize - 1) (body ++ ['\n'])).2 ≠ [] := by
    intro hnil
    have heq := congrArg List.length (fgetsLoop_append (bufferSize - 1) (body ++ ['\n']))
    have hle := length_fgetsLoop_fst (bufferSize - 1) (body ++ ['\n'])
    rw [hnil, List.append_nil, List.length_append, List.length_singleton] at heq
    have hpos : 0 < bufferSize := by decide
    omega
  rw [linesOf_of_ne_nil (by simp), linesOf_of_ne_nil hleft]
  simp

/-- The commands get the tokens of an input line just when it fits into the buffer, has no
NUL, no word but the first stands directly before its newline, and the first token does not
end with white space. A line that does not fit is executed piece by piece. -/
theorem tokens_right_iff {body : Text} {ts : List Token} (hbody : '\n' ∉ body)
    (hts : OnLine body ts) (hcount : ts.length ≤ maxTokens) :
    (linesOf (body ++ ['\n'])).map tokenize = [some (ts.map Token.text)] ↔
      (body.length + 1 < bufferSize ∧ '\x00' ∉ body) ∧
      (∀ w, ts.getLast? = some (.word w) → ts.length = 1 ∨ body.getLast? = some ' ') ∧
      ∀ t c, ts.head? = some t → t.text.getLast? = some c → isSpace c = false := by
  rcases Nat.lt_or_ge (body.length + 1) bufferSize with hlen | hlen
  · rw [linesOf_short hbody hlen, List.map_singleton, List.singleton_inj]
    by_cases hnul : '\x00' ∈ body
    · -- the buffer's string ends there, and a token of the line goes on
      refine iff_of_false (fun h => ?_) (fun h => h.1.2 hnul)
      obtain ⟨t, ht, hmem⟩ := hts.mem_token (by decide) (by decide) hnul
      exact tokenize_nul_free h _ (List.mem_map_of_mem ht) hmem
    · have hline : (Line.read (body ++ ['\n'])).text = body ++ ['\n'] := by
        rw [Line.read_text, fgetsLoop_line hbody (Nat.lt_sub_of_add_lt hlen)]
        exact chars_of_not_mem (by simpa using hnul)
      have hfits : body.length + 1 < bufferSize ∧ '\x00' ∉ body := ⟨hlen, hnul⟩
      rw [tokenize_eq_texts_iff _ body ts hline hts hcount, and_iff_right hfits]
  · exact iff_of_false (linesOf_long hlen _) fun h => absurd h.1.1 (by omega)

lemma showAll_spelled : Spelled "showAll ".toList [.word "showAll".toList] :=
  Spelled.nil.word (w := "showAll".toList) ⟨by decide, by decide, by decide, by decide⟩

/-- A file name at the end of the line takes the newline with it. -/
theorem newline_in_fileName :
    OnLine "showAll grades.txt".toList [.word "showAll".toList, .word "grades.txt".toList] ∧
    (linesOf "showAll grades.txt\n".toList).map tokenize =
      [some ["showAll".toList, "grades.txt\n".toList]] ∧
    (linesOf "showAll grades.txt\n".toList).map tokenize ≠
      [some ["showAll".toList, "grades.txt".toList]] := by
  have hshort : '\n' ∉ "showAll grades.txt".toList := by decide
  have hlines : linesOf "showAll grades.txt\n".toList =
      [Line.read "showAll grades.txt\n".toList] := linesOf_short hshort (by decide)
  have htokens : tokenize (Line.read "showAll grades.txt\n".toList) =
      some ["showAll".toList, "grades.txt\n".toList] := by decide
  rw [hlines, List.map_singleton, htokens]
  exact ⟨OnLine.word (w := "grades.txt".toList) showAll_spelled
    ⟨by decide, by decide, by decide, by decide⟩, rfl, by decide⟩

/-- With a quoted file name the tokens are those of the line. -/
theorem tokens_right_quoted :
    OnLine "showAll \"a b\"".toList [.word "showAll".toList, .quoted "a b".toList] ∧
    (linesOf "showAll \"a b\"\n".toList).map tokenize =
      [some ["showAll".toList, "a b".toList]] := by
  have hts : OnLine "showAll \"a b\"".toList [.word "showAll".toList, .quoted "a b".toList] :=
    .whole (showAll_spelled.quoted (q := "a b".toList) (by decide))
  refine ⟨hts, (tokens_right_iff (by decide) hts (by decide)).mpr ⟨⟨by decide, by decide⟩, ?_, ?_⟩⟩
  · intro w hw
    cases hw
  · intro t c ht hc
    cases ht
    cases hc
    decide

end SystemProgramming.Shell
