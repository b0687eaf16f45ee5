import SystemProgramming.Strcmp
import SystemProgramming.Strtok

/-!
# Splitting a buffer in place

`strtok` works on the string at the start of a memory. It skips delimiters, and writes a
NUL over the delimiter behind the token. It knows nothing of the size of the buffer: a
call that does not come to a delimiter or a NUL before the end of the memory has no
defined result.
-/
namespace SystemProgramming.BufferTokens
open SystemProgramming.Strcmp

/-- What one call returns, the memory that it passed as it leaves it, and the memory from
where the next call goes on. -/
structure Call where
  token : Option (List Char)
  passed : List Char
  rest : List Char

/-- The character ends a token. -/
def stops (delim : Char → Bool) (c : Char) : Bool := delim c || c = '\x00'

def strtok (delim : Char → Bool) (memory : List Char) : Option Call :=
  match memory.dropWhile delim with
  | [] => none
  | c :: s =>
    if c = '\x00' then some ⟨none, memory.takeWhile delim, c :: s⟩
    else
      let token := (c :: s).takeWhile fun x => !stops delim x
      match (c :: s).dropWhile fun x => !stops delim x with
      | [] => none
      | d :: rest =>
        if d = '\x00' then some ⟨some token, memory.takeWhile delim ++ token, d :: rest⟩
        else some ⟨some token, memory.takeWhile delim ++ token ++ ['\x00'], rest⟩

/-- A loop over the tokens: whether its body is entered, the body, which may fail, and
whether the loop is left behind the body without another call. -/
structure Loop (σ : Type*) where
  enter : σ → Bool
  body : σ → List Char → Option σ
  leave : σ → Bool

/-- The loop for at most `fuel` calls, with the memory that it leaves. -/
def loopFuel {σ : Type*} (delim : Char → Bool) (L : Loop σ) :
    ℕ → List Char → σ → Option (List Char × σ)
  | 0, _, _ => none
  | fuel + 1, memory, s =>
    (strtok delim memory).bind fun call =>
      match call.token with
      | none => some (call.passed ++ call.rest, s)
      | some token =>
        if L.enter s then
          (L.body s token).bind fun s' =>
            if L.leave s' then some (call.passed ++ call.rest, s')
            else (loopFuel delim L fuel call.rest s').map fun r => (call.passed ++ r.1, r.2)
        else some (call.passed ++ call.rest, s)

/-- Every token takes at least one character, so that this is enough fuel. -/
def loop {σ : Type*} (delim : Char → Bool) (L : Loop σ) (memory : List Char) (s : σ) :
    Option (List Char × σ) :=
  loopFuel delim L (memory.length + 1) memory s

/-- The memory when no token is left: every delimiter behind a token has become a NUL.
The flag says whether a token stands in front. -/
def marked (delim : Char → Bool) : Bool → List Char → List Char
  | _, [] => []
  | inToken, c :: s =>
    if c = '\x00' then c :: s
    else if delim c then (if inToken then '\x00' else c) :: marked delim false s
    else c :: marked delim true s

/-- The word has neither delimiters nor a NUL. -/
def Word (delim : Char → Bool) (w : List Char) : Prop := ∀ c, c ∈ w → stops delim c = false

lemma Word.delim {delim : Char → Bool} {w : List Char} (hw : Word delim w) {c : Char}
    (hc : c ∈ w) : delim c = false := (Bool.or_eq_false_iff.mp (hw c hc)).1

lemma Word.ne_nul {delim : Char → Bool} {w : List Char} (hw : Word delim w) {c : Char}
    (hc : c ∈ w) : c ≠ '\x00' := of_decide_eq_false (Bool.or_eq_false_iff.mp (hw c hc)).2

lemma Word.dropWhile_append {delim : Char → Bool} {w : List Char} (hw : Word delim w)
    (hne : w ≠ []) (rest : List Char) : (w ++ rest).dropWhile delim = w ++ rest := by
  obtain ⟨c, w, rfl⟩ := List.exists_cons_of_ne_nil hne
  exact List.dropWhile_cons_of_neg (by simp [hw.delim List.mem_cons_self])

section Memory
variable {delim : Char → Bool}

/-- A memory starts with a delimiter or a NUL, or with a word up to one of these, or it is
one word. -/
@[elab_as_elim]
theorem memory_induction (delim : Char → Bool) {motive : List Char → Prop} (memory : List Char)
    (skip : ∀ c s, delim c = true → motive s → motive (c :: s))
    (nul : ∀ s, motive ('\x00' :: s))
    (token : ∀ w d s, w ≠ [] → Word delim w → delim d = true → motive s → motive (w ++ d :: s))
    (last : ∀ w s, w ≠ [] → Word delim w → motive (w ++ '\x00' :: s))
    (word : ∀ w, Word delim w → motive w) : motive memory := by
  induction hn : memory.length using Nat.strong_induction_on generalizing memory with
  | h n ih =>
    cases memory with
    | nil => exact word [] fun c hc => absurd hc List.not_mem_nil
    | cons c s =>
      rw [List.length_cons] at hn
      by_cases hdelim : delim c = true
      · exact skip c s hdelim (ih s.length (by omega) s rfl)
      by_cases hc : c = '\x00'
      · exact hc ▸ nul s
      have hstop : stops delim c = false := by simp [stops, hdelim, hc]
      have hsplit := List.takeWhile_append_dropWhile (p := fun x => !stops delim x) (l := s)
      have hlength := congrArg List.length hsplit
      rw [List.length_append] at hlength
      have hw : Word delim (c :: s.takeWhile fun x => !stops delim x) := by
        intro x hx
        rcases List.mem_cons.mp hx with rfl | hx
        · exact hstop
        · simpa using List.mem_takeWhile_imp hx
      cases hrest : s.dropWhile (fun x => !stops delim x) with
      | nil =>
        rw [hrest, List.append_nil] at hsplit
        rw [hsplit] at hw
        exact word _ hw
      | cons d rest =>
        have hd : stops delim d = true := by
          have hhead := List.head_dropWhile_not (fun x => !stops delim x) (l := s)
            (by rw [hrest]; simp)
          simpa [hrest] using hhead
        rw [hrest, List.length_cons] at hlength
        have hmemory : c :: s = c :: s.takeWhile (fun x => !stops delim x) ++ d :: rest := by
          rw [List.cons_append, ← hrest, hsplit]
        rw [hmemory]
        rcases Bool.or_eq_true_iff.mp hd with hd | hd
        · exact token _ d rest (List.cons_ne_nil _ _) hw hd (ih rest.length (by omega) rest rfl)
        · rw [of_decide_eq_true hd]
          exact last _ rest (List.cons_ne_nil _ _) hw

lemma strtok_skip {c : Char} (hc : delim c = true) (s : List Char) :
    strtok delim (c :: s) =
      (strtok delim s).map fun call => { call with passed := c :: call.passed } := by
  simp only [strtok, List.dropWhile_cons_of_pos hc, List.takeWhile_cons_of_pos hc]
  cases s.dropWhile delim with
  | nil => rfl
  | cons e t =>
    by_cases he : e = '\x00'
    · simp [he]
    · simp only [if_neg he]
      cases (e :: t).dropWhile (fun x => !stops delim x) with
      | nil => rfl
      | cons d rest =>
        by_cases hd : d = '\x00'
        · simp [hd]
        · simp [hd]

lemma strtok_nul (hnul : delim '\x00' = false) (s : List Char) :
    strtok delim ('\x00' :: s) = some ⟨none, [], '\x00' :: s⟩ := by
  simp [strtok, hnul]

/-- A call that finds only a word runs off the memory. -/
lemma strtok_word {w : List Char} (hw : Word delim w) : strtok delim w = none := by
  cases w with
  | nil => rfl
  | cons c w =>
    have hc := hw.delim List.mem_cons_self
    have hne := hw.ne_nul List.mem_cons_self
    have hall : (c :: w).dropWhile (fun x => !stops delim x) = [] := by
      rw [List.dropWhile_eq_nil_iff]
      exact fun x hx => by simp [hw x hx]
    simp only [strtok, List.dropWhile_cons_of_neg (by simp [hc] : ¬ delim c = true), if_neg hne,
      hall]

lemma strtok_token {w : List Char} (hne : w ≠ []) (hw : Word delim w) {d : Char}
    (hd : stops delim d = true) (s : List Char) : strtok delim (w ++ d :: s) =
      if d = '\x00' then some ⟨some w, w, d :: s⟩ else some ⟨some w, w ++ ['\x00'], s⟩ := by
  obtain ⟨c, w, rfl⟩ := List.exists_cons_of_ne_nil hne
  have hc := hw.delim List.mem_cons_self
  have hfree : ∀ x, x ∈ c :: w → (!stops delim x) = true := fun x hx => by simp [hw x hx]
  have htake : (c :: (w ++ d :: s)).takeWhile (fun x => !stops delim x) = c :: w := by
    rw [← List.cons_append, List.takeWhile_append_of_pos hfree,
      List.takeWhile_cons_of_neg (p := fun x => !stops delim x) (by simp [hd]), List.append_nil]
  have hdrop : (c :: (w ++ d :: s)).dropWhile (fun x => !stops delim x) = d :: s := by
    rw [← List.cons_append, List.dropWhile_append_of_pos hfree,
      List.dropWhile_cons_of_neg (p := fun x => !stops delim x) (by simp [hd])]
  simp only [strtok, List.cons_append, List.dropWhile_cons_of_neg (by simp [hc] : ¬ delim c = true),
    if_neg (hw.ne_nul List.mem_cons_self), htake, hdrop,
    List.takeWhile_cons_of_neg (by simp [hc] : ¬ delim c = true), List.nil_append]

/-- The next call starts behind the token. -/
lemma length_rest (hnul : delim '\x00' = false) {memory : List Char} {call : Call}
    (h : strtok delim memory = some call) (htoken : call.token ≠ none) :
    call.rest.length < memory.length := by
  induction memory using memory_induction delim generalizing call with
  | skip c s hc ih =>
    rw [strtok_skip hc] at h
    obtain ⟨call', hcall', rfl⟩ := Option.map_eq_some_iff.mp h
    exact (ih hcall' htoken).trans (Nat.lt_succ_self _)
  | nul s =>
    rw [strtok_nul hnul] at h
    cases h
    exact absurd rfl htoken
  | token w d s hne hw hd ih =>
    have hpos := List.length_pos_iff.mpr hne
    rw [strtok_token hne hw (by simp [stops, hd])] at h
    split_ifs at h <;> cases h <;> simp only [List.length_append, List.length_cons] <;> omega
  | last w s hne hw =>
    have hpos := List.length_pos_iff.mpr hne
    rw [strtok_token hne hw (by simp [stops]), if_pos rfl] at h
    cases h
    simp only [List.length_append, List.length_cons]
    omega
  | word w hw =>
    rw [strtok_word hw] at h
    cases h

section Loop
variable {σ : Type*} (L : Loop σ)

/-- More fuel changes nothing. -/
lemma loopFuel_eq (hnul : delim '\x00' = false) (fuel fuel' : ℕ) (memory : List Char) (s : σ)
    (h : memory.length < fuel) (h' : memory.length < fuel') :
    loopFuel delim L fuel memory s = loopFuel delim L fuel' memory s := by
  induction fuel generalizing fuel' memory s with
  | zero => omega
  | succ fuel ih =>
    cases fuel' with
    | zero => omega
    | succ fuel' =>
      simp only [loopFuel]
      cases hcall : strtok delim memory with
      | none => rfl
      | some call =>
        cases htoken : call.token with
        | none => simp only [Option.bind_some, htoken]
        | some token =>
          have hlt := length_rest hnul hcall (by rw [htoken]; exact Option.some_ne_none token)
          simp only [Option.bind_some, htoken, ih fuel' call.rest _ (by omega) (by omega)]

/-- One round of the loop. -/
lemma loop_eq (hnul : delim '\x00' = false) (memory : List Char) (s : σ) :
    loop delim L memory s = (strtok delim memory).bind fun call =>
      match call.token with
      | none => some (call.passed ++ call.rest, s)
      | some token =>
        if L.enter s then
          (L.body s token).bind fun s' =>
            if L.leave s' then some (call.passed ++ call.rest, s')
            else (loop delim L call.rest s').map fun r => (call.passed ++ r.1, r.2)
        else some (call.passed ++ call.rest, s) := by
  rw [loop, loopFuel]
  cases hcall : strtok delim memory with
  | none => rfl
  | some call =>
    cases htoken : call.token with
    | none => simp only [Option.bind_some, htoken]
    | some token =>
      have hlt := length_rest hnul hcall (by rw [htoken]; exact Option.some_ne_none token)
      simp only [Option.bind_some, htoken, loop,
        loopFuel_eq L hnul memory.length (call.rest.length + 1) call.rest _ hlt (by omega)]

lemma loop_skip (hnul : delim '\x00' = false) {c : Char} (hc : delim c = true) (memory : List Char)
    (s : σ) : loop delim L (c :: memory) s =
      (loop delim L memory s).map fun r => (c :: r.1, r.2) := by
  rw [loop_eq L hnul, loop_eq L hnul memory, strtok_skip hc]
  cases strtok delim memory with
  | none => rfl
  | some call =>
    simp only [Option.map_some, Option.bind_some]
    cases call.token with
    | none => rfl
    | some token =>
      by_cases henter : L.enter s = true
      · simp only [if_pos henter]
        cases L.body s token with
        | none => rfl
        | some s' =>
          by_cases hleave : L.leave s' = true
          · simp [hleave]
          · simp [hleave, Function.comp_def]
      · simp [henter]

lemma loop_nul (hnul : delim '\x00' = false) (memory : List Char) (s : σ) :
    loop delim L ('\x00' :: memory) s = some ('\x00' :: memory, s) := by
  rw [loop_eq L hnul, strtok_nul hnul]
  rfl

/-- The loop runs off a memory that is one word. -/
lemma loop_word (hnul : delim '\x00' = false) {w : List Char} (hw : Word delim w) (s : σ) :
    loop delim L w s = none := by
  rw [loop_eq L hnul, strtok_word hw]
  rfl

/-- A round with a token that a delimiter ends. -/
lemma loop_token (hnul : delim '\x00' = false) {w : List Char} (hne : w ≠ []) (hw : Word delim w)
    {d : Char} (hd : delim d = true) (memory : List Char) (s : σ) :
    loop delim L (w ++ d :: memory) s =
      if L.enter s then
        (L.body s w).bind fun s' =>
          if L.leave s' then some (w ++ '\x00' :: memory, s')
          else (loop delim L memory s').map fun r => (w ++ '\x00' :: r.1, r.2)
      else some (w ++ '\x00' :: memory, s) := by
  have hd' : d ≠ '\x00' := by
    rintro rfl
    rw [hnul] at hd
    cases hd
  rw [loop_eq L hnul, strtok_token hne hw (by simp [stops, hd]), if_neg hd']
  simp only [Option.bind_some, List.append_assoc, List.singleton_append]

/-- A round with a token that a NUL ends: it is the last one. -/
lemma loop_last (hnul : delim '\x00' = false) {w : List Char} (hne : w ≠ []) (hw : Word delim w)
    (memory : List Char) (s : σ) :
    loop delim L (w ++ '\x00' :: memory) s =
      if L.enter s then (L.body s w).map fun s' => (w ++ '\x00' :: memory, s')
      else some (w ++ '\x00' :: memory, s) := by
  rw [loop_eq L hnul, strtok_token hne hw (by simp [stops]), if_pos rfl]
  simp only [Option.bind_some]
  split_ifs
  · cases L.body s w with
    | none => rfl
    | some s' =>
      simp only [Option.bind_some, Option.map_some, loop_nul L hnul]
      split_ifs <;> rfl
  · rfl

/-- A loop that is left in front of its body still calls `strtok`. -/
lemma loop_of_not_enter (hnul : delim '\x00' = false) (memory : List Char) {s : σ}
    (h : L.enter s = false) : loop delim L memory s =
      (strtok delim memory).map fun call => (call.passed ++ call.rest, s) := by
  rw [loop_eq L hnul]
  cases strtok delim memory with
  | none => rfl
  | some call => cases htoken : call.token <;> simp [htoken, h]

/-- What the body keeps for every token holds when the loop is left. -/
theorem loop_invariant {P : σ → Prop} (hnul : delim '\x00' = false)
    (hstep : ∀ s w s', P s → w ≠ [] → Word delim w → L.enter s = true → L.body s w = some s' → P s')
    {memory memory' : List Char} {s s' : σ} (hs : P s)
    (h : loop delim L memory s = some (memory', s')) : P s' := by
  induction memory using memory_induction delim generalizing s memory' with
  | skip c memory hc ih =>
    rw [loop_skip L hnul hc] at h
    obtain ⟨⟨rest, s''⟩, hrest, heq⟩ := Option.map_eq_some_iff.mp h
    cases heq
    exact ih hs hrest
  | nul memory =>
    rw [loop_nul L hnul] at h
    cases h
    exact hs
  | token w d memory hne hw hd ih =>
    rw [loop_token L hnul hne hw hd] at h
    split_ifs at h with henter
    · obtain ⟨s₁, hbody, h⟩ := Option.bind_eq_some_iff.mp h
      have hs₁ := hstep s w s₁ hs hne hw henter hbody
      split_ifs at h
      · cases h
        exact hs₁
      · obtain ⟨⟨rest, s''⟩, hrest, heq⟩ := Option.map_eq_some_iff.mp h
        cases heq
        exact ih hs₁ hrest
    · cases h
      exact hs
  | last w memory hne hw =>
    rw [loop_last L hnul hne hw] at h
    split_ifs at h with henter
    · obtain ⟨s₁, hbody, heq⟩ := Option.map_eq_some_iff.mp h
      cases heq
      exact hstep s w s' hs hne hw henter hbody
    · cases h
      exact hs
  | word w hw =>
    rw [loop_word L hnul hw] at h
    cases h

/-- No token stands in front of the first NUL. -/
lemma loop_of_head_nul (hnul : delim '\x00' = false) {memory : List Char}
    (h : (memory.dropWhile delim).head? = some '\x00') (s : σ) :
    loop delim L memory s = some (memory, s) := by
  induction memory using memory_induction delim with
  | skip c memory hc ih =>
    rw [List.dropWhile_cons_of_pos hc] at h
    rw [loop_skip L hnul hc, ih h]
    rfl
  | nul memory => exact loop_nul L hnul memory s
  | token w d memory hne hw hd ih =>
    rw [hw.dropWhile_append hne, List.head?_append_of_ne_nil _ hne] at h
    exact absurd rfl (hw.ne_nul (List.mem_of_mem_head? h))
  | last w memory hne hw =>
    rw [hw.dropWhile_append hne, List.head?_append_of_ne_nil _ hne] at h
    exact absurd rfl (hw.ne_nul (List.mem_of_mem_head? h))
  | word w hw =>
    have hmem := (List.dropWhile_sublist _).mem (List.mem_of_mem_head? h)
    exact absurd rfl (hw.ne_nul hmem)

end Loop

/-- A call comes to its end if a delimiter or a NUL stands behind the delimiters that it
skips. -/
lemma strtok_isSome_iff (hnul : delim '\x00' = false) (memory : List Char) :
    (strtok delim memory).isSome ↔ ∃ c, c ∈ memory.dropWhile delim ∧ stops delim c = true := by
  induction memory using memory_induction delim with
  | skip c memory hc ih =>
    rw [strtok_skip hc, Option.isSome_map, ih, List.dropWhile_cons_of_pos hc]
  | nul memory =>
    rw [strtok_nul hnul, List.dropWhile_cons_of_neg (by simp [hnul])]
    exact iff_of_true rfl ⟨'\x00', List.mem_cons_self, by simp [stops]⟩
  | token w d memory hne hw hd ih =>
    rw [strtok_token hne hw (by simp [stops, hd]), hw.dropWhile_append hne]
    refine iff_of_true ?_ ⟨d, by simp, by simp [stops, hd]⟩
    split_ifs <;> rfl
  | last w memory hne hw =>
    rw [strtok_token hne hw (by simp [stops]), hw.dropWhile_append hne, if_pos rfl]
    exact iff_of_true rfl ⟨'\x00', by simp, by simp [stops]⟩
  | word w hw =>
    rw [strtok_word hw]
    refine iff_of_false (by simp) fun ⟨c, hc, hstop⟩ => ?_
    rw [hw c ((List.dropWhile_sublist _).mem hc)] at hstop
    cases hstop

lemma chars_word {w : List Char} (hw : Word delim w) (memory : List Char) :
    chars (w ++ memory) = w ++ chars memory := chars_append (fun hmem => hw.ne_nul hmem rfl) memory

lemma marked_word {w : List Char} (hw : Word delim w) (inToken : Bool) (memory : List Char) :
    marked delim inToken (w ++ memory) =
      w ++ marked delim (if w = [] then inToken else true) memory := by
  induction w generalizing inToken with
  | nil => rfl
  | cons c w ih =>
    have hc := hw.delim List.mem_cons_self
    have hne := hw.ne_nul List.mem_cons_self
    have hrest := ih (fun x hx => hw x (List.mem_cons_of_mem c hx)) true
    simp only [ite_self] at hrest
    simp [marked, hc, hne, hrest]

lemma length_marked (delim : Char → Bool) (inToken : Bool) (memory : List Char) :
    (marked delim inToken memory).length = memory.length := by
  induction memory generalizing inToken with
  | nil => rfl
  | cons c memory ih =>
    rw [marked]
    split_ifs <;> simp [ih]

/-- A loop over all tokens of a memory with a NUL gives its body the tokens in front of the
NUL one by one. -/
theorem loop_full {σ : Type*} {L : Loop σ} (hnul : delim '\x00' = false)
    (henter : ∀ s, L.enter s = true) (hleave : ∀ s, L.leave s = false) {memory : List Char}
    (hmem : '\x00' ∈ memory) (s : σ) :
    loop delim L memory s = ((Strtok.tokens delim (chars memory)).foldlM L.body s).map
      fun s' => (marked delim false memory, s') := by
  induction memory using memory_induction delim generalizing s with
  | skip c memory hc ih =>
    have hne : c ≠ '\x00' := by
      rintro rfl
      rw [hnul] at hc
      cases hc
    have hmem' : '\x00' ∈ memory := (List.mem_cons.mp hmem).resolve_left hne.symm
    rw [loop_skip L hnul hc, ih hmem', chars_cons hne, Strtok.tokens_cons_delim hc, marked,
      if_neg hne, if_pos hc, Option.map_map]
    rfl
  | nul memory =>
    rw [loop_nul L hnul, chars_nul, marked, if_pos rfl]
    rfl
  | token w d memory hne hw hd ih =>
    have hd' : d ≠ '\x00' := by
      rintro rfl
      rw [hnul] at hd
      cases hd
    have hmem' : '\x00' ∈ memory := by
      rcases List.mem_append.mp hmem with hmem | hmem
      · exact absurd rfl (hw.ne_nul hmem)
      · exact (List.mem_cons.mp hmem).resolve_left hd'.symm
    have hmarked : marked delim false (w ++ d :: memory) =
        w ++ '\x00' :: marked delim false memory := by
      rw [marked_word hw, if_neg hne, marked, if_neg hd', if_pos hd]
      rfl
    rw [loop_token L hnul hne hw hd, if_pos (henter s), chars_word hw, chars_cons hd',
      Strtok.tokens_append hne (fun _ hx => hw.delim hx) hd, List.foldlM_cons, hmarked]
    cases hbody : L.body s w with
    | none => rfl
    | some s' =>
      simp only [Option.bind_some, hleave, Bool.false_eq_true, if_false, ih hmem', Option.map_map]
      rfl
  | last w memory hne hw =>
    rw [loop_last L hnul hne hw, if_pos (henter s), chars_word hw, chars_nul, List.append_nil,
      Strtok.tokens_of_not_mem hne (fun _ hx => hw.delim hx), marked_word hw, marked, if_pos rfl]
    cases hbody : L.body s w <;> simp [hbody]
  | word w hw => exact absurd rfl (hw.ne_nul hmem)

/-- Without a NUL such a loop runs off the memory, unless its body fails before. -/
theorem loop_full_none {σ : Type*} {L : Loop σ} (hnul : delim '\x00' = false)
    (henter : ∀ s, L.enter s = true) (hleave : ∀ s, L.leave s = false) {memory : List Char}
    (hmem : '\x00' ∉ memory) (s : σ) : loop delim L memory s = none := by
  induction memory using memory_induction delim generalizing s with
  | skip c memory hc ih =>
    rw [loop_skip L hnul hc, ih fun h => hmem (List.mem_cons_of_mem c h)]
    rfl
  | nul memory => exact absurd List.mem_cons_self hmem
  | token w d memory hne hw hd ih =>
    rw [loop_token L hnul hne hw hd, if_pos (henter s)]
    cases hbody : L.body s w with
    | none => rfl
    | some s' =>
      have hrest := ih (fun h => hmem (List.mem_append_right w (List.mem_cons_of_mem d h))) s'
      simp [hleave, hrest]
  | last w memory hne hw => exact absurd (List.mem_append_right w List.mem_cons_self) hmem
  | word w hw => exact loop_word L hnul hw s

end Memory

end SystemProgramming.BufferTokens
