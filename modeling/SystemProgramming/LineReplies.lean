import SystemProgramming.LineOverwrite

/-!
# Reading one line

`readF` with a line number seeks the start of the line and reads it into a buffer
that `read_next_line` doubles. This module lists what `read_next_line` stores, says
when all of it lies inside the buffer, and when the reply is the line.
-/
namespace SystemProgramming.LineReplies
open SystemProgramming.LineReader SystemProgramming.Lines SystemProgramming.LockTable
  SystemProgramming.FileServer
open SystemProgramming.LineOverwrite (twoLines twoLinesKernel emptySession)

/-- A byte stored at an index, and the size last passed to `realloc`. -/
structure Store where
  index : ℕ
  size : ℕ
  deriving DecidableEq, Repr

/-- The stores of `read_next_line`, of which `numRead` bytes have been read into a
buffer of `lineSize` bytes. The size of the next buffer may overflow. -/
def lineStores (realloc : ℕ → Bool) (readError : Bool) : Text → ℕ → ℕ → Option (List Store)
  | bytes, numRead, lineSize =>
    let lineSize' := if numRead = lineSize then grow lineSize else lineSize
    if intMax < lineSize' then none
    else if numRead = lineSize ∧ realloc lineSize' = false then some []
    else match bytes with
      | [] => some (if readError then [] else [⟨numRead, lineSize'⟩])
      | c :: bytes =>
        if c = '\n' then some [⟨numRead, lineSize'⟩, ⟨numRead + 1, lineSize'⟩]
        else (lineStores realloc readError bytes (numRead + 1) lineSize').map
          (⟨numRead, lineSize'⟩ :: ·)

/-- All stores are defined and lie inside the buffer. -/
def Inside (stores : Option (List Store)) : Prop :=
  ∃ l, stores = some l ∧ ∀ p, p ∈ l → p.index < p.size

lemma inside_cons {p : Store} (hp : p.index < p.size) (stores : Option (List Store)) :
    Inside (stores.map (p :: ·)) ↔ Inside stores := by
  cases stores with
  | none => simp [Inside]
  | some l => simp [Inside, hp]

lemma lt_grow (lineSize : ℕ) : lineSize < grow lineSize := by
  unfold grow buffSize
  split_ifs <;> omega

/-- A round starts with room for a byte. -/
lemma room_lineSize {length lineSize : ℕ} (hle : length ≤ lineSize) :
    length < if length = lineSize then grow lineSize else lineSize := by
  have := lt_grow lineSize
  split_ifs <;> omega

/-- The loop has a result just when it stays inside its buffer. -/
lemma inside_iff (realloc : ℕ → Bool) (readError : Bool) (bytes line : Text) (lineSize : ℕ)
    (hle : line.length ≤ lineSize) :
    Inside (lineStores realloc readError bytes line.length lineSize) ↔
      nextLineLoop realloc readError bytes line lineSize ≠ none := by
  induction bytes generalizing line lineSize with
  | nil =>
    rw [lineStores.eq_def, nextLineLoop.eq_def]
    dsimp only
    have hlt := room_lineSize hle
    generalize (if line.length = lineSize then grow lineSize else lineSize) = size at hlt
    split_ifs with hmax hnull herror
    · simp [Inside]
    · simp [Inside]
    · simp [Inside]
    · simp [Inside, terminate, hlt]
  | cons c bytes ih =>
    rw [lineStores.eq_def, nextLineLoop.eq_def]
    dsimp only
    have hlt := room_lineSize hle
    generalize (if line.length = lineSize then grow lineSize else lineSize) = size at hlt
    split_ifs with hmax hnull hc
    · simp [Inside]
    · simp [Inside]
    · simp [Inside, terminate, hlt]
    · have hrec := ih (line ++ [c]) size (by simpa [Nat.succ_le_iff] using hlt)
      rw [List.length_append, List.length_singleton] at hrec
      rw [inside_cons hlt, hrec]

/-- `read_next_line` stays inside its buffer unless the line with its newline fills a
buffer exactly, or is too long for the size of the next buffer. -/
theorem stores_inside_iff (realloc : ℕ → Bool) (readError : Bool) (bytes : Text) :
    Inside (lineStores realloc readError bytes 0 0) ↔ ¬ Overruns realloc bytes := by
  have hloop := inside_iff realloc readError bytes [] 0 le_rfl
  rw [List.length_nil] at hloop
  rw [hloop]
  have hspec := readNextLine_spec realloc readError bytes
  unfold readNextLine at hspec
  rcases hspec with ⟨hover, heq⟩ | ⟨hfits, -, heq⟩ | ⟨hfits, -, heq⟩
  · simp [heq, hover]
  · simp [heq, hfits]
  · simp [heq, hfits]

/-- The NUL behind a line that its buffer has room for, or just not. -/
lemma last_store (realloc : ℕ → Bool) (readError : Bool) {x : Text} (hx : '\n' ∉ x) (rest : Text)
    {numRead lineSize : ℕ} (hroom : numRead + x.length < lineSize) (hmax : lineSize ≤ intMax) :
    ∃ l, lineStores realloc readError (x ++ '\n' :: rest) numRead lineSize = some l ∧
      ⟨numRead + x.length + 1, lineSize⟩ ∈ l := by
  induction x generalizing numRead with
  | nil =>
    rw [List.length_nil, Nat.add_zero] at hroom ⊢
    rw [List.nil_append, lineStores.eq_def]
    simp only [hroom.ne, if_false, not_lt.mpr hmax, false_and, if_true]
    exact ⟨_, rfl, by simp⟩
  | cons c x ih =>
    rw [List.mem_cons, not_or] at hx
    rw [List.length_cons] at hroom ⊢
    obtain ⟨l, hl, hmem⟩ := ih hx.2 (show numRead + 1 + x.length < lineSize by omega)
    rw [List.cons_append, lineStores.eq_def]
    simp only [show numRead ≠ lineSize by omega, if_false, not_lt.mpr hmax, false_and,
      Ne.symm hx.1, hl, Option.map_some]
    refine ⟨_, rfl, List.mem_cons_of_mem _ ?_⟩
    rwa [show numRead + (x.length + 1) + 1 = numRead + 1 + x.length + 1 by omega]

/-- For a line of 1023 bytes and a newline the NUL is stored at index 1024 of 1024. -/
theorem stores_behind_buffer : ∃ l,
    lineStores (fun _ => true) false (List.replicate 1023 'a' ++ ['\n']) 0 0 = some l ∧
      ⟨1024, 1024⟩ ∈ l ∧ ¬ Inside (some l) := by
  have hfirst : ∀ bytes l, lineStores (fun _ => true) false bytes 1 1024 = some l →
      lineStores (fun _ => true) false ('a' :: bytes) 0 0 = some (⟨0, 1024⟩ :: l) := by
    intro bytes l hl
    rw [lineStores.eq_def]
    simp [grow, buffSize, intMax, hl]
  have hfree : '\n' ∉ List.replicate 1022 'a' := fun h =>
    absurd (List.eq_of_mem_replicate h) (by decide)
  have hroom : 1 + (List.replicate 1022 'a').length < 1024 := by
    rw [List.length_replicate]
    decide
  obtain ⟨l, hl, hmem⟩ := last_store (fun _ => true) false hfree [] hroom (by decide)
  rw [List.length_replicate] at hmem
  have hmem' : (⟨1024, 1024⟩ : Store) ∈ (⟨0, 1024⟩ : Store) :: l := List.mem_cons_of_mem _ hmem
  refine ⟨⟨0, 1024⟩ :: l, ?_, hmem', ?_⟩
  · rw [List.replicate_succ, List.cons_append]
    exact hfirst _ l hl
  · rintro ⟨l', hl', hall⟩
    cases hl'
    exact absurd (hall _ hmem') (by decide)

/-- `cmd_readF` replies with the line, which a NUL follows, or returns -1 if there is no
such line. -/
def LineOrError (k : Kernel) (s : Session) (srcFile : Text) (f : File) (lineNo : ℕ) : Prop :=
  match (segments f.content)[lineNo - 1]? with
  | some line => ∃ t, cmdReadF k s srcFile lineNo = some (0, t) ∧
      t.sent = s.sent ++ [⟨.ok, line ++ ['\x00']⟩]
  | none => ∃ t, cmdReadF k s srcFile lineNo = some (-1, t)

/-- The request for an open file comes to its first `read`. -/
def Reached (k : Kernel) (sdir : SafeDir) (srcFile : Text) : Prop :=
  k.fstat = true ∧ Findable k sdir srcFile ∧ k.enterRegion = true

/-- The line is found within an `int`, `read_next_line` has its buffers and does not run
out of them, the line holds no NUL, and no other call fails; or there is no such line and
the file does not end where it would start, or a call fails. -/
def LineServed (k : Kernel) (sdir : SafeDir) (srcFile : Text) (f : File) (lineNo : ℕ) : Prop :=
  match fromLine (lineNo - 1) f.content with
  | none => Reached k sdir srcFile → SeekCounts f lineNo
  | some [] => Reached k sdir srcFile →
      SeekCounts f lineNo ∧ (k.exitRegion = false ∨ ¬ Allocated k.realloc 0)
  | some (c :: rest) => Reached k sdir srcFile ∧ k.exitRegion = true ∧ SeekCounts f lineNo ∧
      Allocated k.realloc (beforeNewline (c :: rest)).length ∧ ¬ Overruns k.realloc (c :: rest) ∧
      '\x00' ∉ firstLine (c :: rest)

/-- A request that does not come to the reads has failed. -/
lemma cmdReadF_unreached {k : Kernel} {s : Session} {srcFile : Text} {f : File} (lineNo : ℤ)
    (hopen : k.openRead (dirPath k.serverDir srcFile) = some f)
    (h : ¬ Reached k s.sdir srcFile) : ∃ t, cmdReadF k s srcFile lineNo = some (-1, t) := by
  unfold cmdReadF
  simp only [hopen]
  cases hstat : k.fstat with
  | false => exact ⟨s, rfl⟩
  | true =>
    rcases findSfile_spec k s srcFile with ⟨hfound, sdir, hfind⟩ | ⟨-, hfind⟩
    · cases henter : k.enterRegion with
      | false => exact ⟨{ s with sdir := sdir }, by simp [hfind]⟩
      | true => exact absurd ⟨hstat, hfound, henter⟩ h
    · exact ⟨s, by simp [hfind]⟩

/-- A request that comes to the reads. -/
lemma cmdReadF_reached {k : Kernel} {s : Session} {srcFile : Text} {f : File} (lineNo : ℤ)
    (hopen : k.openRead (dirPath k.serverDir srcFile) = some f) (h : Reached k s.sdir srcFile) :
    ∃ sdir, cmdReadF k s srcFile lineNo =
      (if 0 < lineNo then readLine k { s with sdir := sdir } f lineNo.toNat
        else readWhole k { s with sdir := sdir } f).map (leaveRegion k) := by
  obtain ⟨hstat, hfound, henter⟩ := h
  rcases findSfile_spec k s srcFile with ⟨-, sdir, hfind⟩ | ⟨hno, -⟩
  · refine ⟨sdir, ?_⟩
    unfold cmdReadF
    simp [hopen, hstat, hfind, henter]
  · exact absurd hfound hno

/-- The line is sent whole just when it holds no NUL. -/
lemma cString_eq_append {line : Text} : cString line = line ++ ['\x00'] ↔ '\x00' ∉ line := by
  unfold cString
  rw [List.append_left_inj, List.takeWhile_eq_self_iff]
  simp only [decide_eq_true_eq]
  exact ⟨fun h hmem => h _ hmem rfl, fun h c hc heq => h (heq ▸ hc)⟩

/-- What `cmd_readF` returns for the bytes from the line on. -/
lemma lineOrError_found {k : Kernel} {s t : Session} {f : File} {lineNo pos : ℕ} {rest : Text}
    (hread : f.readError = false) (hseek : seekLine f lineNo = some (.ok (pos, rest)))
    (hsent : t.sent = s.sent) :
    (Overruns k.realloc rest → (readLine k t f lineNo).map (leaveRegion k) = none) ∧
    (¬ Allocated k.realloc (beforeNewline rest).length →
      ∃ u, (readLine k t f lineNo).map (leaveRegion k) = some (-1, u)) ∧
    (¬ Overruns k.realloc rest → Allocated k.realloc (beforeNewline rest).length →
      ∃ u, (readLine k t f lineNo).map (leaveRegion k) =
          some (if k.exitRegion then 0 else -1, u) ∧
        u.sent = s.sent ++ [⟨.ok, cString (firstLine rest)⟩]) := by
  unfold readLine
  rw [hseek, Option.bind_some]
  dsimp only
  have hreadable : Readable k.realloc f.readError rest ↔
      Allocated k.realloc (beforeNewline rest).length := by
    simp [Readable, hread]
  rcases readNextLine_spec k.realloc f.readError rest with
    ⟨hover, hline⟩ | ⟨hfits, hok, hline⟩ | ⟨hfits, hnot, hline⟩ <;> rw [hline]
  · exact ⟨fun _ => rfl, fun hno => absurd hover.1 hno, fun hfits => absurd hover hfits⟩
  · refine ⟨fun hover => absurd hover hfits, fun hno => absurd (hreadable.mp hok) hno,
      fun _ _ => ⟨_, rfl, ?_⟩⟩
    simp [Session.send, hsent]
  · exact ⟨fun hover => absurd hover hfits, fun _ => ⟨_, by simp [leaveRegion]; rfl⟩,
      fun _ ha => absurd (hreadable.mpr ha) hnot⟩

/-- With reads that succeed, the reply is the line, or -1 if there is none, just when the
line is one that can be served. -/
theorem line_or_error_iff {k : Kernel} {s : Session} {srcFile : Text} {f : File} {lineNo : ℕ}
    (hopen : k.openRead (dirPath k.serverDir srcFile) = some f) (hread : f.readError = false)
    (hpos : 0 < lineNo) :
    LineOrError k s srcFile f lineNo ↔ LineServed k s.sdir srcFile f lineNo := by
  unfold LineOrError LineServed
  rw [segments_getElem?]
  by_cases hreach : Reached k s.sdir srcFile
  · obtain ⟨sdir, hrun⟩ := cmdReadF_reached lineNo hopen hreach
    rw [hrun, if_pos (Int.natCast_pos.mpr hpos), Int.toNat_natCast]
    rcases seekLine_spec f lineNo hpos with
      ⟨hno, heq⟩ | ⟨hcount, ⟨pos, rest, hrest, heq⟩ | ⟨hrest, msg, heq⟩⟩
    · have hnone : (readLine k { s with sdir := sdir } f lineNo).map (leaveRegion k) = none := by
        simp [readLine, heq]
      rw [hnone]
      rcases hfrom : fromLine (lineNo - 1) f.content with _ | _ | ⟨c, rest⟩ <;>
        simp [hno, hreach]
    · obtain ⟨hover, hfail, hsend⟩ := lineOrError_found (k := k) (s := s)
        (t := { s with sdir := sdir }) hread heq rfl
      rw [hrest]
      cases rest with
      | nil =>
        have hfits : ¬ Overruns k.realloc [] := by simp [Overruns, beforeNewline]
        simp only [Option.bind_some, if_true, hreach, forall_const, hcount, true_and]
        by_cases ha : Allocated k.realloc 0
        · obtain ⟨u, hu, -⟩ := hsend hfits ha
          rw [hu]
          cases k.exitRegion <;> simp [ha]
        · obtain ⟨u, hu⟩ := hfail ha
          simp [hu, ha]
      | cons c rest =>
        simp only [Option.bind_some, reduceCtorEq, if_false, hreach, hcount, true_and]
        by_cases hov : Overruns k.realloc (c :: rest)
        · simp [hover hov, hov]
        · by_cases ha : Allocated k.realloc (beforeNewline (c :: rest)).length
          · obtain ⟨u, hu, hsent⟩ := hsend hov ha
            rw [hu, ← cString_eq_append]
            cases k.exitRegion <;> simp [hov, ha, hsent]
          · obtain ⟨u, hu⟩ := hfail ha
            simp [hu, ha]
    · rw [hrest]
      simp [readLine, heq, leaveRegion, hcount]
  · obtain ⟨t, ht⟩ := cmdReadF_unreached lineNo hopen hreach
    rw [ht]
    rcases hfrom : fromLine (lineNo - 1) f.content with _ | _ | ⟨c, rest⟩ <;> simp [hreach]

/-- The second line of a file is sent. -/
theorem line_or_error_second_line : LineOrError twoLinesKernel emptySession ['f'] twoLines 2 := by
  have hlong : ∀ j, 2 < bufferSize j := fun j => by
    have hpow := Nat.one_le_two_pow (n := j)
    unfold bufferSize buffSize
    omega
  refine (line_or_error_iff (k := twoLinesKernel) rfl rfl (by decide)).mpr ⟨⟨rfl, Or.inr rfl, rfl⟩,
    rfl, Or.inl (by decide), fun _ _ _ => rfl, ?_, by decide⟩
  rintro ⟨-, hbig | ⟨-, j, hj⟩⟩
  · exact absurd hbig (by decide)
  · have htwo : 2 = bufferSize j := hj
    exact absurd (hlong j) (by omega)

/-- The file has two lines, and line 3 is sent: it is empty. -/
theorem third_of_two_lines : ∃ t, cmdReadF twoLinesKernel emptySession ['f'] 3 = some (0, t) ∧
    t.sent = [⟨.ok, ['\x00']⟩] ∧ segments twoLines.content = [['a', '\n'], ['b', '\n']] ∧
    ¬ LineOrError twoLinesKernel emptySession ['f'] twoLines 3 := by
  refine ⟨_, rfl, rfl, rfl, ?_⟩
  rintro ⟨t, ht⟩
  cases ht

end SystemProgramming.LineReplies
