import SystemProgramming.FileServerReplies

/-!
# The log of requests

For every request the server logs the command it has received and the status of the
response. The command is printed from the buffer that `strtok` has cut, and the status
is compared with the number of `RESP_ERROR`, although a handler reports an error by
`-1`. This module says for which lines and which outcomes of a handler the log agrees
with what has been received and sent.
-/
namespace SystemProgramming.RequestLog
open SystemProgramming.Strtok SystemProgramming.LineReader SystemProgramming.LockTable
  SystemProgramming.FileServer

/-- A handler that has returned: its status, the error message it has set, and what it
has sent. Only `server_request` itself sends `RESP_ERROR`. -/
structure HandlerOutcome where
  status : ℤ
  errMsg : Text
  sent : List Message
  no_error : ∀ m, m ∈ sent → m.stat ≠ .error

/-- `%-10s` -/
def padded (s : Text) : Text := s ++ List.replicate (10 - s.length) ' '

/-- What a request leaves behind: the command in its `REQUEST` line, whether its
`RESPONSE` line says `ERROR`, and the messages sent. -/
structure Round where
  command : Text
  saysError : Bool
  sent : List Message

/-- The end of a round of `server_request`; `written` tells whether the error response
could be written. -/
def endRound (line : Text) (o : HandlerOutcome) (written : Bool) : Round where
  command := padded (parseCommand line).cmd
  saysError := decide (o.status = 1)
  sent := o.sent ++ if o.status = -1 ∧ written = true then [⟨.error, cString o.errMsg⟩] else []

/-- The log says `ERROR` just when an error was sent, and holds the whole line. -/
def LogAgrees (line : Text) (r : Round) : Prop :=
  (r.saysError = true ↔ ∃ m, m ∈ r.sent ∧ m.stat = .error) ∧ line <:+: r.command

/-- An error is sent just for the status `-1`, if it can be. -/
lemma sends_error (line : Text) (o : HandlerOutcome) (written : Bool) :
    (∃ m, m ∈ (endRound line o written).sent ∧ m.stat = .error) ↔
      o.status = -1 ∧ written = true := by
  unfold endRound
  dsimp only
  constructor
  · rintro ⟨m, hm, hstat⟩
    rcases List.mem_append.mp hm with hm | hm
    · exact absurd hstat (o.no_error m hm)
    · split_ifs at hm with h
      · exact h
      · cases hm
  · intro h
    rw [if_pos h]
    exact ⟨⟨.error, cString o.errMsg⟩, by simp, rfl⟩

/-- What `strtok` cuts off the line, and what that has to do with the words. -/
lemma parseCommand_split (line : Text) :
    ∃ tail, line = (parseCommand line).cmd ++ tail ∧
      ((tokens blank line).length ≤ 1 ↔ ∀ c, c ∈ tail → blank c = true) ∧
      (tokens blank line = [] → tail = []) ∧
      (tokens blank line ≠ [] → ∃ w c, (parseCommand line).cmd = w ++ [c] ∧ blank c = false) := by
  cases hs : strtok blank line with
  | none =>
    have hwords : tokens blank line = [] := by rw [tokens_eq, hs]
    have hcmd : (parseCommand line).cmd = line := by simp only [parseCommand, hwords]
    rw [hcmd, hwords]
    exact ⟨[], by simp, by simp, by simp, by simp⟩
  | some r =>
    obtain ⟨token, rest⟩ := r
    obtain ⟨hne, hall, -⟩ := strtok_spec hs
    obtain ⟨tail, hsplit, rfl, hhead⟩ := strtok_split hs
    have hwords : tokens blank line = token :: tokens blank tail.tail := by rw [tokens_eq, hs]
    have hcmd : (parseCommand line).cmd = line.takeWhile blank ++ token := by
      simp only [parseCommand, hwords]
    rw [hcmd, hwords]
    refine ⟨tail, hsplit, ?_, by simp, fun _ => ?_⟩
    · have hone : (token :: tokens blank tail.tail).length ≤ 1 ↔ tokens blank tail.tail = [] := by
        simp
      rw [hone, tokens_eq_nil]
      cases tail with
      | nil => simp
      | cons c tail => simp [hhead c rfl]
    · obtain ⟨w, c, rfl⟩ := List.eq_nil_or_concat token |>.resolve_left hne
      refine ⟨line.takeWhile blank ++ w, c, by simp, hall c (by simp)⟩

/-- A text in front of blanks is found in itself, padded, just when these are blanks
and the padding is as long. -/
lemma infix_padded {cmd tail : Text} :
    cmd ++ tail <:+: padded cmd ↔
      (∀ c, c ∈ tail → blank c = true) ∧ (cmd ++ tail).length ≤ max 10 cmd.length := by
  have hlength : (padded cmd).length = max 10 cmd.length := by
    simp only [padded, List.length_append, List.length_replicate]
    omega
  constructor
  · intro h
    refine ⟨?_, hlength ▸ h.length_le⟩
    -- the padding has no characters but blanks, so the line has as many others as `cmd`
    have hcount := h.sublist.countP_le (p := fun c => !blank c)
    have hpad : (List.replicate (10 - cmd.length) ' ').countP (fun c => !blank c) = 0 := by
      simp [List.countP_replicate, blank]
    rw [padded, List.countP_append, List.countP_append, hpad] at hcount
    have hzero : tail.countP (fun c => !blank c) = 0 := by omega
    simpa using List.countP_eq_zero.mp hzero
  · rintro ⟨hblank, hle⟩
    have htail : tail = List.replicate tail.length ' ' :=
      List.eq_replicate_iff.mpr ⟨rfl, fun c hc => by simpa [blank] using hblank c hc⟩
    rw [List.length_append] at hle
    obtain ⟨n, hn⟩ : ∃ n, 10 - cmd.length = tail.length + n :=
      ⟨10 - cmd.length - tail.length, by omega⟩
    refine ⟨[], List.replicate n ' ', ?_⟩
    rw [padded, hn, List.replicate_add, ← htail, List.nil_append, List.append_assoc]

/-- The line is logged as a whole just when nothing but blanks follows its first word,
and these fit into the padding. -/
lemma logs_line_iff (line : Text) :
    line <:+: padded (parseCommand line).cmd ↔ (tokens blank line).length ≤ 1 ∧
      (line.length ≤ 10 ∨ line.getLast? ≠ some ' ' ∨ tokens blank line = []) := by
  obtain ⟨tail, hline, hwords, hnil, hlast⟩ := parseCommand_split line
  rw [hwords]
  have hpadded := @infix_padded (parseCommand line).cmd tail
  rw [← hline] at hpadded
  rw [hpadded]
  apply and_congr_right
  intro hblank
  have hlength := congrArg List.length hline
  rw [List.length_append] at hlength
  by_cases htail : tail = []
  · have hfits : line.length ≤ max 10 (parseCommand line).cmd.length := by
      rw [htail, List.length_nil] at hlength
      omega
    refine iff_of_true hfits ?_
    by_cases hnone : tokens blank line = []
    · exact Or.inr (Or.inr hnone)
    · obtain ⟨w, c, hcmd, hc⟩ := hlast hnone
      refine Or.inr (Or.inl ?_)
      rw [hline, htail, hcmd]
      simpa [blank] using hc
  · obtain ⟨pre, c, hconcat⟩ := List.eq_nil_or_concat tail |>.resolve_left htail
    have hend : line.getLast? = some ' ' := by
      have hc := hblank c (by simp [hconcat])
      rw [hline, hconcat]
      simpa [blank] using hc
    have hpos := List.length_pos_of_ne_nil htail
    have hne : tokens blank line ≠ [] := fun h => htail (hnil h)
    simp only [hend, ne_eq, not_true_eq_false, hne, or_self, or_false]
    omega

/-- The log agrees with what was received and sent just when the handler has not
returned `1`, or `-1` and an error was sent, and when the line has no second word and
does not end in a blank beyond the tenth character. -/
theorem log_agrees_iff (line : Text) (o : HandlerOutcome) (written : Bool) :
    LogAgrees line (endRound line o written) ↔
      (o.status ≠ 1 ∧ ¬ (o.status = -1 ∧ written = true)) ∧
      (tokens blank line).length ≤ 1 ∧
        (line.length ≤ 10 ∨ line.getLast? ≠ some ' ' ∨ tokens blank line = []) := by
  unfold LogAgrees
  rw [sends_error]
  apply and_congr
  · simp only [endRound, decide_eq_true_eq]
    by_cases hone : o.status = 1
    · simp [hone]
    · simp [hone]
  · exact logs_line_iff line

/-- A session that a handler may have left: the log as it was, and only messages other
than `RESP_ERROR` sent in between. -/
def Extends (s t : Session) : Prop :=
  t.log = s.log ∧ ∃ ms, t.sent = s.sent ++ ms ∧ ∀ m, m ∈ ms → m.stat ≠ .error

lemma Extends.same {s t : Session} (hlog : t.log = s.log) (hsent : t.sent = s.sent) :
    Extends s t := ⟨hlog, [], by simp [hsent], by simp⟩

lemma Extends.trans {s t u : Session} (h : Extends s t) (h' : Extends t u) : Extends s u := by
  obtain ⟨hlog, ms, hsent, hms⟩ := h
  obtain ⟨hlog', ms', hsent', hms'⟩ := h'
  refine ⟨hlog'.trans hlog, ms ++ ms', by rw [hsent', hsent, List.append_assoc], fun m hm => ?_⟩
  rcases List.mem_append.mp hm with hm | hm
  · exact hms m hm
  · exact hms' m hm

lemma Extends.send (s : Session) {m : Message} (hm : m.stat ≠ .error) : Extends s (s.send m) :=
  ⟨rfl, [m], rfl, by simpa using hm⟩

lemma findSfile_extends {k : Kernel} {s t : Session} {name : Text}
    (h : findSfile k s name = some t) : Extends s t := by
  rcases findSfile_spec k s name with ⟨-, sdir, hfind⟩ | ⟨-, hfind⟩
  · rw [hfind] at h
    cases h
    exact .same rfl rfl
  · rw [hfind] at h
    cases h

lemma copyOpened_extends {k : Kernel} {s : Session} {src : File} {srcFile : Option Text}
    {r : ℤ × Session} (h : copyOpened k s src srcFile = some r) : Extends s r.2 := by
  unfold copyOpened at h
  obtain ⟨name, -, rfl⟩ := Option.map_eq_some_iff.mp h
  cases hfind : findSfile k s name with
  | none => exact .same rfl rfl
  | some t =>
    have hext := findSfile_extends hfind
    dsimp only
    cases copyFile k src with
    | none => exact hext
    | some bytes => exact hext.trans (.send t (by simp))

lemma cmdCopy_extends {k : Kernel} {s : Session} {overwrite : Bool} {srcDir destDir : Text}
    {srcFile : Option Text} {r : ℤ × Session}
    (h : cmdCopy k s overwrite srcDir srcFile destDir = some r) : Extends s r.2 := by
  unfold cmdCopy at h
  dsimp only at h
  cases hopen : k.openRead (dirPath srcDir (srcFile.getD nullText)) with
  | none =>
    rw [hopen] at h
    cases h
    exact .same rfl rfl
  | some src =>
    rw [hopen] at h
    dsimp only at h
    generalize hasked : ({ s with errMsg := approveQuestion (srcFile.getD nullText) } : Session) = t
      at h
    have hext :
        Extends s (t.send ⟨.approve, cString (approveQuestion (srcFile.getD nullText))⟩) := by
      rw [← hasked]
      exact Extends.trans (.same rfl rfl) (.send _ (by simp))
    split_ifs at h
    · exact copyOpened_extends h
    · cases h
      exact hext
    · cases h
      exact hext
    · exact hext.trans (copyOpened_extends h)

lemma readLine_extends {k : Kernel} {s : Session} {f : File} {lineNo : ℕ} {r : ℤ × Session}
    (h : readLine k s f lineNo = some r) : Extends s r.2 := by
  unfold readLine at h
  obtain ⟨found, -, h⟩ := Option.bind_eq_some_iff.mp h
  cases found with
  | error msg =>
    cases h
    exact .same rfl rfl
  | ok found =>
    obtain ⟨line, -, rfl⟩ := Option.map_eq_some_iff.mp h
    cases line with
    | none => exact .same rfl rfl
    | some line => exact .send s (by simp)

lemma sendPieces_extends (size : ℕ) (pieces : List Text) (numRead : ℤ) (s : Session) :
    Extends s (sendPieces size pieces numRead s).1 := by
  induction pieces generalizing numRead s with
  | nil => exact .same rfl rfl
  | cons piece pieces ih =>
    unfold sendPieces
    split_ifs
    · exact Extends.trans (.send s (by simp)) (ih _ _)
    · exact .send s (by simp)

lemma readWhole_extends {k : Kernel} {s : Session} {f : File} {r : ℤ × Session}
    (h : readWhole k s f = some r) : Extends s r.2 := by
  have hext := sendPieces_extends f.size f.pieces 0 s
  unfold readWhole at h
  generalize sendPieces f.size f.pieces 0 s = sent at h hext
  obtain ⟨t, final⟩ := sent
  cases final with
  | true =>
    cases h
    exact hext
  | false =>
    dsimp only at h
    split_ifs at h
    cases h
    exact hext

lemma cmdReadF_extends {k : Kernel} {s : Session} {srcFile : Text} {lineNo : ℤ}
    {r : ℤ × Session} (h : cmdReadF k s srcFile lineNo = some r) : Extends s r.2 := by
  unfold cmdReadF at h
  cases hopen : k.openRead (dirPath k.serverDir srcFile) with
  | none =>
    rw [hopen] at h
    cases h
    exact .same rfl rfl
  | some f =>
    rw [hopen] at h
    dsimp only at h
    cases hfind : findSfile k s srcFile with
    | none =>
      rw [hfind] at h
      split_ifs at h <;> cases h <;> exact .same rfl rfl
    | some t =>
      rw [hfind] at h
      dsimp only at h
      have hext := findSfile_extends hfind
      by_cases hfstat : k.fstat = false
      · rw [if_pos hfstat] at h
        cases h
        exact .same rfl rfl
      rw [if_neg hfstat] at h
      by_cases henter : k.enterRegion = false
      · rw [if_pos henter] at h
        cases h
        exact hext
      rw [if_neg henter] at h
      obtain ⟨q, hq, rfl⟩ := Option.map_eq_some_iff.mp h
      change Extends s q.2
      split_ifs at hq
      · exact hext.trans (readLine_extends hq)
      · exact hext.trans (readWhole_extends hq)

lemma writeString_extends (k : Kernel) (s : Session) (srcFile str : Text) :
    Extends s (writeString k s srcFile str).2 := by
  unfold writeString
  cases k.write 0 str.length with
  | none => exact .same rfl rfl
  | some bytes => exact .send s (by simp)

lemma cmdWriteT_extends {k : Kernel} {s : Session} {srcFile str : Text} {lineNo : ℤ}
    {r : ℤ × Session} (h : cmdWriteT k s srcFile str lineNo = some r) : Extends s r.2 := by
  unfold cmdWriteT at h
  cases hopen : k.openWrite (dirPath k.serverDir srcFile) (decide (lineNo ≤ 0)) with
  | none =>
    rw [hopen] at h
    cases h
    exact .same rfl rfl
  | some f =>
    rw [hopen] at h
    cases hfind : findSfile k s srcFile with
    | none =>
      rw [hfind] at h
      cases h
      exact .same rfl rfl
    | some t =>
      rw [hfind] at h
      dsimp only at h
      have hext := findSfile_extends hfind
      split_ifs at h
      · obtain ⟨found, -, rfl⟩ := Option.map_eq_some_iff.mp h
        cases found with
        | error msg => exact hext
        | ok found => exact hext.trans (writeString_extends k t srcFile str)
      · cases h
        exact hext.trans (writeString_extends k t srcFile str)

lemma cmdArchServer_extends {k : Kernel} {s : Session} {tarFile : Option Text}
    {r : ℤ × Session} (h : cmdArchServer k s tarFile = some r) : Extends s r.2 := by
  unfold cmdArchServer at h
  cases tarFile with
  | none =>
    cases h
    exact .same rfl rfl
  | some file =>
    dsimp only at h
    split_ifs at h
    · cases h
      exact .same rfl rfl
    · cases h
      exact .same rfl rfl
    · cases h
      exact .send s (by simp)

lemma withLine_extends {s : Session} {arg : Text} {f : ℤ → Option (ℤ × Session)}
    {r : ℤ × Session} (hf : ∀ n q, f n = some q → Extends s q.2)
    (h : withLine s arg f = some r) : Extends s r.2 := by
  rcases withLine_cases h with rfl | ⟨n, -, hn⟩
  · exact .same rfl rfl
  · exact hf n r hn

/-- No handler logs anything or sends `RESP_ERROR`. -/
theorem handle_extends {k : Kernel} {s : Session} {overwrite : Bool} {args : List Text}
    {c : Command} {r : ℤ × Session} (h : handle k s overwrite args c = some r) :
    Extends s r.2 := by
  cases c with
  | quit | killServer =>
    cases h
    exact .send s (by simp)
  | help =>
    simp only [handle, Option.some.injEq] at h
    subst h
    split
    · exact .send s (by simp)
    · split
      · exact .send s (by simp)
      · exact .same rfl rfl
    · exact .same rfl rfl
  | list =>
    simp only [handle, cmdList, Option.ite_none_right_eq_some, Option.some.injEq] at h
    obtain ⟨-, rfl⟩ := h
    exact .send s (by simp)
  | readF =>
    simp only [handle] at h
    split at h
    · exact cmdReadF_extends h
    · exact withLine_extends (fun n q hq => cmdReadF_extends hq) h
    · cases h
      exact .same rfl rfl
  | writeT =>
    simp only [handle] at h
    split at h
    · exact cmdWriteT_extends h
    · exact withLine_extends (fun n q hq => cmdWriteT_extends hq) h
    · cases h
      exact .same rfl rfl
  | upload | download => exact cmdCopy_extends h
  | archServer => exact cmdArchServer_extends h

/-- What a round logs and sends, given the outcome of its handler. -/
def Ends (s : Session) (line : Text) (o : HandlerOutcome) (t : Session) : Prop :=
  t.sent = (endRound line o true).sent ∧
    t.log = s.log ++ [.request (parseCommand line).cmd,
      .response (parseCommand line).words.head? (endRound line o true).saysError]

lemma finish_ends {s t : Session} {line : Text} {status : ℤ}
    (h : Extends { s with sent := [], log := s.log ++ [.request (parseCommand line).cmd] } t) :
    ∃ o : HandlerOutcome, o.status = status ∧
      Ends s line o (finish (parseCommand line) status t) := by
  obtain ⟨hlog, ms, hsent, hms⟩ := h
  rw [List.nil_append] at hsent
  refine ⟨⟨status, t.errMsg, ms, hms⟩, rfl, ?_, ?_⟩
  · unfold finish endRound
    split_ifs <;> simp_all [Session.send]
  · unfold finish endRound
    split_ifs <;> simp_all [Session.send]

/-- Every round of `server_request` ends as the outcome of some handler says. -/
theorem serverRequest_ends {k : Kernel} {s t : Session} {line : Text} {overwrite : Bool}
    (h : serverRequest k s line overwrite = some t) : ∃ o, Ends s line o t := by
  unfold serverRequest at h
  dsimp only at h
  split_ifs at h
  cases hc : commandOf (parseCommand line).cmd with
  | none =>
    rw [hc] at h
    cases h
    obtain ⟨o, -, ho⟩ := @finish_ends s _ line 0 (.same rfl rfl)
    exact ⟨o, ho⟩
  | some c =>
    rw [hc] at h
    obtain ⟨r, hr, rfl⟩ := Option.map_eq_some_iff.mp h
    obtain ⟨o, -, ho⟩ := @finish_ends s _ line r.1 (handle_extends hr)
    exact ⟨o, ho⟩

/-- The outcome of `help` for a word that is no command. -/
def unknownHelp : HandlerOutcome := ⟨-1, unknownCommand, [], by simp⟩

/-- An error is sent, and the log says `SUCCESS` and holds only the first word. -/
theorem unknownHelp_logged :
    (∃ (k : Kernel) (s t : Session), serverRequest k s "help a".toList false = some t ∧
      t.sent = [⟨.error, cString unknownCommand⟩] ∧
      t.log = [.request "help".toList, .response (some "help".toList) false]) ∧
    ¬ LogAgrees "help a".toList (endRound "help a".toList unknownHelp true) ∧
    ¬ "help a".toList <:+: (endRound "help a".toList unknownHelp true).command := by
  refine ⟨⟨⟨['d'], ['c'], [], fun _ => none, fun _ _ => none, fun _ => true, fun _ => true,
    fun _ => true, true, true, true, true, fun _ n => some n, fun _ => true, true, 0⟩,
    ⟨[], ⟨[], numOfDirFile⟩, [], []⟩, _, rfl, rfl, rfl⟩, fun h => ?_, fun h => ?_⟩
  · have herror := h.1.mpr ((sends_error _ _ _).mpr ⟨rfl, rfl⟩)
    exact absurd herror (by decide)
  · exact absurd ((logs_line_iff "help a".toList).mp h).1 (by decide)

end SystemProgramming.RequestLog
