import Mathlib.Data.Nat.Digits.Defs
import Mathlib.Tactic.Tauto
import SystemProgramming.FileServer

/-!
# Which requests get one complete reply

A reply is complete when the client, having read it, finds the FIFO empty and
asks for the next command. For every handler there is a condition on the words of
the request and on what the system calls answer under which it sends one.
-/
namespace SystemProgramming.FileServer
open SystemProgramming.Strtok SystemProgramming.LineReader SystemProgramming.LockTable

/-- One complete reply: `RESP_CONT` messages and a final one, or a question and,
if the client approves, a final message. -/
inductive Replied (overwrite : Bool) : List Message → Prop
  | final (conts : List Message) (m : Message) (hconts : ∀ q, q ∈ conts → q.stat = .cont)
      (hm : m.stat = .ok ∨ m.stat = .error ∨ m.stat = .disconnect ∧ m.body = []) :
      Replied overwrite (conts ++ [m])
  | refused (q : Message) (hq : q.stat = .approve) (ho : overwrite = false) :
      Replied overwrite [q]
  | approved (q m : Message) (hq : q.stat = .approve) (ho : overwrite = true)
      (hm : m.stat = .ok ∨ m.stat = .error) : Replied overwrite [q, m]

/-- The bodies are written in one piece. -/
def Whole (ms : List Message) : Prop := ∀ m, m ∈ ms → m.body.length ≤ pipeBuf

lemma whole_append {ms ms' : List Message} : Whole (ms ++ ms') ↔ Whole ms ∧ Whole ms' :=
  List.forall_mem_append

lemma whole_singleton {m : Message} : Whole [m] ↔ m.body.length ≤ pipeBuf := by
  simp [Whole]

/-- The bytes that `read` returns are taken. -/
lemma clientLoop_body (overwrite : Bool) (reads : Reads) (stat : RespStatus) (short : Bool)
    (c : Char) (body : Text) (cells : List Cell) :
    clientLoop overwrite reads (.body stat body.length short) ((c :: body).map .byte ++ cells) =
      if readsOn overwrite stat ∧ (short = true → stat ≠ .cont) then
        clientLoop overwrite reads .header cells
      else some cells := by
  induction body generalizing c with
  | nil => rfl
  | cons d body ih => exact ih d

/-- The client reads one message. -/
lemma clientLoop_message (overwrite : Bool) (reads : Reads) (m : Message) (cells : List Cell)
    (hm : m.stat = .disconnect → m.body = []) (hwhole : m.body.length ≤ pipeBuf) :
    clientLoop overwrite reads .header (m.cells ++ cells) =
      if readsOn overwrite m.stat then clientLoop overwrite reads .header cells
      else some cells := by
  obtain ⟨stat, body⟩ := m
  by_cases hstat : stat = .disconnect
  · subst hstat
    obtain rfl := hm rfl
    rfl
  · cases body with
    | nil => simp [Message.cells, clientLoop, hstat]
    | cons c body =>
      have hbody := clientLoop_body overwrite reads stat false c body cells
      have hbytes := fun cells => reads.whole cells (body.length + 1) hwhole
      simpa [Message.cells, clientLoop, hstat, hbytes] using hbody

/-- After one complete reply the client is ready and the FIFO is empty. -/
theorem Replied.clientLoop_eq {overwrite : Bool} {ms : List Message} (h : Replied overwrite ms)
    (hwhole : Whole ms) (reads : Reads) :
    clientLoop overwrite reads .header (ms.flatMap Message.cells) = some [] := by
  have hlast : ∀ m : Message, (m.stat = .disconnect → m.body = []) → m.body.length ≤ pipeBuf →
      readsOn overwrite m.stat = false → clientLoop overwrite reads .header m.cells = some [] := by
    intro m hm hbody hstop
    have hread := clientLoop_message overwrite reads m [] hm hbody
    rwa [List.append_nil, hstop] at hread
  cases h with
  | final conts m hconts hm =>
    induction conts with
    | nil =>
      rw [List.nil_append] at hwhole ⊢
      rw [List.flatMap_singleton]
      have hlen := whole_singleton.mp hwhole
      rcases hm with hm | hm | ⟨hm, hbody⟩
      · exact hlast m (by simp [hm]) hlen (by rw [hm]; rfl)
      · exact hlast m (by simp [hm]) hlen (by rw [hm]; rfl)
      · exact hlast m (fun _ => hbody) hlen (by rw [hm]; rfl)
    | cons q conts ih =>
      obtain ⟨hlen, hrest⟩ := List.forall_mem_cons.mp hwhole
      have hq := hconts q List.mem_cons_self
      rw [List.cons_append, List.flatMap_cons,
        clientLoop_message overwrite reads q _ (by simp [hq]) hlen, hq]
      exact ih (fun r hr => hconts r (List.mem_cons_of_mem q hr)) hrest
  | refused q hq ho =>
    rw [List.flatMap_singleton]
    exact hlast q (by simp [hq]) (whole_singleton.mp hwhole) (by rw [hq]; exact ho)
  | approved q m hq ho hm =>
    obtain ⟨hlen, hrest⟩ := List.forall_mem_cons.mp hwhole
    rw [List.flatMap_cons, List.flatMap_singleton,
      clientLoop_message overwrite reads q _ (by simp [hq]) hlen, hq]
    simp only [readsOn, ho, if_true]
    rw [← ho]
    rcases hm with hm | hm
    · exact hlast m (by simp [hm]) (whole_singleton.mp hrest) (by rw [hm]; rfl)
    · exact hlast m (by simp [hm]) (whole_singleton.mp hrest) (by rw [hm]; rfl)

/-- From a body that arrives in pieces the client takes a single byte. -/
def oneByte : Reads where
  bytes _ n := if n ≤ pipeBuf then n else 1
  bytes_pos _ n hn := by split_ifs <;> omega
  bytes_le _ n := by split_ifs <;> omega
  whole _ n hn := if_pos hn

/-- The rest of the body stays in the FIFO. -/
lemma clientLoop_long (overwrite : Bool) {m : Message} (cells : List Cell)
    (hm : m.stat = .disconnect → m.body = []) (hlong : pipeBuf < m.body.length) :
    clientLoop overwrite oneByte .header (m.cells ++ cells) ≠ some [] := by
  obtain ⟨stat, _ | ⟨c, _ | ⟨d, body⟩⟩⟩ := m
  · exact absurd hlong (by simp)
  · exact absurd hlong (by simp [pipeBuf])
  · have hstat : stat ≠ .disconnect := fun h => by cases hm h
    have hone : ∀ cells, oneByte.bytes cells (body.length + 2) = 1 :=
      fun _ => if_neg (not_le.mpr hlong)
    simp only [Message.cells, List.length_cons, List.map_cons, List.cons_append, clientLoop, hstat,
      if_false, Nat.add_eq_zero_iff, one_ne_zero, and_false, hone, Nat.sub_self]
    split_ifs <;> simp

/-- If the client is ready whatever its reads return, the bodies have come in one piece. -/
lemma Replied.whole {overwrite : Bool} {ms : List Message} (h : Replied overwrite ms)
    (hready : clientLoop overwrite oneByte .header (ms.flatMap Message.cells) = some []) :
    Whole ms := by
  have hfirst : ∀ (m : Message) (cells : List Cell), (m.stat = .disconnect → m.body = []) →
      clientLoop overwrite oneByte .header (m.cells ++ cells) = some [] →
      m.body.length ≤ pipeBuf := fun m cells hm hread =>
    not_lt.mp fun hlong => clientLoop_long overwrite cells hm hlong hread
  have hlast : ∀ m : Message, (m.stat = .disconnect → m.body = []) →
      clientLoop overwrite oneByte .header m.cells = some [] → Whole [m] := fun m hm hread =>
    whole_singleton.mpr (hfirst m [] hm (by rwa [List.append_nil]))
  cases h with
  | final conts m hconts hm =>
    induction conts with
    | nil =>
      rw [List.nil_append, List.flatMap_singleton] at hready
      refine hlast m (fun hstat => ?_) hready
      rcases hm with hm | hm | ⟨-, hbody⟩
      · simp [hstat] at hm
      · simp [hstat] at hm
      · exact hbody
    | cons q conts ih =>
      have hq := hconts q List.mem_cons_self
      rw [List.cons_append, List.flatMap_cons] at hready
      have hlen := hfirst q _ (by simp [hq]) hready
      rw [clientLoop_message overwrite oneByte q _ (by simp [hq]) hlen, hq] at hready
      exact List.forall_mem_cons.mpr
        ⟨hlen, ih (fun r hr => hconts r (List.mem_cons_of_mem q hr)) hready⟩
  | refused q hq ho =>
    rw [List.flatMap_singleton] at hready
    exact hlast q (by simp [hq]) hready
  | approved q m hq ho hm =>
    rw [List.flatMap_cons, List.flatMap_singleton] at hready
    have hlen := hfirst q _ (by simp [hq]) hready
    rw [clientLoop_message overwrite oneByte q _ (by simp [hq]) hlen, hq] at hready
    simp only [readsOn, ho, if_true] at hready
    refine List.forall_mem_cons.mpr ⟨hlen, hlast m (fun hstat => ?_) (ho ▸ hready)⟩
    simp [hstat] at hm

/-- A complete reply that arrives as it was written. -/
def Complete (overwrite : Bool) (ms : List Message) : Prop := Replied overwrite ms ∧ Whole ms

/-- Before the last message of a reply only `RESP_CONT` and `RESP_APPROVE` are sent. -/
lemma Replied.before_last {overwrite : Bool} {ms : List Message} {m : Message}
    (h : Replied overwrite (ms ++ [m])) (q : Message) (hq : q ∈ ms) :
    q.stat = .cont ∨ q.stat = .approve := by
  generalize heq : ms ++ [m] = all at h
  cases h with
  | final conts m' hconts hm =>
    obtain ⟨rfl, -⟩ := List.append_inj' heq rfl
    exact Or.inl (hconts q hq)
  | refused r hr ho =>
    obtain ⟨rfl, -⟩ := List.append_inj' (heq.trans (List.nil_append [r]).symm) rfl
    cases hq
  | approved r m' hr ho hm =>
    obtain ⟨rfl, -⟩ := List.append_inj' (show ms ++ [m] = [r] ++ [m'] from heq) rfl
    rw [List.mem_singleton.mp hq]
    exact Or.inr hr

/-- A reply does not consist of `RESP_CONT` messages. -/
lemma Replied.exists_not_cont {overwrite : Bool} {ms : List Message} (h : Replied overwrite ms) :
    ∃ m, m ∈ ms ∧ m.stat ≠ .cont := by
  cases h with
  | final conts m hconts hm =>
    refine ⟨m, by simp, fun hc => ?_⟩
    simp [hc] at hm
  | refused q hq ho => exact ⟨q, by simp, by simp [hq]⟩
  | approved q m hq ho hm => exact ⟨q, by simp, by simp [hq]⟩

/-- The messages of a request whose handler returns `r`. -/
def replyOf (r : ℤ × Session) : List Message :=
  if r.1 = -1 then r.2.sent ++ [⟨.error, cString r.2.errMsg⟩] else r.2.sent

/-- A handler has a result, and with it the request gets one complete reply. -/
def Answers (overwrite : Bool) (o : Option (ℤ × Session)) : Prop :=
  ∃ r, o = some r ∧ Complete overwrite (replyOf r)

@[simp] lemma not_answers_none {overwrite : Bool} : ¬ Answers overwrite none := by
  simp [Answers]

lemma answers_some {overwrite : Bool} {status : ℤ} {s : Session} :
    Answers overwrite (some (status, s)) ↔ Complete overwrite (replyOf (status, s)) := by
  simp [Answers]

lemma length_cString_le (s : Text) : (cString s).length ≤ s.length + 1 := by
  rw [cString, List.length_append, List.length_singleton]
  exact Nat.succ_le_succ (List.takeWhile_sublist _).length_le

/-- The error message fits into one piece. -/
lemma length_errMsg_le {msg : Text} (h : msg.length < errMsgLen) :
    (cString msg).length ≤ pipeBuf :=
  (length_cString_le msg).trans (h.trans (by decide))

/-- The handler fails before it has sent anything. -/
lemma answers_error {overwrite : Bool} {s : Session} (hs : s.sent = [])
    (hmsg : s.errMsg.length < errMsgLen) : Answers overwrite (some (-1, s)) := by
  rw [answers_some, replyOf, if_pos rfl, hs]
  exact ⟨.final [] _ (by simp) (by simp), whole_singleton.mpr (length_errMsg_le hmsg)⟩

/-- The handler sends its reply. -/
lemma answers_sent {overwrite : Bool} {s : Session} {m : Message} (hs : s.sent = [])
    (hm : m.stat = .ok ∨ m.stat = .error ∨ m.stat = .disconnect ∧ m.body = [])
    (hbody : m.body.length ≤ pipeBuf) : Answers overwrite (some (0, s.send m)) := by
  rw [answers_some, replyOf, if_neg (by simp), Session.send, hs]
  exact ⟨.final [] m (by simp) hm, whole_singleton.mpr hbody⟩

/-- The handler succeeds and has sent nothing. -/
lemma not_answers_silent {overwrite : Bool} {s : Session} (hs : s.sent = []) :
    ¬ Answers overwrite (some (0, s)) := by
  rw [answers_some, replyOf, if_neg (by simp), hs]
  rintro ⟨h, -⟩
  obtain ⟨m, hm, -⟩ := h.exists_not_cont
  cases hm

/-- The size of a file is an `off_t`, and `write` transfers no more than it is given. -/
structure Kernel.Bounded (k : Kernel) : Prop where
  size_lt : ∀ path f, k.openRead path = some f → f.size < 2 ^ 63
  write_le : ∀ i n m, k.write i n = some m → m ≤ n

/-- The entry of a file in the lock table can be found or added. -/
def Findable (k : Kernel) (sdir : SafeDir) (name : Text) : Prop :=
  (getSfile sdir name).isSome = true ∨ (addSfile sdir name k.semInit).isSome = true

lemma findSfile_spec (k : Kernel) (s : Session) (name : Text) :
    Findable k s.sdir name ∧ (∃ sdir, findSfile k s name = some { s with sdir := sdir }) ∨
    ¬ Findable k s.sdir name ∧ findSfile k s name = none := by
  unfold Findable findSfile
  cases hget : getSfile s.sdir name with
  | some i => exact Or.inl ⟨by simp, s.sdir, rfl⟩
  | none =>
    cases hadd : addSfile s.sdir name k.semInit with
    | some r => exact Or.inl ⟨by simp, r.1, rfl⟩
    | none => exact Or.inr ⟨by simp, rfl⟩

lemma copyLoop_eq_some {k : Kernel} {pieces : List Text} {i bytes total : ℕ}
    (h : copyLoop k pieces i bytes = some total) : total = bytes + pieces.flatten.length := by
  induction pieces generalizing i bytes with
  | nil =>
    cases h
    rfl
  | cons piece pieces ih =>
    rw [copyLoop] at h
    split_ifs at h
    rw [ih h, List.flatten_cons, List.length_append, Nat.add_assoc]

/-- What is copied is the content of the file. -/
lemma copyFile_eq_some {k : Kernel} {src : File} {bytes : ℕ} (h : copyFile k src = some bytes) :
    bytes = src.content.length := by
  unfold copyFile at h
  cases hloop : copyLoop k src.pieces 0 0 with
  | none => simp [hloop] at h
  | some total =>
    simp only [hloop] at h
    split_ifs at h
    cases h
    rw [copyLoop_eq_some hloop, zero_add]
    rfl

lemma length_bytesTransferred_le {bytes : ℕ} (h : bytes < 2 ^ 63) :
    (cString (bytesTransferred bytes)).length ≤ pipeBuf := by
  have hdigits := Nat.toDigits_length 10 bytes 19 (by decide) (h.trans (by decide))
  refine (length_cString_le _).trans ?_
  simp only [bytesTransferred, List.length_append, pipeBuf]
  have htext : " bytes transferred".toList.length = 18 := by decide
  omega

/-- A source without a name crashes the look-up in the lock table; otherwise the
copy ends in one more message. -/
lemma copyOpened_answers {k : Kernel} {s : Session} {overwrite : Bool} {src : File}
    {srcFile : Option Text} (hsrc : src.size < 2 ^ 63) (hmsg : s.errMsg.length < errMsgLen)
    (hs : ∀ m : Message, m.stat = .ok ∨ m.stat = .error → m.body.length ≤ pipeBuf →
      Complete overwrite (s.sent ++ [m])) :
    Answers overwrite (copyOpened k s src srcFile) ↔ srcFile ≠ none := by
  cases srcFile with
  | none => simp [copyOpened]
  | some name =>
    have herror : ∀ sdir, Answers overwrite (some (-1, { s with sdir := sdir })) := by
      intro sdir
      rw [answers_some, replyOf, if_pos rfl]
      exact hs _ (Or.inr rfl) (length_errMsg_le hmsg)
    simp only [copyOpened, Option.map_some, ne_eq, reduceCtorEq, not_false_eq_true, iff_true]
    rcases findSfile_spec k s name with ⟨-, sdir, hfind⟩ | ⟨-, hfind⟩
    · rw [hfind]
      cases hcopy : copyFile k src with
      | none => exact herror sdir
      | some bytes =>
        have hbytes : bytes < 2 ^ 63 := copyFile_eq_some hcopy ▸ src.content_le.trans_lt hsrc
        rw [answers_some, replyOf, if_neg (by simp)]
        exact hs _ (Or.inl rfl) (length_bytesTransferred_le hbytes)
    · rw [hfind]
      exact herror s.sdir

/-- What `upload` and `download` need: the question fits into `err_msg`, and a
request without a file name stops before the lock table. -/
def CopyAnswered (k : Kernel) (overwrite : Bool) (srcDir : Text) (srcFile : Option Text)
    (destDir : Text) : Prop :=
  k.openRead (dirPath srcDir (srcFile.getD nullText)) ≠ none →
    if k.createNew (dirPath destDir (srcFile.getD nullText)) then srcFile ≠ none
    else (approveQuestion (srcFile.getD nullText)).length < errMsgLen ∧
      (overwrite = true → k.truncate (dirPath destDir (srcFile.getD nullText)) = true →
        srcFile ≠ none)

lemma cmdCopy_answers {k : Kernel} {s : Session} {overwrite : Bool} {srcDir destDir : Text}
    {srcFile : Option Text} (hk : k.Bounded) (hs : s.sent = [])
    (hmsg : s.errMsg.length < errMsgLen) :
    Answers overwrite (cmdCopy k s overwrite srcDir srcFile destDir) ↔
      CopyAnswered k overwrite srcDir srcFile destDir := by
  unfold cmdCopy CopyAnswered
  dsimp only
  generalize srcFile.getD nullText = file
  cases hopen : k.openRead (dirPath srcDir file) with
  | none => simpa using answers_error hs hmsg
  | some src =>
    have hsrc := hk.size_lt _ src hopen
    simp only [ne_eq, reduceCtorEq, not_false_eq_true, forall_const]
    by_cases hnew : k.createNew (dirPath destDir file) = true
    · rw [if_pos hnew, if_pos hnew]
      apply copyOpened_answers hsrc hmsg
      intro m hm hbody
      rw [hs]
      exact ⟨.final [] m (by simp) (by tauto), whole_singleton.mpr hbody⟩
    · rw [if_neg hnew, if_neg hnew]
      by_cases hlong : errMsgLen ≤ (approveQuestion file).length
      · rw [if_pos hlong]
        simp [not_lt.mpr hlong]
      · rw [if_neg hlong]
        have hquestion := not_le.mp hlong
        have hbody := length_errMsg_le hquestion
        simp only [hquestion, true_and]
        cases overwrite with
        | false =>
          simp only [if_true, Bool.false_eq_true, false_imp_iff, iff_true]
          rw [answers_some, replyOf, if_neg (by simp), Session.send, hs]
          exact ⟨.refused _ rfl rfl, whole_singleton.mpr hbody⟩
        | true =>
          simp only [Bool.true_eq_false, if_false, forall_const]
          have hasked : ∀ m : Message, m.stat = .ok ∨ m.stat = .error → m.body.length ≤ pipeBuf →
              Complete true ([⟨.approve, cString (approveQuestion file)⟩] ++ [m]) :=
            fun m hm hm' => ⟨.approved _ m rfl rfl hm,
              whole_append.mpr ⟨whole_singleton.mpr hbody, whole_singleton.mpr hm'⟩⟩
          cases htrunc : k.truncate (dirPath destDir file) with
          | false =>
            simp only [if_true, Bool.false_eq_true, false_imp_iff, iff_true]
            rw [answers_some, replyOf, if_pos rfl, Session.send, hs]
            exact hasked _ (Or.inr rfl) hbody
          | true =>
            simp only [Bool.true_eq_false, if_false, forall_const]
            apply copyOpened_answers hsrc hquestion
            rw [Session.send, hs]
            exact hasked

/-- A count that fits into an `int` is kept, and one that does not becomes smaller
than any that does not. -/
lemma wrap_lt_iff {n size : ℕ} (hle : n ≤ size) :
    ¬ (n : ℤ).bmod (2 ^ 32) < size ↔ n = size ∧ size < 2 ^ 31 := by
  constructor
  · intro h
    have hlt : (n : ℤ).bmod (2 ^ 32) < 2 ^ 31 := Int.bmod_lt (by simp)
    have hsize : size < 2 ^ 31 := by omega
    rw [Int.bmod_eq_of_le (by omega) (by push_cast; omega)] at h
    omega
  · rintro ⟨rfl, hsize⟩
    rw [Int.bmod_eq_of_le (by omega) (by push_cast; omega)]
    omega

/-- The loop of `cmd_readF` sends `RESP_OK` just when it reads the whole of a
non-empty file whose size is an `int`. -/
lemma sendPieces_spec (size : ℕ) (pieces : List Text) (s : Session) (n : ℕ)
    (hpieces : ∀ p, p ∈ pieces → 0 < p.length) (hn : n + pieces.flatten.length ≤ size) :
    ∃ conts, (∀ q : Message, q ∈ conts → q.stat = .cont) ∧
      ((pieces ≠ [] ∧ n + pieces.flatten.length = size ∧ size < 2 ^ 31) ∧
          (∃ m : Message, m.stat = .ok ∧
            ((conts ++ [m]).map Message.body).flatten = pieces.flatten ∧
            sendPieces size pieces ((n : ℤ).bmod (2 ^ 32)) s =
              ({ s with sent := s.sent ++ (conts ++ [m]) }, true)) ∨
        ¬ (pieces ≠ [] ∧ n + pieces.flatten.length = size ∧ size < 2 ^ 31) ∧
          sendPieces size pieces ((n : ℤ).bmod (2 ^ 32)) s =
            ({ s with sent := s.sent ++ conts }, false)) := by
  induction pieces generalizing s n with
  | nil => exact ⟨[], by simp, Or.inr ⟨by simp, by simp [sendPieces]⟩⟩
  | cons piece pieces ih =>
    rw [List.flatten_cons, List.length_append] at hn ⊢
    have hwrap := wrap_lt_iff (n := n + piece.length) (show n + piece.length ≤ size by omega)
    have hcount : ((n : ℤ).bmod (2 ^ 32) + piece.length).bmod (2 ^ 32) =
        ((n + piece.length : ℕ) : ℤ).bmod (2 ^ 32) := by
      rw [Int.bmod_add_bmod]
      push_cast
      rfl
    simp only [sendPieces, hcount]
    by_cases hmore : ((n + piece.length : ℕ) : ℤ).bmod (2 ^ 32) < size
    · rw [if_pos hmore]
      obtain ⟨conts, hconts, hrest⟩ := ih (s.send ⟨.cont, piece⟩) (n + piece.length)
        (fun p hp => hpieces p (List.mem_cons_of_mem piece hp)) (by omega)
      have hwhole : (pieces ≠ [] ∧ n + piece.length + pieces.flatten.length = size ∧
          size < 2 ^ 31) ↔ (piece :: pieces ≠ [] ∧
          n + (piece.length + pieces.flatten.length) = size ∧ size < 2 ^ 31) := by
        rw [Nat.add_assoc]
        refine ⟨fun h => ⟨by simp, h.2⟩, fun h => ⟨?_, h.2⟩⟩
        rintro rfl
        exact hwrap.mpr (by simpa using h.2) hmore
      refine ⟨⟨.cont, piece⟩ :: conts, ?_, ?_⟩
      · intro q hq
        rcases List.mem_cons.mp hq with rfl | hq
        · rfl
        · exact hconts q hq
      · rw [← hwhole]
        rcases hrest with ⟨hok, m, hm, hbodies, heq⟩ | ⟨hno, heq⟩
        · refine Or.inl ⟨hok, m, hm, ?_, by simpa [Session.send] using heq⟩
          rw [List.cons_append, List.map_cons, List.flatten_cons, hbodies]
        · exact Or.inr ⟨hno, by simpa [Session.send] using heq⟩
    · rw [if_neg hmore]
      obtain ⟨hall, hsize⟩ := hwrap.mp hmore
      have hlast : pieces.flatten = [] := List.eq_nil_of_length_eq_zero (by omega)
      refine ⟨[], by simp, Or.inl ⟨⟨by simp, by omega, hsize⟩, ⟨.ok, piece⟩, rfl, ?_, rfl⟩⟩
      simp [hlast]

/-- A file that is read whole has pieces just when it has a size. -/
lemma pieces_ne_nil_iff (f : File) :
    (f.pieces ≠ [] ∧ f.content.length = f.size ∧ f.size < 2 ^ 31) ↔
      (f.content.length = f.size ∧ 0 < f.size ∧ f.size < 2 ^ 31) := by
  constructor
  · rintro ⟨hne, hlen, hsize⟩
    obtain ⟨p, hp⟩ := List.exists_mem_of_ne_nil _ hne
    have hle : p.length ≤ f.content.length := (List.sublist_flatten_of_mem hp).length_le
    have hpos := (f.pieces_length p hp).1
    exact ⟨hlen, by omega, hsize⟩
  · rintro ⟨hlen, hpos, hsize⟩
    refine ⟨?_, hlen, hsize⟩
    intro hnil
    rw [File.content, hnil, List.flatten_nil, List.length_nil] at hlen
    omega

/-- `sendPieces_spec` for a file that has just been opened. -/
lemma sendPieces_file (f : File) (s : Session) :
    ∃ conts, (∀ q : Message, q ∈ conts → q.stat = .cont) ∧
      ((f.content.length = f.size ∧ 0 < f.size ∧ f.size < 2 ^ 31) ∧
          (∃ m : Message, m.stat = .ok ∧
            ((conts ++ [m]).map Message.body).flatten = f.content ∧
            sendPieces f.size f.pieces 0 s =
              ({ s with sent := s.sent ++ (conts ++ [m]) }, true)) ∨
        ¬ (f.content.length = f.size ∧ 0 < f.size ∧ f.size < 2 ^ 31) ∧
          sendPieces f.size f.pieces 0 s = ({ s with sent := s.sent ++ conts }, false)) := by
  have hspec := sendPieces_spec f.size f.pieces s 0
    (fun p hp => (f.pieces_length p hp).1) (by simpa using f.content_le)
  have hzero : ((0 : ℕ) : ℤ).bmod (2 ^ 32) = 0 := rfl
  rw [hzero, zero_add] at hspec
  rw [← pieces_ne_nil_iff]
  exact hspec

/-- What reading a whole file needs. If `RESP_OK` is sent, `status` must not happen
to be `-1`; if it is not, because the file is empty or larger than an `int`, `status`
must happen to be `-1` or the region must not be left. -/
def WholeAnswered (k : Kernel) (f : File) : Prop :=
  if f.content.length = f.size ∧ 0 < f.size ∧ f.size < 2 ^ 31 then
    k.exitRegion = true ∧ k.status ≠ -1
  else f.readError = false ∧ (k.exitRegion = true → k.status = -1)

/-- What is sent is what has been read. -/
lemma sendPieces_bodies (size : ℕ) (pieces : List Text) (numRead : ℤ) (s : Session) (m : Message)
    (hm : m ∈ (sendPieces size pieces numRead s).1.sent) : m ∈ s.sent ∨ m.body ∈ pieces := by
  induction pieces generalizing numRead s with
  | nil => exact Or.inl hm
  | cons piece pieces ih =>
    rw [sendPieces] at hm
    split_ifs at hm
    · rcases ih _ _ hm with hmem | hmem
      · rcases List.mem_append.mp hmem with hmem | hmem
        · exact Or.inl hmem
        · exact Or.inr (by simp [List.mem_singleton.mp hmem])
      · exact Or.inr (List.mem_cons_of_mem piece hmem)
    · rcases List.mem_append.mp hm with hmem | hmem
      · exact Or.inl hmem
      · exact Or.inr (by simp [List.mem_singleton.mp hmem])

/-- The pieces of a file are no longer than the buffer. -/
lemma sendPieces_whole (f : File) {s : Session} (hs : s.sent = []) :
    Whole (sendPieces f.size f.pieces 0 s).1.sent := by
  intro m hm
  rcases sendPieces_bodies _ _ _ _ m hm with hmem | hmem
  · rw [hs] at hmem
    cases hmem
  · exact (f.pieces_length m.body hmem).2.trans (by decide)

lemma readWhole_answers {k : Kernel} {s : Session} {overwrite : Bool} {f : File}
    (hs : s.sent = []) (hmsg : s.errMsg.length < errMsgLen) :
    Answers overwrite ((readWhole k s f).map (leaveRegion k)) ↔ WholeAnswered k f := by
  have hwhole := sendPieces_whole f hs
  obtain ⟨conts, hconts, hpieces⟩ := sendPieces_file f s
  unfold readWhole WholeAnswered
  rw [hs] at hpieces
  simp only [List.nil_append] at hpieces
  rcases hpieces with ⟨hok, m, hm, -, heq⟩ | ⟨hno, heq⟩
  · rw [heq] at hwhole
    rw [if_pos hok, heq]
    simp only [Option.map_some, leaveRegion, answers_some, replyOf]
    by_cases hstatus : k.exitRegion = true ∧ k.status ≠ -1
    · rw [if_neg (by simp [hstatus])]
      exact ⟨fun _ => hstatus, fun _ => ⟨.final conts m hconts (Or.inl hm), hwhole⟩⟩
    · rw [if_pos (by grind)]
      refine ⟨fun h => ?_, fun h => absurd h hstatus⟩
      have hbefore := h.1.before_last m (by simp)
      simp [hm] at hbefore
  · rw [heq] at hwhole
    rw [if_neg hno, heq]
    dsimp only
    cases hread : f.readError with
    | true => simp
    | false =>
      simp only [Bool.false_eq_true, if_false, Option.map_some, leaveRegion, answers_some, replyOf,
        true_and]
      by_cases hstatus : k.exitRegion = true → k.status = -1
      · rw [if_pos (by grind)]
        exact ⟨fun _ => hstatus, fun _ => ⟨.final conts _ hconts (by simp),
          whole_append.mpr ⟨hwhole, whole_singleton.mpr (length_errMsg_le hmsg)⟩⟩⟩
      · rw [if_neg (by grind)]
        refine ⟨fun h => ?_, fun h => absurd h hstatus⟩
        obtain ⟨m, hm, hne⟩ := h.1.exists_not_cont
        exact absurd (hconts m hm) hne

/-- `seek_line` reaches the line, or the end of the file, within an `int`. -/
def SeekCounts (f : File) (lineNo : ℕ) : Prop :=
  f.content.length ≤ intMax ∨ lineNo ≤ (f.content.take (intMax + 1)).count '\n' + 1

lemma seekLine_spec (f : File) (lineNo : ℕ) (hpos : 0 < lineNo) :
    ¬ SeekCounts f lineNo ∧ seekLine f lineNo = none ∨
    SeekCounts f lineNo ∧
      ((∃ pos rest, fromLine (lineNo - 1) f.content = some rest ∧
          seekLine f lineNo = some (.ok (pos, rest))) ∨
        fromLine (lineNo - 1) f.content = none ∧
          ∃ msg, seekLine f lineNo = some (.error msg)) := by
  unfold seekLine SeekCounts
  obtain rfl | hlt : lineNo = 1 ∨ 1 < lineNo := by omega
  · exact Or.inr ⟨Or.inr (by omega), Or.inl ⟨0, f.content, fromLine_zero _, rfl⟩⟩
  · obtain ⟨k, rfl⟩ := Nat.exists_eq_add_of_le' (show 2 ≤ lineNo from hlt)
    obtain ⟨hnone, hok, herror⟩ := seekLoop_eq f.readError (k + 2) f.content 0 1 k (by omega)
      (Nat.zero_le _)
    rw [zero_add, Nat.sub_zero] at hnone
    rw [if_neg (by omega)]
    have hsub : k + 2 - 1 = k + 1 := rfl
    rw [hsub]
    cases hseek : seekLoop f.readError (k + 2) f.content 0 1 with
    | none =>
      have hcount := hnone.mp hseek
      exact Or.inl ⟨by omega, rfl⟩
    | some r =>
      have hcount := mt hnone.mpr (by simp [hseek])
      refine Or.inr ⟨by omega, ?_⟩
      cases r with
      | ok r => exact Or.inl ⟨r.1, r.2, hok r.1 r.2 hseek, rfl⟩
      | error msg => exact Or.inr ⟨herror msg hseek, msg, rfl⟩

lemma length_lineExceeded {n : ℕ} (h : n ≤ 2 ^ 31) : (lineExceeded n).length < errMsgLen := by
  have hdigits := Nat.toDigits_length 10 n 10 (by decide) (h.trans_lt (by norm_num))
  have hbefore : "Total number of line ".toList.length = 21 := by decide
  have hafter : " was exceed".toList.length = 11 := by decide
  have hmax : errMsgLen = 128 := rfl
  unfold lineExceeded
  rw [List.length_append, List.length_append]
  omega

/-- The error messages of `seek_line` fit into their buffer. -/
lemma seekLoop_error_length {readError : Bool} {lineNo : ℕ} {bytes : Text} {numRead lineCount : ℕ}
    {msg : Text} (h : seekLoop readError lineNo bytes numRead lineCount = some (.error msg))
    (hcount : lineCount ≤ numRead + 1) (hread : numRead ≤ intMax) : msg.length < errMsgLen := by
  induction bytes generalizing numRead lineCount with
  | nil =>
    have hmax : intMax + 1 = 2 ^ 31 := by decide
    simp only [seekLoop, Option.some.injEq, Except.error.injEq] at h
    subst h
    split_ifs
    · decide
    · exact length_lineExceeded (by omega)
  | cons c bytes ih =>
    rw [seekLoop] at h
    split_ifs at h with hfound hmax hc
    · cases h
    · exact ih h (by omega) (by omega)
    · exact ih h (by omega) (by omega)

lemma seekLine_error_length {f : File} {lineNo : ℕ} {msg : Text}
    (h : seekLine f lineNo = some (.error msg)) : msg.length < errMsgLen := by
  unfold seekLine at h
  split_ifs at h
  · cases h
  · exact seekLoop_error_length h le_rfl (Nat.zero_le _)

/-- What reading one line needs: the line is found within an `int`, it does not run
out of its buffer, and once the line is sent, up to a NUL in it, it arrives in one piece and
the region can be left. -/
def LineAnswered (k : Kernel) (f : File) (lineNo : ℕ) : Prop :=
  SeekCounts f lineNo ∧ ∀ rest, fromLine (lineNo - 1) f.content = some rest →
    ¬ Overruns k.realloc rest ∧ (Readable k.realloc f.readError rest →
      k.exitRegion = true ∧ (cString (firstLine rest)).length ≤ pipeBuf)

lemma readLine_answers {k : Kernel} {s : Session} {overwrite : Bool} {f : File} {lineNo : ℕ}
    (hs : s.sent = []) (hpos : 0 < lineNo) (hint : lineNo ≤ 2 ^ 31) :
    Answers overwrite ((readLine k s f lineNo).map (leaveRegion k)) ↔ LineAnswered k f lineNo := by
  have hfails : ∀ t : Session, t.sent = [] → t.errMsg.length < errMsgLen →
      Answers overwrite (some (leaveRegion k (-1, t))) := by
    intro t ht htmsg
    rw [leaveRegion, ite_self]
    exact answers_error ht htmsg
  unfold readLine LineAnswered
  rcases seekLine_spec f lineNo hpos with
    ⟨hno, heq⟩ | ⟨hcount, ⟨pos, rest, hrest, heq⟩ | ⟨hrest, msg, heq⟩⟩
  · simp [heq, hno]
  · rw [heq, hrest]
    simp only [Option.bind_some, Option.some.injEq, forall_eq', hcount, true_and]
    rcases readNextLine_spec k.realloc f.readError rest with
      ⟨hover, hline⟩ | ⟨hfits, hread, hline⟩ | ⟨hfits, hread, hline⟩
    · simp [hline, hover]
    · rw [hline]
      simp only [Option.map_some, hfits, not_false_eq_true, hread, true_and, forall_const]
      cases hleave : k.exitRegion with
      | true =>
        simp only [leaveRegion, hleave, if_true, true_and]
        refine ⟨fun h => ?_, fun hbody => answers_sent hs (Or.inl rfl) hbody⟩
        rw [answers_some, replyOf, if_neg (by simp), Session.send, hs] at h
        exact whole_singleton.mp h.2
      | false =>
        simp only [leaveRegion, hleave, Bool.false_eq_true, if_false, false_and, iff_false,
          answers_some, replyOf, if_true, Session.send, hs]
        rintro ⟨h, -⟩
        have hbefore := h.before_last ⟨.ok, cString (firstLine rest)⟩ (by simp)
        simp at hbefore
    · rw [hline]
      simp only [Option.map_some, hfits, not_false_eq_true, hread, true_and, false_imp_iff,
        iff_true]
      exact hfails _ hs (length_lineExceeded hint)
  · rw [heq, hrest]
    simp only [Option.bind_some, Option.map_some, hcount, true_and, reduceCtorEq, false_imp_iff,
      forall_const, iff_true]
    exact hfails _ hs (seekLine_error_length heq)

/-- What `readF` needs: once the file is open and the region entered, the condition
of the whole file, or of the line. -/
def ReadAnswered (k : Kernel) (sdir : SafeDir) (srcFile : Text) (lineNo : ℤ) : Prop :=
  ∀ f, k.openRead (dirPath k.serverDir srcFile) = some f → k.fstat = true →
    Findable k sdir srcFile → k.enterRegion = true →
    if 0 < lineNo then LineAnswered k f lineNo.toNat else WholeAnswered k f

lemma cmdReadF_answers {k : Kernel} {s : Session} {overwrite : Bool} {srcFile : Text} {lineNo : ℤ}
    (hs : s.sent = []) (hmsg : s.errMsg.length < errMsgLen) (hint : lineNo < 2 ^ 31) :
    Answers overwrite (cmdReadF k s srcFile lineNo) ↔ ReadAnswered k s.sdir srcFile lineNo := by
  unfold cmdReadF ReadAnswered
  cases hopen : k.openRead (dirPath k.serverDir srcFile) with
  | none => simpa using answers_error hs hmsg
  | some f =>
    simp only [Option.some.injEq, forall_eq']
    cases hstat : k.fstat with
    | false => simpa using answers_error hs hmsg
    | true =>
      simp only [Bool.true_eq_false, if_false, forall_const]
      rcases findSfile_spec k s srcFile with ⟨hfound, sdir, hfind⟩ | ⟨hfound, hfind⟩
      · simp only [hfind, hfound, forall_const]
        cases henter : k.enterRegion with
        | false => simpa using answers_error (s := { s with sdir := sdir }) hs hmsg
        | true =>
          simp only [Bool.true_eq_false, if_false, forall_const]
          split_ifs with hline
          · exact readLine_answers (s := { s with sdir := sdir }) hs (by omega) (by omega)
          · exact readWhole_answers (s := { s with sdir := sdir }) hs hmsg
      · simpa [hfind, hfound] using answers_error hs hmsg

/-- What `writeT` needs: the line is found within an `int`, and the file can be
written if there is such a line. -/
def WriteAnswered (k : Kernel) (sdir : SafeDir) (srcFile str : Text) (lineNo : ℤ) : Prop :=
  ∀ f, k.openWrite (dirPath k.serverDir srcFile) (decide (lineNo ≤ 0)) = some f →
    Findable k sdir srcFile → (0 < lineNo → SeekCounts f lineNo.toNat) ∧
      ((0 < lineNo → fromLine (lineNo.toNat - 1) f.content ≠ none) → k.write 0 str.length ≠ none)

/-- The words of a command line make a short message. -/
lemma length_bytesWritten_le {bytes : ℕ} {srcFile : Text} (hbytes : bytes ≤ 63)
    (hfile : srcFile.length ≤ 63) : (cString (bytesWritten bytes srcFile)).length ≤ pipeBuf := by
  have hdigits := Nat.toDigits_length 10 bytes 2 (by decide) (by omega)
  have htext : " byte(s) written to file ".toList.length = 25 := by decide
  refine (length_cString_le _).trans ?_
  simp only [bytesWritten, List.length_append, pipeBuf]
  omega

lemma writeString_answers {k : Kernel} {s : Session} {overwrite : Bool} {srcFile str : Text}
    (hk : k.Bounded) (hs : s.sent = []) (hfile : srcFile.length ≤ 63) (hstr : str.length ≤ 63) :
    Answers overwrite (some (writeString k s srcFile str)) ↔ k.write 0 str.length ≠ none := by
  unfold writeString
  cases hwrite : k.write 0 str.length with
  | none => simpa using not_answers_silent hs
  | some bytes =>
    have hbytes := (hk.write_le _ _ _ hwrite).trans hstr
    simpa using answers_sent hs (Or.inl rfl) (length_bytesWritten_le hbytes hfile)

lemma cmdWriteT_answers {k : Kernel} {s : Session} {overwrite : Bool} {srcFile str : Text}
    {lineNo : ℤ} (hk : k.Bounded) (hs : s.sent = []) (hmsg : s.errMsg.length < errMsgLen)
    (hfile : srcFile.length ≤ 63) (hstr : str.length ≤ 63) :
    Answers overwrite (cmdWriteT k s srcFile str lineNo) ↔
      WriteAnswered k s.sdir srcFile str lineNo := by
  unfold cmdWriteT WriteAnswered
  cases hopen : k.openWrite (dirPath k.serverDir srcFile) (decide (lineNo ≤ 0)) with
  | none => simpa using answers_error hs hmsg
  | some f =>
    simp only [Option.some.injEq, forall_eq']
    rcases findSfile_spec k s srcFile with ⟨hfound, sdir, hfind⟩ | ⟨hfound, hfind⟩
    · simp only [hfind, hfound, forall_const]
      split_ifs with hline
      · simp only [hline, forall_const]
        rcases seekLine_spec f lineNo.toNat (by omega) with
          ⟨hno, heq⟩ | ⟨hcount, ⟨pos, rest, hrest, heq⟩ | ⟨hrest, msg, heq⟩⟩
        · simp [heq, hno]
        · simp only [heq, hrest, hcount, Option.map_some, ne_eq, reduceCtorEq, not_false_eq_true,
            forall_const, true_and]
          exact writeString_answers (s := { s with sdir := sdir }) hk hs hfile hstr
        · simp only [heq, hrest, hcount, Option.map_some, ne_eq, not_true_eq_false, false_imp_iff,
            true_and, iff_true]
          exact answers_error hs (seekLine_error_length heq)
      · simp only [hline, false_imp_iff, true_and, forall_const]
        exact writeString_answers (s := { s with sdir := sdir }) hk hs hfile hstr
    · simpa [hfind, hfound] using answers_error hs hmsg

/-- The line number is one that `server_request` accepts. -/
def Accepted (arg : Text) : Prop := (strToInt arg).2 ≠ -1 ∧ 1 ≤ (strToInt arg).1

lemma withLine_answers {s : Session} {overwrite : Bool} {arg : Text}
    {f : ℤ → Option (ℤ × Session)} (hs : s.sent = []) :
    Answers overwrite (withLine s arg f) ↔
      (Accepted arg → Answers overwrite (f (strToInt arg).1)) := by
  unfold withLine
  split_ifs with hbad
  · have hmsg : positiveLine.length < errMsgLen := by decide
    refine iff_of_true (answers_error hs hmsg) fun hok => ?_
    have := hok.1
    have := hok.2
    omega
  · rw [not_or] at hbad
    have hok : Accepted arg := ⟨hbad.1, by omega⟩
    simp only [hok, forall_const]

/-- What a command needs of the words behind it and of the system calls. -/
def Answerable (k : Kernel) (sdir : SafeDir) (overwrite : Bool) (args : List Text) :
    Command → Prop
  | .quit | .killServer => True
  | .help => args.length ≤ 1
  | .list => listing k.names ≠ [] ∧ (listing k.names).length < 512
  | .readF => match args with
    | [file] => ReadAnswered k sdir file (-1)
    | [file, line] => Accepted line → ReadAnswered k sdir file (strToInt line).1
    | _ => False
  | .writeT => match args with
    | [file, str] => WriteAnswered k sdir file str (-1)
    | [file, line, str] => Accepted line → WriteAnswered k sdir file str (strToInt line).1
    | _ => False
  | .upload => CopyAnswered k overwrite k.cwd args.head? k.serverDir
  | .download => CopyAnswered k overwrite k.serverDir args.head? k.cwd
  | .archServer => ∀ file, args.head? = some file → (k.serverDir ++ '/' :: file).length < 256

lemma cmdArchServer_answers {k : Kernel} {s : Session} {overwrite : Bool}
    {tarFile : Option Text} (hs : s.sent = []) (hmsg : s.errMsg.length < errMsgLen) :
    Answers overwrite (cmdArchServer k s tarFile) ↔
      ∀ file, tarFile = some file → (k.serverDir ++ '/' :: file).length < 256 := by
  have hname : archiveName.length < errMsgLen := by decide
  have herror : archiveError.length < errMsgLen := by decide
  unfold cmdArchServer
  cases tarFile with
  | none => exact iff_of_true (answers_error hs hname) (by simp)
  | some file =>
    simp only [Option.some.injEq, forall_eq']
    split_ifs with hlong hopen hfork
    · exact iff_of_false not_answers_none (by omega)
    · exact iff_of_true (answers_error hs hmsg) (by omega)
    · exact iff_of_true (answers_error hs herror) (by omega)
    · exact iff_of_true (answers_sent hs (Or.inl rfl) (by decide)) (by omega)

lemma cmdList_answers {k : Kernel} {s : Session} {overwrite : Bool} (hs : s.sent = []) :
    Answers overwrite (cmdList k s) ↔
      listing k.names ≠ [] ∧ (listing k.names).length < 512 := by
  unfold cmdList
  split_ifs with hfits
  · refine iff_of_true (answers_sent hs (Or.inl rfl) ?_) hfits.symm
    rw [List.length_append, List.length_dropLast, List.length_singleton, pipeBuf]
    omega
  · exact iff_of_false not_answers_none fun h => hfits h.symm

/-- A line number has been converted to an `int`. -/
lemma strToInt_lt (arg : Text) : (strToInt arg).1 < 2 ^ 31 :=
  Int.bmod_lt (by decide)

/-- The help texts arrive in one piece. -/
lemma length_argumentOfHelp_le (c : Command) :
    (cString (argumentOfHelp c.name)).length ≤ pipeBuf := by
  cases c <;> decide +kernel

lemma handle_answers {k : Kernel} {s : Session} {overwrite : Bool} {args : List Text}
    (hk : k.Bounded) (hs : s.sent = []) (hmsg : s.errMsg.length < errMsgLen)
    (hargs : ∀ arg, arg ∈ args → arg.length ≤ 63) (c : Command) :
    Answers overwrite (handle k s overwrite args c) ↔ Answerable k s.sdir overwrite args c := by
  cases c with
  | quit | killServer => exact iff_of_true (answers_sent hs (by simp) (Nat.zero_le _)) trivial
  | help =>
    rcases args with _ | ⟨arg, _ | ⟨arg', args⟩⟩
    · exact iff_of_true (answers_sent hs (Or.inl rfl) (by decide)) (Nat.zero_le 1)
    · refine iff_of_true ?_ le_rfl
      simp only [handle]
      cases commandOf arg with
      | none => exact answers_error hs (show unknownCommand.length < errMsgLen by decide)
      | some c => exact answers_sent hs (Or.inl rfl) (length_argumentOfHelp_le c)
    · exact iff_of_false (not_answers_silent hs) (by simp [Answerable])
  | list => exact cmdList_answers hs
  | readF =>
    rcases args with _ | ⟨file, _ | ⟨line, _ | ⟨arg, args⟩⟩⟩
    · exact iff_of_false (not_answers_silent hs) id
    · exact cmdReadF_answers hs hmsg (by decide)
    · exact (withLine_answers hs).trans
        (imp_congr_right fun _ => cmdReadF_answers hs hmsg (strToInt_lt line))
    · exact iff_of_false (not_answers_silent hs) id
  | writeT =>
    rcases args with _ | ⟨file, _ | ⟨line, _ | ⟨str, _ | ⟨arg, args⟩⟩⟩⟩
    · exact iff_of_false (not_answers_silent hs) id
    · exact iff_of_false (not_answers_silent hs) id
    · exact cmdWriteT_answers hk hs hmsg (hargs file (by simp)) (hargs line (by simp))
    · exact (withLine_answers hs).trans (imp_congr_right fun _ =>
        cmdWriteT_answers hk hs hmsg (hargs file (by simp)) (hargs str (by simp)))
    · exact iff_of_false (not_answers_silent hs) id
  | upload | download => exact cmdCopy_answers hk hs hmsg
  | archServer => exact cmdArchServer_answers hs hmsg

lemma commandOf_eq_some {cmd : Text} {c : Command} : commandOf cmd = some c ↔ cmd = c.name := by
  constructor
  · intro h
    have hc := List.find?_some h
    exact (of_decide_eq_true hc).symm
  · rintro rfl
    cases c <;> decide

/-- The names of the commands are single words. -/
lemma blank_of_mem_name {c : Command} {x : Char} (hx : x ∈ c.name) : blank x = false := by
  have hall : c.name.all (fun y => !blank y) = true := by
    cases c <;> decide
  simpa using List.all_eq_true.mp hall x hx

lemma takeWhile_blank_eq_nil {line : Text} : line.takeWhile blank = [] ↔ line.head? ≠ some ' ' := by
  cases line <;> simp [blank]

/-- The branch taken is the one named by the first word, unless the line starts
with a blank. -/
lemma commandOf_parseCommand {line : Text} {c : Command} :
    commandOf (parseCommand line).cmd = some c ↔
      line.head? ≠ some ' ' ∧ ∃ args, tokens blank line = c.name :: args := by
  rw [commandOf_eq_some, ← takeWhile_blank_eq_nil]
  unfold parseCommand
  rw [tokens_eq]
  cases hs : strtok blank line with
  | none =>
    simp only [reduceCtorEq, exists_false, and_false, iff_false]
    rintro rfl
    have hall := strtok_eq_none.mp hs
    obtain ⟨x, hx⟩ := List.exists_mem_of_ne_nil c.name (by cases c <;> decide)
    have hno := blank_of_mem_name hx
    rw [hall x hx] at hno
    cases hno
  | some r =>
    simp only [List.cons.injEq, exists_and_left, exists_eq', and_true]
    constructor
    · intro h
      have hnil : line.takeWhile blank = [] := by
        apply List.eq_nil_iff_forall_not_mem.mpr
        intro x hx
        have hmem : x ∈ c.name := h ▸ List.mem_append_left _ hx
        have hblank := List.mem_takeWhile_imp hx
        rw [blank_of_mem_name hmem] at hblank
        cases hblank
      rw [hnil, List.nil_append] at h
      exact ⟨hnil, h⟩
    · rintro ⟨hnil, h⟩
      rw [hnil, List.nil_append, h]

/-- The request gets one complete reply, which leaves the client ready and the
FIFO empty, whatever its reads return. -/
def OneReply (k : Kernel) (s : Session) (line : Text) (overwrite : Bool) : Prop :=
  ∃ t, serverRequest k s line overwrite = some t ∧ Replied overwrite t.sent ∧
    ∀ reads, clientLoop overwrite reads .header (t.sent.flatMap Message.cells) = some []

/-- The reply is complete when its bodies arrive in one piece. -/
lemma oneReply_iff {k : Kernel} {s : Session} {line : Text} {overwrite : Bool} :
    OneReply k s line overwrite ↔
      ∃ t, serverRequest k s line overwrite = some t ∧ Complete overwrite t.sent := by
  refine exists_congr fun t => and_congr_right fun _ => and_congr_right fun h => ?_
  exact ⟨fun hready => h.whole (hready oneByte), fun hwhole => h.clientLoop_eq hwhole⟩

lemma sent_finish (p : Parsed) (status : ℤ) (s : Session) :
    (finish p status s).sent = replyOf (status, s) := by
  unfold finish replyOf
  split_ifs with hstatus <;> simp [Session.send]

/-- What a handler leaves in `err_msg` fits, if what it found did. -/
def MessageFits (s t : Session) : Prop :=
  s.errMsg.length < errMsgLen → t.errMsg.length < errMsgLen

lemma MessageFits.same {s t : Session} (h : t.errMsg = s.errMsg) : MessageFits s t :=
  fun hs => by rwa [h]

lemma findSfile_messageFits {k : Kernel} {s t : Session} {name : Text}
    (h : findSfile k s name = some t) : MessageFits s t := by
  rcases findSfile_spec k s name with ⟨-, sdir, hfind⟩ | ⟨-, hfind⟩
  · rw [hfind] at h
    cases h
    exact .same rfl
  · rw [hfind] at h
    cases h

lemma copyOpened_messageFits {k : Kernel} {s : Session} {src : File} {srcFile : Option Text}
    {r : ℤ × Session} (h : copyOpened k s src srcFile = some r) : MessageFits s r.2 := by
  unfold copyOpened at h
  obtain ⟨name, -, rfl⟩ := Option.map_eq_some_iff.mp h
  cases hfind : findSfile k s name with
  | none => exact .same rfl
  | some t =>
    have hfits := findSfile_messageFits hfind
    dsimp only
    cases copyFile k src with
    | none => exact hfits
    | some bytes => exact hfits

lemma cmdCopy_messageFits {k : Kernel} {s : Session} {overwrite : Bool} {srcDir destDir : Text}
    {srcFile : Option Text} {r : ℤ × Session}
    (h : cmdCopy k s overwrite srcDir srcFile destDir = some r) : MessageFits s r.2 := by
  unfold cmdCopy at h
  dsimp only at h
  cases hopen : k.openRead (dirPath srcDir (srcFile.getD nullText)) with
  | none =>
    rw [hopen] at h
    cases h
    exact .same rfl
  | some src =>
    rw [hopen] at h
    dsimp only at h
    split_ifs at h with hnew hlong
    · exact copyOpened_messageFits h
    · cases h
      exact fun _ => not_le.mp hlong
    · cases h
      exact fun _ => not_le.mp hlong
    · exact fun _ => copyOpened_messageFits h (not_le.mp hlong)

lemma readLine_messageFits {k : Kernel} {s : Session} {f : File} {lineNo : ℕ} {r : ℤ × Session}
    (hint : lineNo ≤ 2 ^ 31) (h : readLine k s f lineNo = some r) : MessageFits s r.2 := by
  unfold readLine at h
  obtain ⟨found, hseek, h⟩ := Option.bind_eq_some_iff.mp h
  cases found with
  | error msg =>
    cases h
    exact fun _ => seekLine_error_length hseek
  | ok found =>
    obtain ⟨line, -, rfl⟩ := Option.map_eq_some_iff.mp h
    cases line with
    | none => exact fun _ => length_lineExceeded hint
    | some line => exact .same rfl

lemma readWhole_messageFits {k : Kernel} {s : Session} {f : File} {r : ℤ × Session}
    (h : readWhole k s f = some r) : MessageFits s r.2 := by
  unfold readWhole at h
  obtain ⟨conts, -, ⟨-, m, -, -, heq⟩ | ⟨-, heq⟩⟩ := sendPieces_file f s
  · rw [heq] at h
    cases h
    exact .same rfl
  · rw [heq] at h
    dsimp only at h
    split_ifs at h
    cases h
    exact .same rfl

lemma cmdReadF_messageFits {k : Kernel} {s : Session} {srcFile : Text} {lineNo : ℤ}
    {r : ℤ × Session} (hint : lineNo < 2 ^ 31) (h : cmdReadF k s srcFile lineNo = some r) :
    MessageFits s r.2 := by
  unfold cmdReadF at h
  cases hopen : k.openRead (dirPath k.serverDir srcFile) with
  | none =>
    rw [hopen] at h
    cases h
    exact .same rfl
  | some f =>
    rw [hopen] at h
    dsimp only at h
    cases hfind : findSfile k s srcFile with
    | none =>
      rw [hfind] at h
      split_ifs at h <;> cases h <;> exact .same rfl
    | some t =>
      rw [hfind] at h
      have hfits := findSfile_messageFits hfind
      dsimp only at h
      by_cases hfstat : k.fstat = false
      · rw [if_pos hfstat] at h
        cases h
        exact .same rfl
      rw [if_neg hfstat] at h
      by_cases henter : k.enterRegion = false
      · rw [if_pos henter] at h
        cases h
        exact hfits
      rw [if_neg henter] at h
      obtain ⟨q, hq, rfl⟩ := Option.map_eq_some_iff.mp h
      have hread : MessageFits t q.2 := by
        split_ifs at hq
        · exact readLine_messageFits (by omega) hq
        · exact readWhole_messageFits hq
      exact fun hs => hread (hfits hs)

lemma cmdWriteT_messageFits {k : Kernel} {s : Session} {srcFile str : Text} {lineNo : ℤ}
    {r : ℤ × Session} (h : cmdWriteT k s srcFile str lineNo = some r) : MessageFits s r.2 := by
  have hwrite : ∀ t : Session, (writeString k t srcFile str).2.errMsg = t.errMsg := by
    intro t
    unfold writeString
    cases k.write 0 str.length <;> rfl
  unfold cmdWriteT at h
  cases hopen : k.openWrite (dirPath k.serverDir srcFile) (decide (lineNo ≤ 0)) with
  | none =>
    rw [hopen] at h
    cases h
    exact .same rfl
  | some f =>
    rw [hopen] at h
    dsimp only at h
    cases hfind : findSfile k s srcFile with
    | none =>
      rw [hfind] at h
      cases h
      exact .same rfl
    | some t =>
      rw [hfind] at h
      have hfits := findSfile_messageFits hfind
      dsimp only at h
      split_ifs at h
      · obtain ⟨found, hseek, rfl⟩ := Option.map_eq_some_iff.mp h
        cases found with
        | error msg => exact fun _ => seekLine_error_length hseek
        | ok found => exact fun hs => MessageFits.same (hwrite t) (hfits hs)
      · cases h
        exact fun hs => MessageFits.same (hwrite t) (hfits hs)

lemma withLine_messageFits {s : Session} {arg : Text} {f : ℤ → Option (ℤ × Session)}
    {r : ℤ × Session} (h : withLine s arg f = some r)
    (hf : ∀ n, n < 2 ^ 31 → f n = some r → MessageFits s r.2) : MessageFits s r.2 := by
  rcases withLine_cases h with rfl | ⟨n, hline, hn⟩
  · exact fun _ => show positiveLine.length < errMsgLen by decide
  · exact hf n (eq_of_acceptedLine hline ▸ strToInt_lt arg) hn

/-- Every handler leaves a message that fits. -/
lemma handle_messageFits {k : Kernel} {s : Session} {overwrite : Bool} {args : List Text}
    {c : Command} {r : ℤ × Session} (h : handle k s overwrite args c = some r) :
    MessageFits s r.2 := by
  cases c with
  | quit | killServer =>
    cases h
    exact .same rfl
  | help =>
    rcases args with _ | ⟨arg, _ | ⟨arg', args⟩⟩
    · cases h
      exact .same rfl
    · simp only [handle] at h
      cases harg : commandOf arg with
      | none =>
        rw [harg] at h
        cases h
        exact fun _ => show unknownCommand.length < errMsgLen by decide
      | some c =>
        rw [harg] at h
        cases h
        exact .same rfl
    · cases h
      exact .same rfl
  | list =>
    simp only [handle, cmdList] at h
    split_ifs at h
    cases h
    exact .same rfl
  | readF =>
    rcases args with _ | ⟨file, _ | ⟨arg, _ | ⟨arg', args⟩⟩⟩
    · cases h
      exact .same rfl
    · exact cmdReadF_messageFits (by decide) h
    · exact withLine_messageFits h fun n hn hf => cmdReadF_messageFits hn hf
    · cases h
      exact .same rfl
  | writeT =>
    rcases args with _ | ⟨file, _ | ⟨arg, _ | ⟨str, _ | ⟨arg', args⟩⟩⟩⟩
    · cases h
      exact .same rfl
    · cases h
      exact .same rfl
    · exact cmdWriteT_messageFits h
    · exact withLine_messageFits h fun n _ hf => cmdWriteT_messageFits hf
    · cases h
      exact .same rfl
  | upload | download => exact cmdCopy_messageFits h
  | archServer =>
    cases hfile : args.head? with
    | none =>
      simp only [handle, cmdArchServer, hfile, Option.some.injEq] at h
      subst h
      exact fun _ => show archiveName.length < errMsgLen by decide
    | some file =>
      simp only [handle, cmdArchServer, hfile] at h
      split_ifs at h <;> cases h
      · exact .same rfl
      · exact fun _ => show archiveError.length < errMsgLen by decide
      · exact .same rfl

/-- After a request `err_msg` holds a string again. -/
theorem serverRequest_messageFits {k : Kernel} {s t : Session} {line : Text} {overwrite : Bool}
    (h : serverRequest k s line overwrite = some t) : MessageFits s t := by
  have hfinish : ∀ (p : Parsed) (status : ℤ) (u : Session),
      (finish p status u).errMsg = u.errMsg := by
    intro p status u
    unfold finish
    split_ifs <;> rfl
  unfold serverRequest at h
  dsimp only at h
  generalize hu : ({ s with
    sent := [], log := s.log ++ [LogEntry.request (parseCommand line).cmd] } : Session) = u at h
  have hsame : MessageFits s u := .same (by rw [← hu])
  split_ifs at h
  cases hc : commandOf (parseCommand line).cmd with
  | none =>
    rw [hc] at h
    cases h
    exact fun hs => MessageFits.same (hfinish _ _ _) (hsame hs)
  | some c =>
    rw [hc] at h
    obtain ⟨r, hr, rfl⟩ := Option.map_eq_some_iff.mp h
    exact fun hs => MessageFits.same (hfinish _ _ _) (handle_messageFits hr (hsame hs))

end SystemProgramming.FileServer
