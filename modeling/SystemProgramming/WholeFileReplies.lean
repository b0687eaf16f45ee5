import Mathlib.Data.List.GetD
import SystemProgramming.LineReplies

/-!
# Reading a whole file

`readF` without a line number sends a file in the pieces that `read` returns, and
marks the end by `RESP_OK`. The client allocates each body, ends it by a NUL and
prints it. This module says when the end is marked, and what the client stores and
prints.
-/
namespace SystemProgramming.WholeFileReplies
open SystemProgramming.LineReader SystemProgramming.FileServer SystemProgramming.LineReplies
open SystemProgramming.LineOverwrite (twoLines twoLinesKernel emptySession)

/-- The bodies are the content. All messages but the last are marked `RESP_CONT`, the last
`RESP_OK`. -/
def Framed (messages : List Message) (content : Text) : Prop :=
  ∃ conts last, messages = conts ++ [last] ∧ (∀ m, m ∈ conts → m.stat = .cont) ∧
    last.stat = .ok ∧ (messages.map Message.body).flatten = content

/-- `cmd_readF` sends the content and returns 0. -/
def SentWhole (k : Kernel) (s : Session) (srcFile : Text) (lineNo : ℤ) (content : Text) : Prop :=
  ∃ t messages, cmdReadF k s srcFile lineNo = some (0, t) ∧ t.sent = s.sent ++ messages ∧
    Framed messages content

/-- Messages without an end are not framed. -/
lemma not_framed {messages : List Message} {content : Text}
    (h : ∀ m, m ∈ messages → m.stat = .cont) : ¬ Framed messages content := by
  rintro ⟨conts, last, rfl, -, hlast, -⟩
  have hcont := h last (by simp)
  rw [hlast] at hcont
  cases hcont

/-- A file without read errors is sent whole just when it has a size which is an `int`,
the variable `status` happens to be zero, and no other call fails. -/
theorem sent_whole_iff {k : Kernel} {s : Session} {srcFile : Text} {f : File} {lineNo : ℤ}
    (hopen : k.openRead (dirPath k.serverDir srcFile) = some f) (hread : f.readError = false)
    (hline : lineNo ≤ 0) :
    SentWhole k s srcFile lineNo f.content ↔
      Reached k s.sdir srcFile ∧ k.exitRegion = true ∧ k.status = 0 ∧
        0 < f.content.length ∧ f.content.length < 2 ^ 31 := by
  have hcontent : f.content.length = f.size := f.content_eq hread
  rw [hcontent]
  unfold SentWhole
  by_cases hreach : Reached k s.sdir srcFile
  · obtain ⟨sdir, hrun⟩ := cmdReadF_reached lineNo hopen hreach
    rw [hrun, if_neg (not_lt.mpr hline)]
    obtain ⟨conts, hconts, ⟨⟨-, hsize⟩, m, hm, hbodies, heq⟩ | ⟨hno, heq⟩⟩ :=
      sendPieces_file f { s with sdir := sdir }
    · simp only [readWhole, heq, Option.map_some, leaveRegion, Option.some.injEq, Prod.mk.injEq]
      have hframed : Framed (conts ++ [m]) f.content := ⟨conts, m, rfl, hconts, hm, hbodies⟩
      constructor
      · rintro ⟨t, messages, ⟨hstatus, -⟩, -⟩
        cases hexit : k.exitRegion with
        | true => exact ⟨hreach, rfl, by simpa [hexit] using hstatus, hsize⟩
        | false => simp [hexit] at hstatus
      · rintro ⟨-, hexit, hstatus, -⟩
        exact ⟨_, _, ⟨by simp [hexit, hstatus], rfl⟩, rfl, hframed⟩
    · simp only [readWhole, heq, hread, Bool.false_eq_true, if_false, Option.map_some, leaveRegion,
        Option.some.injEq, Prod.mk.injEq]
      constructor
      · rintro ⟨t, messages, ⟨-, rfl⟩, hsent, hframed⟩
        rw [← List.append_cancel_left hsent] at hframed
        exact absurd hframed (not_framed hconts)
      · rintro ⟨-, -, -, hsize⟩
        exact absurd ⟨hcontent, hsize⟩ hno
  · obtain ⟨t, ht⟩ := cmdReadF_unreached lineNo hopen hreach
    simp [ht, hreach]

/-- A file of two lines is sent, if `status` happens to be zero. -/
theorem sent_whole_two_lines : SentWhole twoLinesKernel emptySession ['f'] (-1) twoLines.content :=
  (sent_whole_iff (k := twoLinesKernel) rfl rfl (by decide)).mpr
    ⟨⟨rfl, Or.inr rfl, rfl⟩, rfl, rfl, by decide, by decide⟩

def emptyFile : File := ⟨0, [], false, by simp, by simp, by simp⟩

/-- The calls of a request for an empty file. -/
def emptyFileKernel : Kernel := { twoLinesKernel with openRead := fun _ => some emptyFile }

/-- For an empty file nothing is sent. -/
theorem nothing_sent : ∃ t, cmdReadF emptyFileKernel emptySession ['f'] (-1) = some (0, t) ∧
    t.sent = [] ∧ ¬ SentWhole emptyFileKernel emptySession ['f'] (-1) emptyFile.content := by
  refine ⟨_, rfl, rfl, ?_⟩
  rintro ⟨t, messages, hrun, hsent, conts, last, rfl, -⟩
  cases hrun
  have hlen := congrArg List.length hsent
  simp [emptySession] at hlen

/-- What the client meets with the `i`-th message of a request: whether it reads the
header, whether `malloc` succeeds and what the memory it returns contains, also behind its
end, and how many bytes of the body `read` returns. -/
structure ClientCalls where
  header : ℕ → Bool
  malloc : ℕ → Bool
  memory : ℕ → ℕ → Char
  readBody : ℕ → ℕ

/-- What the client stores for the bodies of a request, with the size passed to `malloc`,
and what it prints behind the newline of each message. -/
structure Receipt where
  stores : List Store
  texts : List Text

/-- The stores of a `read` into a buffer. -/
def readStores (bytes : Text) (size : ℕ) : List Store :=
  (List.range bytes.length).map fun j => ⟨j, size⟩

/-- The store of the NUL at `resp_data[resp.data_size + 1]`. -/
def nulStore (dataSize : ℕ) : Store := ⟨dataSize + 1, dataSize + 1⟩

/-- The buffer when the body and the NUL have been stored. -/
def respData (memory : ℕ → Char) (body : Text) (j : ℕ) : Char :=
  if j = body.length + 1 then '\x00' else body.getD j (memory j)

/-- `printf("%s", resp_data)`: the NUL that ends it stands at `data_size + 1` or before. -/
def printString (data : ℕ → Char) (dataSize : ℕ) : Text :=
  ((List.range (dataSize + 2)).map data).takeWhile (· ≠ '\x00')

/-- The receive loop of the client from the `i`-th message on. -/
def receive (c : ClientCalls) : List Message → ℕ → Receipt
  | [], _ => ⟨[], []⟩
  | m :: messages, i =>
    if c.header i = false then ⟨[], []⟩
    else
      let more := if m.stat = .cont then receive c messages (i + 1) else ⟨[], []⟩
      if m.stat = .disconnect ∨ m.body = [] then ⟨more.stores, [] :: more.texts⟩
      else if c.malloc i = false then ⟨[], [[]]⟩
      else
        let bytes := m.body.take (c.readBody i)
        let stores := readStores bytes (m.body.length + 1)
        if bytes.length < m.body.length then ⟨stores, [[]]⟩
        else ⟨stores ++ nulStore m.body.length :: more.stores,
          printString (respData (c.memory i) m.body) m.body.length :: more.texts⟩

/-- All stores lie inside the buffers, and the text that is printed is the content. -/
def Shown (c : ClientCalls) (messages : List Message) (content : Text) : Prop :=
  (∀ p, p ∈ (receive c messages 0).stores → p.index < p.size) ∧
    (receive c messages 0).texts.flatten = content

/-- A client that stores inside its buffers prints nothing. -/
lemma printed_nothing (c : ClientCalls) (messages : List Message) (i : ℕ)
    (h : ∀ p, p ∈ (receive c messages i).stores → p.index < p.size) :
    (receive c messages i).texts.flatten = [] := by
  have hbehind : ∀ n, ¬ (nulStore n).index < (nulStore n).size := fun n => lt_irrefl (n + 1)
  induction messages generalizing i with
  | nil => rfl
  | cons m messages ih =>
    unfold receive at h ⊢
    dsimp only at h ⊢
    split_ifs at h ⊢
    · rfl
    · simpa using ih (i + 1) h
    · rfl
    · rfl
    · rfl
    · exact absurd (h (nulStore m.body.length) (by simp)) (hbehind _)
    · exact absurd (h (nulStore m.body.length) (by simp)) (hbehind _)

/-- What is printed for a body: the byte behind it is not stored. -/
lemma printString_respData (memory : ℕ → Char) (body : Text) :
    printString (respData memory body) body.length =
      (body ++ [memory body.length]).takeWhile (· ≠ '\x00') := by
  have hdata : (List.range (body.length + 2)).map (respData memory body) =
      (body ++ [memory body.length]) ++ ['\x00'] := by
    refine List.ext_getElem (by simp) fun j hj _ => ?_
    rw [List.length_map, List.length_range] at hj
    rw [List.getElem_map, List.getElem_range, respData]
    by_cases hlast : j = body.length + 1
    · simp [hlast]
    · rw [if_neg hlast, List.getElem_append_left (by simp; omega)]
      by_cases hbody : j < body.length
      · rw [List.getElem_append_left hbody, List.getD_eq_getElem _ _ hbody]
      · obtain rfl : j = body.length := by omega
        simp
  rw [printString, hdata, List.takeWhile_append]
  split_ifs with hall
  · have hpre := List.takeWhile_prefix (l := body ++ [memory body.length]) fun c => c ≠ '\x00'
    rw [hpre.eq_of_length hall]
    simp
  · rfl

/-- The calls for the messages from the `i`-th on succeed. -/
def Succeeding (c : ClientCalls) (messages : List Message) (i : ℕ) : Prop :=
  ∀ j m, messages[j]? = some m → m.body ≠ [] ∧ c.header (i + j) = true ∧
    c.malloc (i + j) = true ∧ m.body.length ≤ c.readBody (i + j)

lemma Succeeding.tail {c : ClientCalls} {m : Message} {messages : List Message} {i : ℕ}
    (h : Succeeding c (m :: messages) i) : Succeeding c messages (i + 1) := by
  intro j m' hm'
  have hj := h (j + 1) m' (by simpa using hm')
  rwa [show i + (j + 1) = i + 1 + j by omega] at hj

/-- What is printed if every call succeeds. -/
lemma receive_texts (c : ClientCalls) {conts : List Message} {last : Message} (i : ℕ)
    (hconts : ∀ m, m ∈ conts → m.stat = .cont) (hlast : last.stat = .ok)
    (hcalls : Succeeding c (conts ++ [last]) i) :
    (receive c (conts ++ [last]) i).texts = (conts ++ [last]).mapIdx fun j m =>
      (m.body ++ [c.memory (i + j) m.body.length]).takeWhile (· ≠ '\x00') := by
  induction conts generalizing i with
  | nil =>
    obtain ⟨hne, hheader, hmalloc, hread⟩ := hcalls 0 last rfl
    rw [Nat.add_zero] at hheader hmalloc hread
    simp [receive, hheader, hmalloc, hne, hlast, List.take_of_length_le hread,
      printString_respData]
  | cons m conts ih =>
    obtain ⟨hne, hheader, hmalloc, hread⟩ := hcalls 0 m rfl
    rw [Nat.add_zero] at hheader hmalloc hread
    have hrest := ih (i + 1) (fun m' hm' => hconts m' (List.mem_cons_of_mem m hm')) hcalls.tail
    have hcont := hconts m List.mem_cons_self
    have hhead : (receive c (m :: (conts ++ [last])) i).texts =
        printString (respData (c.memory i) m.body) m.body.length ::
          (receive c (conts ++ [last]) (i + 1)).texts := by
      simp [receive, hheader, hmalloc, hne, hcont, List.take_of_length_le hread]
    rw [List.cons_append, hhead, hrest, List.mapIdx_cons]
    simp only [Nat.add_zero, Nat.add_assoc, Nat.add_comm 1, printString_respData]

/-- A text with the byte behind it, up to a NUL. -/
lemma takeWhile_behind {body : Text} (c : Char) (h : '\x00' ∉ body) :
    (body ++ [c]).takeWhile (· ≠ '\x00') = body ++ if c = '\x00' then [] else [c] := by
  rw [List.takeWhile_append_of_pos fun a ha => by
    simpa using fun heq : a = '\x00' => h (heq ▸ ha)]
  by_cases hc : c = '\x00' <;> simp [hc]

/-- Bytes that are no part of the content are printed unless each is a NUL. -/
lemma printed_iff {messages : List Message} (memory : ℕ → ℕ → Char)
    (h : '\x00' ∉ (messages.map Message.body).flatten) :
    (messages.map Message.body).flatten.length ≤ (messages.mapIdx fun j m =>
        (m.body ++ [memory j m.body.length]).takeWhile (· ≠ '\x00')).flatten.length ∧
      ((messages.mapIdx fun j m =>
          (m.body ++ [memory j m.body.length]).takeWhile (· ≠ '\x00')).flatten =
        (messages.map Message.body).flatten ↔
      ∀ j m, messages[j]? = some m → memory j m.body.length = '\x00') := by
  induction messages generalizing memory with
  | nil => simp
  | cons m messages ih =>
    rw [List.map_cons, List.flatten_cons, List.mem_append, not_or] at h
    obtain ⟨hle, hiff⟩ := ih (fun j => memory (j + 1)) h.2
    rw [List.mapIdx_cons, List.map_cons, List.flatten_cons, List.flatten_cons,
      takeWhile_behind _ h.1]
    refine ⟨by simp only [List.length_append]; omega, ?_⟩
    constructor
    · intro heq
      have hlen := congrArg List.length heq
      by_cases hnul : memory 0 m.body.length = '\x00'
      · rw [if_pos hnul, List.append_nil, List.append_right_inj] at heq
        intro j m' hm'
        cases j with
        | zero => cases hm'; exact hnul
        | succ j => exact hiff.mp heq j m' (by simpa using hm')
      · rw [if_neg hnul] at hlen
        simp only [List.length_append, List.length_singleton] at hlen
        omega
    · intro hall
      rw [if_pos (hall 0 m rfl), List.append_nil, List.append_right_inj]
      exact hiff.mpr fun j m' hm' => hall (j + 1) m' (by simpa using hm')

/-- No content that is not empty is shown: the NUL is stored behind the buffer. The text is
the content just when the content holds no NUL and every body happens to have one behind
it. -/
theorem not_shown (c : ClientCalls) {messages : List Message} {content : Text}
    (hframed : Framed messages content) (hne : content ≠ []) :
    ¬ Shown c messages content ∧ (Succeeding c messages 0 →
      ((receive c messages 0).texts.flatten = content ↔ '\x00' ∉ content ∧
        ∀ j m, messages[j]? = some m → c.memory j m.body.length = '\x00')) := by
  refine ⟨fun hshown => hne ?_, fun hcalls => ?_⟩
  · exact hshown.2.symm.trans (printed_nothing c messages 0 hshown.1)
  · obtain ⟨conts, last, rfl, hconts, hlast, rfl⟩ := hframed
    simp only [receive_texts c 0 hconts hlast hcalls, Nat.zero_add]
    constructor
    · intro heq
      have hfree : '\x00' ∉ ((conts ++ [last]).map Message.body).flatten := by
        rw [← heq, List.mem_flatten]
        rintro ⟨text, htext, hmem⟩
        obtain ⟨j, hj, rfl⟩ := List.mem_mapIdx.mp htext
        simpa using List.mem_takeWhile_imp hmem
      exact ⟨hfree, (printed_iff c.memory hfree).2.mp heq⟩
    · rintro ⟨hfree, hall⟩
      exact (printed_iff c.memory hfree).2.mpr hall

/-- A client without failing calls whose memory is all zeros. -/
def zeroMemory : ClientCalls := ⟨fun _ => true, fun _ => true, fun _ _ => '\x00', fun _ => buffSize⟩

/-- The reply to a request for the file of two lines is not shown. -/
theorem two_lines_not_shown : ∃ t, cmdReadF twoLinesKernel emptySession ['f'] (-1) = some (0, t) ∧
    ¬ Shown zeroMemory t.sent twoLines.content := by
  have hframed : Framed [⟨.ok, twoLines.content⟩] twoLines.content :=
    ⟨[], ⟨.ok, twoLines.content⟩, rfl, by simp, rfl, by simp⟩
  exact ⟨_, rfl, (not_shown zeroMemory hframed (by decide)).1⟩

/-- The content is printed, and a NUL is stored at index 5 of a buffer of 5 bytes. -/
theorem nul_behind_body : ∃ t, cmdReadF twoLinesKernel emptySession ['f'] (-1) = some (0, t) ∧
    (receive zeroMemory t.sent 0).texts.flatten = twoLines.content ∧
    (⟨5, 5⟩ : Store) ∈ (receive zeroMemory t.sent 0).stores ∧
    ¬ Shown zeroMemory t.sent twoLines.content := by
  have hstore : (⟨5, 5⟩ : Store) ∈
      (receive zeroMemory [⟨.ok, twoLines.content⟩] 0).stores := by decide
  refine ⟨_, rfl, by decide, hstore, ?_⟩
  rintro ⟨hall, -⟩
  exact absurd (hall _ hstore) (by decide)

end SystemProgramming.WholeFileReplies
