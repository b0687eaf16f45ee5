import SystemProgramming.LineOverwrite

/-!
# What a transfer leaves behind

`upload` and `download` copy one file to another. Here the disk is a part of the
state, and the calls that talk to the client may fail, too. This module says what is
in the destination after a transfer that has succeeded and after one that has
failed.
-/
namespace SystemProgramming.FileTransfer
open SystemProgramming.LineReader SystemProgramming.FileServer SystemProgramming.LockTable
open SystemProgramming.ByteFile (writeAt writeAt_self writeAt_length)
open SystemProgramming.LineOverwrite (twoLines twoLinesKernel emptySession)
open SystemProgramming.ReadersWriters (fnameLen initSfile)

/-- The content of each file, if it exists. -/
abbrev Disk (ι : Type*) := ι → Option Text

/-- What the calls of `cmd_copy` answer, beside those of the kernel: the file that a path
names, how many bytes the `i`-th `read` may return, whether the question reaches the
client, what is read as its answer, and whether the reply reaches it. -/
structure CopyCalls (ι : Type*) where
  kernel : Kernel
  fileOf : Text → ι
  read : ℕ → Option ℕ
  askWritten : Bool
  answer : Option Bool
  replyWritten : Bool
  read_pos : ∀ i n, read i = some n → 0 < n ∧ n ≤ buffSize

/-- The file in a directory that the request names. -/
def CopyCalls.file {ι : Type*} (c : CopyCalls ι) (dir : Text) (srcFile : Option Text) : ι :=
  c.fileOf (dirPath dir (srcFile.getD nullText))

section
variable {ι : Type*} [DecidableEq ι]

/-- The destination is created, or truncated. -/
def Disk.opened (disk : Disk ι) (dest : ι) : Disk ι := Function.update disk dest (some [])

def Disk.write (disk : Disk ι) (dest : ι) (pos : ℕ) (data : Text) : Disk ι :=
  Function.update disk dest (some (writeAt ((disk dest).getD []) pos data))

/-- Writing to a file what has been read at the same offset of a file does not change the
source. -/
lemma write_source (disk : Disk ι) (src dest : ι) (pos n : ℕ) :
    ((disk.write dest pos ((((disk src).getD []).drop pos).take n)) src).getD [] =
      (disk src).getD [] := by
  unfold Disk.write
  by_cases hsame : src = dest
  · subst hsame
    rw [Function.update_self, Option.getD_some]
    refine writeAt_self ?_
    rw [List.length_take, ← List.take_take, List.take_length]
  · rw [Function.update_of_ne hsame]

/-- The loop of `copy_file`; `pos` is the offset of both files and the number of bytes
transferred. It ends at the end of the source, when `read` fails, and when `write` does
not write the whole piece. -/
def copyLoopDisk (c : CopyCalls ι) (src dest : ι) (disk : Disk ι) (i pos : ℕ) :
    Disk ι × Option ℕ :=
  match c.read i with
  | none => (disk, some pos)
  | some n =>
    let piece := (((disk src).getD []).drop pos).take n
    if piece = [] then (disk, some pos)
    else match c.kernel.write i piece.length with
      | none => (disk, none)
      | some m =>
        if m = piece.length then
          copyLoopDisk c src dest (disk.write dest pos piece) (i + 1) (pos + piece.length)
        else (disk.write dest pos (piece.take m), none)
termination_by ((disk src).getD []).length - pos
decreasing_by
  rename_i hpiece _
  have hlen := List.length_pos_iff.mpr hpiece
  rw [write_source]
  rw [List.length_take, List.length_drop] at hlen ⊢
  omega

def copyFileDisk (c : CopyCalls ι) (src dest : ι) (disk : Disk ι) : Disk ι × Option ℕ :=
  if c.kernel.enterRegion = false then (disk, none)
  else match copyLoopDisk c src dest disk 0 0 with
    | (disk, none) => (disk, none)
    | (disk, some bytes) => (disk, if c.kernel.exitRegion = false then none else some bytes)

/-- `cmd_copy` once both files are open. -/
def copyOpenedDisk (c : CopyCalls ι) (s : Session) (disk : Disk ι) (src dest : ι)
    (srcFile : Option Text) : Option (ℤ × Session × Disk ι) :=
  srcFile.map fun name =>
    match findSfile c.kernel s name with
    | none => (-1, s, disk)
    | some s => match copyFileDisk c src dest disk with
      | (disk, none) => (-1, s, disk)
      | (disk, some bytes) =>
        if c.replyWritten = false then (-1, s, disk)
        else (0, s.send ⟨.ok, cString (bytesTransferred bytes)⟩, disk)

def cmdCopyDisk (c : CopyCalls ι) (s : Session) (disk : Disk ι) (srcDir : Text)
    (srcFile : Option Text) (destDir : Text) : Option (ℤ × Session × Disk ι) :=
  let file := srcFile.getD nullText
  let src := c.file srcDir srcFile
  let dest := c.file destDir srcFile
  if (c.kernel.openRead (dirPath srcDir file)).isSome = false ∨ disk src = none then
    some (-1, s, disk)
  else if c.kernel.createNew (dirPath destDir file) = true ∧ disk dest = none then
    copyOpenedDisk c s (disk.opened dest) src dest srcFile
  else if errMsgLen ≤ (approveQuestion file).length then none
  else
    let s := { s with errMsg := approveQuestion file }
    if c.askWritten = false then some (-1, s, disk)
    else
      let s := s.send ⟨.approve, cString s.errMsg⟩
      match c.answer with
      | none => some (-1, s, disk)
      | some false => some (0, s, disk)
      | some true =>
        if c.kernel.truncate (dirPath destDir file) = false then some (-1, s, disk)
        else copyOpenedDisk c s (disk.opened dest) src dest srcFile

/-- The pieces in which the source is read from the `i`-th call on. -/
def readPieces (read : ℕ → Option ℕ) (i : ℕ) (rest : Text) : List Text :=
  match read i with
  | none => []
  | some n => if rest.take n = [] then [] else rest.take n :: readPieces read (i + 1) (rest.drop n)
termination_by rest.length
decreasing_by
  rename_i hpiece
  have hlen := List.length_pos_iff.mpr hpiece
  rw [List.length_take] at hlen
  rw [List.length_drop]
  omega

/-- What the loop writes of the pieces. -/
def copied (k : Kernel) : List Text → ℕ → Text
  | [], _ => []
  | piece :: pieces, i =>
    match k.write i piece.length with
    | none => []
    | some m => if m = piece.length then piece ++ copied k pieces (i + 1) else piece.take m

/-- The loop appends to the destination what it writes of the pieces. -/
lemma copyLoopDisk_spec (c : CopyCalls ι) (src dest : ι) (i : ℕ) (rest : Text) {disk : Disk ι}
    {done : Text} (hdest : disk dest = some done)
    (hrest : ((disk src).getD []).drop done.length = rest) :
    copyLoopDisk c src dest disk i done.length =
      (Function.update disk dest (some (done ++ copied c.kernel (readPieces c.read i rest) i)),
        copyLoop c.kernel (readPieces c.read i rest) i done.length) := by
  induction i, rest using readPieces.induct c.read generalizing disk done with
  | case1 i rest hread =>
    rw [copyLoopDisk, readPieces]
    simp [hread, copied, copyLoop, ← hdest]
  | case2 i rest n hread hend =>
    rw [copyLoopDisk, readPieces]
    simp [hread, hrest, hend, copied, copyLoop, ← hdest]
  | case3 i rest n hread hend ih =>
    have hwrite : ∀ data, disk.write dest done.length data =
        Function.update disk dest (some (done ++ data)) := by
      intro data
      rw [Disk.write, hdest, Option.getD_some, writeAt_length]
    rw [copyLoopDisk, readPieces]
    simp only [hread, hrest, hend, if_false, copied, copyLoop]
    cases hw : c.kernel.write i (rest.take n).length with
    | none => simp [← hdest]
    | some m =>
      by_cases hfull : m = (rest.take n).length
      · have hsource := write_source disk src dest done.length n
        rw [hrest] at hsource
        have hdone : disk.write dest done.length (rest.take n) dest =
            some (done ++ rest.take n) := by rw [hwrite, Function.update_self]
        have hnext := ih hdone (by
          rw [hsource, List.length_append, ← List.drop_drop, hrest, List.length_take]
          rcases Nat.le_total n rest.length with hle | hle
          · rw [Nat.min_eq_left hle]
          · rw [Nat.min_eq_right hle, List.drop_length, List.drop_of_length_le hle])
        rw [List.length_append, hwrite, Function.update_idem, List.append_assoc] at hnext
        simp only [hfull, if_true, hwrite, hnext]
      · simp only [hfull, if_false, hwrite, Option.some.injEq]

end

/-- Without a failed write the loop writes all pieces and counts them. -/
lemma copied_of_copyLoop {k : Kernel} {pieces : List Text} {i bytes n : ℕ}
    (h : copyLoop k pieces i bytes = some n) :
    copied k pieces i = pieces.flatten ∧ n = bytes + pieces.flatten.length := by
  induction pieces generalizing i bytes with
  | nil =>
    rw [copyLoop, Option.some.injEq] at h
    simp [copied, h]
  | cons piece pieces ih =>
    rw [copyLoop, Option.ite_none_right_eq_some] at h
    obtain ⟨hrest, hn⟩ := ih h.2
    rw [copied, h.1]
    simp only [if_true, hrest, List.flatten_cons, List.length_append, true_and]
    omega

/-- What is written of the pieces is their beginning. -/
lemma copied_isPrefix (k : Kernel) (pieces : List Text) (i : ℕ) :
    copied k pieces i <+: pieces.flatten := by
  induction pieces generalizing i with
  | nil => exact List.prefix_rfl
  | cons piece pieces ih =>
    rw [copied, List.flatten_cons]
    cases k.write i piece.length with
    | none => exact List.nil_prefix
    | some m =>
      dsimp only
      split_ifs
      · exact (List.prefix_append_right_inj piece).mpr (ih (i + 1))
      · have htake := List.take_prefix m piece
        exact htake.trans (List.prefix_append piece _)

/-- The pieces are the beginning of the source. -/
lemma flatten_readPieces_isPrefix (read : ℕ → Option ℕ) (i : ℕ) (rest : Text) :
    (readPieces read i rest).flatten <+: rest := by
  induction i, rest using readPieces.induct read with
  | case1 i rest hread => simp [readPieces, hread]
  | case2 i rest n hread hend => simp [readPieces, hread, hend]
  | case3 i rest n hread hend ih =>
    rw [readPieces]
    simp only [hread, hend, if_false, List.flatten_cons]
    nth_rewrite 3 [← List.take_append_drop n rest]
    exact (List.prefix_append_right_inj _).mpr ih

/-- No call of `read` fails while bytes are left. -/
inductive ReadsAll (read : ℕ → Option ℕ) : ℕ → Text → Prop
  | done (i : ℕ) : ReadsAll read i []
  | more {i n : ℕ} {rest : Text} (hread : read i = some n)
      (h : ReadsAll read (i + 1) (rest.drop n)) : ReadsAll read i rest

/-- The pieces are the source just when no call of `read` fails before its end. -/
lemma flatten_readPieces {read : ℕ → Option ℕ} (hpos : ∀ i n, read i = some n → 0 < n) (i : ℕ)
    (rest : Text) : (readPieces read i rest).flatten = rest ↔ ReadsAll read i rest := by
  constructor
  · intro h
    induction i, rest using readPieces.induct read with
    | case1 i rest hread =>
      rw [readPieces, hread, List.flatten_nil] at h
      exact h ▸ .done i
    | case2 i rest n hread hend =>
      rw [readPieces, hread] at h
      simp only [hend, if_true, List.flatten_nil] at h
      exact h ▸ .done i
    | case3 i rest n hread hend ih =>
      rw [readPieces, hread] at h
      simp only [hend, if_false, List.flatten_cons] at h
      nth_rewrite 3 [← List.take_append_drop n rest] at h
      exact .more hread (ih (List.append_cancel_left h))
  · intro h
    induction h with
    | done i => exact List.prefix_nil.mp (flatten_readPieces_isPrefix read i [])
    | @more i n rest hread h ih =>
      rw [readPieces, hread]
      dsimp only
      split_ifs with hend
      · rcases List.take_eq_nil_iff.mp hend with hzero | hnil
        · exact absurd hzero (hpos i n hread).ne'
        · rw [hnil, List.flatten_nil]
      · rw [List.flatten_cons, ih, List.take_append_drop]

/-- The bytes that a transfer has written: none unless it has entered the region. -/
def Transferred {ι : Type*} (c : CopyCalls ι) (sdir : SafeDir) (name source bytes : Text) : Prop :=
  (Findable c.kernel sdir name ∧ c.kernel.enterRegion = true) ∧
      bytes = copied c.kernel (readPieces c.read 0 source) 0 ∨
    ¬ (Findable c.kernel sdir name ∧ c.kernel.enterRegion = true) ∧ bytes = []

lemma Transferred.isPrefix {ι : Type*} {c : CopyCalls ι} {sdir : SafeDir}
    {name source bytes : Text}
    (h : Transferred c sdir name source bytes) : bytes <+: source := by
  rcases h with ⟨-, rfl⟩ | ⟨-, rfl⟩
  · exact (copied_isPrefix _ _ _).trans (flatten_readPieces_isPrefix _ _ _)
  · exact List.nil_prefix

section
variable {ι : Type*} [DecidableEq ι]

/-- What there is to read of the source then. -/
def Disk.source (disk : Disk ι) (src dest : ι) : Text := ((disk.opened dest) src).getD []

lemma source_same (disk : Disk ι) (src : ι) : disk.source src src = [] := by
  rw [Disk.source, Disk.opened, Function.update_self, Option.getD_some]

lemma source_other (disk : Disk ι) {src dest : ι} (h : src ≠ dest) :
    disk.source src dest = (disk src).getD [] := by
  rw [Disk.source, Disk.opened, Function.update_of_ne h]

lemma source_isPrefix (disk : Disk ι) (src dest : ι) :
    disk.source src dest <+: (disk src).getD [] := by
  rcases eq_or_ne src dest with rfl | hother
  · rw [source_same]
    exact List.nil_prefix
  · rw [source_other disk hother]

/-- The whole source is read just when no call of `read` fails before its end, and it has
not been lost. -/
lemma flatten_source (c : CopyCalls ι) {disk : Disk ι} {src : ι} (dest : ι) {content : Text}
    (hsrc : disk src = some content) :
    (readPieces c.read 0 (disk.source src dest)).flatten = content ↔
      ReadsAll c.read 0 content ∧ (src ≠ dest ∨ content = []) := by
  rcases eq_or_ne src dest with rfl | hother
  · rw [source_same, List.prefix_nil.mp (flatten_readPieces_isPrefix c.read 0 [])]
    constructor
    · rintro rfl
      exact ⟨.done 0, Or.inr rfl⟩
    · rintro ⟨-, hne | hnil⟩
      · exact absurd rfl hne
      · exact hnil.symm
  · rw [source_other disk hother, hsrc, Option.getD_some,
      flatten_readPieces fun i n h => (c.read_pos i n h).1]
    simp [hother]

/-- `cmd_copy` opens the destination: it creates the file, or truncates it when the client
has approved. -/
def Opened (c : CopyCalls ι) (disk : Disk ι) (srcDir : Text) (srcFile : Option Text)
    (destDir : Text) : Prop :=
  (c.kernel.openRead (dirPath srcDir (srcFile.getD nullText))).isSome = true ∧
    disk (c.file srcDir srcFile) ≠ none ∧
    (c.kernel.createNew (dirPath destDir (srcFile.getD nullText)) = true ∧
        disk (c.file destDir srcFile) = none ∨
      c.askWritten = true ∧ c.answer = some true ∧
        c.kernel.truncate (dirPath destDir (srcFile.getD nullText)) = true)

/-- The loop from the start of both files. -/
lemma copyLoopDisk_opened (c : CopyCalls ι) (src dest : ι) (disk : Disk ι) :
    copyLoopDisk c src dest (disk.opened dest) 0 0 =
      (Function.update disk dest
          (some (copied c.kernel (readPieces c.read 0 (disk.source src dest)) 0)),
        copyLoop c.kernel (readPieces c.read 0 (disk.source src dest)) 0 0) := by
  have hdone : disk.opened dest dest = some [] := by rw [Disk.opened, Function.update_self]
  have hloop := copyLoopDisk_spec c src dest 0 (disk.source src dest) hdone rfl
  rwa [List.length_nil, Disk.opened, Function.update_idem, List.nil_append] at hloop

/-- `copy_file` returns what it returns for a file that is read in these pieces. -/
lemma copyFileDisk_snd (c : CopyCalls ι) (src dest : ι) (disk : Disk ι) {f : File}
    (hf : f.pieces = readPieces c.read 0 (disk.source src dest)) :
    (copyFileDisk c src dest (disk.opened dest)).2 = copyFile c.kernel f := by
  unfold copyFileDisk copyFile
  rw [copyLoopDisk_opened, ← hf]
  cases c.kernel.enterRegion with
  | false => rfl
  | true => cases copyLoop c.kernel f.pieces 0 0 <;> rfl

/-- With calls to the client that succeed, `cmd_copy` is what it is without the disk. -/
theorem cmdCopyDisk_eq (c : CopyCalls ι) (s : Session) (disk : Disk ι) (srcDir : Text)
    (srcFile : Option Text) (destDir : Text) {overwrite : Bool} (hask : c.askWritten = true)
    (hanswer : c.answer = some overwrite) (hreply : c.replyWritten = true)
    (hsrc : disk (c.file srcDir srcFile) ≠ none)
    (hnew : c.kernel.createNew (dirPath destDir (srcFile.getD nullText)) = true →
      disk (c.file destDir srcFile) = none)
    (hfile : ∀ f, c.kernel.openRead (dirPath srcDir (srcFile.getD nullText)) = some f →
      f.pieces =
        readPieces c.read 0 (disk.source (c.file srcDir srcFile) (c.file destDir srcFile))) :
    (cmdCopyDisk c s disk srcDir srcFile destDir).map (fun r => (r.1, r.2.1)) =
      cmdCopy c.kernel s overwrite srcDir srcFile destDir := by
  have hopened : ∀ (s : Session) (f : File),
      c.kernel.openRead (dirPath srcDir (srcFile.getD nullText)) = some f →
      (copyOpenedDisk c s (disk.opened (c.file destDir srcFile)) (c.file srcDir srcFile)
        (c.file destDir srcFile) srcFile).map (fun r => (r.1, r.2.1)) =
        copyOpened c.kernel s f srcFile := by
    intro s f hf
    rw [copyOpenedDisk, copyOpened, Option.map_map]
    refine congrArg (fun g => srcFile.map g) (funext fun name => ?_)
    rw [Function.comp_apply]
    cases findSfile c.kernel s name with
    | none => rfl
    | some s =>
      dsimp only
      rw [← copyFileDisk_snd c _ _ disk (hfile f hf)]
      rcases copyFileDisk c (c.file srcDir srcFile) (c.file destDir srcFile)
        (disk.opened (c.file destDir srcFile)) with ⟨disk', _ | bytes⟩
      · rfl
      · simp [hreply]
  unfold cmdCopyDisk cmdCopy
  cases hopen : c.kernel.openRead (dirPath srcDir (srcFile.getD nullText)) with
  | none => simp [hopen]
  | some f =>
    simp only [hopen, Option.isSome_some, Bool.true_eq_false, hsrc, or_self, if_false, hask,
      hanswer]
    by_cases hcreate : c.kernel.createNew (dirPath destDir (srcFile.getD nullText)) = true
    · rw [if_pos ⟨hcreate, hnew hcreate⟩, if_pos hcreate]
      exact hopened s f hopen
    · rw [if_neg (fun h => hcreate h.1), if_neg hcreate]
      by_cases hlong : errMsgLen ≤ (approveQuestion (srcFile.getD nullText)).length
      · rw [if_pos hlong, if_pos hlong]
        rfl
      · rw [if_neg hlong, if_neg hlong]
        cases overwrite with
        | false => rfl
        | true =>
          cases htrunc : c.kernel.truncate (dirPath destDir (srcFile.getD nullText)) with
          | false => rfl
          | true => exact hopened _ f hopen

/-- What `cmd_copy` does once both files are open. -/
lemma copyOpenedDisk_cases {c : CopyCalls ι} {s t : Session} {disk disk' : Disk ι} {src dest : ι}
    {srcFile : Option Text} {status : ℤ}
    (h : copyOpenedDisk c s (disk.opened dest) src dest srcFile = some (status, t, disk')) :
    ∃ name bytes, srcFile = some name ∧
      Transferred c s.sdir name (disk.source src dest) bytes ∧
      disk' = Function.update disk dest (some bytes) ∧
      (t.sent = s.sent ∨ bytes = (readPieces c.read 0 (disk.source src dest)).flatten ∧
        t.sent = s.sent ++ [⟨.ok, cString (bytesTransferred bytes.length)⟩]) := by
  cases srcFile with
  | none => cases h
  | some name =>
    rw [copyOpenedDisk, Option.map_some, Option.some.injEq] at h
    refine ⟨name, ?_⟩
    rcases findSfile_spec c.kernel s name with ⟨hfound, sdir, hfind⟩ | ⟨hno, hfind⟩
    · simp only [hfind, copyFileDisk] at h
      cases henter : c.kernel.enterRegion with
      | false =>
        simp only [henter, if_true, Prod.mk.injEq] at h
        obtain ⟨-, rfl, rfl⟩ := h
        exact ⟨[], rfl, Or.inr ⟨by simp [henter], rfl⟩, rfl, Or.inl rfl⟩
      | true =>
        simp only [henter, Bool.true_eq_false, if_false, copyLoopDisk_opened] at h
        refine ⟨_, rfl, Or.inl ⟨⟨hfound, henter⟩, rfl⟩, ?_⟩
        cases hloop : copyLoop c.kernel (readPieces c.read 0 (disk.source src dest)) 0 0 with
        | none =>
          simp only [hloop, Prod.mk.injEq] at h
          obtain ⟨-, rfl, rfl⟩ := h
          exact ⟨rfl, Or.inl rfl⟩
        | some n =>
          obtain ⟨hcopied, hn⟩ := copied_of_copyLoop hloop
          rw [zero_add] at hn
          cases hexit : c.kernel.exitRegion with
          | false =>
            simp only [hloop, hexit, if_true, Prod.mk.injEq] at h
            obtain ⟨-, rfl, rfl⟩ := h
            exact ⟨rfl, Or.inl rfl⟩
          | true =>
            simp only [hloop, hexit, Bool.true_eq_false, if_false] at h
            split_ifs at h with hreply <;> simp only [Prod.mk.injEq] at h <;>
              obtain ⟨-, rfl, rfl⟩ := h
            · exact ⟨rfl, Or.inl rfl⟩
            · refine ⟨rfl, Or.inr ⟨hcopied, ?_⟩⟩
              rw [hcopied, ← hn]
              rfl
    · simp only [hfind, Prod.mk.injEq] at h
      obtain ⟨-, rfl, rfl⟩ := h
      exact ⟨[], rfl, Or.inr ⟨fun hreach => hno hreach.1, rfl⟩, rfl, Or.inl rfl⟩

/-- Either no file has been touched, and at most the question sent; or the destination has
been opened. -/
lemma cmdCopyDisk_cases {c : CopyCalls ι} {s t : Session} {disk disk' : Disk ι}
    {srcDir destDir : Text} {srcFile : Option Text} {status : ℤ}
    (h : cmdCopyDisk c s disk srcDir srcFile destDir = some (status, t, disk')) :
    ∃ asked, (∀ m : Message, m ∈ asked → m.stat = .approve) ∧
      (¬ Opened c disk srcDir srcFile destDir ∧ disk' = disk ∧ t.sent = s.sent ++ asked ∨
      Opened c disk srcDir srcFile destDir ∧ ∃ s', s'.sdir = s.sdir ∧ s'.sent = s.sent ++ asked ∧
        copyOpenedDisk c s' (disk.opened (c.file destDir srcFile)) (c.file srcDir srcFile)
          (c.file destDir srcFile) srcFile = some (status, t, disk')) := by
  unfold cmdCopyDisk at h
  unfold Opened
  dsimp only at h
  by_cases hsrc : (c.kernel.openRead (dirPath srcDir (srcFile.getD nullText))).isSome = false ∨
      disk (c.file srcDir srcFile) = none
  · rw [if_pos hsrc] at h
    cases h
    refine ⟨[], by simp, Or.inl ⟨?_, rfl, by simp⟩⟩
    rintro ⟨hopen, hdisk, -⟩
    rcases hsrc with hnone | hnone
    · exact absurd hopen (by simp [hnone])
    · exact hdisk hnone
  rw [if_neg hsrc] at h
  rw [not_or, Bool.not_eq_false] at hsrc
  by_cases hnew : c.kernel.createNew (dirPath destDir (srcFile.getD nullText)) = true ∧
      disk (c.file destDir srcFile) = none
  · rw [if_pos hnew] at h
    exact ⟨[], by simp, Or.inr ⟨⟨hsrc.1, hsrc.2, Or.inl hnew⟩, s, rfl, by simp, h⟩⟩
  rw [if_neg hnew] at h
  by_cases hlong : errMsgLen ≤ (approveQuestion (srcFile.getD nullText)).length
  · rw [if_pos hlong] at h
    cases h
  rw [if_neg hlong] at h
  cases hask : c.askWritten with
  | false =>
    rw [if_pos hask] at h
    cases h
    exact ⟨[], by simp, Or.inl ⟨by simp [hnew], rfl, by simp⟩⟩
  | true =>
    rw [if_neg (by simp [hask])] at h
    refine ⟨[⟨.approve, cString (approveQuestion (srcFile.getD nullText))⟩], by simp, ?_⟩
    rcases hanswer : c.answer with _ | _ | _ <;> simp only [hanswer] at h
    · cases h
      exact Or.inl ⟨by simp [hnew], rfl, rfl⟩
    · cases h
      exact Or.inl ⟨by simp [hnew], rfl, rfl⟩
    · by_cases htrunc : c.kernel.truncate (dirPath destDir (srcFile.getD nullText)) = false
      · rw [if_pos htrunc] at h
        cases h
        exact Or.inl ⟨by simp [hnew, htrunc], rfl, rfl⟩
      · rw [if_neg htrunc] at h
        rw [Bool.not_eq_false] at htrunc
        refine Or.inr ⟨⟨hsrc.1, hsrc.2, Or.inr ⟨rfl, rfl, htrunc⟩⟩, _, ?_, ?_, h⟩
        · rfl
        · rfl

/-- The last message for the request is a `RESP_OK`. -/
def Reported (s t : Session) : Prop :=
  ∃ before m, t.sent = s.sent ++ (before ++ [m]) ∧ m.stat = .ok

/-- Questions are no reports. -/
lemma not_reported {s t : Session} {asked : List Message}
    (hasked : ∀ m : Message, m ∈ asked → m.stat = .approve) (h : t.sent = s.sent ++ asked) :
    ¬ Reported s t := by
  rintro ⟨before, m, hsent, hm⟩
  rw [h, List.append_right_inj] at hsent
  have happrove := hasked m (by simp [hsent])
  rw [hm] at happrove
  cases happrove

/-- The destination is the source, and the count that is sent its length. -/
def Complete (s t : Session) (content : Text) (dest : Option Text) : Prop :=
  dest = some content ∧
    ∃ before, t.sent = s.sent ++ (before ++ [⟨.ok, cString (bytesTransferred content.length)⟩])

/-- A transfer that is reported is complete just when no `read` fails before the end of the
source, and the destination is not the source itself, unless that is empty. -/
theorem complete_iff {c : CopyCalls ι} {s t : Session} {disk disk' : Disk ι}
    {srcDir destDir content : Text} {srcFile : Option Text} {status : ℤ}
    (hsrc : disk (c.file srcDir srcFile) = some content)
    (hrun : cmdCopyDisk c s disk srcDir srcFile destDir = some (status, t, disk'))
    (hok : Reported s t) :
    Complete s t content (disk' (c.file destDir srcFile)) ↔
      ReadsAll c.read 0 content ∧
        (c.file srcDir srcFile ≠ c.file destDir srcFile ∨ content = []) := by
  obtain ⟨asked, hasked, ⟨-, -, hsent⟩ | ⟨-, s', -, hsent, hcopy⟩⟩ := cmdCopyDisk_cases hrun
  · exact absurd hok (not_reported hasked hsent)
  · obtain ⟨name, bytes, -, -, rfl, hno | ⟨rfl, hreply⟩⟩ := copyOpenedDisk_cases hcopy
    · exact absurd hok (not_reported hasked (hno.trans hsent))
    · rw [Function.update_self]
      unfold Complete
      rw [← flatten_source c _ hsrc, Option.some.injEq]
      refine ⟨fun h => h.1, fun heq => ⟨heq, asked, ?_⟩⟩
      rw [hreply, hsent, heq, List.append_assoc]

/-- A transfer that is reported. -/
lemma copyOpenedDisk_reported {c : CopyCalls ι} {s s' : Session} {disk : Disk ι} {src dest : ι}
    {name source : Text} {n : ℕ} (hsource : disk.source src dest = source)
    (hfind : findSfile c.kernel s name = some s') (henter : c.kernel.enterRegion = true)
    (hexit : c.kernel.exitRegion = true) (hreply : c.replyWritten = true)
    (hloop : copyLoop c.kernel (readPieces c.read 0 source) 0 0 = some n) :
    copyOpenedDisk c s (disk.opened dest) src dest (some name) =
      some (0, s'.send ⟨.ok, cString (bytesTransferred n)⟩,
        Function.update disk dest (some (readPieces c.read 0 source).flatten)) := by
  simp [copyOpenedDisk, hfind, copyFileDisk, henter, copyLoopDisk_opened, hsource, hloop, hexit,
    hreply, copied_of_copyLoop hloop]

/-- The calls of an upload of `f` from `c` to `d`. All of them succeed, `read` apart. -/
def uploadCalls (read : ℕ → Option ℕ) (read_pos : ∀ i n, read i = some n → 0 < n ∧ n ≤ buffSize)
    (fileOf : Text → Bool) : CopyCalls Bool :=
  ⟨twoLinesKernel, fileOf, read, true, some true, true, read_pos⟩

def wholeReads : CopyCalls Bool :=
  uploadCalls (fun _ => some buffSize) (by rintro i n ⟨⟩; decide) (· = ['d', '/', 'f'])

def failingReads : CopyCalls Bool :=
  uploadCalls (fun _ => none) (by rintro i n ⟨⟩) (· = ['d', '/', 'f'])

/-- The client works in the directory of the server. -/
def sameDirectory : CopyCalls Bool :=
  uploadCalls (fun _ => some buffSize) (by rintro i n ⟨⟩; decide) fun _ => true

/-- The file is in the directory of the client only. -/
def clientFile (b : Bool) : Option Text := if b then none else some twoLines.content

/-- The file is uploaded. -/
theorem complete_two_lines : ∃ t disk',
    cmdCopyDisk wholeReads emptySession clientFile ['c'] (some ['f']) ['d'] = some (0, t, disk') ∧
      Complete emptySession t twoLines.content (disk' true) := by
  have hsource : Disk.source clientFile false true = twoLines.content := rfl
  have hpieces : readPieces wholeReads.read 0 twoLines.content = [twoLines.content] := by
    simp [readPieces, wholeReads, uploadCalls, twoLines, buffSize, File.content]
  have hopen : cmdCopyDisk wholeReads emptySession clientFile ['c'] (some ['f']) ['d'] =
      copyOpenedDisk wholeReads emptySession (Disk.opened clientFile true) false true
        (some ['f']) := rfl
  have hrun := hopen.trans (copyOpenedDisk_reported hsource rfl rfl rfl rfl (n := 4)
    (by rw [hpieces]; rfl))
  have hother : wholeReads.file ['c'] (some ['f']) ≠ wholeReads.file ['d'] (some ['f']) := by
    decide
  have hsrc : clientFile (wholeReads.file ['c'] (some ['f'])) = some twoLines.content := rfl
  have hiff := complete_iff hsrc hrun ⟨[], _, rfl, rfl⟩
  exact ⟨_, _, hrun, hiff.mpr ⟨.more rfl (.done 1), Or.inl hother⟩⟩

/-- Two transfers that are reported, with a count of zero: one whose first `read` fails, and
one of a file to itself, which is empty afterwards. -/
theorem incomplete_reported :
    (∃ t disk',
      cmdCopyDisk failingReads emptySession clientFile ['c'] (some ['f']) ['d'] =
        some (0, t, disk') ∧ t.sent = [⟨.ok, cString "0 bytes transferred".toList⟩] ∧
      disk' true = some [] ∧ ¬ Complete emptySession t twoLines.content (disk' true)) ∧
    ∃ t disk',
      cmdCopyDisk sameDirectory emptySession (fun _ => some twoLines.content) ['c'] (some ['f'])
          ['d'] = some (0, t, disk') ∧
        t.sent.getLast? = some ⟨.ok, cString "0 bytes transferred".toList⟩ ∧
        disk' true = some [] ∧ ¬ Complete emptySession t twoLines.content (disk' true) := by
  have hempty : ∀ t, ¬ Complete emptySession t twoLines.content (some []) := fun t h =>
    absurd h.1 (by decide)
  constructor
  · have hopen : cmdCopyDisk failingReads emptySession clientFile ['c'] (some ['f']) ['d'] =
        copyOpenedDisk failingReads emptySession (Disk.opened clientFile true) false true
          (some ['f']) := rfl
    have hpieces : readPieces failingReads.read 0 twoLines.content = [] := by
      simp [readPieces, failingReads, uploadCalls]
    have hsource : Disk.source clientFile false true = twoLines.content := rfl
    have hrun := hopen.trans (copyOpenedDisk_reported hsource rfl rfl rfl rfl (n := 0)
      (by rw [hpieces]; rfl))
    rw [hpieces] at hrun
    exact ⟨_, _, hrun, by decide, rfl, hempty _⟩
  · have hpieces : readPieces sameDirectory.read 0 [] = [] := by
      simp [readPieces, sameDirectory, uploadCalls]
    have hopen : cmdCopyDisk sameDirectory emptySession (fun _ => some twoLines.content) ['c']
        (some ['f']) ['d'] = copyOpenedDisk sameDirectory
          (Session.send { emptySession with errMsg := approveQuestion ['f'] }
            ⟨.approve, cString (approveQuestion ['f'])⟩)
          (Disk.opened (fun _ => some twoLines.content) true) true true (some ['f']) := rfl
    have hsource : Disk.source (fun _ => some twoLines.content) true true = [] := rfl
    have hrun := hopen.trans (copyOpenedDisk_reported hsource rfl rfl rfl rfl (n := 0)
      (by rw [hpieces]; rfl))
    rw [hpieces] at hrun
    exact ⟨_, _, hrun, by decide, rfl, hempty _⟩

/-- If `cmd_copy` fails before it has opened the destination, no file has changed. If it
fails later, the destination holds what has been written by then, the beginning of the
source, and no other file has changed. -/
theorem failed_transfer {c : CopyCalls ι} {s t : Session} {disk disk' : Disk ι}
    {srcDir destDir : Text} {srcFile : Option Text}
    (hrun : cmdCopyDisk c s disk srcDir srcFile destDir = some (-1, t, disk')) :
    (¬ Opened c disk srcDir srcFile destDir → disk' = disk) ∧
    (Opened c disk srcDir srcFile destDir → ∃ name bytes, srcFile = some name ∧
      Transferred c s.sdir name (disk.source (c.file srcDir srcFile) (c.file destDir srcFile))
        bytes ∧
      bytes <+: (disk (c.file srcDir srcFile)).getD [] ∧
      disk' = Function.update disk (c.file destDir srcFile) (some bytes)) := by
  obtain ⟨asked, hasked, ⟨hno, hdisk, -⟩ | ⟨hopened, s', hsdir, -, hcopy⟩⟩ :=
    cmdCopyDisk_cases hrun
  · exact ⟨fun _ => hdisk, fun hopened => absurd hopened hno⟩
  · refine ⟨fun hno => absurd hopened hno, fun _ => ?_⟩
    obtain ⟨name, bytes, hname, htransferred, hdisk, -⟩ := copyOpenedDisk_cases hcopy
    rw [hsdir] at htransferred
    exact ⟨name, bytes, hname, htransferred,
      htransferred.isPrefix.trans (source_isPrefix disk _ _), hdisk⟩

/-- A lock table without a free entry: the files `x`, `xx` and so on. -/
def fullTable : Session :=
  { emptySession with
    sdir := ⟨(List.range 128).map fun n => initSfile (List.replicate (n + 1) 'x'), numOfDirFile⟩ }

/-- No upload gets an entry in a full table. -/
lemma fullTable_fails (disk : Disk Bool) (src dest : Bool) (s : Session)
    (hs : s.sdir = fullTable.sdir) :
    copyOpenedDisk wholeReads s disk src dest (some ['f']) = some (-1, s, disk) := by
  have hget : getSfile fullTable.sdir ['f'] = none := by
    rw [getSfile, List.findIdx?_eq_none_iff]
    intro f hf
    obtain ⟨n, -, rfl⟩ := List.mem_map.mp hf
    simp [initSfile, fnameLen, List.replicate_succ]
  have hadd : addSfile fullTable.sdir ['f'] wholeReads.kernel.semInit = none := by
    rw [addSfile, if_pos (by simp [fullTable, numOfDirFile])]
  simp [copyOpenedDisk, findSfile, hs, hget, hadd]

/-- An upload that fails since the lock table is full. -/
theorem failed_transfer_full_table :
    ∃ t disk', cmdCopyDisk wholeReads fullTable clientFile ['c'] (some ['f']) ['d'] =
        some (-1, t, disk') ∧
      ∃ bytes, bytes <+: twoLines.content ∧
        disk' = Function.update clientFile true (some bytes) := by
  have hopen : cmdCopyDisk wholeReads fullTable clientFile ['c'] (some ['f']) ['d'] =
      copyOpenedDisk wholeReads fullTable (Disk.opened clientFile true) false true
        (some ['f']) := rfl
  have hrun := hopen.trans (fullTable_fails _ false true fullTable rfl)
  have hopened : Opened wholeReads clientFile ['c'] (some ['f']) ['d'] :=
    ⟨rfl, by decide, Or.inl ⟨rfl, rfl⟩⟩
  obtain ⟨-, bytes, -, -, hbytes, hdisk⟩ := (failed_transfer hrun).2 hopened
  exact ⟨_, _, hrun, bytes, hbytes, hdisk⟩

/-- A file of the server is truncated, and then the upload fails since the lock table is
full. -/
theorem destination_lost : ∃ t disk',
    cmdCopyDisk wholeReads fullTable (fun _ => some twoLines.content) ['c'] (some ['f']) ['d'] =
      some (-1, t, disk') ∧ disk' true = some [] ∧ some twoLines.content ≠ some [] := by
  have hopen : cmdCopyDisk wholeReads fullTable (fun _ => some twoLines.content) ['c']
      (some ['f']) ['d'] = copyOpenedDisk wholeReads
        (Session.send { fullTable with errMsg := approveQuestion ['f'] }
          ⟨.approve, cString (approveQuestion ['f'])⟩)
        (Disk.opened (fun _ => some twoLines.content) true) false true (some ['f']) := rfl
  exact ⟨_, _, hopen.trans (fullTable_fails _ false true _ rfl), rfl, by decide⟩

end

end SystemProgramming.FileTransfer
