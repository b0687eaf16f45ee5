import SystemProgramming.ArrayStores
import SystemProgramming.FileServerReplies

/-!
# The buffers of replies

`cmd_list` prints the names of a directory one after the other into an array of 512
bytes, and `cmd_copy` the question whether to overwrite a file into `err_msg`. Neither
looks at the size. This module lists what they store, and says for which directories and
which file names all of it lies inside the array.
-/
namespace SystemProgramming.ReplyBuffers
open SystemProgramming.LineReader SystemProgramming.FileServer SystemProgramming.ArrayStores

def dataSize : ℕ := 512

/-- The loop of `cmd_list`: `data` is the string in the array so far, and `tmp` points to
its end. The result is the final string, and the stores. -/
def listLoop : List Text → Text → Text × List ℤ
  | [], data => (data, [])
  | name :: names, data =>
    if name ≠ ['.'] ∧ name ≠ ['.', '.'] then
      let r := listLoop names (data ++ (name ++ ['\n']))
      (r.1, stringStores data.length (name ++ ['\n']).length ++ r.2)
    else listLoop names data

/-- What `cmd_list` stores into `data`: a NUL at its start, the names, and a NUL over the
last newline. -/
def listStores (names : List Text) : List ℤ :=
  let r := listLoop names []
  0 :: (r.2 ++ [(r.1.length : ℤ) - 1])

/-- The body of the reply, as long as the string was before its newline was removed. -/
def listBody (names : List Text) : Text :=
  let data := (listLoop names []).1
  data.set (data.length - 1) '\x00'

def visible (names : List Text) : List Text :=
  names.filter fun name => name ≠ ['.'] ∧ name ≠ ['.', '.']

lemma listing_eq (names : List Text) :
    listing names = (visible names).flatMap (· ++ ['\n']) := rfl

/-- The loop appends the lines of the listing, each inside the array just when the last
one is. -/
lemma listLoop_spec (names : List Text) (data : Text) :
    (listLoop names data).1 = data ++ listing names ∧
      (Within dataSize (listLoop names data).2 ↔
        visible names = [] ∨ (data ++ listing names).length < dataSize) := by
  induction names generalizing data with
  | nil => simp [listLoop, listing, visible]
  | cons name names ih =>
    unfold listLoop
    split_ifs with hname
    · obtain ⟨hdata, hwithin⟩ := ih (data ++ (name ++ ['\n']))
      have hvisible : visible (name :: names) = name :: visible names := by
        simp [visible, hname]
      have hlisting : listing (name :: names) = (name ++ ['\n']) ++ listing names := by
        rw [listing_eq, hvisible, List.flatMap_cons, ← listing_eq]
      refine ⟨by rw [hdata, hlisting, List.append_assoc], ?_⟩
      rw [within_append, within_stringStores, hwithin, hvisible, hlisting]
      rw [List.append_assoc data]
      simp only [List.length_append, List.length_singleton, reduceCtorEq, false_or]
      constructor
      · rintro ⟨⟨-, hlt⟩, hnil | hlt'⟩
        · rw [listing_eq, hnil, List.flatMap_nil, List.length_nil]
          omega
        · omega
      · intro hlt
        exact ⟨by omega, Or.inr (by omega)⟩
    · have hvisible : visible (name :: names) = visible names := by
        simp only [visible]
        rw [List.filter_cons_of_neg (by simpa using hname)]
      have hlisting : listing (name :: names) = listing names := by
        rw [listing_eq, hvisible, ← listing_eq]
      rw [hvisible, hlisting]
      exact ih data

/-- The stores lie inside the array just when there is a line, and the lines leave room
for a NUL. -/
lemma within_listStores (names : List Text) :
    Within dataSize (listStores names) ↔
      visible names ≠ [] ∧ (listing names).length < dataSize := by
  obtain ⟨hdata, hwithin⟩ := listLoop_spec names []
  rw [List.nil_append] at hdata hwithin
  unfold listStores
  dsimp only
  rw [within_cons, within_append, within_cons, hwithin, hdata]
  by_cases hnil : visible names = []
  · have hempty : listing names = [] := by rw [listing_eq, hnil, List.flatMap_nil]
    simp [hnil, hempty]
  · have hpos : 0 < (listing names).length := by
      obtain ⟨name, rest, hcons⟩ := List.exists_cons_of_ne_nil hnil
      rw [listing_eq, hcons, List.flatMap_cons]
      simp
    simp only [hnil, false_or, ne_eq, not_false_eq_true, true_and, within_nil, and_true,
      dataSize]
    omega

/-- Without its last newline the listing is the names with newlines between them. -/
lemma flatMap_lines_dropLast (lines : List Text) :
    (lines.flatMap (· ++ ['\n'])).dropLast = List.intercalate ['\n'] lines := by
  induction lines with
  | nil => rfl
  | cons line lines ih =>
    cases lines with
    | nil => simp
    | cons line' lines =>
      rw [List.flatMap_cons, List.dropLast_append_of_ne_nil (by simp), ih]
      simp [List.intercalate_cons_cons]

/-- The body of a directory with entries is their names, joined by newlines, and a NUL. -/
lemma listBody_eq {names : List Text} (hne : visible names ≠ []) :
    listBody names = List.intercalate ['\n'] (visible names) ++ ['\x00'] := by
  have hdata := (listLoop_spec names []).1
  rw [List.nil_append] at hdata
  have hlast : ∃ data, listing names = data ++ ['\n'] := by
    obtain ⟨pre, name, hsplit⟩ := List.eq_nil_or_concat (visible names) |>.resolve_left hne
    rw [List.concat_eq_append] at hsplit
    refine ⟨pre.flatMap (· ++ ['\n']) ++ name, ?_⟩
    rw [listing_eq, hsplit, List.flatMap_append, List.flatMap_singleton, List.append_assoc]
  obtain ⟨data, hlast⟩ := hlast
  rw [← flatMap_lines_dropLast, ← listing_eq, listBody, hdata, hlast]
  simp

/-- `cmd_list` stays inside its array, and sends the names. -/
def ListCorrect (names : List Text) : Prop :=
  Within dataSize (listStores names) ∧
    listBody names = List.intercalate ['\n'] (visible names) ++ ['\x00']

/-- `list` is correct just when the directory has an entry and the names with a newline
each leave one byte of the array. -/
theorem list_correct_iff (names : List Text) :
    ListCorrect names ↔ (∃ name, name ∈ names ∧ name ≠ ['.'] ∧ name ≠ ['.', '.']) ∧
      ((visible names).map fun name => name.length + 1).sum < dataSize := by
  have hexists : visible names ≠ [] ↔ ∃ name, name ∈ names ∧ name ≠ ['.'] ∧ name ≠ ['.', '.'] := by
    simp [visible]
  have hlength : (listing names).length =
      ((visible names).map fun name => name.length + 1).sum := by
    rw [listing_eq, List.length_flatMap]
    simp
  rw [ListCorrect, within_listStores, ← hexists, ← hlength]
  constructor
  · exact fun h => h.1
  · exact fun h => ⟨h, listBody_eq h.1⟩

/-- An empty directory: the NUL over the last newline is stored before the array, and the
body is empty. -/
theorem empty_directory :
    listStores [['.'], ['.', '.']] = [0, -1] ∧ listBody [['.'], ['.', '.']] = [] ∧
      ¬ ListCorrect [['.'], ['.', '.']] := by
  refine ⟨rfl, rfl, fun h => ?_⟩
  have hbefore := h.1 (-1) (by decide)
  exact absurd hbefore.1 (by decide)

/-- The handler has a result just when its stores are inside the array, and sends the
body. -/
theorem cmdList_eq_some (k : Kernel) (s : Session) (r : ℤ × Session) :
    cmdList k s = some r ↔
      Within dataSize (listStores k.names) ∧ r = (0, s.send ⟨.ok, listBody k.names⟩) := by
  have hempty : listing k.names = [] ↔ visible k.names = [] := by
    rw [listing_eq]
    cases visible k.names <;> simp
  rw [within_listStores, cmdList, Option.ite_none_right_eq_some, Option.some.injEq, Ne, hempty,
    dataSize, and_comm (a := visible k.names ≠ []), eq_comm (b := r)]
  apply and_congr_right
  rintro ⟨-, hne⟩
  rw [listBody_eq hne, ← flatMap_lines_dropLast, ← listing_eq]

/-- How `cmd_copy` prints the name of the file: the second word, if there is one. -/
def fileName (line : Text) : Text := (parseCommand line).words.tail.head?.getD nullText

/-- The directories that an `upload` or a `download` copies from and to. -/
def copyDirs (k : Kernel) (line : Text) : Option (Text × Text) :=
  match commandOf (parseCommand line).cmd with
  | some .upload => some (k.cwd, k.serverDir)
  | some .download => some (k.serverDir, k.cwd)
  | _ => none

/-- What `cmd_copy` stores into `err_msg` while it asks for approval; it asks when it has
opened the source and finds the destination. -/
def questionStores (k : Kernel) (line : Text) : List ℤ :=
  match copyDirs k line with
  | none => []
  | some (srcDir, destDir) =>
    if (k.openRead (dirPath srcDir (fileName line))).isSome ∧
        k.createNew (dirPath destDir (fileName line)) = false then
      stringStores 0 (approveQuestion (fileName line)).length
    else []

lemma length_approveQuestion (file : Text) : (approveQuestion file).length = file.length + 92 := by
  have hbefore : approveBefore.length = 9 := by decide
  have hafter : approveAfter.length = 83 := by decide
  rw [approveQuestion, List.length_append, List.length_append, hbefore, hafter]
  omega

lemma questionStores_eq {k : Kernel} {line srcDir destDir : Text}
    (hcopy : copyDirs k line = some (srcDir, destDir))
    (hsrc : (k.openRead (dirPath srcDir (fileName line))).isSome = true)
    (hdest : k.createNew (dirPath destDir (fileName line)) = false) :
    questionStores k line = stringStores 0 ((fileName line).length + 92) := by
  simp only [questionStores, hcopy, hsrc, hdest, and_self, if_true, length_approveQuestion]

/-- The question for an existing destination fits into `err_msg` just when the name has at
most 35 bytes. -/
theorem question_fits_iff (k : Kernel) (line srcDir destDir : Text)
    (hcopy : copyDirs k line = some (srcDir, destDir))
    (hsrc : (k.openRead (dirPath srcDir (fileName line))).isSome = true)
    (hdest : k.createNew (dirPath destDir (fileName line)) = false) :
    Within errMsgLen (questionStores k line) ↔ (fileName line).length ≤ 35 := by
  rw [questionStores_eq hcopy hsrc hdest, within_stringStores, errMsgLen]
  omega

/-- A server on which every file exists. -/
def fullServer : Kernel where
  serverDir := ['d']
  cwd := ['c']
  names := []
  openRead := fun _ => some ⟨1, [['x']], false, by simp [buffSize], by simp, by simp⟩
  openWrite := fun _ _ => none
  createNew := fun _ => false
  truncate := fun _ => true
  createTar := fun _ => true
  fstat := true
  semInit := true
  enterRegion := true
  exitRegion := true
  write := fun _ n => some n
  realloc := fun _ => true
  forkExec := true
  status := 0

/-- A name of 36 bytes, in a line of 43. -/
def longUpload : Text := "upload ".toList ++ List.replicate 36 'a'

theorem longUpload_overruns : longUpload.length ≤ 63 ∧ '\x00' ∉ longUpload ∧
    copyDirs fullServer longUpload = some (['c'], ['d']) ∧
    ¬ Within errMsgLen (questionStores fullServer longUpload) := by
  have hcopy : copyDirs fullServer longUpload = some (['c'], ['d']) := by decide
  have hlength : (fileName longUpload).length = 36 := by decide
  refine ⟨by decide, by decide, hcopy, ?_⟩
  rw [questionStores_eq hcopy rfl rfl, within_stringStores, hlength]
  decide

theorem question_fits_short :
    Within errMsgLen (questionStores fullServer "upload a".toList) :=
  (question_fits_iff fullServer "upload a".toList ['c'] ['d'] (by decide) (by decide)
    (by decide)).mpr (by decide)

end SystemProgramming.ReplyBuffers
