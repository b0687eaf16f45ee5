import SystemProgramming.CopyBufferFlight
import SystemProgramming.TreeCopy

/-!
# What becomes of the opened files

The files that the traversal has opened are known by their paths below the
source directory. Each of them has its descriptors to itself, as descriptors of
different files have different paths. A step touches at most one path below the
two directories, and elsewhere the books about the other files stay right.
-/
namespace SystemProgramming.TreeCopy
open SystemProgramming.ByteFile
open SystemProgramming.CopyBuffer (FileInformation Phase WorkerPc Quiet)
open scoped BigOperators

lemma takeWhile_name {a : Name} {u : List Char} (hu : ∀ c, u.head? = some c → c = '/') :
    (a.val ++ u).takeWhile (· ≠ '/') = a.val := by
  have ha : ∀ c ∈ a.val, decide (c ≠ '/') = true := by
    intro c hc
    simpa using fun h : c = '/' => a.property (h ▸ hc)
  rw [List.takeWhile_append_of_pos ha]
  cases u with
  | nil => simp
  | cons c u => simp [hu c rfl]

lemma head_text (p : Path) : ∀ c, (text p).head? = some c → c = '/' := by
  cases p with
  | nil => simp [text]
  | cons a p => simp [text, eq_comm]

/-- Different paths have different strings, as no name has a slash. -/
theorem text_injective : Function.Injective text := by
  intro p q h
  induction p generalizing q with
  | nil =>
    cases q with
    | nil => rfl
    | cons b q => simp [text] at h
  | cons a p ih =>
    cases q with
    | nil => simp [text] at h
    | cons b q =>
      have htail : a.val ++ text p = b.val ++ text q := by
        simpa [text] using h
      have hname : a.val = b.val := by
        rw [← takeWhile_name (head_text p), htail, takeWhile_name (head_text q)]
      rw [hname] at htail
      rw [Subtype.ext hname, ih (List.append_cancel_left htail)]

/-- Neither directory lies in the other. -/
def Apart (src dst : Path) : Prop := ¬ src <+: dst ∧ ¬ dst <+: src

lemma Apart.ne {src dst : Path} (h : Apart src dst) (r q : Path) : src ++ r ≠ dst ++ q := by
  intro heq
  have hsrc : src <+: dst ++ q := heq ▸ List.prefix_append src r
  rcases List.prefix_or_prefix_of_prefix hsrc (List.prefix_append dst q) with hp | hp
  · exact h.1 hp
  · exact h.2 hp

/-- Descriptors of files in the two directories are different. -/
lemma Apart.fds_ne {src dst : Path} (h : Apart src dst) {fds : ℤ → Option OpenFile} {x y : ℤ}
    {r q : Path} {k l : ℕ} (hx : fds x = some ⟨src ++ r, k⟩) (hy : fds y = some ⟨dst ++ q, l⟩) :
    x ≠ y := by
  rintro rfl
  exact h.ne r q (congrArg OpenFile.path (Option.some.inj (hx.symm.trans hy)))

/-- A step that touches only the given paths below the two directories. -/
structure Elsewhere {n : ℕ} (src dst : Path) (touched : List Path) (w t : World n) : Prop where
  fds : ∀ x o, w.fds x = some o → (∀ r ∈ touched, o.path ≠ src ++ r ∧ o.path ≠ dst ++ r) →
    t.fds x = some o
  fs : ∀ p, (∀ r ∈ touched, p ≠ dst ++ r) → t.fs p = w.fs p

lemma elsewhere_of_mem {n : ℕ} {src dst r : Path} {touched : List Path} {w t : World n}
    (hr : r ∈ touched) (h : Elsewhere src dst [r] w t) : Elsewhere src dst touched w t :=
  ⟨fun x o hx ho => h.fds x o hx (by simpa using ho r hr),
    fun p hp => h.fs p (by simpa using hp r hr)⟩

lemma elsewhere_of_eq {n : ℕ} {src dst : Path} {touched : List Path} {w t : World n}
    (hfds : t.fds = w.fds) (hfs : t.fs = w.fs) : Elsewhere src dst touched w t :=
  ⟨fun x o hx _ => by rw [hfds, hx], fun p _ => by rw [hfs]⟩

lemma path_of_fds {src dst r : Path} {fds : ℤ → Option OpenFile} {fd : ℤ} {o : OpenFile}
    (hfd : fds fd = some o) (ho : o.path = src ++ r ∨ o.path = dst ++ r) :
    ∀ o', fds fd = some o' → o'.path = src ++ r ∨ o'.path = dst ++ r := by
  intro o' ho'
  cases hfd.symm.trans ho'
  exact ho

/-- A descriptor of the path `r` changes, or one that was not in use. -/
lemma elsewhere_update {n : ℕ} {src dst r : Path} {w t : World n} {fd : ℤ}
    (hfd : ∀ o, w.fds fd = some o → o.path = src ++ r ∨ o.path = dst ++ r)
    {o' : Option OpenFile} (hfds : t.fds = Function.update w.fds fd o')
    (hfs : ∀ p, p ≠ dst ++ r → t.fs p = w.fs p) : Elsewhere src dst [r] w t := by
  refine ⟨fun x o hx ho => ?_, fun p hp => hfs p (hp r List.mem_cons_self)⟩
  have hxfd : x ≠ fd := by
    rintro rfl
    obtain ⟨hsrc, hdst⟩ := ho r List.mem_cons_self
    rcases hfd o hx with hp | hp
    · exact hsrc hp
    · exact hdst hp
  rw [hfds, Function.update_of_ne hxfd, hx]

/-- How far an opened file is: what it has been read and written, and which of its
descriptors are open. `d` has been read and not yet written. -/
inductive Entry (src dst : Path) (fs₀ fs : FileSystem) (fds : ℤ → Option OpenFile)
    (f : FileInformation) (d : List Char) (r : Path) : Phase → Prop
  | copying {content : List Char} {off : ℕ} (hcontent : fs₀ (src ++ r) = some (.file content))
      (hlen : off + d.length ≤ content.length) (hread : d = (content.drop off).take d.length)
      (hsrc : fds f.srcFd = some ⟨src ++ r, off + d.length⟩)
      (hdst : fds f.dstFd = some ⟨dst ++ r, off⟩)
      (hwritten : fs (dst ++ r) = some (.file (content.take off))) :
      Entry src dst fs₀ fs fds f d r .copying
  | closingSrc {k l : ℕ} (hsrc : fds f.srcFd = some ⟨src ++ r, k⟩)
      (hdst : fds f.dstFd = some ⟨dst ++ r, l⟩) : Entry src dst fs₀ fs fds f d r .closingSrc
  | closingDst {l : ℕ} (hdst : fds f.dstFd = some ⟨dst ++ r, l⟩) :
      Entry src dst fs₀ fs fds f d r .closingDst

lemma Elsewhere.fs_eq {n : ℕ} {src dst : Path} {touched : List Path} {w t : World n} {q : Path}
    (h : Elsewhere src dst touched w t) (hq : q ∉ touched) : t.fs (dst ++ q) = w.fs (dst ++ q) :=
  h.fs _ fun r hr heq => hq (by rwa [List.append_cancel_left heq])

lemma Elsewhere.fds_eq {n : ℕ} {src dst : Path} {touched : List Path} {w t : World n} {q : Path}
    (h : Elsewhere src dst touched w t) (hapart : Apart src dst) (hq : q ∉ touched) {x : ℤ}
    {o : OpenFile} (hx : w.fds x = some o) (ho : o.path = src ++ q ∨ o.path = dst ++ q) :
    t.fds x = some o := by
  have hne : ∀ r ∈ touched, q ≠ r := fun r hr hqr => hq (hqr ▸ hr)
  refine h.fds x o hx fun r hr => ?_
  rcases ho with ho | ho
  · rw [ho]
    exact ⟨by simpa using hne r hr, hapart.ne q r⟩
  · rw [ho]
    exact ⟨(hapart.ne r q).symm, by simpa using hne r hr⟩

lemma Entry.elsewhere {n : ℕ} {src dst : Path} {fs₀ : FileSystem} {touched : List Path}
    {w t : World n} {f : FileInformation} {d : List Char} {q : Path} {ph : Phase}
    (h : Entry src dst fs₀ w.fs w.fds f d q ph) (hapart : Apart src dst)
    (he : Elsewhere src dst touched w t) (hq : q ∉ touched) :
    Entry src dst fs₀ t.fs t.fds f d q ph := by
  cases h with
  | copying hcontent hlen hread hsrc hdst hwritten =>
    exact .copying hcontent hlen hread (he.fds_eq hapart hq hsrc (Or.inl rfl))
      (he.fds_eq hapart hq hdst (Or.inr rfl)) ((he.fs_eq hq).trans hwritten)
  | closingSrc hsrc hdst =>
    exact .closingSrc (he.fds_eq hapart hq hsrc (Or.inl rfl))
      (he.fds_eq hapart hq hdst (Or.inr rfl))
  | closingDst hdst => exact .closingDst (he.fds_eq hapart hq hdst (Or.inr rfl))

/-- The opened file is one of `files`. -/
def Held {n : ℕ} (src dst : Path) (fs₀ : FileSystem) (files : List Path) (w : World n)
    (d : List Char) (ph : Phase) (f : FileInformation) : Prop :=
  ∃ r ∈ files, f.srcName = text (src ++ r) ∧ Entry src dst fs₀ w.fs w.fds f d r ph

/-- The destination has the whole content of the file. -/
def Copied {n : ℕ} (src dst : Path) (fs₀ : FileSystem) (files : List Path) (w : World n)
    (f : FileInformation) : Prop :=
  ∃ r ∈ files, f.srcName = text (src ++ r) ∧ ∃ content, fs₀ (src ++ r) = some (.file content) ∧
    w.fs (dst ++ r) = some (.file content)

def size : Option Node → ℕ
  | some (.file content) => content.length
  | _ => 0

/-- The books about the files opened so far. -/
structure Carried {n : ℕ} (src dst : Path) (fs₀ : FileSystem) (files : List Path)
    (w : World n) : Prop where
  nodup : files.Nodup
  names : w.proc.opened.map FileInformation.srcName = files.map fun r => text (src ++ r)
  waiting : ∀ f ∈ w.proc.waiting, Held src dst fs₀ files w [] .copying f
  working : ∀ i ph f, (w.proc.worker i).stage = some (ph, f) →
    Held src dst fs₀ files w (w.piece i) ph f
  copied : ∀ i, ∀ f ∈ w.proc.copied i, Copied src dst fs₀ files w f
  bytes : w.proc.bytes = (files.map fun r => size (w.fs (dst ++ r))).sum
  pieces : ∀ i, w.piece i ≠ [] → ∃ f, w.proc.worker i = .copy f

/-- A step that touches none of the opened files, and moves none. -/
lemma Carried.away {n : ℕ} {src dst : Path} {fs₀ : FileSystem} {files : List Path}
    {w t : World n} {touched : List Path} (h : Carried src dst fs₀ files w)
    (hapart : Apart src dst) (hne : ∀ q ∈ files, q ∉ touched)
    (he : Elsewhere src dst touched w t) (hq : Quiet w.proc t.proc)
    (hpiece : t.piece = w.piece) : Carried src dst fs₀ files t := by
  have hheld : ∀ d ph f, Held src dst fs₀ files w d ph f → Held src dst fs₀ files t d ph f := by
    rintro d ph f ⟨q, hqf, hname, hentry⟩
    exact ⟨q, hqf, hname, hentry.elsewhere hapart he (hne q hqf)⟩
  have hfs : ∀ q ∈ files, t.fs (dst ++ q) = w.fs (dst ++ q) := fun q hqf => he.fs_eq (hne q hqf)
  refine ⟨h.nodup, ?_, fun f hf => ?_, fun i ph f hf => ?_, fun i f hf => ?_, ?_, fun i hi => ?_⟩
  · rw [hq.opened]
    exact h.names
  · rw [hq.waiting] at hf
    exact hheld _ _ f (h.waiting f hf)
  · rw [hq.stage i] at hf
    rw [hpiece]
    exact hheld _ _ f (h.working i ph f hf)
  · rw [hq.copied] at hf
    obtain ⟨q, hqf, hname, content, hcontent, hcopy⟩ := h.copied i f hf
    exact ⟨q, hqf, hname, content, hcontent, (hfs q hqf).trans hcopy⟩
  · rw [hq.bytes, h.bytes]
    congr 1
    exact List.map_congr_left fun q hqf => by rw [hfs q hqf]
  · rw [hpiece] at hi
    obtain ⟨f, hf⟩ := h.pieces i hi
    exact ⟨f, hq.copy i f hf⟩

/-- Changing one term of a sum over different items. -/
lemma sum_map_eq {α : Type*} [DecidableEq α] {l : List α} (hnodup : l.Nodup) {a : α} (ha : a ∈ l)
    (g g' : α → ℕ) (hother : ∀ b, b ≠ a → g' b = g b) :
    (l.map g').sum + g a = (l.map g).sum + g' a := by
  have hrest : (l.erase a).map g' = (l.erase a).map g :=
    List.map_congr_left fun b hb => hother b (hnodup.mem_erase_iff.mp hb).1
  rw [← List.sum_map_erase g ha, ← List.sum_map_erase g' ha, hrest]
  omega

lemma Carried.nodup_names {n : ℕ} {src dst : Path} {fs₀ : FileSystem} {files : List Path}
    {w : World n} (h : Carried src dst fs₀ files w) :
    (w.proc.opened.map FileInformation.srcName).Nodup := by
  rw [h.names]
  exact h.nodup.map fun r q hrq => List.append_cancel_left (text_injective hrq)

/-- A worker goes on with its file `f`, at the path `r`. -/
lemma Carried.focus {n : ℕ} {src dst : Path} {fs₀ : FileSystem} {files : List Path}
    {w t : World n} {r : Path} (h : Carried src dst fs₀ files w) (hinv : CopyBuffer.Inv w.proc)
    (hapart : Apart src dst) {i : Fin n} {ph : Phase} {f : FileInformation}
    (hstage : (w.proc.worker i).stage = some (ph, f)) (hr : r ∈ files)
    (hname : f.srcName = text (src ++ r)) (he : Elsewhere src dst [r] w t)
    (hopened : t.proc.opened = w.proc.opened) (hwaiting : t.proc.waiting = w.proc.waiting)
    (hother : ∀ j, j ≠ i → t.proc.worker j = w.proc.worker j ∧ t.piece j = w.piece j)
    (hown : ∀ ph' g, (t.proc.worker i).stage = some (ph', g) →
      Held src dst fs₀ files t (t.piece i) ph' g)
    (hcopied : ∀ j, ∀ g ∈ t.proc.copied j, g ∈ w.proc.copied j ∨ Copied src dst fs₀ files t g)
    (hfs : t.fs = w.fs ∨ ph = .copying)
    (hbytes : t.proc.bytes + size (w.fs (dst ++ r)) = w.proc.bytes + size (t.fs (dst ++ r)))
    (hpiece : t.piece i ≠ [] → ∃ g, t.proc.worker i = .copy g) :
    Carried src dst fs₀ files t := by
  have hnames := h.nodup_names
  have hf : f ∈ w.proc.takenBy i := hinv.takenBy_of_stage hstage
  -- another file has another path, so the step is elsewhere for it
  have hheld : ∀ d ph' g, g.srcName ≠ f.srcName → Held src dst fs₀ files w d ph' g →
      Held src dst fs₀ files t d ph' g := by
    rintro d ph' g hg ⟨q, hq, hgq, hentry⟩
    have hqr : q ≠ r := fun hqr => hg (by rw [hgq, hname, hqr])
    exact ⟨q, hq, hgq, hentry.elsewhere hapart he (by simpa using hqr)⟩
  refine ⟨h.nodup, hopened ▸ h.names, fun g hg => ?_, fun j ph' g hg => ?_, fun j g hg => ?_, ?_,
    fun j hj => ?_⟩
  · rw [hwaiting] at hg
    exact hheld _ _ g (hinv.name_ne_of_waiting hnames hg hf) (h.waiting g hg)
  · rcases eq_or_ne j i with rfl | hji
    · exact hown ph' g hg
    · obtain ⟨hsame, hpsame⟩ := hother j hji
      rw [hsame] at hg
      rw [hpsame]
      exact hheld _ _ g (hinv.name_ne_of_takenBy hnames hji (hinv.takenBy_of_stage hg) hf)
        (h.working j ph' g hg)
  · rcases hcopied j g hg with hg | hg
    · obtain ⟨q, hq, hgq, content, hcontent, hcopy⟩ := h.copied j g hg
      refine ⟨q, hq, hgq, content, hcontent, ?_⟩
      rcases hfs with hfs | rfl
      · rw [hfs, hcopy]
      · have hne := hinv.name_ne_of_copied hnames hg (CopyBuffer.mem_uncopied_of_stage hstage)
        have hqr : q ≠ r := fun hqr => hne (by rw [hgq, hname, hqr])
        rw [he.fs_eq (by simpa using hqr), hcopy]
    · exact hg
  · have hsum := sum_map_eq h.nodup hr (fun q => size (w.fs (dst ++ q)))
      (fun q => size (t.fs (dst ++ q))) fun q hqr => by rw [he.fs_eq (by simpa using hqr)]
    have hold := h.bytes
    omega
  · rcases eq_or_ne j i with rfl | hji
    · exact hpiece hj
    · obtain ⟨hsame, hpsame⟩ := hother j hji
      rw [hpsame] at hj
      rw [hsame]
      exact h.pieces j hj

/-- The traversal has opened a new file, at the path `r`, and hands it over. -/
lemma Carried.opened {n : ℕ} {src dst : Path} {fs₀ : FileSystem} {files : List Path}
    {w t : World n} {r : Path} (h : Carried src dst fs₀ files w) (hapart : Apart src dst)
    (hr : r ∉ files) {f : FileInformation} {content : List Char}
    (hcontent : fs₀ (src ++ r) = some (.file content)) (hname : f.srcName = text (src ++ r))
    (hscan : w.proc.manager = .scan) (he : Elsewhere src dst [r] w t)
    (hproc : t.proc = { w.proc with manager := .lock f }) (hpiece : t.piece = w.piece)
    (hsrc : t.fds f.srcFd = some ⟨src ++ r, 0⟩) (hdst : t.fds f.dstFd = some ⟨dst ++ r, 0⟩)
    (hempty : t.fs (dst ++ r) = some (.file [])) : Carried src dst fs₀ (files ++ [r]) t := by
  have hne : ∀ q ∈ files, q ∉ [r] := fun q hq hqr => hr (List.mem_singleton.mp hqr ▸ hq)
  have hheld : ∀ d ph g, Held src dst fs₀ files w d ph g →
      Held src dst fs₀ (files ++ [r]) t d ph g := by
    rintro d ph g ⟨q, hq, hgq, hentry⟩
    exact ⟨q, List.mem_append_left _ hq, hgq, hentry.elsewhere hapart he (hne q hq)⟩
  have hnew : Held src dst fs₀ (files ++ [r]) t [] .copying f :=
    ⟨r, by simp, hname, .copying hcontent (by simp) (by simp) hsrc hdst hempty⟩
  refine ⟨?_, ?_, fun g hg => ?_, fun i ph g hg => ?_, fun i g hg => ?_, ?_, fun i hi => ?_⟩
  · exact List.nodup_append.mpr ⟨h.nodup, List.nodup_singleton r, fun q hq q' hq' hqq =>
      hne q hq (hqq ▸ hq')⟩
  · have hnames := h.names
    simp only [CopyBuffer.State.opened, hscan, CopyBuffer.ManagerPc.hand, List.append_nil] at hnames
    simp [CopyBuffer.State.opened, hproc, CopyBuffer.ManagerPc.hand, hnames, hname]
  · rw [CopyBuffer.State.waiting, hproc] at hg
    rcases List.mem_append.mp hg with hg | hg
    · exact hheld _ _ g (h.waiting g (List.mem_append_left _ hg))
    · rw [List.mem_singleton.mp hg]
      exact hnew
  · rw [hproc] at hg
    rw [hpiece]
    exact hheld _ _ g (h.working i ph g hg)
  · rw [hproc] at hg
    obtain ⟨q, hq, hgq, c, hc, hcopy⟩ := h.copied i g hg
    exact ⟨q, List.mem_append_left _ hq, hgq, c, hc, (he.fs_eq (hne q hq)).trans hcopy⟩
  · have hbytes : t.proc.bytes = w.proc.bytes := by
      rw [hproc]
      rfl
    have hsame : (files.map fun q => size (t.fs (dst ++ q))) =
        files.map fun q => size (w.fs (dst ++ q)) :=
      List.map_congr_left fun q hq => by rw [he.fs_eq (hne q hq)]
    rw [hbytes, h.bytes, List.map_append, List.sum_append, hsame]
    simp [hempty, size]
  · rw [hpiece] at hi
    rw [hproc]
    exact h.pieces i hi

/-- When all workers have left, every file that was opened has been copied. -/
lemma Carried.complete {n : ℕ} {src dst : Path} {fs₀ : FileSystem} {files : List Path}
    {w : World n} (h : Carried src dst fs₀ files w) (hinv : CopyBuffer.Inv w.proc) (hn : 0 < n)
    (hall : ∀ i, (w.proc.worker i).left = true) (hhand : w.proc.manager.hand = []) :
    (∀ r ∈ files, ∃ content, fs₀ (src ++ r) = some (.file content) ∧
      w.fs (dst ++ r) = some (.file content)) ∧
    w.proc.numFilesCopied = files.length ∧
    w.proc.totalBytesCopied = (files.map fun r => size (fs₀ (src ++ r))).sum := by
  obtain ⟨-, htaken, hcopied, hcount⟩ := hinv.complete hn hall
  have hnames := h.names
  rw [CopyBuffer.State.opened, hhand, List.append_nil] at hnames
  have hfile : ∀ r ∈ files, ∃ content, fs₀ (src ++ r) = some (.file content) ∧
      w.fs (dst ++ r) = some (.file content) := by
    intro r hr
    have hadded : text (src ++ r) ∈ w.proc.added.map FileInformation.srcName := by
      rw [hnames]
      exact List.mem_map_of_mem hr
    obtain ⟨f, hf, hname⟩ := List.mem_map.mp hadded
    rw [← htaken] at hf
    obtain ⟨⟨i, g⟩, hg, rfl⟩ := List.mem_map.mp hf
    have hi : g ∈ w.proc.copied i := by
      rw [(hcopied i).1]
      exact List.mem_map.mpr ⟨(i, g), List.mem_filter.mpr ⟨hg, by simp⟩, rfl⟩
    obtain ⟨q, -, hgq, content, hcontent, hcopy⟩ := h.copied i g hi
    have hqr : q = r := List.append_cancel_left (text_injective (hgq.symm.trans hname))
    exact ⟨content, hqr ▸ hcontent, hqr ▸ hcopy⟩
  refine ⟨hfile, ?_, ?_⟩
  · have hlength := congrArg List.length hnames
    rw [List.length_map, List.length_map] at hlength
    rw [hcount, hlength]
  · have howed : ∀ i, (w.proc.worker i).owed = 0 := by
      intro i
      have hleft := hall i
      cases hp : w.proc.worker i <;> simp_all [WorkerPc.left, WorkerPc.owed]
    have hbytes := h.bytes
    simp only [CopyBuffer.State.bytes, howed, Finset.sum_const_zero, Nat.add_zero] at hbytes
    rw [hbytes]
    congr 1
    refine List.map_congr_left fun r hr => ?_
    obtain ⟨content, hcontent, hcopy⟩ := hfile r hr
    rw [hcontent, hcopy]

end SystemProgramming.TreeCopy
