import SystemProgramming.TreeCopyFiles

/-!
# The workers keep the books

A worker reads a piece of its source file, appends it to the destination and
adds its length to the total; at the end of the file the destination has the
whole content. Its other statements leave all files alone.
-/
namespace SystemProgramming.TreeCopy
open SystemProgramming.ByteFile
open SystemProgramming.CopyBuffer (FileInformation Phase WorkerPc Quiet)
open scoped BigOperators

lemma call_eq_some {n : ℕ} {w t : World n} {a : CopyBuffer.Act n} (h : w.call a = some t) :
    ∃ s, CopyBuffer.step w.proc a = some s ∧ t = { w with proc := s } := by
  obtain ⟨s, hs, rfl⟩ := Option.map_eq_some_iff.mp h
  exact ⟨s, hs, rfl⟩

lemma call_worker {n : ℕ} {w t : World n} {i : Fin n} {k : ℕ}
    (h : w.call (.worker i k) = some t) :
    ∃ s, CopyBuffer.workerStep w.proc i k = some s ∧ t = { w with proc := s } := by
  obtain ⟨s, hs, rfl⟩ := call_eq_some h
  simp only [CopyBuffer.step] at hs
  split_ifs at hs
  exact ⟨s, hs, rfl⟩

/-- The directories that the traversal is in, and its counters. -/
structure SamePlace {n : ℕ} (w t : World n) : Prop where
  frames : t.frames = w.frames
  trav : t.trav = w.trav
  numDirectories : t.numDirectories = w.numDirectories
  numFifoFiles : t.numFifoFiles = w.numFifoFiles

/-- The worker takes the oldest file of the buffer. -/
lemma Carried.get {n : ℕ} {src dst : Path} {fs₀ : FileSystem} {files : List Path} {w t : World n}
    (h : Carried src dst fs₀ files w) (hinv : CopyBuffer.Inv w.proc) {i : Fin n}
    (hp : w.proc.worker i = .get) (hst : w.call (.worker i 0) = some t) :
    Carried src dst fs₀ files t := by
  obtain ⟨s, hs, rfl⟩ := call_worker hst
  simp only [CopyBuffer.workerStep, hp] at hs
  cases hs
  have hwaiting : w.proc.waiting = w.proc.buffer.get.1 ::
      (w.proc.buffer.get.2.files ++ w.proc.manager.hand) := by
    rw [CopyBuffer.State.waiting, (hinv.wf.get (hinv.getting i hp)).2, List.cons_append]
  have hsum := CopyBuffer.sum_worker WorkerPc.owed w.proc.worker i (.signal w.proc.buffer.get.1)
  rw [hp] at hsum
  have hpiece : w.piece i = [] := by
    by_contra hne
    obtain ⟨f, hf⟩ := h.pieces i hne
    cases hp.symm.trans hf
  refine ⟨h.nodup, h.names, fun f hf => ?_, fun j ph f hf => ?_, h.copied, ?_, fun j hj => ?_⟩
  · exact h.waiting f (hwaiting ▸ List.mem_cons_of_mem _ hf)
  · rcases eq_or_ne j i with rfl | hji
    · simp only [CopyBuffer.State.setWorker, Function.update_self] at hf
      cases hf
      dsimp only
      rw [hpiece]
      exact h.waiting _ (hwaiting ▸ List.mem_cons_self)
    · simp only [CopyBuffer.State.setWorker, Function.update_of_ne hji] at hf
      exact h.working j ph f hf
  · rw [← h.bytes]
    exact congrArg (w.proc.totalBytesCopied + ·) hsum
  · obtain ⟨f, hf⟩ := h.pieces j hj
    have hji : j ≠ i := by
      rintro rfl
      cases hp.symm.trans hf
    exact ⟨f, (Function.update_of_ne hji ..).trans hf⟩

/-- The worker reads the next piece, or finds the end of its file. -/
lemma Carried.read {n : ℕ} {src dst : Path} {fs₀ : FileSystem} {files : List Path} {w t : World n}
    (h : Carried src dst fs₀ files w) (hinv : CopyBuffer.Inv w.proc) (hapart : Apart src dst)
    (hsource : ∀ r, w.fs (src ++ r) = fs₀ (src ++ r)) {i : Fin n} {f : FileInformation} {nread : ℕ}
    (hp : w.proc.worker i = .copy f) (hpiece : w.piece i = [])
    (hst : w.read i f true nread = some t) :
    Carried src dst fs₀ files t ∧ Elsewhere src dst files w t ∧ SamePlace w t := by
  have hstage : (w.proc.worker i).stage = some (.copying, f) := by rw [hp]; rfl
  obtain ⟨r, hr, hname, hentry⟩ := h.working i _ f hstage
  rw [hpiece] at hentry
  cases hentry with | @copying content off hcontent hlen hread hsrc hdst hwritten
  rw [List.length_nil, Nat.add_zero] at hsrc hlen
  have hregular : w.regular f.srcFd = some (⟨src ++ r, off⟩, content) := by
    simp [World.regular, hsrc, hsource, hcontent]
  simp only [World.read, if_true, hregular] at hst
  split_ifs at hst with hend hmore
  · obtain ⟨s, hs, rfl⟩ := call_worker hst
    simp only [CopyBuffer.workerStep, hp, if_true] at hs
    cases hs
    have hsum := CopyBuffer.sum_worker WorkerPc.owed w.proc.worker i (.closeSrc f)
    rw [hp] at hsum
    rw [List.take_of_length_le hend.2] at hwritten
    refine ⟨h.focus hinv hapart hstage hr hname (elsewhere_of_eq rfl rfl) rfl rfl
      (fun j hj => ⟨Function.update_of_ne hj .., rfl⟩) (fun ph g hg => ?_) (fun j g hg => ?_)
      (Or.inl rfl) ?_ (fun hne => absurd hpiece hne), elsewhere_of_eq rfl rfl, ⟨rfl, rfl, rfl, rfl⟩⟩
    · simp only [CopyBuffer.State.setWorker, Function.update_self] at hg
      cases hg
      exact ⟨r, hr, hname, .closingSrc hsrc hdst⟩
    · dsimp only at hg
      rcases eq_or_ne j i with rfl | hji
      · rw [Function.update_self] at hg
        refine (List.mem_append.mp hg).imp_right fun hg => ?_
        rw [List.mem_singleton.mp hg]
        exact ⟨r, hr, hname, content, hcontent, hwritten⟩
      · rw [Function.update_of_ne hji] at hg
        exact Or.inl hg
    · exact congrArg (w.proc.totalBytesCopied + · + size (w.fs (dst ++ r))) hsum
  · cases hst
    have hfd := path_of_fds hsrc (Or.inl rfl : src ++ r = src ++ r ∨ src ++ r = dst ++ r)
    have hplen : ((content.drop off).take nread).length = nread := by
      rw [List.length_take, List.length_drop]
      omega
    refine ⟨h.focus hinv hapart hstage hr hname (elsewhere_update hfd rfl fun _ _ => rfl) rfl rfl
      (fun j hj => ⟨rfl, Function.update_of_ne hj ..⟩) (fun ph g hg => ?_) (fun j g hg => Or.inl hg)
      (Or.inl rfl) rfl (fun _ => ⟨f, hp⟩),
      elsewhere_of_mem hr (elsewhere_update hfd rfl fun _ _ => rfl), ⟨rfl, rfl, rfl, rfl⟩⟩
    cases hstage.symm.trans hg
    dsimp only
    rw [Function.update_self]
    refine ⟨r, hr, hname, .copying hcontent (by omega) (by rw [hplen]) ?_ ?_ hwritten⟩
    · rw [hplen]
      exact Function.update_self ..
    · exact (Function.update_of_ne (hapart.fds_ne hsrc hdst).symm ..).trans hdst

/-- The worker writes its piece. -/
lemma Carried.write {n : ℕ} {src dst : Path} {fs₀ : FileSystem} {files : List Path} {w t : World n}
    (h : Carried src dst fs₀ files w) (hinv : CopyBuffer.Inv w.proc) (hapart : Apart src dst)
    {i : Fin n} {f : FileInformation} (hp : w.proc.worker i = .copy f) (hpiece : w.piece i ≠ [])
    (hst : w.write i f true = some t) :
    Carried src dst fs₀ files t ∧ Elsewhere src dst files w t ∧ SamePlace w t := by
  have hstage : (w.proc.worker i).stage = some (.copying, f) := by rw [hp]; rfl
  obtain ⟨r, hr, hname, hentry⟩ := h.working i _ f hstage
  cases hentry with | @copying content off hcontent hlen hread hsrc hdst hwritten
  have hregular : w.regular f.dstFd = some (⟨dst ++ r, off⟩, content.take off) := by
    simp [World.regular, hdst, hwritten]
  have hfd := path_of_fds hdst (Or.inr rfl : dst ++ r = src ++ r ∨ dst ++ r = dst ++ r)
  have htake : writeAt (content.take off) off (w.piece i) =
      content.take (off + (w.piece i).length) := by
    have hoff : off = (content.take off).length := by
      rw [List.length_take]
      omega
    nth_rewrite 2 [hoff]
    rw [writeAt_length, List.take_add, ← hread]
  simp only [World.write, if_true, hregular, htake] at hst
  obtain ⟨s, hs, rfl⟩ := call_worker hst
  have hne : (w.piece i).length ≠ 0 := fun hzero => hpiece (List.length_eq_zero_iff.mp hzero)
  simp only [CopyBuffer.workerStep, World.setFd, World.create, hp, if_neg hne] at hs
  cases hs
  have hbytes : (w.proc.setWorker i (.bytesLock f (w.piece i).length)).bytes =
      w.proc.bytes + (w.piece i).length := by
    have hsum := CopyBuffer.sum_worker WorkerPc.owed w.proc.worker i
      (.bytesLock f (w.piece i).length)
    rw [hp] at hsum
    exact (congrArg (w.proc.totalBytesCopied + ·) hsum).trans (Nat.add_assoc ..).symm
  have hfs : ∀ p, p ≠ dst ++ r → Function.update w.fs (dst ++ r)
      (some (.file (content.take (off + (w.piece i).length)))) p = w.fs p :=
    fun p hp => Function.update_of_ne hp ..
  refine ⟨h.focus hinv hapart hstage hr hname (elsewhere_update hfd rfl hfs) rfl rfl
    (fun j hj => ⟨Function.update_of_ne hj .., Function.update_of_ne hj ..⟩)
    (fun ph g hg => ?_) (fun j g hg => Or.inl hg) (Or.inr rfl) ?_ (fun hj => ?_),
    elsewhere_of_mem hr (elsewhere_update hfd rfl hfs), ⟨rfl, rfl, rfl, rfl⟩⟩
  · simp only [CopyBuffer.State.setWorker, Function.update_self] at hg
    cases hg
    dsimp only
    rw [Function.update_self]
    refine ⟨r, hr, hname, .copying hcontent hlen (by simp) ?_ ?_ ?_⟩
    · exact (Function.update_of_ne (hapart.fds_ne hsrc hdst) ..).trans hsrc
    · exact Function.update_self ..
    · exact Function.update_self ..
  · have hsize : size (w.fs (dst ++ r)) = off := by
      rw [hwritten]
      exact List.length_take_of_le (by omega)
    have hsize' : size (Function.update w.fs (dst ++ r)
        (some (.file (content.take (off + (w.piece i).length)))) (dst ++ r)) =
        off + (w.piece i).length := by
      rw [Function.update_self]
      exact List.length_take_of_le hlen
    calc
      _ = w.proc.bytes + (w.piece i).length + off := congrArg₂ (· + ·) hbytes hsize
      _ = w.proc.bytes + (off + (w.piece i).length) := by omega
      _ = _ := congrArg (w.proc.bytes + ·) hsize'.symm
  · dsimp only at hj
    rw [Function.update_self] at hj
    exact absurd rfl hj

/-- A worker closes a descriptor of its file and goes on at `q`. -/
lemma Carried.closeFd {n : ℕ} {src dst : Path} {fs₀ : FileSystem} {files : List Path}
    {w : World n} (h : Carried src dst fs₀ files w) (hinv : CopyBuffer.Inv w.proc)
    (hapart : Apart src dst) {i : Fin n} {ph : Phase} {f : FileInformation} {r : Path} {fd : ℤ}
    {o : OpenFile} (hstage : (w.proc.worker i).stage = some (ph, f)) (hr : r ∈ files)
    (hname : f.srcName = text (src ++ r)) (hfd : w.fds fd = some o)
    (ho : o.path = src ++ r ∨ o.path = dst ++ r) (q : WorkerPc) (c : Fin n → List FileInformation)
    (hcopy : ∀ g, w.proc.worker i ≠ .copy g) (howed : q.owed = (w.proc.worker i).owed)
    (hown : ∀ ph' g, q.stage = some (ph', g) →
      Held src dst fs₀ files (w.close fd) (w.piece i) ph' g) :
    Carried src dst fs₀ files
      { w.close fd with proc := { w.proc.setWorker i q with closed := c } } ∧
    Elsewhere src dst files w
      { w.close fd with proc := { w.proc.setWorker i q with closed := c } } := by
  have hopen := path_of_fds hfd ho
  have hsum : ∑ j, (Function.update w.proc.worker i q j).owed = ∑ j, (w.proc.worker j).owed := by
    have hsum := CopyBuffer.sum_worker WorkerPc.owed w.proc.worker i q
    omega
  refine ⟨h.focus hinv hapart hstage hr hname (elsewhere_update hopen rfl fun _ _ => rfl) rfl rfl
    (fun j hj => ⟨Function.update_of_ne hj .., rfl⟩) (fun ph' g hg => ?_)
    (fun j g hg => Or.inl hg) (Or.inl rfl) ?_ (fun hne => ?_),
    elsewhere_of_mem hr (elsewhere_update hopen rfl fun _ _ => rfl)⟩
  · simp only [CopyBuffer.State.setWorker, Function.update_self] at hg
    exact hown ph' g hg
  · exact congrArg (w.proc.totalBytesCopied + · + size (w.fs (dst ++ r))) hsum
  · obtain ⟨g, hg⟩ := h.pieces i hne
    exact absurd hg (hcopy g)

lemma Carried.closeSrc {n : ℕ} {src dst : Path} {fs₀ : FileSystem} {files : List Path}
    {w t : World n} (h : Carried src dst fs₀ files w) (hinv : CopyBuffer.Inv w.proc)
    (hapart : Apart src dst) {i : Fin n} {f : FileInformation}
    (hp : w.proc.worker i = .closeSrc f) (hst : (w.close f.srcFd).call (.worker i 0) = some t) :
    Carried src dst fs₀ files t ∧ Elsewhere src dst files w t ∧ SamePlace w t := by
  have hstage : (w.proc.worker i).stage = some (.closingSrc, f) := by rw [hp]; rfl
  obtain ⟨r, hr, hname, hentry⟩ := h.working i _ f hstage
  cases hentry with | @closingSrc k l hsrc hdst
  obtain ⟨s, hs, rfl⟩ := call_worker hst
  simp only [CopyBuffer.workerStep, World.close, World.setFd, hp] at hs
  cases hs
  have hclose := h.closeFd hinv hapart hstage hr hname hsrc (Or.inl rfl) (.closeDst f)
    w.proc.closed (by simp [hp]) (by rw [hp]; rfl) fun ph' g hg => by
      cases hg
      have hdst' := (Function.update_of_ne (hapart.fds_ne hsrc hdst).symm none w.fds).trans hdst
      exact ⟨r, hr, hname, .closingDst hdst'⟩
  exact ⟨hclose.1, hclose.2, ⟨rfl, rfl, rfl, rfl⟩⟩

lemma Carried.closeDst {n : ℕ} {src dst : Path} {fs₀ : FileSystem} {files : List Path}
    {w t : World n} (h : Carried src dst fs₀ files w) (hinv : CopyBuffer.Inv w.proc)
    (hapart : Apart src dst) {i : Fin n} {f : FileInformation}
    (hp : w.proc.worker i = .closeDst f) (hst : (w.close f.dstFd).call (.worker i 0) = some t) :
    Carried src dst fs₀ files t ∧ Elsewhere src dst files w t ∧ SamePlace w t := by
  have hstage : (w.proc.worker i).stage = some (.closingDst, f) := by rw [hp]; rfl
  obtain ⟨r, hr, hname, hentry⟩ := h.working i _ f hstage
  cases hentry with | @closingDst l hdst
  obtain ⟨s, hs, rfl⟩ := call_worker hst
  simp only [CopyBuffer.workerStep, World.close, World.setFd, hp] at hs
  cases hs
  have hclose := h.closeFd hinv hapart hstage hr hname hdst (Or.inr rfl) .countLock
    (Function.update w.proc.closed i (w.proc.closed i ++ [f])) (by simp [hp]) (by rw [hp]; rfl)
    fun ph' g hg => by cases hg
  exact ⟨hclose.1, hclose.2, ⟨rfl, rfl, rfl, rfl⟩⟩

/-- A worker executes its next statement. -/
theorem Carried.worker {n : ℕ} {src dst : Path} {fs₀ : FileSystem} {files : List Path}
    {w t : World n} (h : Carried src dst fs₀ files w) (hinv : CopyBuffer.Inv w.proc)
    (hapart : Apart src dst) (hsource : ∀ r, w.fs (src ++ r) = fs₀ (src ++ r)) {i : Fin n}
    {nread : ℕ} (hst : w.worker i true nread = some t) :
    Carried src dst fs₀ files t ∧ Elsewhere src dst files w t ∧ SamePlace w t := by
  have hquiet : ∀ pc, w.proc.worker i = pc → pc.quiet = true → w.call (.worker i 0) = some t →
      Carried src dst fs₀ files t ∧ Elsewhere src dst files w t ∧ SamePlace w t := by
    intro pc hp hq hst
    obtain ⟨s, hs, rfl⟩ := call_worker hst
    exact ⟨h.away hapart (fun _ _ => List.not_mem_nil) (elsewhere_of_eq rfl rfl)
      (CopyBuffer.quiet_workerStep (hp ▸ hq) hs) rfl, elsewhere_of_eq rfl rfl, ⟨rfl, rfl, rfl, rfl⟩⟩
  simp only [World.worker] at hst
  cases hp : w.proc.worker i with
  | get =>
    rw [hp] at hst
    obtain ⟨s, -, rfl⟩ := call_worker hst
    exact ⟨h.get hinv hp hst, elsewhere_of_eq rfl rfl, ⟨rfl, rfl, rfl, rfl⟩⟩
  | copy f =>
    rw [hp] at hst
    by_cases hpiece : w.piece i = []
    · exact h.read hinv hapart hsource hp hpiece (by simpa only [if_pos hpiece] using hst)
    · exact h.write hinv hapart hp hpiece (by simpa only [if_neg hpiece] using hst)
  | closeSrc f =>
    rw [hp] at hst
    exact h.closeSrc hinv hapart hp hst
  | closeDst f =>
    rw [hp] at hst
    exact h.closeDst hinv hapart hp hst
  | _ =>
    rw [hp] at hst
    exact hquiet _ hp rfl hst

end SystemProgramming.TreeCopy
