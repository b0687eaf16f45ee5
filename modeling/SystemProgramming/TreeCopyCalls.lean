import SystemProgramming.TreeCopyTraversal

/-!
# The calls of the traversal

One lemma a call: the traversal goes on to its next call, the walk comes to a new
path or not, and a file that is opened is put down in the books of the files.
-/
namespace SystemProgramming.TreeCopy
open SystemProgramming.Transition SystemProgramming.TreeWalk
open SystemProgramming.CopyBuffer (FileInformation Quiet)
open scoped BigOperators

/-- The threads do a step of `CopyBuffer`, or nothing. -/
def ProcStep {n : ℕ} (w t : World n) : Prop :=
  t.proc = w.proc ∨ ∃ a, a ≠ .sigint ∧ (a = .endTraversal → t.trav = .returned) ∧
    CopyBuffer.step w.proc a = some t.proc

/-- The books are right after a step of the traversal. -/
def Onward {n : ℕ} (readdir : Path → List Name) (src dst : Path) (fs₀ : FileSystem)
    (w t : World n) : Prop :=
  ∃ visited stack todo pending, Traversed readdir src dst fs₀ visited stack todo pending t ∧
    Carried src dst fs₀ (regularFiles fs₀ src visited) t ∧ ProcStep w t

lemma Traversed.opendir {n : ℕ} {readdir : Path → List Name} {src dst : Path} {fs₀ : FileSystem}
    {visited : List Path} {stack : List (Path × List Name)} {todo : List Path}
    {pending : Option Path} {w t : World n}
    (h : Traversed readdir src dst fs₀ visited stack todo pending w)
    (hc : Carried src dst fs₀ (regularFiles fs₀ src visited) w) (hapart : Apart src dst)
    {s d : Path} {fd : ℤ} (htrav : w.trav = .opendir s d)
    (hst : w.traverse readdir true fd = some t) : Onward readdir src dst fs₀ w t := by
  have hpos := h.position
  rw [htrav] at hpos
  cases hpos with | opendir hdir
  simp only [World.traverse, htrav, if_true] at hst
  split_ifs at hst
  cases hst
  exact ⟨visited, stack, _, _,
    h.next hapart (elsewhere_of_eq rfl rfl) (fun _ hr => absurd hr List.not_mem_nil) h.frames
      (.mkdir hdir) (fun _ hq hne => absurd hq hne) rfl rfl,
    hc.away hapart (fun _ _ => List.not_mem_nil) (elsewhere_of_eq rfl rfl) (.refl _) rfl,
    Or.inl rfl⟩

/-- A path that is not a regular file is not one of the opened files. -/
lemma regularFiles_apart {fs₀ : FileSystem} {src r : Path} {visited : List Path}
    (h : isFile (fs₀ (src ++ r)) = false) : ∀ q ∈ regularFiles fs₀ src visited, q ∉ [r] := by
  intro q hq hqr
  have hfile := (List.mem_filter.mp hq).2
  rw [List.mem_singleton.mp hqr, h] at hfile
  cases hfile

lemma placed_of_eq {n : ℕ} {src dst : Path} {fs₀ : FileSystem} {w : World n} {r : Path}
    {node : Node} (h : fs₀ (src ++ r) = some node) (hthere : w.fs (dst ++ r) = some node) :
    Placed src dst fs₀ w r := by
  intro node' hnode _
  rw [hthere, ← h, hnode]

lemma upcoming_cons {p : Path × List Name} {stack : List (Path × List Name)} :
    upcoming (p :: stack) =
      (p.2.filter fun a => !isDot a).map (fun a => p.1 ++ [a]) ++ upcoming stack := rfl

/-- What an activation that starts will come to. -/
lemma childPaths_append_upcoming {readdir : Path → List Name} {src : Path} {fs₀ : FileSystem}
    {r : Path} (hdir : fs₀ (src ++ r) = some .dir) (stack : List (Path × List Name)) :
    childPaths (children readdir fs₀ src) r ++ upcoming stack =
      upcoming ((r, readdir (src ++ r)) :: stack) := by
  rw [upcoming_cons, childPaths, children, if_pos hdir]

/-- The destination directory is there; an activation starts to read the source. -/
lemma Traversed.entered {n : ℕ} {readdir : Path → List Name} {src dst : Path} {fs₀ : FileSystem}
    {visited : List Path} {stack : List (Path × List Name)} {r : Path} {w u : World n}
    (h : Traversed readdir src dst fs₀ visited stack
      (childPaths (children readdir fs₀ src) r ++ upcoming stack) (some r) w)
    (hc : Carried src dst fs₀ (regularFiles fs₀ src visited) w) (hapart : Apart src dst)
    (hdir : fs₀ (src ++ r) = some .dir) (he : Elsewhere src dst [r] w u)
    (hthere : u.fs (dst ++ r) = some .dir) (hproc : u.proc = w.proc) (hpiece : u.piece = w.piece)
    (hframes : u.frames = w.frames) (hdirs : u.numDirectories = w.numDirectories)
    (hfifos : u.numFifoFiles = w.numFifoFiles) :
    Onward readdir src dst fs₀ w (u.enter readdir (src ++ r) (dst ++ r)) := by
  refine ⟨visited, (r, readdir (src ++ r)) :: stack, _, none,
    h.next hapart ⟨he.fds, he.fs⟩ (fun q hq => Or.inl (by rw [List.mem_singleton.mp hq])) ?_ ?_
      (fun q hq _ => ?_) hdirs hfifos,
    hc.away hapart (regularFiles_apart (by rw [hdir]; rfl)) ⟨he.fds, he.fs⟩ ?_ hpiece,
    Or.inl hproc⟩
  · simp [World.enter, hframes, h.frames]
  · rw [childPaths_append_upcoming hdir]
    exact .readdir
  · cases hq
    exact placed_of_eq hdir hthere
  · rw [World.enter, hproc]
    exact .refl _

lemma Traversed.mkdir {n : ℕ} {readdir : Path → List Name} {src dst : Path} {fs₀ : FileSystem}
    {visited : List Path} {stack : List (Path × List Name)} {todo : List Path}
    {pending : Option Path} {w t : World n}
    (h : Traversed readdir src dst fs₀ visited stack todo pending w)
    (hc : Carried src dst fs₀ (regularFiles fs₀ src visited) w) (hapart : Apart src dst)
    {s d : Path} {ok : Bool} {fd : ℤ} (htrav : w.trav = .mkdir s d)
    (hok : ok = true ∨ w.fs d = some .dir)
    (hst : w.traverse readdir ok fd = some t) : Onward readdir src dst fs₀ w t := by
  have hpos := h.position
  rw [htrav] at hpos
  cases hpos with | @mkdir r hdir
  simp only [World.traverse, htrav] at hst
  split_ifs at hst with hmk hvacant hnone
  · cases hst
    exact h.entered hc hapart hdir
      ⟨fun _ _ hx _ => hx, fun p hp => Function.update_of_ne (hp r List.mem_cons_self) ..⟩
      (Function.update_self ..) rfl rfl rfl rfl rfl
  · cases hst
    rw [hnone] at hok
    simp [hmk] at hok
  · cases hst
    exact h.entered hc hapart hdir (elsewhere_of_eq rfl rfl) (hok.resolve_left hmk) rfl rfl rfl rfl
      rfl

/-- The loop over the entries touches no file and comes to the next path, if any. -/
lemma position_readdir {n : ℕ} {readdir : Path → List Name} {src dst : Path} (fs₀ : FileSystem)
    {stack : List (Path × List Name)} {w t : World n} {ok : Bool} {fd : ℤ}
    (hframes : w.frames = stack.map fun p => ⟨src ++ p.1, dst ++ p.1, p.2⟩)
    (htrav : w.trav = .readdir) (hst : w.traverse readdir ok fd = some t) :
    (t = { w with frames := t.frames, trav := t.trav }) ∧
    ∃ stack', t.frames = (stack'.map fun p => ⟨src ++ p.1, dst ++ p.1, p.2⟩) ∧
      Position readdir src dst fs₀ t.fds stack' t.trav (upcoming stack) none := by
  simp only [World.traverse, htrav] at hst
  cases stack with
  | nil => simp [hframes] at hst
  | cons p stack =>
    obtain ⟨q, es⟩ := p
    rw [List.map_cons] at hframes
    cases es with
    | nil =>
      rw [hframes] at hst
      cases hst
      refine ⟨rfl, stack, by simp [World.leave, hframes], ?_⟩
      simp only [World.leave, hframes, List.tail_cons, List.map_eq_nil_iff]
      split_ifs with hempty
      · rw [hempty]
        exact .returned rfl
      · exact .readdir
    | cons a es =>
      rw [hframes] at hst
      dsimp only at hst
      split_ifs at hst with hdot
      · cases hst
        have hsame : upcoming ((q, a :: es) :: stack) = upcoming ((q, es) :: stack) := by
          simp [upcoming_cons, hdot]
        refine ⟨rfl, (q, es) :: stack, rfl, ?_⟩
        rw [hsame]
        exact .readdir
      · cases hst
        have hhead : upcoming ((q, a :: es) :: stack) =
            (q ++ [a]) :: upcoming ((q, es) :: stack) := by
          simp [upcoming_cons, hdot]
        refine ⟨rfl, (q, es) :: stack, rfl, ?_⟩
        rw [hhead]
        dsimp only
        rw [List.append_assoc, List.append_assoc]
        exact .stat (q ++ [a])

lemma Traversed.readdir {n : ℕ} {readdir : Path → List Name} {src dst : Path} {fs₀ : FileSystem}
    {visited : List Path} {stack : List (Path × List Name)} {todo : List Path}
    {pending : Option Path} {w t : World n}
    (h : Traversed readdir src dst fs₀ visited stack todo pending w)
    (hc : Carried src dst fs₀ (regularFiles fs₀ src visited) w) (hapart : Apart src dst)
    {ok : Bool} {fd : ℤ} (htrav : w.trav = .readdir)
    (hst : w.traverse readdir ok fd = some t) : Onward readdir src dst fs₀ w t := by
  obtain ⟨ht, stack', hframes, hpos'⟩ := position_readdir fs₀ h.frames htrav hst
  have hpos := h.position
  rw [htrav] at hpos
  cases hpos
  have he : Elsewhere src dst [] w t := elsewhere_of_eq (by rw [ht]) (by rw [ht])
  refine ⟨visited, stack', _, none,
    h.next hapart he (fun _ hr => absurd hr List.not_mem_nil) hframes hpos'
      (fun _ hq _ => by cases hq) (by rw [ht]) (by rw [ht]),
    hc.away hapart (fun _ _ => List.not_mem_nil) he ?_ (by rw [ht]), Or.inl (by rw [ht])⟩
  rw [ht]
  exact .refl _

lemma content_of_isFile {node : Option Node} (h : isFile node = true) :
    ∃ content, node = some (.file content) := by
  cases node with
  | none => cases h
  | some node =>
    cases node with
    | dir | fifo => cases h
    | file content => exact ⟨content, rfl⟩

/-- A visited path that is not a regular file. -/
lemma regularFiles_visit {fs₀ : FileSystem} {src r : Path} (visited : List Path)
    (h : isFile (fs₀ (src ++ r)) = false) :
    regularFiles fs₀ src (visited ++ [r]) = regularFiles fs₀ src visited := by
  simp [regularFiles, h]

lemma Traversed.stat {n : ℕ} {readdir : Path → List Name} {src dst : Path} {fs₀ : FileSystem}
    {visited : List Path} {stack : List (Path × List Name)} {todo : List Path}
    {pending : Option Path} {w t : World n}
    (h : Traversed readdir src dst fs₀ visited stack todo pending w)
    (hc : Carried src dst fs₀ (regularFiles fs₀ src visited) w) (hapart : Apart src dst)
    (hnodup : ∀ r, (children readdir fs₀ src r).Nodup) {s d : Path} {fd : ℤ}
    (htrav : w.trav = .stat s d) (hst : w.traverse readdir true fd = some t) :
    Onward readdir src dst fs₀ w t := by
  have hpos := h.position
  rw [htrav] at hpos
  cases hpos with | stat r
  have hcarried : ∀ u : World n, u.proc = w.proc → u.piece = w.piece → u.fds = w.fds →
      u.fs = w.fs → Carried src dst fs₀ (regularFiles fs₀ src visited) u := by
    intro u hproc hpiece hfds hfs
    refine hc.away hapart (fun _ _ => List.not_mem_nil) (elsewhere_of_eq hfds hfs) ?_ hpiece
    rw [hproc]
    exact .refl _
  simp only [World.traverse, htrav, if_true, h.source] at hst
  cases hnode : fs₀ (src ++ r) with
  | none =>
    rw [hnode] at hst
    cases hst
  | some node =>
    rw [hnode] at hst
    cases node with
    | dir =>
      cases hst
      refine ⟨visited ++ [r], stack, _, some r,
        h.visit hapart (hnodup r) (elsewhere_of_eq rfl rfl) rfl (.opendir hnode) (Or.inr rfl)
          (by rw [hnode]; rfl) (by rw [hnode]; rfl), ?_, Or.inl rfl⟩
      rw [regularFiles_visit visited (by rw [hnode]; rfl)]
      exact hcarried _ rfl rfl rfl rfl
    | file content =>
      cases hst
      exact ⟨visited, stack, _, none,
        h.next hapart (elsewhere_of_eq rfl rfl) (fun _ hr => absurd hr List.not_mem_nil) h.frames
          (.openSrc (by rw [hnode]; rfl)) (fun _ hq _ => by cases hq) rfl rfl,
        hcarried _ rfl rfl rfl rfl, Or.inl rfl⟩
    | fifo =>
      cases hst
      have hleaf : childPaths (children readdir fs₀ src) r ++ upcoming stack = upcoming stack := by
        simp [childPaths, children, hnode]
      refine ⟨visited ++ [r], stack, _, some r,
        h.visit hapart (hnodup r) (elsewhere_of_eq rfl rfl) rfl ?_ (Or.inr rfl)
          (by rw [hnode]; rfl) (by rw [hnode]; rfl), ?_, Or.inl rfl⟩
      · rw [hleaf]
        exact .mkfifo hnode
      · rw [regularFiles_visit visited (by rw [hnode]; rfl)]
        exact hcarried _ rfl rfl rfl rfl

/-- A new descriptor is none of those in use. -/
lemma elsewhere_unused {n : ℕ} {src dst : Path} {touched : List Path} {w t : World n} {fd : ℤ}
    {o : Option OpenFile} (hunused : w.fds fd = none) (hfds : t.fds = Function.update w.fds fd o)
    (hfs : t.fs = w.fs) : Elsewhere src dst touched w t := by
  refine ⟨fun x o' hx _ => ?_, fun p _ => by rw [hfs]⟩
  have hne : x ≠ fd := by
    rintro rfl
    cases hunused.symm.trans hx
  rw [hfds, Function.update_of_ne hne, hx]

lemma Traversed.openSrc {n : ℕ} {readdir : Path → List Name} {src dst : Path} {fs₀ : FileSystem}
    {visited : List Path} {stack : List (Path × List Name)} {todo : List Path}
    {pending : Option Path} {w t : World n}
    (h : Traversed readdir src dst fs₀ visited stack todo pending w)
    (hc : Carried src dst fs₀ (regularFiles fs₀ src visited) w) (hapart : Apart src dst)
    {s d : Path} {fd : ℤ} (htrav : w.trav = .openSrc s d)
    (hst : w.traverse readdir true fd = some t) : Onward readdir src dst fs₀ w t := by
  have hpos := h.position
  rw [htrav] at hpos
  cases hpos with | @openSrc r hfile
  simp only [World.traverse, htrav, if_true] at hst
  split_ifs at hst with hunused
  cases hst
  simp only [World.unused, decide_eq_true_eq] at hunused
  have he : ∀ u : World n, u.fds = Function.update w.fds fd (some ⟨src ++ r, 0⟩) → u.fs = w.fs →
      Elsewhere src dst [] w u := fun u => elsewhere_unused hunused.2
  exact ⟨visited, stack, _, none,
    h.next hapart (he _ rfl rfl) (fun _ hr => absurd hr List.not_mem_nil) h.frames
      (.openDst hfile (Function.update_self ..)) (fun _ hq _ => by cases hq) rfl rfl,
    hc.away hapart (fun _ _ => List.not_mem_nil) (he _ rfl rfl) (.refl _) rfl, Or.inl rfl⟩

/-- The traversal has opened the destination file `r`, which is empty, and is about to
hand `f` over. -/
structure Opened {n : ℕ} (src dst r : Path) (f : FileInformation) (w t : World n) : Prop where
  name : f.srcName = text (src ++ r)
  away : Elsewhere src dst [r] w t
  step : CopyBuffer.step w.proc (.tryAdd f) = some t.proc
  proc : t.proc = { w.proc with manager := .lock f }
  same : t = { w with fs := t.fs, fds := t.fds, proc := t.proc, trav := .readdir }
  srcFd : t.fds f.srcFd = some ⟨src ++ r, 0⟩
  dstFd : t.fds f.dstFd = some ⟨dst ++ r, 0⟩
  empty : t.fs (dst ++ r) = some (.file [])

lemma opened_of_openDst {n : ℕ} {readdir : Path → List Name} {src dst r : Path} {w t : World n}
    {srcFd fd : ℤ} (hscan : w.proc.manager = .scan)
    (htrav : w.trav = .openDst (src ++ r) (dst ++ r) srcFd)
    (hfd : w.fds srcFd = some ⟨src ++ r, 0⟩) (hst : w.traverse readdir true fd = some t) :
    ∃ f, Opened src dst r f w t := by
  simp only [World.traverse, htrav, if_true] at hst
  split_ifs at hst with hunused
  simp only [World.unused, decide_eq_true_eq] at hunused
  obtain ⟨u, hu, rfl⟩ := call_eq_some hst
  have hmove := hu
  simp only [CopyBuffer.step, CopyBuffer.move, World.setFd, World.create, hscan, if_true] at hmove
  split_ifs at hmove
  cases hmove
  have hsrcFd : srcFd ≠ fd := by
    rintro rfl
    cases hunused.1.2.symm.trans hfd
  refine ⟨⟨srcFd, fd, text (src ++ r), text (dst ++ r)⟩, rfl,
    elsewhere_update (fun o ho => ?_) rfl fun p hp => Function.update_of_ne hp .., hu, rfl, rfl,
    (Function.update_of_ne hsrcFd ..).trans hfd, Function.update_self .., Function.update_self ..⟩
  cases hunused.1.2.symm.trans ho

lemma Traversed.openDst {n : ℕ} {readdir : Path → List Name} {src dst : Path} {fs₀ : FileSystem}
    {visited : List Path} {stack : List (Path × List Name)} {todo : List Path}
    {pending : Option Path} {w t : World n}
    (h : Traversed readdir src dst fs₀ visited stack todo pending w)
    (hc : Carried src dst fs₀ (regularFiles fs₀ src visited) w) (hapart : Apart src dst)
    (hscan : w.proc.manager = .scan) {s d : Path} {srcFd fd : ℤ}
    (htrav : w.trav = .openDst s d srcFd) (hst : w.traverse readdir true fd = some t) :
    Onward readdir src dst fs₀ w t := by
  have hpos := h.position
  rw [htrav] at hpos
  cases hpos with | @openDst r _ hfile hfd
  obtain ⟨f, hf⟩ := opened_of_openDst hscan htrav hfd hst
  have hnew : r ∉ regularFiles fs₀ src visited := fun hmem =>
    h.walk.roam.not_mem (List.mem_filter.mp hmem).1
  obtain ⟨content, hnode⟩ := content_of_isFile hfile
  have hleaf : childPaths (children readdir fs₀ src) r ++ upcoming stack = upcoming stack := by
    simp [childPaths, children, hnode]
  refine ⟨visited ++ [r], stack, _, none,
    h.visit hapart (by simp [children, hnode]) hf.away (by rw [hf.same]) ?_ (Or.inl hfile)
      (by rw [hf.same, hnode]; rfl) (by rw [hf.same, hnode]; rfl), ?_,
    Or.inr ⟨.tryAdd f, by simp, by simp, hf.step⟩⟩
  · rw [hleaf, hf.same]
    exact .readdir
  · have hfiles : regularFiles fs₀ src (visited ++ [r]) =
        regularFiles fs₀ src visited ++ [r] := by
      simp [regularFiles, hfile]
    rw [hfiles]
    exact hc.opened hapart hnew hnode hf.name hscan hf.away hf.proc (by rw [hf.same]) hf.srcFd
      hf.dstFd hf.empty

lemma Traversed.mkfifo {n : ℕ} {readdir : Path → List Name} {src dst : Path} {fs₀ : FileSystem}
    {visited : List Path} {stack : List (Path × List Name)} {todo : List Path}
    {pending : Option Path} {w t : World n}
    (h : Traversed readdir src dst fs₀ visited stack todo pending w)
    (hc : Carried src dst fs₀ (regularFiles fs₀ src visited) w) (hapart : Apart src dst)
    {d : Path} {fd : ℤ} (htrav : w.trav = .mkfifo d)
    (hst : w.traverse readdir true fd = some t) : Onward readdir src dst fs₀ w t := by
  have hpos := h.position
  rw [htrav] at hpos
  cases hpos with | @mkfifo r hfifo
  simp only [World.traverse, htrav, if_true] at hst
  split_ifs at hst with hvacant
  cases hst
  have he : ∀ u : World n, u.fds = w.fds →
      u.fs = Function.update w.fs (dst ++ r) (some .fifo) → Elsewhere src dst [r] w u := by
    intro u hfds hfs
    refine ⟨fun x o hx _ => by rw [hfds, hx], fun p hp => ?_⟩
    rw [hfs, Function.update_of_ne (hp r List.mem_cons_self)]
  refine ⟨visited, stack, _, none,
    h.next hapart (he _ rfl rfl) (fun q hq => Or.inl (by rw [List.mem_singleton.mp hq])) h.frames
      .readdir (fun q hq _ => ?_) rfl rfl,
    hc.away hapart (regularFiles_apart (by rw [hfifo]; rfl)) (he _ rfl rfl) (.refl _) rfl,
    Or.inl rfl⟩
  cases hq
  exact placed_of_eq hfifo (Function.update_self ..)

lemma Traversed.returned {n : ℕ} {readdir : Path → List Name} {src dst : Path} {fs₀ : FileSystem}
    {visited : List Path} {stack : List (Path × List Name)} {todo : List Path}
    {pending : Option Path} {w t : World n}
    (h : Traversed readdir src dst fs₀ visited stack todo pending w)
    (hc : Carried src dst fs₀ (regularFiles fs₀ src visited) w) (hapart : Apart src dst)
    (hscan : w.proc.manager = .scan) {ok : Bool} {fd : ℤ} (htrav : w.trav = .returned)
    (hst : w.traverse readdir ok fd = some t) : Onward readdir src dst fs₀ w t := by
  simp only [World.traverse, htrav] at hst
  obtain ⟨u, hu, rfl⟩ := call_eq_some hst
  have hmove := hu
  simp only [CopyBuffer.step, CopyBuffer.move, hscan, if_true] at hmove
  split_ifs at hmove
  cases hmove
  have helse : ∀ touched, Elsewhere src dst touched w
      { w with proc := { w.proc with manager := .endLock } } := fun _ => elsewhere_of_eq rfl rfl
  exact ⟨visited, stack, todo, pending, h.away hapart (helse _) ⟨rfl, rfl, rfl, rfl⟩,
    hc.away hapart (fun _ _ => List.not_mem_nil) (helse _)
      (CopyBuffer.quiet_manager hscan _ _ _ _ rfl) rfl,
    Or.inr ⟨_, by simp, fun _ => htrav, hu⟩⟩

end SystemProgramming.TreeCopy
