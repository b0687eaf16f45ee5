import SystemProgramming.TreeCopyCalls

/-!
# The traversal when its calls fail

After a call that fails the traversal skips an entry, or the process ends. What it
still comes to are other paths than those it has opened, so a destination file is
opened at most once.
-/
namespace SystemProgramming.TreeCopy
open SystemProgramming.TreeWalk

/-- What the traversal keeps to whichever calls fail: `opened` are the paths of the
files that it has opened in the destination. -/
structure Roaming {n : ℕ} (readdir : Path → List Name) (src dst : Path) (fs₀ : FileSystem)
    (opened : List Path) (stack : List (Path × List Name)) (todo : List Path)
    (w : World n) : Prop where
  frames : w.frames = stack.map fun p => ⟨src ++ p.1, dst ++ p.1, p.2⟩
  position : ∃ pending, Position readdir src dst fs₀ w.fds stack w.trav todo pending
  roam : Roam opened todo
  source : ∀ r, w.fs (src ++ r) = fs₀ (src ++ r)
  regular : ∀ r ∈ opened, isFile (fs₀ (src ++ r)) = true

/-- A call of the traversal that opens no file of the destination. -/
structure Moved {n : ℕ} (readdir : Path → List Name) (src dst : Path) (fs₀ : FileSystem)
    (opened : List Path) (w t : World n) : Prop where
  roams : ∃ stack todo, Roaming readdir src dst fs₀ opened stack todo t
  away : ∃ touched, (∀ r ∈ opened, r ∉ touched) ∧ Elsewhere src dst touched w t
  proc : t.proc = w.proc
  piece : t.piece = w.piece

/-- The walk comes to what the activations have not yet looked at. -/
lemma Position.upcoming_sublist {readdir : Path → List Name} {src dst : Path} {fs₀ : FileSystem}
    {fds : ℤ → Option OpenFile} {stack : List (Path × List Name)} {pc : TravPc}
    {todo : List Path} {pending : Option Path}
    (h : Position readdir src dst fs₀ fds stack pc todo pending) :
    (upcoming stack).Sublist todo := by
  cases h with
  | opendir _ | mkdir _ => exact List.sublist_append_right ..
  | readdir | mkfifo _ => exact List.Sublist.refl _
  | stat _ | openSrc _ | openDst _ _ => exact List.sublist_cons_self ..
  | returned hstack =>
    rw [hstack]
    exact List.Sublist.refl _

lemma Roaming.moved {n : ℕ} {readdir : Path → List Name} {src dst : Path} {fs₀ : FileSystem}
    {opened touched todo todo' : List Path} {stack stack' : List (Path × List Name)}
    {pending : Option Path} {w t : World n}
    (h : Roaming readdir src dst fs₀ opened stack todo w) (hapart : Apart src dst)
    (hne : ∀ r ∈ opened, r ∉ touched) (he : Elsewhere src dst touched w t)
    (hproc : t.proc = w.proc) (hpiece : t.piece = w.piece)
    (hframes : t.frames = stack'.map fun p => ⟨src ++ p.1, dst ++ p.1, p.2⟩)
    (hpos : Position readdir src dst fs₀ t.fds stack' t.trav todo' pending)
    (hroam : Roam opened todo') : Moved readdir src dst fs₀ opened w t :=
  ⟨⟨stack', todo', hframes, ⟨pending, hpos⟩, hroam,
    fun r => (he.source hapart r).trans (h.source r), h.regular⟩, ⟨touched, hne, he⟩, hproc, hpiece⟩

/-- The traversal goes back to its loop over the entries. -/
lemma Roaming.skip {n : ℕ} {readdir : Path → List Name} {src dst : Path} {fs₀ : FileSystem}
    {opened touched todo : List Path} {stack : List (Path × List Name)} {w t : World n}
    (h : Roaming readdir src dst fs₀ opened stack todo w) (hapart : Apart src dst)
    (hne : ∀ r ∈ opened, r ∉ touched) (he : Elsewhere src dst touched w t)
    (hsame : t = { w with fs := t.fs, fds := t.fds, trav := .readdir }) :
    Moved readdir src dst fs₀ opened w t := by
  obtain ⟨pending, hpos⟩ := h.position
  have hpos' : Position readdir src dst fs₀ t.fds stack t.trav (upcoming stack) none := by
    rw [hsame]
    exact .readdir
  exact h.moved hapart hne he (by rw [hsame]) (by rw [hsame]) (by rw [hsame]; exact h.frames) hpos'
    (h.roam.mono (List.Subset.refl _) hpos.upcoming_sublist)

/-- A path that is not a regular file is none of the opened ones. -/
lemma Roaming.not_opened {n : ℕ} {readdir : Path → List Name} {src dst r : Path}
    {fs₀ : FileSystem} {opened todo : List Path} {stack : List (Path × List Name)} {w : World n}
    (h : Roaming readdir src dst fs₀ opened stack todo w)
    (hr : isFile (fs₀ (src ++ r)) = false) : ∀ q ∈ opened, q ∉ [r] := by
  intro q hq hqr
  have hfile := h.regular q hq
  rw [List.mem_singleton.mp hqr, hr] at hfile
  cases hfile

/-- An activation starts to read its source directory. -/
lemma Roaming.entered {n : ℕ} {readdir : Path → List Name} {src dst r : Path} {fs₀ : FileSystem}
    {opened touched : List Path} {stack : List (Path × List Name)} {w u : World n}
    (h : Roaming readdir src dst fs₀ opened stack
      (childPaths (children readdir fs₀ src) r ++ upcoming stack) w) (hapart : Apart src dst)
    (hdir : fs₀ (src ++ r) = some .dir) (hne : ∀ q ∈ opened, q ∉ touched)
    (he : Elsewhere src dst touched w u) (hsame : u = { w with fs := u.fs }) :
    Moved readdir src dst fs₀ opened w (u.enter readdir (src ++ r) (dst ++ r)) := by
  have hroam := h.roam
  rw [childPaths_append_upcoming hdir] at hroam
  have hframes : (u.enter readdir (src ++ r) (dst ++ r)).frames =
      ((r, readdir (src ++ r)) :: stack).map fun p => ⟨src ++ p.1, dst ++ p.1, p.2⟩ := by
    rw [hsame]
    simp [World.enter, h.frames]
  exact h.moved hapart hne ⟨he.fds, he.fs⟩ (by rw [hsame]; rfl) (by rw [hsame]; rfl) hframes
    .readdir hroam

/-- Whether it succeeds or not, a call that opens no file of the destination keeps the
traversal on its walk, unless it ends the process. -/
theorem Roaming.traverse {n : ℕ} {readdir : Path → List Name} {src dst : Path} {fs₀ : FileSystem}
    {opened todo : List Path} {stack : List (Path × List Name)} {w t : World n}
    (h : Roaming readdir src dst fs₀ opened stack todo w) (hapart : Apart src dst)
    (hnodup : ∀ r, (children readdir fs₀ src r).Nodup) {ok : Bool} {fd : ℤ}
    (hopens : ok = true → ∀ s d srcFd, w.trav ≠ .openDst s d srcFd) (htrav : w.trav ≠ .returned)
    (hst : w.traverse readdir ok fd = some t) :
    t.proc.main = .exited ∨ Moved readdir src dst fs₀ opened w t := by
  have hnone : ∀ r ∈ opened, r ∉ ([] : List Path) := fun _ _ => List.not_mem_nil
  obtain ⟨pending, hpos⟩ := h.position
  have hcall := hst
  generalize hpc : w.trav = pc at hpos
  simp only [World.traverse, hpc] at hst
  cases hpos with
  | @opendir r hdir =>
    dsimp only at hst
    split_ifs at hst
    all_goals cases hst
    · exact Or.inr (h.moved hapart hnone (elsewhere_of_eq rfl rfl) rfl rfl h.frames (.mkdir hdir)
        h.roam)
    · exact Or.inl rfl
  | @mkdir r hdir =>
    dsimp only at hst
    split_ifs at hst
    all_goals cases hst
    · exact Or.inr (h.entered hapart hdir (h.not_opened (by rw [hdir]; rfl))
        ⟨fun _ _ hx _ => hx, fun p hp => Function.update_of_ne (hp r List.mem_cons_self) ..⟩ rfl)
    · exact Or.inl rfl
    · exact Or.inr (h.entered hapart hdir hnone (elsewhere_of_eq rfl rfl) rfl)
  | readdir =>
    obtain ⟨ht, stack', hframes, hpos'⟩ := position_readdir fs₀ h.frames hpc hcall
    exact Or.inr (h.moved hapart hnone (elsewhere_of_eq (by rw [ht]) (by rw [ht])) (by rw [ht])
      (by rw [ht]) hframes hpos' h.roam)
  | stat r =>
    dsimp only at hst
    cases ok with
    | false =>
      cases hst
      exact Or.inr (h.skip hapart hnone (elsewhere_of_eq rfl rfl) rfl)
    | true =>
      rw [if_pos rfl, h.source] at hst
      cases hnode : fs₀ (src ++ r) with
      | none =>
        rw [hnode] at hst
        cases hst
      | some node =>
        rw [hnode] at hst
        cases node with
        | dir =>
          cases hst
          exact Or.inr (h.moved hapart hnone (elsewhere_of_eq rfl rfl) rfl rfl h.frames
            (.opendir hnode)
            ((h.roam.visit (hnodup r)).mono (List.subset_append_left ..) (List.Sublist.refl _)))
        | file content =>
          cases hst
          exact Or.inr (h.moved hapart hnone (elsewhere_of_eq rfl rfl) rfl rfl h.frames
            (.openSrc (by rw [hnode]; rfl)) h.roam)
        | fifo =>
          cases hst
          exact Or.inr (h.moved hapart hnone (elsewhere_of_eq rfl rfl) rfl rfl h.frames
            (.mkfifo hnode) (h.roam.mono (List.Subset.refl _) (List.sublist_cons_self ..)))
  | @openSrc r hfile =>
    dsimp only at hst
    split_ifs at hst with hok hunused
    all_goals cases hst
    · simp only [World.unused, decide_eq_true_eq] at hunused
      exact Or.inr (h.moved hapart hnone (elsewhere_unused hunused.2 rfl rfl) rfl rfl h.frames
        (.openDst hfile (Function.update_self ..)) h.roam)
    · exact Or.inr (h.skip hapart hnone (elsewhere_of_eq rfl rfl) rfl)
  | @openDst r srcFd hfile hfd =>
    cases ok with
    | true => exact absurd hpc (hopens rfl _ _ _)
    | false =>
      cases hst
      have hne : ∀ q ∈ opened, q ∉ [r] := fun q hq hqr =>
        h.roam.not_mem (List.mem_singleton.mp hqr ▸ hq)
      exact Or.inr (h.skip hapart hne
        (elsewhere_update (path_of_fds hfd (Or.inl rfl)) rfl fun _ _ => rfl) rfl)
  | @mkfifo r hfifo =>
    dsimp only at hst
    split_ifs at hst
    all_goals cases hst
    · exact Or.inr (h.skip hapart (h.not_opened (by rw [hfifo]; rfl))
        ⟨fun _ _ hx _ => hx, fun p hp => Function.update_of_ne (hp r List.mem_cons_self) ..⟩ rfl)
    · exact Or.inr (h.skip hapart hnone (elsewhere_of_eq rfl rfl) rfl)
  | returned _ => exact absurd hpc htrav

/-- A file of the destination is opened. -/
theorem Roaming.openDst {n : ℕ} {readdir : Path → List Name} {src dst : Path} {fs₀ : FileSystem}
    {opened todo : List Path} {stack : List (Path × List Name)} {w t : World n}
    (h : Roaming readdir src dst fs₀ opened stack todo w) (hapart : Apart src dst)
    (hscan : w.proc.manager = .scan) {s d : Path} {srcFd fd : ℤ}
    (htrav : w.trav = .openDst s d srcFd) (hst : w.traverse readdir true fd = some t) :
    ∃ r f, s = src ++ r ∧ d = dst ++ r ∧ r ∉ opened ∧ Opened src dst r f w t ∧
      Roaming readdir src dst fs₀ (opened ++ [r]) stack (upcoming stack) t := by
  obtain ⟨pending, hpos⟩ := h.position
  rw [htrav] at hpos
  cases hpos with | @openDst r _ hfile hfd
  obtain ⟨f, hf⟩ := opened_of_openDst hscan htrav hfd hst
  have hroam := @Roam.visit _ (fun _ => []) _ _ _ h.roam List.nodup_nil
  refine ⟨r, f, rfl, rfl, h.roam.not_mem, hf, by rw [hf.same]; exact h.frames, ⟨none, ?_⟩, hroam,
    fun q => (hf.away.source hapart q).trans (h.source q), fun q hq => ?_⟩
  · rw [hf.same]
    exact .readdir
  · rcases List.mem_append.mp hq with hq | hq
    · exact h.regular q hq
    · rw [List.mem_singleton.mp hq]
      exact hfile

/-- The manager breaks out of the loop over the entries. -/
lemma Roaming.leave {n : ℕ} {readdir : Path → List Name} {src dst r : Path} {fs₀ : FileSystem}
    {opened todo : List Path} {stack : List (Path × List Name)} {w t : World n}
    (h : Roaming readdir src dst fs₀ opened stack todo w) (hapart : Apart src dst)
    (he : Elsewhere src dst [r] w t) (hframes : t.frames = w.frames.tail)
    (htrav : t.trav = if w.frames.tail = [] then .returned else .readdir) :
    ∃ stack todo, Roaming readdir src dst fs₀ opened stack todo t := by
  obtain ⟨pending, hpos⟩ := h.position
  have htail : (upcoming stack.tail).Sublist (upcoming stack) := by
    cases stack with
    | nil => exact List.Sublist.refl _
    | cons p stack => exact List.sublist_append_right ..
  refine ⟨stack.tail, upcoming stack.tail, ?_, ⟨none, ?_⟩,
    h.roam.mono (List.Subset.refl _) (htail.trans hpos.upcoming_sublist),
    fun q => (he.source hapart q).trans (h.source q), h.regular⟩
  · rw [hframes, h.frames, List.map_tail]
  · rw [htrav, h.frames, ← List.map_tail]
    split_ifs with hempty
    · rw [List.map_eq_nil_iff] at hempty
      rw [hempty]
      exact .returned rfl
    · exact .readdir

/-- The workers and the other statements leave the traversal where it is. -/
lemma Roaming.away {n : ℕ} {readdir : Path → List Name} {src dst : Path} {fs₀ : FileSystem}
    {opened touched todo : List Path} {stack : List (Path × List Name)} {w t : World n}
    (h : Roaming readdir src dst fs₀ opened stack todo w) (hapart : Apart src dst)
    (htouched : touched ⊆ opened) (he : Elsewhere src dst touched w t) (hplace : SamePlace w t) :
    Roaming readdir src dst fs₀ opened stack todo t := by
  obtain ⟨pending, hpos⟩ := h.position
  refine ⟨hplace.frames.trans h.frames, ⟨pending, ?_⟩, h.roam,
    fun q => (he.source hapart q).trans (h.source q), h.regular⟩
  rw [hplace.trav]
  exact hpos.elsewhere hapart he fun r hr hmem =>
    h.roam.unvisited r hr r (htouched hmem) (List.prefix_refl r)

end SystemProgramming.TreeCopy
