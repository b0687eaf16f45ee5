import SystemProgramming.TreeCopyRoaming
import SystemProgramming.TreeCopyWhole

/-!
# What an interrupted copy leaves behind

The manager truncates a destination file before it looks at `done`. If a signal has
raised the flag by then, it closes the file and gives it up, and goes on with the
directory above. Every other file that was opened is copied before the workers leave.
-/
namespace SystemProgramming.TreeCopy
open SystemProgramming.Transition SystemProgramming.TreeWalk
open SystemProgramming.CopyBuffer (FileInformation Quiet)
open scoped BigOperators

/-- The source and the destination of an entry. -/
def ends (src dst r : Path) : Path × Path := (src ++ r, dst ++ r)

/-- The source and the destination of the file that a step opens for writing. -/
def World.opening {n : ℕ} (w : World n) : Act n → List (Path × Path)
  | .traverse true _ =>
    match w.trav with
    | .openDst s d _ => [(s, d)]
    | _ => []
  | _ => []

/-- The source and the destination of the file that a step of the manager gives up. -/
def World.dropping {n : ℕ} (w : World n) : Act n → List (Path × Path)
  | .manager _ =>
    match w.proc.manager with
    | .dropClose f =>
      match w.fds f.srcFd, w.fds f.dstFd with
      | some o, some o' => [(o.path, o'.path)]
      | _, _ => []
    | _ => []
  | _ => []

/-- A run with a record of the files that it has opened for writing and given up. -/
structure Record (n : ℕ) where
  world : World n
  opened : List (Path × Path)
  dropped : List (Path × Path)

def record {n : ℕ} (readdir : Path → List Name) (r : Record n) (a : Act n) : Option (Record n) :=
  (step readdir r.world a).map fun w =>
    ⟨w, r.opened ++ r.world.opening a, r.dropped ++ r.world.dropping a⟩

def Record.start {n : ℕ} (w : World n) : Record n := ⟨w, [], []⟩

/-- Recording a run does not change it. -/
theorem exists_record {n : ℕ} {readdir : Path → List Name} {ok : World n → Act n → Prop}
    {w₀ w : World n} (hr : Reach (step readdir) ok w₀ w) :
    ∃ r : Record n, r.world = w ∧ Reach (record readdir) (fun r => ok r.world) (.start w₀) r := by
  refine hr.invariant (P := fun w => ∃ r : Record n, r.world = w ∧
    Reach (record readdir) (fun r => ok r.world) (.start w₀) r) ⟨.start w₀, rfl, .start⟩ ?_
  rintro u a v ⟨r, rfl, hr⟩ hok hst
  exact ⟨⟨v, r.opened ++ r.world.opening a, r.dropped ++ r.world.dropping a⟩, rfl,
    hr.next hok (by rw [record, hst]; rfl)⟩

/-- Reads and writes succeed; other calls may fail, and signals may come. -/
def ReadsAndWrites {n : ℕ} (_ : World n) : Act n → Prop
  | .worker _ ok _ => ok = true
  | _ => True

instance {n : ℕ} (w : World n) : (a : Act n) → Decidable (ReadsAndWrites w a)
  | .worker .. => inferInstanceAs (Decidable (_ = _))
  | .traverse .. | .manager _ | .main | .sigint | .spuriousManager | .spuriousWorker _ =>
    inferInstanceAs (Decidable True)

/-- The opened files that were not given up. -/
def kept (opened dropped : List Path) : List Path := opened.filter fun r => r ∉ dropped

lemma kept_subset {opened dropped : List Path} : kept opened dropped ⊆ opened :=
  List.filter_sublist.subset

/-- The books of a run that may be interrupted. The file in the manager's hand has not
been written, and one that was given up is not written any more. -/
structure Ledger {n : ℕ} (readdir : Path → List Name) (src dst : Path) (fs₀ : FileSystem)
    (opened dropped : List Path) (w : World n) : Prop where
  inv : CopyBuffer.Inv w.proc
  live : CopyBuffer.Live w.proc
  roams : ∃ stack todo, Roaming readdir src dst fs₀ opened stack todo w
  carried : Carried src dst fs₀ (kept opened dropped) w
  fresh : ∀ f ∈ w.proc.manager.hand, ∀ r, f.srcName = text (src ++ r) →
    w.fs (dst ++ r) = some (.file [])
  empty : ∀ r ∈ dropped, r ∈ opened ∧ w.fs (dst ++ r) = some (.file [])

/-- The file in the manager's hand is one of the opened ones. -/
lemma Carried.of_hand {n : ℕ} {src dst : Path} {fs₀ : FileSystem} {files : List Path}
    {w : World n} (h : Carried src dst fs₀ files w) {f : FileInformation}
    (hf : f ∈ w.proc.manager.hand) {r : Path} (hr : f.srcName = text (src ++ r)) :
    r ∈ files ∧ Entry src dst fs₀ w.fs w.fds f [] r .copying := by
  obtain ⟨q, hq, hname, hentry⟩ := h.waiting f (List.mem_append_right _ hf)
  obtain rfl : q = r := List.append_cancel_left (text_injective (hname.symm.trans hr))
  exact ⟨hq, hentry⟩

/-- A step that touches none of the opened files, and moves none. -/
lemma Ledger.away {n : ℕ} {readdir : Path → List Name} {src dst : Path} {fs₀ : FileSystem}
    {opened dropped touched : List Path} {w t : World n}
    (h : Ledger readdir src dst fs₀ opened dropped w) (hapart : Apart src dst)
    (hinv : CopyBuffer.Inv t.proc) (hlive : CopyBuffer.Live t.proc)
    (hroams : ∃ stack todo, Roaming readdir src dst fs₀ opened stack todo t)
    (hne : ∀ r ∈ opened, r ∉ touched) (he : Elsewhere src dst touched w t)
    (hq : Quiet w.proc t.proc) (hhand : ∀ f ∈ t.proc.manager.hand, f ∈ w.proc.manager.hand)
    (hpiece : t.piece = w.piece) : Ledger readdir src dst fs₀ opened dropped t := by
  refine ⟨hinv, hlive, hroams,
    h.carried.away hapart (fun r hr => hne r (kept_subset hr)) he hq hpiece,
    fun f hf r hr => ?_, fun r hr => ?_⟩
  · have hopened := kept_subset (h.carried.of_hand (hhand f hf) hr).1
    rw [he.fs_eq (hne r hopened)]
    exact h.fresh f (hhand f hf) r hr
  · obtain ⟨hopened, hempty⟩ := h.empty r hr
    exact ⟨hopened, (he.fs_eq (hne r hopened)).trans hempty⟩

/-- A statement of `CopyBuffer` that moves no file. -/
lemma Ledger.call {n : ℕ} {readdir : Path → List Name} {src dst : Path} {fs₀ : FileSystem}
    {opened dropped : List Path} {w t : World n} (hn : 0 < n)
    (h : Ledger readdir src dst fs₀ opened dropped w) (hapart : Apart src dst)
    {a : CopyBuffer.Act n} (hkeeps : ∀ f c, a = .manager c → w.proc.manager ≠ .dropClose f)
    (htry : ∀ f, a ≠ .tryAdd f) (hworker : ∀ i nread, a ≠ .worker i nread)
    (hst : w.call a = some t) : Ledger readdir src dst fs₀ opened dropped t := by
  obtain ⟨s, hs, rfl⟩ := call_eq_some hst
  obtain ⟨hquiet, hhand⟩ := CopyBuffer.quiet_step h.inv hkeeps htry hworker hs
  obtain ⟨stack, todo, hroaming⟩ := h.roams
  have he : Elsewhere src dst [] w { w with proc := s } := elsewhere_of_eq rfl rfl
  exact h.away hapart (h.inv.step hs) (h.live.step hn h.inv hs)
    ⟨stack, todo, hroaming.away hapart (List.nil_subset _) he ⟨rfl, rfl, rfl, rfl⟩⟩
    (fun _ _ => List.not_mem_nil) he hquiet hhand rfl

/-- A call of the traversal fails or succeeds. -/
lemma Ledger.traverse {n : ℕ} {readdir : Path → List Name} {src dst : Path} {fs₀ : FileSystem}
    {opened dropped : List Path} {w t : World n} (hn : 0 < n)
    (h : Ledger readdir src dst fs₀ opened dropped w) (hapart : Apart src dst)
    (hnodup : ∀ r, (children readdir fs₀ src r).Nodup) (hscan : w.proc.manager = .scan) {ok : Bool}
    {fd : ℤ} (hst : w.traverse readdir ok fd = some t) :
    t.proc.main = .exited ∨ ∃ rs, w.opening (.traverse ok fd) = rs.map (ends src dst) ∧
      Ledger readdir src dst fs₀ (opened ++ rs) dropped t := by
  obtain ⟨stack, todo, hroaming⟩ := h.roams
  by_cases hopens : ok = true ∧ ∃ s d srcFd, w.trav = .openDst s d srcFd
  · obtain ⟨rfl, s, d, srcFd, htrav⟩ := hopens
    obtain ⟨r, f, rfl, rfl, hr, hf, hroaming'⟩ := hroaming.openDst hapart hscan htrav hst
    refine Or.inr ⟨[r], by simp [World.opening, htrav, ends], h.inv.step hf.step,
      h.live.step hn h.inv hf.step, ⟨stack, _, hroaming'⟩, ?_, fun g hg q hq => ?_,
      fun q hq => ?_⟩
    · have hkept : kept (opened ++ [r]) dropped = kept opened dropped ++ [r] := by
        have hnew : r ∉ dropped := fun hmem => hr (h.empty r hmem).1
        simp [kept, hnew]
      obtain ⟨content, hcontent⟩ := content_of_isFile (hroaming'.regular r (by simp))
      rw [hkept]
      exact h.carried.opened hapart (fun hmem => hr (kept_subset hmem)) hcontent hf.name hscan
        hf.away hf.proc (by rw [hf.same]) hf.srcFd hf.dstFd hf.empty
    · rw [hf.proc] at hg
      rw [List.mem_singleton.mp hg] at hq
      have hqr : q = r := List.append_cancel_left (text_injective (hq.symm.trans hf.name))
      rw [hqr]
      exact hf.empty
    · obtain ⟨hopened, hempty⟩ := h.empty q hq
      refine ⟨List.mem_append_left _ hopened, (hf.away.fs_eq fun hqr => ?_).trans hempty⟩
      exact hr (List.mem_singleton.mp hqr ▸ hopened)
  · have hnothing : w.opening (.traverse ok fd) = [] := by
      cases ok with
      | false => rfl
      | true =>
        cases htrav : w.trav with
        | openDst s d srcFd => exact absurd ⟨rfl, s, d, srcFd, htrav⟩ hopens
        | _ => simp [World.opening, htrav]
    rw [hnothing]
    by_cases htrav : w.trav = .returned
    · refine Or.inr ⟨[], rfl, ?_⟩
      rw [List.append_nil]
      simp only [World.traverse, htrav] at hst
      exact h.call hn hapart (by simp) (by simp) (by simp) hst
    · rcases hroaming.traverse hapart hnodup (fun hok s d srcFd hopen =>
        hopens ⟨hok, s, d, srcFd, hopen⟩) htrav hst with hexit | hmoved
      · exact Or.inl hexit
      · obtain ⟨touched, hne, he⟩ := hmoved.away
        have hproc := hmoved.proc
        refine Or.inr ⟨[], rfl, ?_⟩
        rw [List.append_nil]
        exact h.away hapart (hproc ▸ h.inv) (hproc ▸ h.live) hmoved.roams hne he
          (hproc ▸ .refl _) (fun f hf => hproc ▸ hf) hmoved.piece

/-- A worker writes to the destination of its own file only. -/
lemma fs_of_worker {n : ℕ} {w t : World n} {i : Fin n} {ok : Bool} {nread : ℕ}
    (hst : w.worker i ok nread = some t) :
    t.fs = w.fs ∨ ∃ f o, w.proc.worker i = .copy f ∧ w.fds f.dstFd = some o ∧
      ∀ p, p ≠ o.path → t.fs p = w.fs p := by
  have hcall : ∀ {u : World n} {k : ℕ}, u.call (.worker i k) = some t → t.fs = u.fs := by
    intro u k hu
    obtain ⟨s, -, rfl⟩ := call_eq_some hu
    rfl
  unfold World.worker at hst
  split at hst
  · rename_i f hp
    split_ifs at hst
    · unfold World.read at hst
      split_ifs at hst
      · split at hst
        · cases hst
        · split_ifs at hst
          · exact Or.inl (hcall hst)
          · cases hst
            exact Or.inl rfl
      · exact Or.inl (hcall hst)
    · unfold World.write at hst
      split_ifs at hst
      · split at hst
        · cases hst
        · rename_i o content hregular
          have hfd : w.fds f.dstFd = some o := by
            unfold World.regular at hregular
            split at hregular
            · cases hregular
            · rename_i o' ho'
              split at hregular
              · cases hregular
                exact ho'
              · cases hregular
          refine Or.inr ⟨f, o, hp, hfd, fun p hne => ?_⟩
          rw [hcall hst]
          exact Function.update_of_ne hne ..
      · cases hst
        exact Or.inl rfl
  all_goals exact Or.inl ((hcall hst).trans rfl)

/-- A worker executes its next statement. -/
lemma Ledger.worker {n : ℕ} {readdir : Path → List Name} {src dst : Path} {fs₀ : FileSystem}
    {opened dropped : List Path} {w t : World n} (hn : 0 < n)
    (h : Ledger readdir src dst fs₀ opened dropped w) (hapart : Apart src dst) {i : Fin n}
    {nread : ℕ} (hst : w.worker i true nread = some t) :
    Ledger readdir src dst fs₀ opened dropped t := by
  obtain ⟨stack, todo, hroaming⟩ := h.roams
  obtain ⟨hc, he, hplace⟩ := h.carried.worker h.inv hapart hroaming.source hst
  have hproc : CopyBuffer.Inv t.proc ∧ CopyBuffer.Live t.proc ∧
      t.proc.manager.hand = w.proc.manager.hand := by
    rcases proc_of_worker hst with hproc | ⟨k, hs⟩
    · rw [hproc]
      exact ⟨h.inv, h.live, rfl⟩
    · have hstep := hs
      simp only [CopyBuffer.step] at hstep
      split_ifs at hstep
      exact ⟨h.inv.step hs, h.live.step hn h.inv hs, CopyBuffer.hand_workerStep hstep⟩
  refine ⟨hproc.1, hproc.2.1, ⟨stack, todo, hroaming.away hapart kept_subset he hplace⟩, hc,
    fun f hf r hr => ?_, fun r hr => ?_⟩
  · rw [hproc.2.2] at hf
    rcases fs_of_worker hst with hfs | ⟨g, o, hp, ho, hfs⟩
    · rw [hfs]
      exact h.fresh f hf r hr
    · have hstage : (w.proc.worker i).stage = some (.copying, g) := by rw [hp]; rfl
      obtain ⟨q, -, hname, hentry⟩ := h.carried.working i _ g hstage
      cases hentry with | copying hcontent hlen hread hsrc hdst hwritten
      have hnames := h.inv.name_ne_of_waiting h.carried.nodup_names (List.mem_append_right _ hf)
        (h.inv.takenBy_of_stage hstage)
      have hother : dst ++ r ≠ o.path := by
        rw [← Option.some.inj (hdst.symm.trans ho)]
        intro heq
        obtain rfl : r = q := List.append_cancel_left heq
        exact hnames (hr.trans hname.symm)
      rw [hfs _ hother]
      exact h.fresh f hf r hr
  · obtain ⟨hopened, hempty⟩ := h.empty r hr
    exact ⟨hopened, (he.fs_eq fun hmem => by simp [kept, hr] at hmem).trans hempty⟩

/-- The manager closes the last file that it opened, which is empty, and gives it up. -/
lemma Carried.drop {n : ℕ} {src dst : Path} {fs₀ : FileSystem} {files : List Path} {r : Path}
    {w t : World n} (h : Carried src dst fs₀ (files ++ [r]) w) (hinv : CopyBuffer.Inv w.proc)
    (hapart : Apart src dst) {f : FileInformation} (hp : w.proc.manager = .dropClose f)
    (hname : f.srcName = text (src ++ r)) (hempty : w.fs (dst ++ r) = some (.file []))
    (he : Elsewhere src dst [r] w t) (hproc : t.proc = { w.proc with manager := .scan })
    (hpiece : t.piece = w.piece) : Carried src dst fs₀ files t := by
  have hhand : w.proc.manager.hand = [f] := by
    rw [hp]
    rfl
  have hwaiting : w.proc.waiting = w.proc.buffer.files ++ [f] := by
    rw [CopyBuffer.State.waiting, hhand]
  have hlast : r ∉ files := fun hr =>
    (List.nodup_append.mp h.nodup).2.2 r hr r List.mem_cons_self rfl
  have hne : ∀ q ∈ files, q ∉ [r] := fun q hq hqr => hlast (List.mem_singleton.mp hqr ▸ hq)
  -- a file with another name is not the one that is given up
  have hother : ∀ {q : Path} {g : FileInformation}, q ∈ files ++ [r] → g.srcName = text (src ++ q) →
      g.srcName ≠ f.srcName → q ∈ files := by
    intro q g hq hgq hgf
    refine (List.mem_append.mp hq).resolve_right fun hqr => hgf ?_
    rw [hgq, hname, List.mem_singleton.mp hqr]
  have hheld : ∀ {d ph g}, Held src dst fs₀ (files ++ [r]) w d ph g → g.srcName ≠ f.srcName →
      Held src dst fs₀ files t d ph g := by
    rintro d ph g ⟨q, hq, hgq, hentry⟩ hgf
    have hqf := hother hq hgq hgf
    exact ⟨q, hqf, hgq, hentry.elsewhere hapart he (hne q hqf)⟩
  have hnodup := h.nodup_names
  have hmem : f ∈ w.proc.waiting := by simp [hwaiting]
  refine ⟨(List.nodup_append.mp h.nodup).1, ?_, fun g hg => ?_, fun i ph g hg => ?_,
    fun i g hg => ?_, ?_, fun i hi => ?_⟩
  · have hnames := h.names
    rw [CopyBuffer.State.opened, hhand, List.map_append, List.map_append] at hnames
    rw [CopyBuffer.State.opened, hproc]
    simpa [CopyBuffer.ManagerPc.hand] using (List.append_inj' hnames rfl).1
  · rw [CopyBuffer.State.waiting, hproc] at hg
    have hgbuffer : g ∈ w.proc.buffer.files := by simpa [CopyBuffer.ManagerPc.hand] using hg
    refine hheld (h.waiting g (by simp [hwaiting, hgbuffer])) ?_
    rw [hinv.opened_eq, hwaiting, List.map_append, List.map_append, ← List.append_assoc] at hnodup
    refine (List.nodup_append.mp hnodup).2.2 _ (List.mem_append_right _ ?_) _ ?_
    · exact List.mem_map_of_mem hgbuffer
    · simp
  · rw [hproc] at hg
    rw [hpiece]
    exact hheld (h.working i ph g hg)
      (hinv.name_ne_of_waiting hnodup hmem (hinv.takenBy_of_stage hg)).symm
  · rw [hproc] at hg
    obtain ⟨q, hq, hgq, content, hcontent, hcopy⟩ := h.copied i g hg
    have htaken : g ∈ w.proc.takenBy i := by
      rw [hinv.copied i]
      exact List.mem_append_left _ hg
    have hqf := hother hq hgq (hinv.name_ne_of_waiting hnodup hmem htaken).symm
    exact ⟨q, hqf, hgq, content, hcontent, (he.fs_eq (hne q hqf)).trans hcopy⟩
  · have hbytes := h.bytes
    rw [List.map_append, List.sum_append] at hbytes
    have hsame : (files.map fun q => size (t.fs (dst ++ q))) =
        files.map fun q => size (w.fs (dst ++ q)) :=
      List.map_congr_left fun q hq => by rw [he.fs_eq (hne q hq)]
    have hproc' : t.proc.bytes = w.proc.bytes := by
      rw [hproc]
      rfl
    rw [hsame, hproc', hbytes]
    simp [hempty, size]
  · rw [hpiece] at hi
    rw [hproc]
    exact h.pieces i hi

/-- Giving up the file that was opened last. -/
lemma kept_drop {opened dropped files : List Path} {r : Path} (hnodup : (files ++ [r]).Nodup)
    (hkept : kept opened dropped = files ++ [r]) : kept opened (dropped ++ [r]) = files := by
  have hlast : r ∉ files := fun hr =>
    (List.nodup_append.mp hnodup).2.2 r hr r List.mem_cons_self rfl
  have hfilter : kept opened (dropped ++ [r]) = (kept opened dropped).filter fun q => q ≠ r := by
    rw [kept, kept, List.filter_filter]
    refine List.filter_congr fun q _ => ?_
    simp [not_or, and_comm]
  rw [hfilter, hkept, List.filter_append, List.filter_eq_self.mpr fun q hq => ?_]
  · simp
  · simpa using fun hqr : q = r => hlast (hqr ▸ hq)

/-- The manager gives up a file and breaks out of its loop. -/
lemma Ledger.drop {n : ℕ} {readdir : Path → List Name} {src dst : Path} {fs₀ : FileSystem}
    {opened dropped : List Path} {w t : World n} (hn : 0 < n)
    (h : Ledger readdir src dst fs₀ opened dropped w) (hapart : Apart src dst)
    {f : FileInformation} (hp : w.proc.manager = .dropClose f) {c : Option (Fin n)}
    (hst : w.manager c = some t) :
    ∃ r, w.dropping (.manager c) = [ends src dst r] ∧
      Ledger readdir src dst fs₀ opened (dropped ++ [r]) t := by
  obtain ⟨stack, todo, hroaming⟩ := h.roams
  have hhand : f ∈ w.proc.manager.hand := by
    rw [hp]
    exact List.mem_singleton_self f
  obtain ⟨r, hr, hname, hentry⟩ := h.carried.waiting f (List.mem_append_right _ hhand)
  have hempty := h.fresh f hhand r hname
  cases hentry with | copying hcontent hlen hread hsrc hdst hwritten
  simp only [World.manager, hp] at hst
  obtain ⟨s, hs, rfl⟩ := call_eq_some hst
  have hmove := hs
  simp only [CopyBuffer.step, CopyBuffer.move, CopyBuffer.managerStep, World.leave, World.close,
    World.setFd, hp] at hmove
  split_ifs at hmove
  cases hmove
  have he : ∀ u : World n,
      u.fds = Function.update (Function.update w.fds f.srcFd none) f.dstFd none → u.fs = w.fs →
      Elsewhere src dst [r] w u := by
    intro u hfds hfs
    refine ⟨fun x o hx ho => ?_, fun p _ => by rw [hfs]⟩
    obtain ⟨hosrc, hodst⟩ := ho r List.mem_cons_self
    have hxdst : x ≠ f.dstFd := by
      rintro rfl
      exact hodst (congrArg OpenFile.path (Option.some.inj (hx.symm.trans hdst)))
    have hxsrc : x ≠ f.srcFd := by
      rintro rfl
      exact hosrc (congrArg OpenFile.path (Option.some.inj (hx.symm.trans hsrc)))
    rw [hfds, Function.update_of_ne hxdst, Function.update_of_ne hxsrc, hx]
  obtain ⟨files, hfiles⟩ : ∃ files, kept opened dropped = files ++ [r] := by
    have hnames := h.carried.names
    rw [CopyBuffer.State.opened, hp, CopyBuffer.ManagerPc.hand, List.map_append] at hnames
    obtain ⟨files, last, hkept, -, hlast⟩ := List.map_eq_append_iff.mp hnames.symm
    obtain ⟨q, rfl, hq⟩ := List.map_eq_singleton_iff.mp hlast
    have hqr : q = r := List.append_cancel_left (text_injective (hq.trans hname))
    exact ⟨files, hqr ▸ hkept⟩
  have hcarried := h.carried
  rw [hfiles] at hcarried
  refine ⟨r, by simp [World.dropping, hp, hsrc, hdst, ends], h.inv.step hs, h.live.step hn h.inv hs,
    hroaming.leave hapart (he _ rfl rfl) rfl rfl, ?_, fun g hg => absurd hg List.not_mem_nil,
    fun q hq => ?_⟩
  · rw [kept_drop hcarried.nodup hfiles]
    exact hcarried.drop h.inv hapart hp hname hempty (he _ rfl rfl) rfl rfl
  · rcases List.mem_append.mp hq with hq | hq
    · exact h.empty q hq
    · rw [List.mem_singleton.mp hq]
      exact ⟨kept_subset hr, hempty⟩

/-- The process has ended, or the books agree with the record. -/
def Tracked {n : ℕ} (readdir : Path → List Name) (src dst : Path) (fs₀ : FileSystem)
    (r : Record n) : Prop :=
  r.world.proc.main = .exited ∨ ∃ opened dropped, r.opened = opened.map (ends src dst) ∧
    r.dropped = dropped.map (ends src dst) ∧
    Ledger readdir src dst fs₀ opened dropped r.world

lemma tracked_start {n size : ℕ} {junk : ℕ → FileInformation} {readdir : Path → List Name}
    {src dst : Path} {fs₀ : FileSystem} {nodes : Finset Path} (hsize : 0 < size)
    (htree : SourceTree readdir fs₀ src nodes) :
    Tracked readdir src dst fs₀ (.start (init n size junk fs₀ src dst)) := by
  refine Or.inr ⟨[], [], rfl, rfl, CopyBuffer.inv_init n hsize junk,
    CopyBuffer.live_init n size junk, ⟨[], _, rfl, ⟨_, position_init htree.root _⟩,
      roam_init (children_nodup htree []), fun _ => rfl, fun _ hq => absurd hq List.not_mem_nil⟩,
    carried_init, fun _ hf => absurd hf List.not_mem_nil, fun _ hq => absurd hq List.not_mem_nil⟩

lemma step_exited {n : ℕ} {readdir : Path → List Name} {w : World n} {a : Act n}
    (h : w.proc.main = .exited) : step readdir w a = none := by
  have hcall : ∀ (u : World n) (b : CopyBuffer.Act n), u.proc = w.proc → u.call b = none := by
    intro u b hu
    simp [World.call, CopyBuffer.step, hu, h]
  cases a with
  | traverse ok fd => simp [step, h]
  | worker i ok nread => simp [step, h]
  | manager c =>
    simp only [step, World.manager]
    split
    all_goals exact hcall _ _ rfl
  | main | sigint | spuriousManager | spuriousWorker _ => exact hcall w _ rfl

/-- Every step keeps the books. -/
theorem Tracked.step {n : ℕ} {readdir : Path → List Name} {src dst : Path} {fs₀ : FileSystem}
    {nodes : Finset Path} {r t : Record n} {a : Act n} (hn : 0 < n)
    (h : Tracked readdir src dst fs₀ r) (htree : SourceTree readdir fs₀ src nodes)
    (hapart : Apart src dst) (hok : ReadsAndWrites r.world a)
    (hst : record readdir r a = some t) : Tracked readdir src dst fs₀ t := by
  obtain ⟨w, hw, rfl⟩ := Option.map_eq_some_iff.mp hst
  rcases h with hexit | ⟨opened, dropped, hopened, hdropped, h⟩
  · rw [step_exited hexit] at hw
    cases hw
  have hquiet : r.world.opening a = [] → r.world.dropping a = [] →
      Ledger readdir src dst fs₀ opened dropped w → Tracked readdir src dst fs₀
        ⟨w, r.opened ++ r.world.opening a, r.dropped ++ r.world.dropping a⟩ := by
    intro hnone hnone' hw
    rw [hnone, hnone', List.append_nil, List.append_nil]
    exact Or.inr ⟨opened, dropped, hopened, hdropped, hw⟩
  cases a with
  | traverse ok fd =>
    simp only [TreeCopy.step] at hw
    split_ifs at hw with hscan
    rcases h.traverse hn hapart (children_nodup htree) hscan.2 hw with hexit | ⟨rs, hrs, hw⟩
    · exact Or.inl hexit
    · refine Or.inr ⟨opened ++ rs, dropped, ?_, ?_, hw⟩
      · rw [List.map_append, hopened, hrs]
      · rw [hdropped]
        exact List.append_nil _
  | manager c =>
    cases hp : r.world.proc.manager with
    | dropClose f =>
      obtain ⟨q, hq, hw⟩ := h.drop hn hapart hp hw
      refine Or.inr ⟨opened, dropped ++ [q], ?_, ?_, hw⟩
      · rw [hopened]
        exact List.append_nil _
      · rw [List.map_append, hdropped, hq]
        rfl
    | _ =>
      refine hquiet rfl (by simp [World.dropping, hp])
        (h.call (a := .manager c) hn hapart (by simp [hp]) (by simp) (by simp) ?_)
      simpa only [TreeCopy.step, World.manager, hp] using hw
  | worker i ok nread =>
    obtain rfl : ok = true := hok
    simp only [TreeCopy.step] at hw
    split_ifs at hw
    exact hquiet rfl rfl (h.worker hn hapart hw)
  | main => exact hquiet rfl rfl (h.call hn hapart (by simp) (by simp) (by simp) hw)
  | sigint => exact hquiet rfl rfl (h.call hn hapart (by simp) (by simp) (by simp) hw)
  | spuriousManager => exact hquiet rfl rfl (h.call hn hapart (by simp) (by simp) (by simp) hw)
  | spuriousWorker i => exact hquiet rfl rfl (h.call hn hapart (by simp) (by simp) (by simp) hw)

/-- The destination holds the complete content of the source. -/
def Complete (fs₀ fs : FileSystem) (p : Path × Path) : Prop :=
  ∃ content, fs₀ p.1 = some (.file content) ∧ fs p.2 = some (.file content)

/-- Whichever calls of the traversal fail and whenever SIGINT comes: when the threads
were joined, all the files that were opened are complete if and only if the manager
has given up none but empty ones. -/
theorem opened_complete_iff {n size : ℕ} {junk : ℕ → FileInformation}
    {readdir : Path → List Name} {src dst : Path} {fs₀ : FileSystem} {nodes : Finset Path}
    (hn : 0 < n) (hsize : 0 < size) (htree : SourceTree readdir fs₀ src nodes)
    (hapart : Apart src dst) {r : Record n}
    (hr : Reach (record readdir) (fun r => ReadsAndWrites r.world)
      (.start (init n size junk fs₀ src dst)) r)
    (hclean : r.world.proc.main = .cleanup) :
    (∀ p ∈ r.opened, Complete fs₀ r.world.fs p) ↔ ∀ p ∈ r.dropped, fs₀ p.1 = some (.file []) := by
  have htracked : Tracked readdir src dst fs₀ r := hr.invariant (tracked_start hsize htree)
    fun _ _ _ hu hok hst => hu.step hn htree hapart hok hst
  rcases htracked with hexit | ⟨opened, dropped, hopened, hdropped, h⟩
  · rw [hclean] at hexit
    cases hexit
  have hstopped := h.live.stopped hn hclean
  have hhand : r.world.proc.manager.hand = [] := by
    have harrived := hstopped.manager
    cases hp : r.world.proc.manager <;>
      simp_all [CopyBuffer.ManagerPc.arrived, CopyBuffer.ManagerPc.hand]
  have hleft : ∀ i, (r.world.proc.worker i).left = true := fun i => by rw [hstopped.worker i]; rfl
  have hkept := (h.carried.complete h.inv hn hleft hhand).1
  rw [hopened, hdropped, List.forall_mem_map, List.forall_mem_map]
  constructor
  · intro hall q hq
    obtain ⟨hqopened, hempty⟩ := h.empty q hq
    obtain ⟨content, hcontent, hcopy⟩ := hall q hqopened
    cases hempty.symm.trans hcopy
    exact hcontent
  · intro hall q hq
    by_cases hqd : q ∈ dropped
    · exact ⟨[], hall q hqd, (h.empty q hqd).2⟩
    · exact hkept q (List.mem_filter.mpr ⟨hq, by simpa using hqd⟩)

/-- SIGINT comes when the file is open and not yet in the buffer: it is left empty. -/
theorem opened_left_empty : ∃ r : Record 1,
    Reach (record smallReaddir) (fun r => ReadsAndWrites r.world)
      (.start (init 1 1 (fun _ => ⟨0, 0, [], []⟩) smallFs [nameS] [nameD])) r ∧
    r.world.proc.main = .cleanup ∧ r.opened = [([nameS, nameA], [nameD, nameA])] ∧
    smallFs [nameS, nameA] = some (.file ['x', 'y']) ∧
    r.world.fs [nameD, nameA] = some (.file []) := by
  have hr : Reach (record smallReaddir) (fun r => ReadsAndWrites r.world)
      (.start (init 1 1 (fun _ => ⟨0, 0, [], []⟩) smallFs [nameS] [nameD])) _ :=
    reach_of_checked_run
      [.traverse true 0, .traverse true 0, .traverse true 0, .traverse true 0, .traverse true 0,
        .traverse true 3, .traverse true 4, .sigint, .main, .main, .main, .main, .manager none,
        .manager none, .manager none, .manager none, .traverse true 0, .manager none,
        .manager none, .manager none, .manager none, .manager none, .worker 0 true 0,
        .worker 0 true 0, .worker 0 true 0, .worker 0 true 0, .worker 0 true 0, .main, .main] rfl
  exact ⟨_, hr, by rfl, by rfl, by rfl, by rfl⟩

/-- SIGINT comes when the file is in the buffer: it is copied. -/
theorem opened_complete_small : ∃ r : Record 1, r.world.proc.main = .cleanup ∧
    r.opened = [([nameS, nameA], [nameD, nameA])] ∧
    ∀ p ∈ r.opened, Complete smallFs r.world.fs p := by
  have hr : Reach (record smallReaddir) (fun r => ReadsAndWrites r.world)
      (.start (init 1 1 (fun _ => ⟨0, 0, [], []⟩) smallFs [nameS] [nameD])) _ :=
    reach_of_checked_run
      [.traverse true 0, .traverse true 0, .traverse true 0, .traverse true 0, .traverse true 0,
        .traverse true 3, .traverse true 4, .manager none, .manager none, .manager none,
        .manager none, .manager none, .sigint, .main, .main, .main, .main,
        .worker 0 true 0, .worker 0 true 0, .worker 0 true 0, .worker 0 true 0, .worker 0 true 0,
        .worker 0 true 2, .worker 0 true 0, .worker 0 true 0, .worker 0 true 0, .worker 0 true 0,
        .worker 0 true 0, .worker 0 true 0, .worker 0 true 0, .worker 0 true 0, .worker 0 true 0,
        .worker 0 true 0, .worker 0 true 0, .worker 0 true 0, .worker 0 true 0, .worker 0 true 0,
        .traverse true 0, .traverse false 0, .traverse true 0, .traverse true 0, .manager none,
        .manager none, .manager none, .manager none, .manager none, .worker 0 true 0, .main,
        .main] rfl
  exact ⟨_, by rfl, by rfl, (opened_complete_iff (by decide) (by decide) small_tree
    ⟨by decide, by decide⟩ hr (by rfl)).mpr fun _ hp => absurd hp List.not_mem_nil⟩

end SystemProgramming.TreeCopy
