import SystemProgramming.ReadersWriters

/-!
# Writers keep readers out

The first writer of a group takes `readTry` and the last one returns it, possibly
another one. In between, however writers join and leave the group, the group
holds the semaphore, so that no reader is entering: no statement counts a reader
in, and a process is reading only if it was reading when the phase began.
-/
namespace SystemProgramming.ReadersWriters
open SystemProgramming.Transition SystemProgramming.Lightswitch

/-- The phase of the writers lasts until one of them posts `readTry`. -/
def KeepsReadTry {ι : Type*} (s : State ι) : Act ι → Prop
  | .exec i => s.pc i ≠ .wxPostReadTry
  | _ => True

instance {ι : Type*} (s : State ι) (a : Act ι) : Decidable (KeepsReadTry s a) := by
  cases a <;> unfold KeepsReadTry <;> infer_instance

/-- The group of writers holds `readTry`. -/
def WritersHold {ι : Type*} [Fintype ι] (s : State ι) : Prop := ∃ rheld, Inv s rheld 1

lemma WritersHold.step {ι : Type*} [Fintype ι] [DecidableEq ι] {s t : State ι} {a : Act ι}
    (h : WritersHold s) (hok : KeepsReadTry s a) (hst : step s a = some t) : WritersHold t := by
  obtain ⟨rheld, h⟩ := h
  cases a with
  | reader i =>
    simp only [ReadersWriters.step] at hst
    split_ifs at hst with hp
    cases hst
    exact ⟨rheld, h.call hp (Or.inl rfl)⟩
  | writer i =>
    simp only [ReadersWriters.step] at hst
    split_ifs at hst with hp
    cases hst
    exact ⟨rheld, h.call hp (Or.inr rfl)⟩
  | exec i =>
    simp only [ReadersWriters.step, Option.map_eq_some_iff] at hst
    obtain ⟨⟨f', q⟩, he, rfl⟩ := hst
    obtain ⟨rheld', wheld', h', hheld⟩ := h.exec he
    rw [hheld (Or.inr ⟨rfl, hok⟩)] at h'
    exact ⟨rheld', h'⟩

/-- The writer that passes its wait on `readTry` takes it for the group. -/
lemma writersHold_of_wait {ι : Type*} [Fintype ι] [DecidableEq ι] {fname : List Char}
    {s t : State ι} {i : ι} (hr : Reachable fname s) (hi : s.pc i = .wrWaitReadTry)
    (hst : step s (.exec i) = some t) : WritersHold t := by
  obtain ⟨rheld, wheld, h⟩ := reachable_inv hr
  simp only [step, Option.map_eq_some_iff] at hst
  obtain ⟨⟨f', q⟩, he, rfl⟩ := hst
  obtain ⟨rheld', wheld', h', hheld⟩ := h.exec he
  rw [hheld (Or.inl hi)] at h'
  exact ⟨rheld', h'⟩

lemma WritersHold.not_ownsReadTry {ι : Type*} [Fintype ι] {s : State ι} (h : WritersHold s)
    (k : ι) : (s.pc k).ownsReadTry = false := by
  obtain ⟨rheld, h⟩ := h
  have heq := h.readTry_eq
  by_contra hk
  have hpos := census_pos (p := Pc.ownsReadTry) (f := s.pc) k (by simpa using hk)
  omega

/-- Only a reader that owns `readTry` is counted in or enters the region. -/
lemma exec_of_not_ownsReadTry {f f' : SafeFile} {p q : Pc} (he : f.exec p = some (f', q))
    (hp : p.ownsReadTry = false) : f'.readerCount ≤ f.readerCount ∧ q ≠ .reading := by
  cases p with
  | rdWaitRmutex | rdCount | rdTest | rdWaitRsc | rdPostRmutex | rdPostReadTry => cases hp
  | rxTest | wrTest | wxTest =>
    cases he
    split_ifs <;> simp
  | idle => cases he
  | rxCount =>
    cases he
    exact ⟨Int.sub_le_self _ (by decide), by simp⟩
  | rdWaitReadTry | rxWaitRmutex | wrWaitWmutex | wrWaitReadTry | wrWaitRsc | wxWaitWmutex =>
    simp only [SafeFile.exec] at he
    split_ifs at he
    cases he
    simp
  | _ =>
    cases he
    simp

/-- A step of the phase counts no reader in and lets none enter. -/
lemma WritersHold.no_entry {ι : Type*} [Fintype ι] [DecidableEq ι] {s t : State ι} {a : Act ι}
    (h : WritersHold s) (hst : ReadersWriters.step s a = some t) :
    t.file.readerCount ≤ s.file.readerCount ∧ ∀ k, t.pc k = .reading → s.pc k = .reading := by
  cases a with
  | reader i | writer i =>
    simp only [ReadersWriters.step] at hst
    split_ifs at hst
    cases hst
    refine ⟨le_rfl, fun k hk => ?_⟩
    rcases eq_or_ne k i with rfl | hki
    · simp at hk
    · simpa [hki] using hk
  | exec i =>
    simp only [ReadersWriters.step, Option.map_eq_some_iff] at hst
    obtain ⟨⟨f', q⟩, he, rfl⟩ := hst
    obtain ⟨hcount, hq⟩ := exec_of_not_ownsReadTry he (h.not_ownsReadTry i)
    refine ⟨hcount, fun k hk => ?_⟩
    rcases eq_or_ne k i with rfl | hki
    · exact absurd (by simpa using hk) hq
    · simpa [hki] using hk

/-- Writer priority: from the moment a writer has passed its wait on `readTry` until
`readTry` is posted by a writer, no reader is between its wait and its post on
`readTry`, no step counts a reader in, and who is reading was reading before. -/
theorem writer_priority {ι : Type*} [Fintype ι] [DecidableEq ι] {fname : List Char}
    {s₀ s t : State ι} {i : ι} (hr : Reachable fname s₀) (hi : s₀.pc i = .wrWaitReadTry)
    (hs : step s₀ (.exec i) = some s) (ht : Reach step KeepsReadTry s t) :
    (∀ k, (t.pc k).ownsReadTry = false) ∧ (∀ k, t.pc k = .reading → s.pc k = .reading) ∧
      ∀ a u, step t a = some u → u.file.readerCount ≤ t.file.readerCount ∧
        ∀ k, u.pc k = .reading → t.pc k = .reading := by
  have hphase : WritersHold t ∧ ∀ k, t.pc k = .reading → s.pc k = .reading := by
    apply ht.invariant (P := fun t => WritersHold t ∧ ∀ k, t.pc k = .reading → s.pc k = .reading)
    · exact ⟨writersHold_of_wait hr hi hs, fun _ => id⟩
    · rintro u a v ⟨hhold, hreading⟩ hok hst
      exact ⟨hhold.step hok hst, fun k hk => hreading k ((hhold.no_entry hst).2 k hk)⟩
  exact ⟨hphase.1.not_ownsReadTry, hphase.2, fun a u hst => hphase.1.no_entry hst⟩

/-- A reader is inside; one writer takes `readTry`, a second joins, a second reader
waits for `readTry`, and the first reader leaves. -/
theorem writer_priority_joined : ∃ t : State (Fin 4), t.file.writerCount = 2 ∧
    t.pc 1 = .rdWaitReadTry ∧ t.pc 2 = .writing ∧ t.pc 3 = .wrWaitRsc ∧
    (∀ k, (t.pc k).ownsReadTry = false) := by
  have hr : Reachable (ι := Fin 4) [] _ := reach_of_run
    [.reader 0, .exec 0, .exec 0, .exec 0, .exec 0, .exec 0, .exec 0, .exec 0, .writer 2,
      .exec 2, .exec 2, .exec 2] rfl
  have h := writer_priority (i := 2) hr rfl rfl (reach_of_checked_run
    [.reader 1, .exec 2, .writer 3, .exec 3, .exec 3, .exec 3, .exec 3, .exec 0, .exec 0,
      .exec 0, .exec 0, .exec 0, .exec 0, .exec 2] rfl)
  exact ⟨_, rfl, rfl, rfl, rfl, h.1⟩

end SystemProgramming.ReadersWriters
