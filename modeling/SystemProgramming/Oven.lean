import SystemProgramming.PideShopInvariant

/-!
# The resources of the oven

A chef acquires a slot, a peel and a place in the oven in this order, and gives
back the place, the slot and the peel. Each resource is a counter behind its own
mutex and condition variable. The counters and the chefs that hold a unit always
add up to the supply, and a chef that waits at a gate is owed a signal for every
unit that is free: some chef between its wake-up and its acquisition, or one that
has given a unit back and is about to signal, accounts for it.
-/
namespace SystemProgramming.PideShop
open SystemProgramming.Transition SystemProgramming.Monitor

/-- The resource is acquired before the other one. -/
def Gate.before : Gate → Gate → Bool
  | .slots, .peels | .slots, .oven | .peels, .oven => true
  | _, _ => false

/-- The resource is given back before the other one. -/
def Gate.returnedBefore : Gate → Gate → Bool
  | .oven, .slots | .oven, .peels | .slots, .peels => true
  | _, _ => false

def Gate.supply : Gate → ℤ
  | .slots => maxOvenSlots
  | .peels => maxOvenPeels
  | .oven => maxOvenCapacity

/-- The chef has acquired a unit and not yet given it back. -/
def ChefPc.holds (g : Gate) : ChefPc → Bool
  | .acquireLock g' _ | .acquireTest g' _ | .acquireWait g' _ | .acquireWoken g' _
  | .acquire g' _ => g.before g'
  | .acquireUnlock g' _ => g = g' || g.before g'
  | .cook _ => true
  | .releaseLock g' _ | .release g' _ => !g.returnedBefore g'
  | .releaseSignal g' _ | .releaseUnlock g' _ => g'.returnedBefore g
  | _ => false

/-- The chef owns the mutex of the gate. -/
def ChefPc.insideGate (g : Gate) : ChefPc → Bool
  | .acquireTest g' _ | .acquire g' _ | .acquireUnlock g' _ | .release g' _ | .releaseSignal g' _
  | .releaseUnlock g' _ => g = g'
  | .cook _ => g = .oven
  | _ => false

/-- The chef will take a free unit of the gate, or pass it on by a signal. -/
def ChefPc.called (g : Gate) : ChefPc → Bool
  | .acquireTest g' _ | .acquireWoken g' _ | .acquire g' _ | .releaseSignal g' _ => g = g'
  | _ => false

/-- The units of a gate that nobody holds. -/
def Oven.free {c : ℕ} (o : Oven c) : Gate → ℤ
  | .slots => o.ovenSlots
  | .peels => o.ovenPeels
  | .oven => maxOvenCapacity - o.ovenCapacity

lemma Oven.full_iff {c : ℕ} (o : Oven c) (g : Gate) : o.full g = true ↔ o.free g ≤ 0 := by
  cases g <;> simp only [Oven.full, Oven.free, decide_eq_true_eq]
  omega

lemma Oven.free_acquire {c : ℕ} (o : Oven c) (g g' : Gate) :
    (o.acquire g).free g' = o.free g' - (if g' = g then 1 else 0) := by
  cases g <;> cases g' <;> simp [Oven.acquire, Oven.free]
  omega

lemma Oven.free_release {c : ℕ} (o : Oven c) (g g' : Gate) :
    (o.release g).free g' = o.free g' + (if g' = g then 1 else 0) := by
  cases g <;> cases g' <;> simp [Oven.release, Oven.free]
  omega

@[simp] lemma Oven.free_setMutex {c : ℕ} (o : Oven c) (g g' : Gate) (m : Option (Fin c)) :
    (o.setMutex g m).free g' = o.free g' := by cases g' <;> rfl

@[simp] lemma Oven.mutex_acquire {c : ℕ} (o : Oven c) (g : Gate) :
    (o.acquire g).mutex = o.mutex := by cases g <;> rfl

@[simp] lemma Oven.mutex_release {c : ℕ} (o : Oven c) (g : Gate) :
    (o.release g).mutex = o.mutex := by cases g <;> rfl

@[simp] lemma Oven.mutex_setMutex {c : ℕ} (o : Oven c) (g : Gate) (m : Option (Fin c)) :
    (o.setMutex g m).mutex = Function.update o.mutex g m := rfl

/-- Nothing is lost: the free units and the held ones are the supply. -/
structure Stocked {c : ℕ} (o : Oven c) (chef : Fin c → ChefPc) : Prop where
  owns : ∀ g, Owns (o.mutex g) fun i => (chef i).insideGate g
  stock : ∀ g, o.free g + census (ChefPc.holds g) chef = g.supply
  nonneg : ∀ g, 0 ≤ o.free g
  room : ∀ g i k, chef i = .acquire g k → 0 < o.free g

/-- While somebody waits at a gate every free unit has a chef that was called. -/
def Called {c : ℕ} (o : Oven c) (chef : Fin c → ChefPc) : Prop :=
  ∀ g i k, chef i = .acquireWait g k → o.free g ≤ census (ChefPc.called g) chef

theorem stocked_init (c d : ℕ) : Stocked (init c d).oven (init c d).chef where
  owns := fun g => owns_none.mpr fun i => rfl
  stock := fun g => by
    have hzero : census (ChefPc.holds g) (init c d).chef = 0 := census_eq_zero fun i => rfl
    rw [hzero]
    cases g <;> rfl
  nonneg := fun g => by cases g <;> simp [init, Oven.free, maxOvenSlots, maxOvenPeels,
    maxOvenCapacity]
  room := fun g i k hi => by cases hi

theorem called_init (c d : ℕ) : Called (init c d).oven (init c d).chef :=
  fun g i k hi => by cases hi

/-- Chef `i` moves; it changes the counter of a gate only as the owner of its mutex. -/
lemma Stocked.move {c : ℕ} {o : Oven c} {chef : Fin c → ChefPc} (h : Stocked o chef) {i : Fin c}
    {p : ChefPc} (hp : chef i = p) (q : ChefPc) (o' : Oven c)
    (hm : ∀ g, Handover i (p.insideGate g) (q.insideGate g) (o.mutex g) (o'.mutex g))
    (hfree : ∀ g, o'.free g + (q.holds g).toNat = o.free g + (p.holds g).toNat)
    (hkeep : ∀ g, o'.free g = o.free g ∨ p.insideGate g = true) (hnonneg : ∀ g, 0 ≤ o'.free g)
    (hroom : ∀ g k, q = .acquire g k → 0 < o'.free g) :
    Stocked o' (Function.update chef i q) := by
  subst hp
  refine ⟨fun g => ?_, fun g => ?_, hnonneg, fun g j k hj => ?_⟩
  · refine (h.owns g).move i (fun j hji => ?_) (by simpa using hm g)
    simp [hji]
  · have hcensus := census_update (ChefPc.holds g) chef i q
    have hstock := h.stock g
    have hg := hfree g
    omega
  · rcases eq_or_ne j i with rfl | hji
    · exact hroom g k (by simpa using hj)
    · rw [Function.update_of_ne hji] at hj
      have hj' : (chef j).insideGate g = true := by simp [hj, ChefPc.insideGate]
      rcases hkeep g with heq | hin
      · exact heq ▸ h.room g j k hj
      · exact absurd ((h.owns g).unique hj' hin) hji

/-- Chef `i` moves; where somebody waits for free units it accounts for as many as it
frees. -/
lemma Called.move {c : ℕ} {o : Oven c} {chef : Fin c → ChefPc} (h : Called o chef) {i : Fin c}
    {p : ChefPc} (hp : chef i = p) (q : ChefPc) (o' : Oven c)
    (hwait : ∀ g k, q = .acquireWait g k → o'.free g ≤ 0)
    (hcount : ∀ g, (∃ j k, chef j = .acquireWait g k) → o'.free g ≤ 0 ∨
      o'.free g + (p.called g).toNat ≤ o.free g + (q.called g).toNat) :
    Called o' (Function.update chef i q) := by
  subst hp
  intro g j k hj
  rcases eq_or_ne j i with rfl | hji
  · have hzero := hwait g k (by simpa using hj)
    omega
  · rw [Function.update_of_ne hji] at hj
    have hwaits := h g j k hj
    have hcensus := census_update (ChefPc.called g) chef i q
    rcases hcount g ⟨j, k, hj⟩ with hzero | hg <;> omega

structure OvenInv {c : ℕ} (o : Oven c) (chef : Fin c → ChefPc) : Prop where
  stocked : Stocked o chef
  called : Called o chef

/-- What a program counter means to a gate. -/
def ChefPc.footprint (g : Gate) (pc : ChefPc) : Bool × Bool × Bool :=
  (pc.holds g, pc.insideGate g, pc.called g)

/-- A statement that means nothing to the gates. -/
lemma OvenInv.plain {c : ℕ} {o : Oven c} {chef : Fin c → ChefPc} (h : OvenInv o chef) {i : Fin c}
    {p : ChefPc} (hp : chef i = p) (q : ChefPc) (hq : ∀ g, q.footprint g = p.footprint g)
    (hnew : ∀ g k, q ≠ .acquire g k ∧ q ≠ .acquireWait g k) :
    OvenInv o (Function.update chef i q) := by
  simp only [ChefPc.footprint, Prod.mk.injEq] at hq
  refine ⟨h.stocked.move hp q o (fun g => ?_) (fun g => ?_) (fun g => Or.inl rfl) h.stocked.nonneg
    (fun g k hk => absurd hk (hnew g k).1), h.called.move hp q o
    (fun g k hk => absurd hk (hnew g k).2) fun g _ => ?_⟩
  · rw [(hq g).2.1]
    exact .keep _ _
  · rw [(hq g).1]
  · exact Or.inr (by rw [(hq g).2.2])

/-- A woken chef is called, and means the same to every gate otherwise. -/
lemma OvenInv.wake {c : ℕ} {o : Oven c} {chef : Fin c → ChefPc} (h : OvenInv o chef) (i : Fin c) :
    OvenInv o (Function.update chef i (chef i).wake) := by
  cases hp : chef i with
  | waiting => exact h.plain hp .woken (fun g => rfl) (by simp)
  | acquireWait g k =>
    refine ⟨h.stocked.move hp _ o (fun g' => ?_) (fun g' => rfl) (fun g' => Or.inl rfl)
      h.stocked.nonneg (by simp [ChefPc.wake]), h.called.move hp _ o (by simp [ChefPc.wake])
      fun g' _ => ?_⟩
    · exact .keep _ _
    · exact Or.inr (by simp [ChefPc.wake, ChefPc.called])
  | _ =>
    simp only [ChefPc.wake]
    rw [← hp, Function.update_eq_self]
    exact h

/-- Chef `i`, at a gate, locks its mutex. -/
lemma OvenInv.lock {c : ℕ} {o : Oven c} {chef : Fin c → ChefPc} (h : OvenInv o chef) {i : Fin c}
    {g : Gate} {k : ℕ} {p q : ChefPc} (hp : chef i = p) (hfree : o.mutex g = none)
    (hpq : p = .acquireLock g k ∧ q = .acquireTest g k ∨
      p = .acquireWoken g k ∧ q = .acquireTest g k ∨ p = .releaseLock g k ∧ q = .release g k) :
    OvenInv (o.setMutex g (some i)) (Function.update chef i q) := by
  have hin : ∀ g', p.insideGate g' = false ∧ q.insideGate g' = decide (g' = g) := by
    rcases hpq with ⟨rfl, rfl⟩ | ⟨rfl, rfl⟩ | ⟨rfl, rfl⟩ <;> exact fun g' => ⟨rfl, rfl⟩
  have hholds : ∀ g', q.holds g' = p.holds g' := by
    rcases hpq with ⟨rfl, rfl⟩ | ⟨rfl, rfl⟩ | ⟨rfl, rfl⟩ <;> exact fun g' => rfl
  have hnew : ∀ g' k', q ≠ .acquire g' k' ∧ q ≠ .acquireWait g' k' := by
    rcases hpq with ⟨rfl, rfl⟩ | ⟨rfl, rfl⟩ | ⟨rfl, rfl⟩ <;> simp
  refine ⟨h.stocked.move hp q _ (fun g' => ?_) (fun g' => ?_) (fun g' => ?_) (fun g' => ?_)
    (fun g' k' hk => absurd hk (hnew g' k').1), h.called.move hp q _
    (fun g' k' hk => absurd hk (hnew g' k').2) fun g' _ => ?_⟩
  · rw [(hin g').1, (hin g').2, Oven.mutex_setMutex]
    rcases eq_or_ne g' g with rfl | hg
    · simp only [Function.update_self, decide_true, hfree]
      exact .lock
    · simp only [Function.update_of_ne hg, hg, decide_false]
      exact .keep _ _
  · rw [hholds g', Oven.free_setMutex]
  · exact Or.inl (Oven.free_setMutex ..)
  · rw [Oven.free_setMutex]
    exact h.stocked.nonneg g'
  · rw [Oven.free_setMutex]
    right
    rcases hpq with ⟨rfl, rfl⟩ | ⟨rfl, rfl⟩ | ⟨rfl, rfl⟩ <;> simp [ChefPc.called]

/-- Chef `i` gives the mutex of a gate back, in the wait only when nothing is free. -/
lemma OvenInv.unlock {c : ℕ} {o : Oven c} {chef : Fin c → ChefPc} (h : OvenInv o chef) {i : Fin c}
    {g : Gate} {k : ℕ} {p q : ChefPc} (hp : chef i = p)
    (hpq : p = .acquireTest g k ∧ q = .acquireWait g k ∧ o.free g ≤ 0 ∨
      p = .acquireUnlock g k ∧ q = afterAcquire g k ∨
      p = .releaseUnlock g k ∧ q = afterRelease g k) :
    OvenInv (o.setMutex g none) (Function.update chef i q) := by
  have hin : ∀ g', p.insideGate g' = decide (g' = g) ∧ q.insideGate g' = false := by
    rcases hpq with ⟨rfl, rfl, -⟩ | ⟨rfl, rfl⟩ | ⟨rfl, rfl⟩
    · exact fun g' => ⟨rfl, rfl⟩
    all_goals exact fun g' => ⟨rfl, by cases g <;> rfl⟩
  have hholds : ∀ g', q.holds g' = p.holds g' := by
    rcases hpq with ⟨rfl, rfl, -⟩ | ⟨rfl, rfl⟩ | ⟨rfl, rfl⟩
    · exact fun g' => rfl
    all_goals exact fun g' => by cases g <;> cases g' <;> rfl
  refine ⟨h.stocked.move hp q _ (fun g' => ?_) (fun g' => ?_) (fun g' => ?_) (fun g' => ?_)
    (fun g' k' hk => ?_), h.called.move hp q _ (fun g' k' hk => ?_) fun g' _ => ?_⟩
  · rw [(hin g').1, (hin g').2, Oven.mutex_setMutex]
    rcases eq_or_ne g' g with rfl | hg
    · simp only [Function.update_self, decide_true]
      exact .unlock _
    · simp only [Function.update_of_ne hg, hg, decide_false]
      exact .keep _ _
  · rw [hholds g', Oven.free_setMutex]
  · exact Or.inl (Oven.free_setMutex ..)
  · rw [Oven.free_setMutex]
    exact h.stocked.nonneg g'
  · rcases hpq with ⟨rfl, rfl, -⟩ | ⟨rfl, rfl⟩ | ⟨rfl, rfl⟩
    · cases hk
    all_goals cases g <;> cases hk
  · rw [Oven.free_setMutex]
    rcases hpq with ⟨rfl, rfl, hzero⟩ | ⟨rfl, rfl⟩ | ⟨rfl, rfl⟩
    · cases hk
      exact hzero
    all_goals cases g <;> cases hk
  · rw [Oven.free_setMutex]
    rcases hpq with ⟨rfl, rfl, hzero⟩ | ⟨rfl, rfl⟩ | ⟨rfl, rfl⟩
    · rcases eq_or_ne g' g with rfl | hg
      · exact Or.inl hzero
      · exact Or.inr (by simp [ChefPc.called, hg])
    all_goals exact Or.inr (by simp [ChefPc.called])

/-- Chef `i` takes a unit. -/
lemma OvenInv.acquire {c : ℕ} {o : Oven c} {chef : Fin c → ChefPc} (h : OvenInv o chef)
    {i : Fin c} {g : Gate} {k : ℕ} (hp : chef i = .acquire g k) :
    OvenInv (o.acquire g)
      (Function.update chef i (if g = .oven then .cook k else .acquireUnlock g k)) := by
  have hroom := h.stocked.room g i k hp
  have hnonneg := h.stocked.nonneg
  refine ⟨h.stocked.move hp _ _ (fun g' => ?_) (fun g' => ?_) (fun g' => ?_) (fun g' => ?_)
    (fun g' k' hk => ?_), h.called.move hp _ _ (fun g' k' hk => ?_) fun g' _ => ?_⟩
  · rw [Oven.mutex_acquire]
    cases g <;> exact .keep _ _
  · rw [Oven.free_acquire]
    cases g <;> cases g' <;> simp [ChefPc.holds, Gate.before]
  · rw [Oven.free_acquire]
    rcases eq_or_ne g' g with rfl | hg
    · exact Or.inr (by simp [ChefPc.insideGate])
    · exact Or.inl (by simp [hg])
  · rw [Oven.free_acquire]
    have hg := hnonneg g'
    split_ifs with heq
    · subst heq
      omega
    · omega
  · cases g <;> cases hk
  · cases g <;> cases hk
  · rw [Oven.free_acquire]
    right
    cases g <;> cases g' <;> simp [ChefPc.called]

/-- Chef `i` puts a unit back and has to signal. -/
lemma OvenInv.release {c : ℕ} {o : Oven c} {chef : Fin c → ChefPc} (h : OvenInv o chef)
    {i : Fin c} {g : Gate} {k : ℕ} (hp : chef i = .release g k) :
    OvenInv (o.release g) (Function.update chef i (.releaseSignal g k)) := by
  have hnonneg := h.stocked.nonneg
  refine ⟨h.stocked.move hp _ _ (fun g' => ?_) (fun g' => ?_) (fun g' => ?_) (fun g' => ?_)
    (by simp), h.called.move hp _ _ (by simp) fun g' _ => ?_⟩
  · rw [Oven.mutex_release]
    exact .keep _ _
  · rw [Oven.free_release]
    cases g <;> cases g' <;> simp [ChefPc.holds, Gate.returnedBefore]
  · rw [Oven.free_release]
    rcases eq_or_ne g' g with rfl | hg
    · exact Or.inr (by simp [ChefPc.insideGate])
    · exact Or.inl (by simp [hg])
  · rw [Oven.free_release]
    have hg := hnonneg g'
    split_ifs <;> omega
  · rw [Oven.free_release]
    right
    cases g <;> cases g' <;> simp [ChefPc.called]

/-- Chef `i` signals: the unit it has put back passes to the chef that it wakes, and
without one nobody waits at the gate. -/
lemma OvenInv.signal {c : ℕ} {o : Oven c} {chef pc : Fin c → ChefPc} (h : OvenInv o chef)
    {i : Fin c} {w : Option (Fin c)} {g : Gate} {k : ℕ} (hp : chef i = .releaseSignal g k)
    (hpc : Monitor.signal (ChefPc.waitsAt g) ChefPc.wake chef w = some pc) :
    OvenInv o (Function.update pc i (.releaseUnlock g k)) := by
  cases w with
  | none =>
    simp only [Monitor.signal] at hpc
    split_ifs at hpc with hnone
    cases hpc
    refine ⟨h.stocked.move hp _ o (fun g' => .keep _ _) (fun g' => rfl) (fun g' => Or.inl rfl)
      h.stocked.nonneg (by simp), h.called.move hp _ o (by simp) ?_⟩
    rintro g' ⟨j, k', hj⟩
    have hg : g' ≠ g := by
      rintro rfl
      have hwaits := hnone j
      simp [hj, ChefPc.waitsAt] at hwaits
    exact Or.inr (by simp [ChefPc.called, hg])
  | some j =>
    simp only [Monitor.signal] at hpc
    split_ifs at hpc with hj
    cases hpc
    obtain ⟨k', hj⟩ : ∃ k', chef j = .acquireWait g k' := by
      cases hq : chef j <;> simp_all [ChefPc.waitsAt]
    have hij : i ≠ j := by
      rintro rfl
      cases hp.symm.trans hj
    have hwoken := h.wake j
    have hp' : Function.update chef j (chef j).wake i = .releaseSignal g k := by
      rw [Function.update_of_ne hij, hp]
    refine ⟨hwoken.stocked.move hp' _ o (fun g' => .keep _ _) (fun g' => rfl)
      (fun g' => Or.inl rfl) h.stocked.nonneg (by simp), fun g' l k'' hl => ?_⟩
    have hli : l ≠ i := by
      rintro rfl
      simp at hl
    have hlj : l ≠ j := by
      rintro rfl
      simp [hli, hj, ChefPc.wake] at hl
    have hwaits := h.called g' l k'' (by simpa [hli, hlj] using hl)
    have hfirst := census_update (ChefPc.called g') chef j (chef j).wake
    have hsecond := census_update (ChefPc.called g') (Function.update chef j (chef j).wake) i
      (.releaseUnlock g k)
    rw [hp'] at hsecond
    simp only [hj, ChefPc.wake, ChefPc.called] at hfirst hsecond ⊢
    simp at hfirst hsecond
    omega

lemma lockGate_eq_some {c d : ℕ} {s t : State c d} {i : Fin c} {g : Gate} {q : ChefPc}
    (h : lockGate s i g q = some t) :
    s.oven.mutex g = none ∧ t = { s.setChef i q with oven := s.oven.setMutex g (some i) } := by
  unfold lockGate at h
  split_ifs at h with hfree
  cases h
  exact ⟨hfree, rfl⟩

/-- A signal for orders wakes a chef, a deliverer or nobody. -/
lemma OvenInv.signalOrder {c d : ℕ} {s t : State c d} {w : Option (Fin c ⊕ Fin d)}
    (h : OvenInv s.oven s.chef) (hst : signalOrder s w = some t) : OvenInv t.oven t.chef := by
  unfold PideShop.signalOrder at hst
  split at hst
  · split_ifs at hst with hj
    cases hst
    rename_i j
    have hwake := h.wake j
    rwa [hj] at hwake
  · split_ifs at hst
    cases hst
    exact h
  · split_ifs at hst
    cases hst
    exact h

/-- Every statement of a chef keeps the invariant of the oven. -/
theorem OvenInv.chefStep {c d : ℕ} {s t : State c d} {i : Fin c} {w : Option (Fin c ⊕ Fin d)}
    (h : OvenInv s.oven s.chef) (hst : chefStep s i w = some t) : OvenInv t.oven t.chef := by
  cases hp : s.chef i with
  | waiting | acquireWait _ _ => simp [PideShop.chefStep, hp] at hst
  | lock | woken | readyLock k =>
    simp only [PideShop.chefStep, hp] at hst
    obtain ⟨-, rfl⟩ := lock_eq_some hst
    exact h.plain hp _ (fun g => rfl) (by simp)
  | test =>
    simp only [PideShop.chefStep, hp] at hst
    split_ifs at hst <;> cases hst <;> exact h.plain hp _ (fun g => rfl) (by simp)
  | scan k =>
    simp only [PideShop.chefStep, hp] at hst
    split_ifs at hst
    · obtain ⟨o, -, rfl⟩ := Option.map_eq_some_iff.mp hst
      split_ifs <;> exact h.plain hp _ (fun g => rfl) (by simp)
    · cases hst
      exact h.plain hp _ (fun g => rfl) (by simp)
  | unlock orderIndex =>
    cases orderIndex with
    | none =>
      simp only [PideShop.chefStep, hp] at hst
      cases hst
      exact h.plain hp _ (fun g => rfl) (by simp)
    | some k =>
      simp only [PideShop.chefStep, hp] at hst
      cases hst
      exact h.plain hp _ (fun g => by cases g <;> rfl) (by simp)
  | acquireLock g k =>
    simp only [PideShop.chefStep, hp] at hst
    obtain ⟨hfree, rfl⟩ := lockGate_eq_some hst
    exact h.lock hp hfree (Or.inl ⟨rfl, rfl⟩)
  | acquireWoken g k =>
    simp only [PideShop.chefStep, hp] at hst
    obtain ⟨hfree, rfl⟩ := lockGate_eq_some hst
    exact h.lock hp hfree (Or.inr (Or.inl ⟨rfl, rfl⟩))
  | releaseLock g k =>
    simp only [PideShop.chefStep, hp] at hst
    obtain ⟨hfree, rfl⟩ := lockGate_eq_some hst
    exact h.lock hp hfree (Or.inr (Or.inr ⟨rfl, rfl⟩))
  | acquireTest g k =>
    simp only [PideShop.chefStep, hp] at hst
    split_ifs at hst with hfull
    · cases hst
      exact h.unlock hp (Or.inl ⟨rfl, rfl, (s.oven.full_iff g).mp hfull⟩)
    · cases hst
      rw [Oven.full_iff] at hfull
      refine ⟨h.stocked.move hp _ _ (fun g' => .keep _ _) (fun g' => rfl) (fun g' => Or.inl rfl)
        h.stocked.nonneg (fun g' k' hk => ?_), h.called.move hp _ _ (by simp) fun g' _ => ?_⟩
      · cases hk
        exact not_le.mp hfull
      · exact Or.inr le_rfl
  | acquire g k =>
    simp only [PideShop.chefStep, hp] at hst
    cases hst
    exact h.acquire hp
  | cook k =>
    simp only [PideShop.chefStep, hp] at hst
    obtain ⟨o, -, rfl⟩ := Option.map_eq_some_iff.mp hst
    exact h.plain hp _ (fun g => by cases g <;> rfl) (by simp)
  | acquireUnlock g k =>
    simp only [PideShop.chefStep, hp] at hst
    cases hst
    exact h.unlock hp (Or.inr (Or.inl ⟨rfl, rfl⟩))
  | release g k =>
    simp only [PideShop.chefStep, hp] at hst
    cases hst
    exact h.release hp
  | releaseSignal g k =>
    simp only [PideShop.chefStep, hp] at hst
    obtain ⟨pc, hpc, rfl⟩ := Option.map_eq_some_iff.mp hst
    exact h.signal hp hpc
  | releaseUnlock g k =>
    simp only [PideShop.chefStep, hp] at hst
    cases hst
    exact h.unlock hp (Or.inr (Or.inr ⟨rfl, rfl⟩))
  | ready k =>
    simp only [PideShop.chefStep, hp] at hst
    obtain ⟨o, -, rfl⟩ := Option.map_eq_some_iff.mp hst
    exact h.plain hp _ (fun g => rfl) (by simp)
  | readySignal =>
    simp only [PideShop.chefStep, hp] at hst
    exact (h.plain hp .readyUnlock (fun g => rfl) (by simp)).signalOrder hst
  | readyUnlock =>
    simp only [PideShop.chefStep, hp] at hst
    cases hst
    exact h.plain hp _ (fun g => rfl) (by simp)

/-- The counters of the oven account for the chefs that hold something. -/
structure Conserved {c : ℕ} (o : Oven c) (chef : Fin c → ChefPc) : Prop where
  slots : o.ovenSlots + census (ChefPc.holds .slots) chef = 2
  peels : o.ovenPeels + census (ChefPc.holds .peels) chef = 3
  capacity : o.ovenCapacity = census (ChefPc.holds .oven) chef
  capacity_le : o.ovenCapacity ≤ 2
  nonneg : 0 ≤ o.ovenSlots ∧ 0 ≤ o.ovenPeels ∧ 0 ≤ o.ovenCapacity

/-- What is in the oven holds a slot and a peel. -/
lemma holds_of_holds_oven (pc : ChefPc) (h : pc.holds .oven = true) (g : Gate) :
    pc.holds g = true := by
  cases pc <;> cases g <;> simp_all [ChefPc.holds, Gate.before, Gate.returnedBefore] <;>
    (rename_i g' _; cases g' <;> simp_all)

lemma Stocked.conserved {c : ℕ} {o : Oven c} {chef : Fin c → ChefPc} (h : Stocked o chef) :
    Conserved o chef := by
  have hslots := h.stock .slots
  have hpeels := h.stock .peels
  have hoven := h.stock .oven
  have hs := h.nonneg .slots
  have hp := h.nonneg .peels
  have hmono := census_mono (f := chef) fun pc hpc => holds_of_holds_oven pc hpc .slots
  simp only [Oven.free, Gate.supply, maxOvenSlots, maxOvenPeels] at hslots hpeels hoven hs hp
  constructor <;> omega

lemma delivererStep_oven {c d : ℕ} {s t : State c d} {i : Fin d}
    (hst : delivererStep s i = some t) : t.oven = s.oven ∧ t.chef = s.chef := by
  unfold delivererStep at hst
  split at hst
  all_goals try split_ifs at hst
  all_goals first
    | (obtain ⟨-, rfl⟩ := lock_eq_some hst; exact ⟨rfl, rfl⟩)
    | (obtain ⟨o, -, rfl⟩ := Option.map_eq_some_iff.mp hst; split_ifs <;> exact ⟨rfl, rfl⟩)
    | (cases hst; exact ⟨rfl, rfl⟩)
    | cases hst

/-- The broadcast of `main` wakes chefs that wait for orders, which hold nothing. -/
lemma OvenInv.broadcast {c : ℕ} {o : Oven c} {chef : Fin c → ChefPc} (h : OvenInv o chef) :
    OvenInv o (Monitor.broadcast ChefPc.waits ChefPc.wake chef) := by
  have hcase : ∀ pc : ChefPc, pc.waits = true → pc = .waiting := by
    intro pc hpc
    cases pc <;> simp_all [ChefPc.waits]
  have hsame : ∀ g i, (Monitor.broadcast ChefPc.waits ChefPc.wake chef i).footprint g =
      (chef i).footprint g := by
    intro g
    apply (woken_broadcast ChefPc.waits ChefPc.wake chef).map_eq (ChefPc.footprint g)
    intro pc hpc
    rw [hcase pc hpc]
    rfl
  have hback : ∀ i pc, pc ≠ .woken →
      Monitor.broadcast ChefPc.waits ChefPc.wake chef i = pc → chef i = pc := by
    intro i pc hpc hi
    rcases woken_broadcast ChefPc.waits ChefPc.wake chef i with heq | ⟨hw, heq⟩
    · exact heq.symm.trans hi
    · rw [hcase _ hw] at heq
      exact absurd (heq.symm.trans hi).symm hpc
  simp only [ChefPc.footprint, Prod.mk.injEq] at hsame
  refine ⟨⟨fun g => (h.stocked.owns g).congr fun i => (hsame g i).2.1, fun g => ?_,
    h.stocked.nonneg, fun g i k hi => h.stocked.room g i k (hback i _ (by simp) hi)⟩,
    fun g i k hi => ?_⟩
  · have hstock := h.stocked.stock g
    simp only [census, (hsame g _).1] at hstock ⊢
    exact hstock
  · have hcalled := h.called g i k (hback i _ (by simp) hi)
    simp only [census, (hsame g _).2.2] at hcalled ⊢
    exact hcalled

lemma OvenInv.mainStep {c d : ℕ} {s t : State c d} (h : OvenInv s.oven s.chef)
    (hst : mainStep s = some t) : OvenInv t.oven t.chef := by
  cases hp : s.main with
  | accept | orders => simp [PideShop.mainStep, hp] at hst
  | realloc | unlock =>
    simp only [PideShop.mainStep, hp] at hst
    cases hst
    exact h
  | lock orders =>
    simp only [PideShop.mainStep, hp] at hst
    obtain ⟨-, rfl⟩ := lock_eq_some hst
    exact h
  | fill k orders =>
    simp only [PideShop.mainStep, hp] at hst
    by_cases hk : (k : ℤ) < s.maxOrder
    · rw [if_pos hk] at hst
      obtain ⟨o, -, ho⟩ := Option.bind_eq_some_iff.mp hst
      split_ifs at ho <;> cases ho <;> exact h
    · rw [if_neg hk] at hst
      cases hst
      exact h
  | broadcast =>
    simp only [PideShop.mainStep, hp] at hst
    cases hst
    exact h.broadcast

theorem OvenInv.step {c d : ℕ} {s t : State c d} {a : Act c d} (h : OvenInv s.oven s.chef)
    (hst : step s a = some t) : OvenInv t.oven t.chef := by
  cases a with
  | chef i w => exact h.chefStep hst
  | deliverer i =>
    obtain ⟨hoven, hchef⟩ := delivererStep_oven hst
    rw [hoven, hchef]
    exact h
  | spuriousChef i =>
    cases hst
    exact h.wake i
  | main => exact h.mainStep hst
  | count n | orders pid customers | spuriousDeliverer i =>
    simp only [PideShop.step] at hst
    split_ifs at hst
    all_goals
      cases hst
      exact h

/-- The oven of the whole shop never gains or loses a resource. -/
theorem shop_conserved {c d : ℕ} {s : State c d} (hr : Reach step always (init c d) s) :
    Conserved s.oven s.chef := by
  have h : OvenInv s.oven s.chef := hr.invariant (P := fun s => OvenInv s.oven s.chef)
    ⟨stocked_init c d, called_init c d⟩ fun _ _ _ h _ hst => h.step hst
  exact h.stocked.conserved

end SystemProgramming.PideShop
