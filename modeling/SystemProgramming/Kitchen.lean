import SystemProgramming.Oven

/-!
# The chefs never deadlock

The kitchen is the shop with its chefs alone. Orders come from outside: at any
time the table, its bound and the number of orders may be replaced, as long as
the slots that a chef may read are written, which are those below the bound and
those of the orders being prepared. Whatever the chefs wait for, the ones that
hold a unit of the oven can go on.
-/
namespace SystemProgramming.PideShop
open SystemProgramming.Transition SystemProgramming.Monitor

/-- The chef has picked an order and not finished with it. -/
def ChefPc.working : ChefPc → Bool
  | .lock | .test | .waiting | .woken | .scan _ | .unlock none => false
  | _ => true

/-- The slot of the order a chef prepares. -/
def ChefPc.slot (pc : ChefPc) : Option ℕ := pc.work.map Prod.fst

/-- A chef executes its next statement or wakes up although nobody has signalled,
or the orders change. -/
inductive KitchenAct (c : ℕ) where
  | chef (i : Fin c) (w : Option (Fin c ⊕ Fin 0))
  | spurious (i : Fin c)
  | supply (table : List (Option Order)) (maxOrder numOrders : ℤ)

def kitchenStep {c : ℕ} (s : State c 0) : KitchenAct c → Option (State c 0)
  | .chef i w => chefStep s i w
  | .spurious i => some (s.setChef i (s.chef i).wake)
  | .supply table maxOrder numOrders =>
    if (∀ k < maxOrder.toNat, (table[k]?).join.isSome) ∧
        ∀ i, ∀ k ∈ (s.chef i).slot, (table[k]?).join.isSome then
      some { s with table := table, maxOrder := maxOrder, numOrders := numOrders }
    else none

/-- What a statement of chef `i` leaves to the other chefs and to the orders. -/
structure ChefFrame {c d : ℕ} (s t : State c d) (i : Fin c) : Prop where
  main : t.main = s.main
  maxOrder : t.maxOrder = s.maxOrder
  written : ∀ k, (s.order k).isSome = true → (t.order k).isSome = true
  others : ∀ j, j ≠ i → t.chef j = s.chef j ∨ t.chef j = (s.chef j).wake
  mutex : Handover (Thread.chef i) (s.chef i).inside (t.chef i).inside s.mutex t.mutex
  slot : ∀ k, (t.chef i).slot = some k → (s.chef i).slot = some k ∨ (k : ℤ) < s.maxOrder

lemma isSome_setOrder {c d : ℕ} {s : State c d} {k : ℕ} {o : Order} (ho : s.order k = some o)
    (o' : Order) (l : ℕ) (hl : (s.order l).isSome = true) :
    ((s.setOrder k o').order l).isSome = true := by
  rw [order_setOrder ho]
  rcases eq_or_ne l k with rfl | hlk
  · simp
  · rwa [Function.update_of_ne hlk]

/-- A chef moves without touching the table. -/
lemma chefFrame_move {c d : ℕ} {s : State c d} {i : Fin c} {p : ChefPc} (hp : s.chef i = p)
    (q : ChefPc) (m : Option (Thread c d)) (o : Oven c)
    (hm : Handover (Thread.chef i) p.inside q.inside s.mutex m)
    (hslot : ∀ k, q.slot = some k → p.slot = some k) :
    ChefFrame s { s.setChef i q with mutex := m, oven := o } i := by
  refine ⟨rfl, rfl, fun k => id, fun j hj => Or.inl (by simp [State.setChef, hj]), ?_, ?_⟩
  · simpa [State.setChef, hp] using hm
  · intro k hk
    exact Or.inl (by simpa [hp] using hslot k (by simpa [State.setChef] using hk))

/-- A chef writes the slot of an order. -/
lemma chefFrame_write {c d : ℕ} {s : State c d} {i : Fin c} {p : ChefPc} (hp : s.chef i = p)
    (q : ChefPc) {k : ℕ} {o : Order} (ho : s.order k = some o) (o' : Order)
    (picks : ℕ → List (Fin c)) (holding : Fin c → ℕ) (hin : q.inside = p.inside)
    (hslot : ∀ l, q.slot = some l → p.slot = some l ∨ (l : ℤ) < s.maxOrder) :
    ChefFrame s { (s.setOrder k o').setChef i q with picks := picks, holding := holding } i := by
  refine ⟨rfl, rfl, isSome_setOrder ho o', fun j hj => Or.inl (by
    simp [State.setChef, State.setOrder, hj]), ?_, ?_⟩
  · have hkeep : Handover (Thread.chef i) p.inside q.inside s.mutex s.mutex := by
      rw [hin]
      exact .keep _ _
    simpa [State.setChef, State.setOrder, hp] using hkeep
  · intro l hl
    exact (hslot l (by simpa [State.setChef, State.setOrder] using hl)).imp_left (by simp [hp])

lemma chefFrame_signalOrder {c d : ℕ} {s t : State c d} {i : Fin c}
    {w : Option (Fin c ⊕ Fin d)} (hp : s.chef i = .readySignal)
    (hst : signalOrder (s.setChef i .readyUnlock) w = some t) : ChefFrame s t i := by
  have hmove : ChefFrame s (s.setChef i .readyUnlock) i :=
    chefFrame_move hp .readyUnlock s.mutex s.oven (.keep _ _) (by simp [ChefPc.slot, ChefPc.work])
  unfold signalOrder at hst
  split at hst
  · split_ifs at hst with hj
    cases hst
    rename_i j
    have hji : j ≠ i := by
      rintro rfl
      simp [State.setChef] at hj
    have hother : ∀ l, l ≠ j →
        ((s.setChef i .readyUnlock).setChef j .woken).chef l = (s.setChef i .readyUnlock).chef l :=
      fun l hl => by simp [State.setChef, hl]
    refine ⟨hmove.main, hmove.maxOrder, hmove.written, fun l hl => ?_, ?_, ?_⟩
    · rcases eq_or_ne l j with rfl | hlj
      · right
        simp only [State.setChef, Function.update_of_ne hl] at hj
        simp [State.setChef, hj, ChefPc.wake]
      · rw [hother l hlj]
        exact hmove.others l hl
    · rw [hother i hji.symm]
      exact hmove.mutex
    · rw [hother i hji.symm]
      exact hmove.slot
  · split_ifs at hst
    cases hst
    exact ⟨hmove.main, hmove.maxOrder, hmove.written, hmove.others, hmove.mutex, hmove.slot⟩
  · split_ifs at hst
    cases hst
    exact hmove

lemma chefFrame_of_chefStep {c d : ℕ} {s t : State c d} {i : Fin c} {w : Option (Fin c ⊕ Fin d)}
    (hst : chefStep s i w = some t) : ChefFrame s t i := by
  cases hp : s.chef i with
  | waiting | acquireWait _ _ => simp [chefStep, hp] at hst
  | lock | woken | readyLock _ =>
    simp only [chefStep, hp] at hst
    obtain ⟨hfree, rfl⟩ := lock_eq_some hst
    exact chefFrame_move hp _ _ s.oven (by rw [hfree]; exact .lock)
      (by simp [ChefPc.slot, ChefPc.work])
  | test =>
    simp only [chefStep, hp] at hst
    split_ifs at hst
    · cases hst
      exact chefFrame_move hp _ _ s.oven (.unlock _) (by simp [ChefPc.slot, ChefPc.work])
    · cases hst
      exact chefFrame_move hp _ s.mutex s.oven (.keep _ _) (by simp [ChefPc.slot, ChefPc.work])
  | scan k =>
    simp only [chefStep, hp] at hst
    by_cases hk : (k : ℤ) < s.maxOrder
    · rw [if_pos hk] at hst
      obtain ⟨o, ho, rfl⟩ := Option.map_eq_some_iff.mp hst
      split_ifs
      · refine chefFrame_write hp _ ho _ _ _ rfl fun l hl => ?_
        simp only [ChefPc.slot, ChefPc.work, Option.map_some, Option.some.injEq] at hl
        exact Or.inr (hl ▸ hk)
      · exact chefFrame_move hp _ s.mutex s.oven (.keep _ _) (by simp [ChefPc.slot, ChefPc.work])
    · rw [if_neg hk] at hst
      cases hst
      exact chefFrame_move hp _ s.mutex s.oven (.keep _ _) (by simp [ChefPc.slot, ChefPc.work])
  | unlock orderIndex =>
    cases orderIndex with
    | none =>
      simp only [chefStep, hp] at hst
      cases hst
      exact chefFrame_move hp _ _ s.oven (.unlock _) (by simp [ChefPc.slot, ChefPc.work])
    | some k =>
      simp only [chefStep, hp] at hst
      cases hst
      exact chefFrame_move hp _ _ s.oven (.unlock _) (by simp [ChefPc.slot, ChefPc.work])
  | acquireLock _ _ | acquireWoken _ _ | releaseLock _ _ =>
    simp only [chefStep, hp] at hst
    obtain ⟨-, rfl⟩ := lockGate_eq_some hst
    exact chefFrame_move hp _ s.mutex _ (.keep _ _) (by simp [ChefPc.slot, ChefPc.work])
  | acquireTest g k =>
    simp only [chefStep, hp] at hst
    split_ifs at hst
    all_goals
      cases hst
      exact chefFrame_move hp _ s.mutex _ (.keep _ _) (by simp [ChefPc.slot, ChefPc.work])
  | acquire g k | acquireUnlock g k | release g k | releaseUnlock g k =>
    simp only [chefStep, hp] at hst
    cases hst
    cases g <;>
      exact chefFrame_move hp _ s.mutex _ (.keep _ _)
        (by simp [ChefPc.slot, ChefPc.work, afterAcquire, afterRelease])
  | cook k =>
    simp only [chefStep, hp] at hst
    obtain ⟨o, ho, rfl⟩ := Option.map_eq_some_iff.mp hst
    exact chefFrame_write hp _ ho _ s.picks s.holding rfl
      (by simp [ChefPc.slot, ChefPc.work])
  | releaseSignal g k =>
    simp only [chefStep, hp] at hst
    obtain ⟨pc, hpc, rfl⟩ := Option.map_eq_some_iff.mp hst
    refine ⟨rfl, rfl, fun k => id, fun j hj => ?_, ?_, ?_⟩
    · rcases woken_signal hpc j with heq | ⟨-, heq⟩
      · exact Or.inl (by simp [hj, heq])
      · exact Or.inr (by simp [hj, heq])
    · rw [hp]
      simp only [Function.update_self]
      exact .keep _ _
    · intro l hl
      left
      simpa [hp, ChefPc.slot, ChefPc.work] using hl
  | ready k =>
    simp only [chefStep, hp] at hst
    obtain ⟨o, ho, rfl⟩ := Option.map_eq_some_iff.mp hst
    exact chefFrame_write hp _ ho _ s.picks s.holding rfl (by simp [ChefPc.slot, ChefPc.work])
  | readySignal =>
    simp only [chefStep, hp] at hst
    exact chefFrame_signalOrder hp hst
  | readyUnlock =>
    simp only [chefStep, hp] at hst
    cases hst
    exact chefFrame_move hp _ _ s.oven (.unlock _) (by simp [ChefPc.slot, ChefPc.work])

structure KitchenInv {c : ℕ} (s : State c 0) : Prop where
  oven : OvenInv s.oven s.chef
  main : s.main = .accept
  owns : Owns s.mutex s.inside
  table : ∀ k : ℕ, (k : ℤ) < s.maxOrder → (s.order k).isSome = true
  slots : ∀ i k, (s.chef i).slot = some k → (s.order k).isSome = true

theorem kitchenInv_init (c : ℕ) : KitchenInv (init c 0) where
  oven := ⟨stocked_init c 0, called_init c 0⟩
  main := rfl
  owns := owns_none.mpr fun t => by
    cases t with
    | deliverer i => exact i.elim0
    | _ => rfl
  table := fun k hk => by
    simp only [init] at hk
    omega
  slots := fun i k hk => by simp [init, ChefPc.slot, ChefPc.work] at hk

lemma inside_wake (pc : ChefPc) : pc.wake.inside = pc.inside := by cases pc <;> rfl

lemma slot_wake (pc : ChefPc) : pc.wake.slot = pc.slot := by cases pc <;> rfl

lemma KitchenInv.chef {c : ℕ} {s t : State c 0} {i : Fin c} {w : Option (Fin c ⊕ Fin 0)}
    (h : KitchenInv s) (hst : chefStep s i w = some t) : KitchenInv t := by
  have hframe := chefFrame_of_chefStep hst
  refine ⟨h.oven.chefStep hst, hframe.main.trans h.main, h.owns.move (.chef i) (fun u hu => ?_)
    hframe.mutex, fun k hk => ?_, fun j k hk => ?_⟩
  · cases u with
    | chef j =>
      simp only [State.inside]
      rcases hframe.others j (fun hji => hu (hji ▸ rfl)) with heq | heq
      · rw [heq]
      · rw [heq, inside_wake]
    | deliverer j => exact j.elim0
    | main => simp only [State.inside, hframe.main]
  · rw [hframe.maxOrder] at hk
    exact hframe.written k (h.table k hk)
  · apply hframe.written
    rcases eq_or_ne j i with rfl | hji
    · rcases hframe.slot k hk with hold | hlt
      · exact h.slots j k hold
      · exact h.table k hlt
    · rcases hframe.others j hji with heq | heq
      · exact h.slots j k (heq ▸ hk)
      · rw [heq, slot_wake] at hk
        exact h.slots j k hk

theorem KitchenInv.step {c : ℕ} {s t : State c 0} {a : KitchenAct c} (h : KitchenInv s)
    (hst : kitchenStep s a = some t) : KitchenInv t := by
  cases a with
  | chef i w => exact h.chef hst
  | spurious i =>
    cases hst
    refine ⟨h.oven.wake i, h.main, h.owns.congr fun u => ?_, h.table, fun j k hk => ?_⟩
    · cases u with
      | chef j =>
        simp only [State.inside, State.setChef]
        exact apply_update_eq (inside_wake _) j
      | _ => rfl
    · have hsame : (Function.update s.chef i (s.chef i).wake j).slot = (s.chef j).slot :=
        apply_update_eq (slot_wake _) j
      exact h.slots j k (hsame ▸ hk)
  | supply table maxOrder numOrders =>
    simp only [kitchenStep] at hst
    split_ifs at hst with hok
    cases hst
    exact ⟨h.oven, h.main, h.owns, fun k hk => hok.1 k (Int.lt_toNat.mpr hk),
      fun i k hk => hok.2 i k hk⟩

/-- The chef is about to lock `ordersMutex`. -/
def ChefPc.locks : ChefPc → Bool
  | .lock | .woken | .readyLock _ => true
  | _ => false

/-- The chef is about to lock the mutex of the gate. -/
def ChefPc.locksGate (g : Gate) : ChefPc → Bool
  | .acquireLock g' _ | .acquireWoken g' _ | .releaseLock g' _ => g = g'
  | _ => false

def ChefPc.blocked : ChefPc → Bool
  | .waiting | .acquireWait _ _ => true
  | _ => false

lemma exists_signalOrder {c d : ℕ} (s : State c d) : ∃ w t, signalOrder s w = some t := by
  by_cases h : (∀ i, (s.chef i).waits = false) ∧ ∀ i, (s.deliverer i).waits = false
  · exact ⟨none, s, if_pos h⟩
  · rw [not_and_or, not_forall, not_forall] at h
    rcases h with ⟨i, hi⟩ | ⟨i, hi⟩
    · have hw : s.chef i = .waiting := by cases hp : s.chef i <;> simp_all [ChefPc.waits]
      exact ⟨some (.inl i), _, if_pos hw⟩
    · have hw : s.deliverer i = .waiting := by
        cases hp : s.deliverer i <;> simp_all [DelivererPc.waits]
      exact ⟨some (.inr i), _, if_pos hw⟩

/-- A chef is stopped only by a mutex or a wait. -/
lemma KitchenInv.chefStep_of_free {c : ℕ} {s : State c 0} (h : KitchenInv s) (i : Fin c)
    (hlock : (s.chef i).locks = true → s.mutex = none)
    (hgate : ∀ g, (s.chef i).locksGate g = true → s.oven.mutex g = none)
    (hwait : (s.chef i).blocked = false) : ∃ w t, chefStep s i w = some t := by
  have hslots := h.slots i
  cases hp : s.chef i with
  | waiting | acquireWait _ _ => simp [hp, ChefPc.blocked] at hwait
  | lock | woken | readyLock _ =>
    have hfree := hlock (by rw [hp]; rfl)
    exact ⟨none, _, by simp only [chefStep, hp]; exact if_pos hfree⟩
  | acquireLock g _ | acquireWoken g _ | releaseLock g _ =>
    have hfree := hgate g (by simp [hp, ChefPc.locksGate])
    exact ⟨none, _, by simp only [chefStep, hp]; exact if_pos hfree⟩
  | scan k =>
    refine ⟨none, ?_⟩
    simp only [chefStep, hp]
    by_cases hk : (k : ℤ) < s.maxOrder
    · obtain ⟨o, ho⟩ := Option.isSome_iff_exists.mp (h.table k hk)
      rw [if_pos hk, ho]
      exact ⟨_, rfl⟩
    · rw [if_neg hk]
      exact ⟨_, rfl⟩
  | cook k | ready k =>
    obtain ⟨o, ho⟩ := Option.isSome_iff_exists.mp (hslots k (by rw [hp]; rfl))
    exact ⟨none, _, by simp only [chefStep, hp, ho]; rfl⟩
  | test =>
    refine ⟨none, ?_⟩
    simp only [chefStep, hp]
    split_ifs <;> exact ⟨_, rfl⟩
  | acquireTest g k =>
    refine ⟨none, ?_⟩
    simp only [chefStep, hp]
    split_ifs <;> exact ⟨_, rfl⟩
  | unlock orderIndex =>
    cases orderIndex <;> exact ⟨none, _, by simp only [chefStep, hp]; rfl⟩
  | releaseSignal g k =>
    obtain ⟨w, pc, hpc⟩ := exists_signal (ChefPc.waitsAt g) ChefPc.wake s.chef
    refine ⟨w.map Sum.inl, ?_⟩
    have hw : (w.map (Sum.inl : Fin c → Fin c ⊕ Fin 0)).bind Sum.getLeft? = w := by
      cases w <;> rfl
    simp only [chefStep, hp, hw, hpc]
    exact ⟨_, rfl⟩
  | readySignal =>
    obtain ⟨w, t, ht⟩ := exists_signalOrder (s.setChef i .readyUnlock)
    exact ⟨w, t, by simp only [chefStep, hp]; exact ht⟩
  | _ => exact ⟨none, _, by simp only [chefStep, hp]; rfl⟩

lemma working_of_insideGate {pc : ChefPc} {g : Gate} (h : pc.insideGate g = true) :
    pc.working = true := by
  cases pc <;> simp_all [ChefPc.insideGate, ChefPc.working]

/-- Who owns a mutex is about neither to lock one nor to wait. -/
lemma not_blocked_of_insideGate {pc : ChefPc} {g : Gate} (h : pc.insideGate g = true) :
    pc.locks = false ∧ (∀ g', pc.locksGate g' = false) ∧ pc.blocked = false := by
  cases pc <;> simp_all [ChefPc.insideGate, ChefPc.locks, ChefPc.locksGate, ChefPc.blocked]

lemma not_blocked_of_inside {pc : ChefPc} (h : pc.inside = true) :
    pc.locks = false ∧ (∀ g', pc.locksGate g' = false) ∧ pc.blocked = false := by
  cases pc <;> simp_all [ChefPc.inside, ChefPc.locks, ChefPc.locksGate, ChefPc.blocked]

/-- When every chef at work waits at a gate, nobody waits at a gate unless somebody
waits at a later one: its units are all free, and nobody was called. -/
lemma not_wait_of_later {c : ℕ} {o : Oven c} {chef : Fin c → ChefPc} (h : OvenInv o chef)
    (hall : ∀ i, (chef i).working = true → ∃ g k, chef i = .acquireWait g k) (g : Gate)
    (hlater : ∀ g', g.before g' = true → ∀ i k, chef i ≠ .acquireWait g' k) (i : Fin c) (k : ℕ) :
    chef i ≠ .acquireWait g k := by
  intro hi
  have hholds : census (ChefPc.holds g) chef = 0 := census_eq_zero fun j => by
    by_contra hj
    rw [Bool.not_eq_false] at hj
    have hwork : (chef j).working = true := by
      cases hp : chef j <;> simp_all [ChefPc.holds, ChefPc.working]
    obtain ⟨g', k', hw⟩ := hall j hwork
    rw [hw] at hj
    exact hlater g' hj j k' hw
  have hcalled : census (ChefPc.called g) chef = 0 := census_eq_zero fun j => by
    by_contra hj
    rw [Bool.not_eq_false] at hj
    have hwork : (chef j).working = true := by
      cases hp : chef j <;> simp_all [ChefPc.called, ChefPc.working]
    obtain ⟨g', k', hw⟩ := hall j hwork
    rw [hw] at hj
    cases hj
  have hstock := h.stocked.stock g
  have hfree := h.called g i k hi
  have hsupply : 0 < g.supply := by cases g <;> decide
  omega

/-- Some chef can go on that prepares an order or keeps the others from theirs. -/
lemma KitchenInv.progress {c : ℕ} {s : State c 0} (h : KitchenInv s) {i : Fin c}
    (hi : (s.chef i).working = true) :
    ∃ j w t, ((s.chef j).working = true ∨ s.mutex = some (.chef j)) ∧ chefStep s j w = some t := by
  by_cases hgate : ∃ g j, s.oven.mutex g = some j
  · obtain ⟨g, j, hj⟩ := hgate
    have hin := (h.oven.stocked.owns g j).mp hj
    obtain ⟨hlock, hlockGate, hwait⟩ := not_blocked_of_insideGate hin
    obtain ⟨w, t, hst⟩ := h.chefStep_of_free j (by simp [hlock]) (by simp [hlockGate]) hwait
    exact ⟨j, w, t, Or.inl (working_of_insideGate hin), hst⟩
  have hgates : ∀ g, s.oven.mutex g = none := fun g =>
    Option.eq_none_iff_forall_ne_some.mpr fun j hj => hgate ⟨g, j, hj⟩
  cases hm : s.mutex with
  | some u =>
    have hin := (h.owns u).mp hm
    cases u with
    | chef j =>
      obtain ⟨hlock, hlockGate, hwait⟩ := not_blocked_of_inside hin
      obtain ⟨w, t, hst⟩ := h.chefStep_of_free j (by simp [hlock]) (by simp [hlockGate]) hwait
      exact ⟨j, w, t, Or.inr rfl, hst⟩
    | deliverer j => exact j.elim0
    | main => simp [State.inside, h.main, MainPc.inside] at hin
  | none =>
    by_contra hstuck
    have hall : ∀ j, (s.chef j).working = true → ∃ g k, s.chef j = .acquireWait g k := by
      intro j hj
      by_contra hw
      have hwait : (s.chef j).blocked = false := by
        cases hp : s.chef j <;> simp_all [ChefPc.blocked, ChefPc.working]
      obtain ⟨w, t, hst⟩ := h.chefStep_of_free j (fun _ => hm) (fun g _ => hgates g) hwait
      exact hstuck ⟨j, w, t, Or.inl hj, hst⟩
    have hoven := not_wait_of_later h.oven hall .oven (fun g' hg' => by cases g' <;> cases hg')
    have hpeels := not_wait_of_later h.oven hall .peels fun g' hg' => by
      cases g' <;> first | exact hoven | cases hg'
    have hslots := not_wait_of_later h.oven hall .slots fun g' hg' => by
      cases g' <;> first | exact hoven | exact hpeels | cases hg'
    obtain ⟨g, k, hw⟩ := hall i hi
    cases g
    · exact hslots i k hw
    · exact hpeels i k hw
    · exact hoven i k hw

/-- Any number of chefs, with any supply of orders: no unit of the oven is lost or
used twice, and while a chef prepares an order some chef can take a step, which
prepares an order itself or owns `ordersMutex`. -/
theorem kitchen_safe {c : ℕ} {s : State c 0} (hr : Reach kitchenStep always (init c 0) s) :
    Conserved s.oven s.chef ∧ ∀ i, (s.chef i).working = true → ∃ j w t,
      ((s.chef j).working = true ∨ s.mutex = some (.chef j)) ∧ chefStep s j w = some t := by
  have h : KitchenInv s := hr.invariant (kitchenInv_init c) fun _ _ _ h _ hst => h.step hst
  exact ⟨h.oven.stocked.conserved, fun i hi => h.progress hi⟩

/-- Two chefs hold the slots, and the third one waits for one. -/
theorem kitchen_safe_slots_taken : ∃ s : State 3 0, s.chef 2 = .acquireWait .slots 2 ∧
    s.oven.ovenSlots = 0 ∧ Conserved s.oven s.chef ∧
    ∃ j w t, ((s.chef j).working = true ∨ s.mutex = some (.chef j)) ∧ chefStep s j w = some t := by
  have hr : Reach kitchenStep always (init 3 0) _ := reach_of_run
    [.supply (List.replicate 3 (some ⟨1, 2, 3, 0, 0, 1, 0, 3, 7⟩)) 3 3, .chef 0 none, .chef 0 none,
      .chef 0 none, .chef 0 none, .chef 0 none, .chef 0 none, .chef 0 none, .chef 0 none,
      .chef 1 none, .chef 1 none, .chef 1 none, .chef 1 none, .chef 1 none, .chef 1 none,
      .chef 1 none, .chef 1 none, .chef 1 none, .chef 2 none, .chef 2 none, .chef 2 none,
      .chef 2 none, .chef 2 none, .chef 2 none, .chef 2 none, .chef 2 none] rfl
  have h := kitchen_safe hr
  exact ⟨_, by rfl, by rfl, h.1, h.2 2 (by rfl)⟩

end SystemProgramming.PideShop
