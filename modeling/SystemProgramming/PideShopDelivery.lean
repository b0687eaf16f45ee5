import Mathlib.Algebra.Order.BigOperators.Group.Finset
import SystemProgramming.PideShopAttention

/-!
# Every order can be delivered

Wherever a run has come to, chefs, deliverers and `main` can by themselves deliver all
orders that have been accepted, and send the notification. Every statement of somebody who
has an order in hand is progress; a loop over the table that finds nothing is not, but it
comes to its end, and one that is begun when there is something to find finds it.
-/
namespace SystemProgramming.PideShop
open SystemProgramming.Transition SystemProgramming.Monitor

/-- No client comes, and nobody wakes up by itself. -/
def ByThreads {c d : ℕ} (_ : State c d) : Act c d → Prop
  | .main | .chef _ _ | .deliverer _ => True
  | _ => False

/-- How many changes the order in a slot has before it. -/
def changesLeft : Option Order → ℕ
  | some p => if p.send = 1 then 6 - p.status else 0
  | none => 0

def Gate.acquireRank : Gate → ℕ
  | .slots => 30
  | .peels => 25
  | .oven => 20

def Gate.releaseRank : Gate → ℕ
  | .oven => 14
  | .slots => 8
  | .peels => 2

/-- How far a chef is from handing its order over. A signal that it gives may send another
one back by two. -/
def ChefPc.rank : ChefPc → ℕ
  | .unlock (some _) => 34
  | .acquireLock g _ | .acquireWoken g _ => g.acquireRank + 4
  | .acquireTest g _ => g.acquireRank + 3
  | .acquireWait g _ | .acquire g _ => g.acquireRank + 2
  | .cook _ => 21
  | .acquireUnlock g _ => g.acquireRank
  | .releaseLock g _ => g.releaseRank + 5
  | .release g _ => g.releaseRank + 4
  | .releaseSignal g _ => g.releaseRank + 3
  | .releaseUnlock g _ => g.releaseRank
  | .readyLock _ => 1
  | _ => 0

/-- A deliverer with a bag has still to lock the mutex. -/
def DelivererPc.rank : DelivererPc → ℕ
  | .scan _ bag | .unlock bag => if bag = [] then 0 else 1
  | .deliver _ => 1
  | _ => 0

def MainPc.rank : MainPc → ℕ
  | .realloc | .lock _ => 1
  | _ => 0

/-- The changes before all orders, those included that `main` has still to store. -/
def State.changes {c d : ℕ} (s : State c d) : ℕ :=
  ∑ k ∈ Finset.range s.maxOrder.toNat, changesLeft (s.order k) +
    7 * (s.main.toStore s.maxOrder).toNat

/-- What is left to do. A chef that picks an order comes to rank 34. -/
def State.effort {c d : ℕ} (s : State c d) : ℕ :=
  35 * s.changes + ∑ i, (s.chef i).rank + ∑ i, (s.deliverer i).rank + s.main.rank

lemma changes_update {c d : ℕ} {s t : State c d} (hmax : t.maxOrder = s.maxOrder)
    (hmain : t.main = s.main) {k : ℕ} {q : Option Order}
    (horder : t.order = Function.update s.order k q)
    (hq : changesLeft q ≤ changesLeft (s.order k)) :
    t.changes ≤ s.changes ∧
      ((k : ℤ) < s.maxOrder → t.changes + changesLeft (s.order k) = s.changes + changesLeft q) := by
  have hsum : t.changes = ∑ l ∈ Finset.range s.maxOrder.toNat,
      changesLeft (Function.update s.order k q l) + 7 * (s.main.toStore s.maxOrder).toNat := by
    rw [State.changes, hmax, hmain, horder]
  refine ⟨?_, fun hk => ?_⟩
  · rw [hsum, State.changes]
    refine Nat.add_le_add_right (Finset.sum_le_sum fun l _ => ?_) _
    rcases eq_or_ne l k with rfl | hl
    · rwa [Function.update_self]
    · rw [Function.update_of_ne hl]
  · have hmem : k ∈ Finset.range s.maxOrder.toNat := by
      rw [Finset.mem_range]
      omega
    have hupdate := sum_update hmem s.order q changesLeft
    rw [hsum, State.changes]
    omega

lemma rank_wake {p : ChefPc} (hp : p.waits = true) : p.wake.rank = p.rank := by
  cases p <;> first | rfl | cases hp

lemma sum_rank_setChef {c d : ℕ} (s : State c d) (i : Fin c) (q : ChefPc) :
    ∑ j, ((s.setChef i q).chef j).rank + (s.chef i).rank = ∑ j, (s.chef j).rank + q.rank :=
  sum_update (Finset.mem_univ i) s.chef q ChefPc.rank

lemma sum_rank_setDeliverer {c d : ℕ} (s : State c d) (i : Fin d) (q : DelivererPc) :
    ∑ j, ((s.setDeliverer i q).deliverer j).rank + (s.deliverer i).rank =
      ∑ j, (s.deliverer j).rank + q.rank :=
  sum_update (Finset.mem_univ i) s.deliverer q DelivererPc.rank

/-- A signal for a unit of the oven sets one chef back by two. -/
lemma sum_rank_signal {c : ℕ} {chef pc : Fin c → ChefPc} {g : Gate} {w : Option (Fin c)}
    (hpc : Monitor.signal (ChefPc.waitsAt g) ChefPc.wake chef w = some pc) :
    ∑ j, (pc j).rank ≤ ∑ j, (chef j).rank + 2 := by
  cases w with
  | none =>
    simp only [Monitor.signal] at hpc
    split_ifs at hpc
    cases hpc
    omega
  | some j =>
    simp only [Monitor.signal] at hpc
    split_ifs at hpc with hj
    cases hpc
    have hsum := sum_update (Finset.mem_univ j) chef (chef j).wake ChefPc.rank
    have hrank : (chef j).wake.rank = (chef j).rank + 2 := by
      cases hp : chef j <;> simp_all [ChefPc.waitsAt, ChefPc.wake, ChefPc.rank]
    omega

/-- What a statement of chef `i` makes of the ranks. -/
lemma rank_chefStep {c d : ℕ} {s t : State c d} {i : Fin c} {w : Option (Fin c ⊕ Fin d)}
    (hst : chefStep s i w = some t) :
    (∃ k, s.chef i = .scan k ∧ t.chef i = .unlock (some k) ∧
      ∑ j, (t.chef j).rank = ∑ j, (s.chef j).rank + 34) ∨
    ∑ j, (t.chef j).rank ≤ ∑ j, (s.chef j).rank ∧
      ((s.chef i).working = true → (s.chef i).inside = false →
        ∑ j, (t.chef j).rank < ∑ j, (s.chef j).rank) := by
  have hmove : ∀ {p : ChefPc} (q : ChefPc), s.chef i = p → q.rank ≤ p.rank →
      (p.working = true → p.inside = false → q.rank < p.rank) →
      ∑ j, ((s.setChef i q).chef j).rank ≤ ∑ j, (s.chef j).rank ∧
        (p.working = true → p.inside = false →
          ∑ j, ((s.setChef i q).chef j).rank < ∑ j, (s.chef j).rank) := by
    intro p q hp hle hlt
    have hsum := sum_rank_setChef s i q
    rw [hp] at hsum
    refine ⟨by omega, fun hw hin => ?_⟩
    have := hlt hw hin
    omega
  cases hp : s.chef i with
  | waiting | acquireWait _ _ => simp [chefStep, hp] at hst
  | scan k =>
    simp only [chefStep, hp] at hst
    split_ifs at hst with hk
    · obtain ⟨o, ho, rfl⟩ := Option.map_eq_some_iff.mp hst
      split_ifs with hfound
      · have hsum := sum_rank_setChef s i (.unlock (some k))
        rw [hp] at hsum
        exact Or.inl ⟨k, rfl, by simp [State.setChef], hsum⟩
      · exact Or.inr (hmove _ hp le_rfl (by simp [ChefPc.working]))
    · cases hst
      exact Or.inr (hmove _ hp le_rfl (by simp [ChefPc.working]))
  | test =>
    simp only [chefStep, hp] at hst
    split_ifs at hst <;>
      (cases hst
       exact Or.inr (hmove _ hp le_rfl (by simp [ChefPc.working])))
  | unlock o =>
    cases o <;>
      (simp only [chefStep, hp] at hst
       cases hst
       exact Or.inr (hmove _ hp (by simp [ChefPc.rank, Gate.acquireRank])
        (by simp [ChefPc.inside])))
  | cook k | ready k =>
    simp only [chefStep, hp] at hst
    obtain ⟨o, -, rfl⟩ := Option.map_eq_some_iff.mp hst
    exact Or.inr (hmove _ hp (by simp [ChefPc.rank, Gate.acquireRank])
      (by simp [ChefPc.rank, ChefPc.inside, Gate.acquireRank]))
  | lock | woken | readyLock k =>
    simp only [chefStep, hp] at hst
    obtain ⟨-, rfl⟩ := lock_eq_some hst
    exact Or.inr (hmove _ hp (by simp [ChefPc.rank]) (by simp [ChefPc.rank, ChefPc.working]))
  | acquireLock g k | acquireWoken g k | releaseLock g k =>
    simp only [chefStep, hp] at hst
    obtain ⟨-, rfl⟩ := lockGate_eq_some hst
    exact Or.inr (hmove _ hp (by simp [ChefPc.rank]) (by simp [ChefPc.rank]))
  | acquireTest g k =>
    simp only [chefStep, hp] at hst
    split_ifs at hst <;>
      (cases hst
       exact Or.inr (hmove _ hp (by simp [ChefPc.rank]) (by simp [ChefPc.rank])))
  | releaseSignal g k =>
    simp only [chefStep, hp] at hst
    obtain ⟨pc, hpc, rfl⟩ := Option.map_eq_some_iff.mp hst
    have hself : pc i = s.chef i := by
      rcases woken_signal hpc i with heq | ⟨hw, -⟩
      · exact heq
      · simp [hp, ChefPc.waitsAt] at hw
    have hsignal := sum_rank_signal hpc
    have hsum := sum_update (Finset.mem_univ i) pc (.releaseUnlock g k) ChefPc.rank
    rw [hself, hp] at hsum
    have hrank : (ChefPc.releaseSignal g k).rank = (ChefPc.releaseUnlock g k).rank + 3 := rfl
    exact Or.inr ⟨by dsimp only; omega, fun _ _ => by dsimp only; omega⟩
  | readySignal =>
    simp only [chefStep, hp] at hst
    obtain ⟨chef, deliverer, rfl, hchef, -⟩ := signalOrder_woken hst
    have hsame : ∑ j, (chef j).rank = ∑ j, ((s.setChef i .readyUnlock).chef j).rank := by
      refine Finset.sum_congr rfl fun j _ => ?_
      rcases hchef j with heq | ⟨hold, hnew⟩
      · rw [heq]
      · rw [hold, hnew]
        rfl
    obtain ⟨hle, -⟩ := hmove .readyUnlock hp (by simp [ChefPc.rank]) (by simp [ChefPc.inside])
    exact Or.inr ⟨hsame.le.trans hle, by simp [ChefPc.inside]⟩
  | acquire g k | acquireUnlock g k | release g k | releaseUnlock g k =>
    simp only [chefStep, hp] at hst
    cases hst
    cases g <;>
      exact Or.inr (hmove _ hp (by
        simp [ChefPc.rank, Gate.acquireRank, Gate.releaseRank, afterAcquire, afterRelease]) (by
        simp [ChefPc.rank, Gate.acquireRank, Gate.releaseRank, afterAcquire, afterRelease]))
  | readyUnlock =>
    simp only [chefStep, hp] at hst
    cases hst
    exact Or.inr (hmove _ hp (by simp [ChefPc.rank]) (by simp [ChefPc.inside]))

/-- The parts of the effort that a chef leaves alone. -/
lemma effort_of_chefStep {c d : ℕ} {s t : State c d} {i : Fin c} {w : Option (Fin c ⊕ Fin d)}
    (hst : chefStep s i w = some t) : t.maxOrder = s.maxOrder ∧ t.main = s.main ∧
      ∑ j, (t.deliverer j).rank = ∑ j, (s.deliverer j).rank := by
  have hframe := chefFrame_of_chefStep hst
  refine ⟨hframe.maxOrder, hframe.main, Finset.sum_congr rfl fun j _ => ?_⟩
  rcases (chefStep_rest hst).2.2.1 j with heq | ⟨hold, hnew⟩
  · rw [heq]
  · rw [hold, hnew]
    rfl

/-- No statement of a chef adds to the effort; one with an order in hand, outside
`ordersMutex`, is progress, and so is picking an order. -/
lemma effort_chefStep {c d : ℕ} {s t : State c d} {i : Fin c} {w : Option (Fin c ⊕ Fin d)}
    (hinv : Inv s) (hst : chefStep s i w = some t) :
    t.effort ≤ s.effort ∧
      ((s.chef i).working = true → (s.chef i).inside = false → t.effort < s.effort) ∧
      (∀ k, s.chef i = .scan k → t.chef i = .unlock (some k) → t.effort < s.effort) := by
  obtain ⟨hmax, hmain, hdeliverer⟩ := effort_of_chefStep hst
  have hchanges : t.changes ≤ s.changes := by
    cases chefWrite_of_chefStep hst with
    | quiet horder _ => simp only [State.changes, hmax, hmain, horder, le_refl]
    | pick k o hp hk ho hstatus hsend horder _ =>
      exact (changes_update hmax hmain horder (by simp [changesLeft, ho, hstatus, hsend])).1
    | raise k st o hp ho horder _ =>
      have hstatus := (hinv.shop.working_eq (i := i) hp ho).2.2.2
      refine (changes_update hmax hmain horder ?_).1
      simp only [changesLeft, ho, hstatus]
      split_ifs <;> omega
  have hpick : ∀ k, s.chef i = .scan k → t.chef i = .unlock (some k) → t.changes < s.changes := by
    intro k hscan hnew
    cases chefWrite_of_chefStep hst with
    | quiet _ hslot => simp [hscan, hnew, ChefPc.slot, ChefPc.work] at hslot
    | pick k o hp hk ho hstatus hsend horder _ =>
      have hchange := (changes_update hmax hmain horder
        (by simp [changesLeft, ho, hstatus, hsend])).2 hk
      simp [changesLeft, ho, hstatus, hsend] at hchange
      omega
    | raise k st o hw _ _ _ => simp [hscan, ChefPc.work] at hw
  simp only [State.effort, hmain, hdeliverer]
  rcases rank_chefStep hst with ⟨k, hp, hnew, hrank⟩ | ⟨hle, hlt⟩
  · have hless := hpick k hp hnew
    exact ⟨by omega, fun _ _ => by omega, fun _ _ _ => by omega⟩
  · refine ⟨by omega, fun hw hin => ?_, fun k hp hnew => ?_⟩
    · have := hlt hw hin
      omega
    · have := hpick k hp hnew
      omega

lemma DelivererPc.rank_next (bag : List Order) : (DelivererPc.next bag).rank = 0 := by
  cases bag <;> rfl

/-- What a statement of deliverer `i` makes of the slots and of its rank: it collects an
order, or it raises the status of a slot to five, or it zeroes a slot, or it writes none. -/
inductive DelivererWrite {c d : ℕ} (s t : State c d) (i : Fin d) : Prop
  | quiet (horder : t.order = s.order) (hrank : (t.deliverer i).rank ≤ (s.deliverer i).rank)
      (hmissed : ∀ k bag o, s.deliverer i = .scan k bag → (k : ℤ) < s.maxOrder →
        bag.length < maxDeliveryBagCapacity → s.order k = some o → o.status ≠ 3)
  | collect (k : ℕ) (o : Order) (hk : (k : ℤ) < s.maxOrder) (ho : s.order k = some o)
      (hready : o.status = 3) (hrank : (t.deliverer i).rank = 1)
      (horder : t.order = Function.update s.order k (some { o with status := 4 }))
  | mark (k : ℕ) (o : Order) (rest : List Order) (p : Order) (ho : s.order k = some p)
      (hp : s.deliverer i = .mark o rest k) (hrank : (t.deliverer i).rank = 0)
      (horder : t.order = Function.update s.order k (some { p with status := 5 }))
  | clear (k : ℕ) (o : Order) (rest : List Order) (p : Order) (ho : s.order k = some p)
      (hp : s.deliverer i = .clear o rest k) (hrank : (t.deliverer i).rank = 0)
      (horder : t.order = Function.update s.order k (some .zero))

lemma delivererWrite_of_delivererStep {c d : ℕ} {s t : State c d} {i : Fin d}
    (hst : delivererStep s i = some t) : DelivererWrite s t i := by
  have hmove : ∀ {p : DelivererPc} (q : DelivererPc), s.deliverer i = p → q.rank ≤ p.rank →
      (Function.update s.deliverer i q i).rank ≤ (s.deliverer i).rank := by
    intro p q hp hle
    rwa [Function.update_self, hp]
  cases hp : s.deliverer i with
  | waiting => simp [delivererStep, hp] at hst
  | lock | woken =>
    simp only [delivererStep, hp] at hst
    obtain ⟨-, rfl⟩ := lock_eq_some hst
    exact .quiet rfl (hmove _ hp le_rfl) (by simp [hp])
  | test =>
    simp only [delivererStep, hp] at hst
    split_ifs at hst <;> cases hst <;>
      exact .quiet rfl (hmove _ hp (by simp [DelivererPc.rank])) (by simp [hp])
  | scan k bag =>
    simp only [delivererStep, hp] at hst
    split_ifs at hst with hk
    · obtain ⟨o, ho, rfl⟩ := Option.map_eq_some_iff.mp hst
      split_ifs with hready
      · exact .collect k o hk.1 ho hready (by simp [State.setDeliverer, DelivererPc.rank])
          (order_setOrder ho _)
      · refine .quiet rfl (hmove _ hp le_rfl) ?_
        intro k' bag' o' hscan _ _ ho' hstatus
        rw [hp] at hscan
        cases hscan
        exact hready (by rwa [Option.some.inj (ho.symm.trans ho')])
    · cases hst
      refine .quiet rfl (hmove _ hp le_rfl) ?_
      intro k' bag' o' hscan hk' hbag _ _
      rw [hp] at hscan
      cases hscan
      exact hk ⟨hk', hbag⟩
  | unlock bag =>
    simp only [delivererStep, hp] at hst
    cases hst
    refine .quiet rfl (hmove _ hp ?_) (by simp [hp])
    cases bag <;> simp [DelivererPc.rank]
  | deliver bag =>
    simp only [delivererStep, hp] at hst
    obtain ⟨-, rfl⟩ := lock_eq_some hst
    exact .quiet rfl (hmove _ hp (by simp [DelivererPc.rank_next])) (by simp [hp])
  | mark o rest k =>
    simp only [delivererStep, hp] at hst
    split_ifs at hst with hk
    · obtain ⟨p, ho, rfl⟩ := Option.map_eq_some_iff.mp hst
      split_ifs
      · exact .mark k o rest p ho hp (by simp [State.setDeliverer, DelivererPc.rank])
          (order_setOrder ho _)
      · exact .quiet rfl (hmove _ hp le_rfl) (by simp [hp])
    · cases hst
      exact .quiet rfl (hmove _ hp le_rfl) (by simp [hp])
  | clear o rest k =>
    simp only [delivererStep, hp] at hst
    split_ifs at hst with hk
    · obtain ⟨p, ho, rfl⟩ := Option.map_eq_some_iff.mp hst
      split_ifs
      · exact .clear k o rest p ho hp (by simp [State.setDeliverer, DelivererPc.rank])
          (order_setOrder ho _)
      · exact .quiet rfl (hmove _ hp le_rfl) (by simp [hp])
    · cases hst
      exact .quiet rfl (hmove _ hp le_rfl) (by simp [hp])
  | check rest =>
    simp only [delivererStep, hp] at hst
    cases hst
    refine .quiet rfl (hmove _ hp ?_) (by simp [hp])
    split_ifs
    · exact le_rfl
    · exact (DelivererPc.rank_next rest).le
  | notifySend rest =>
    simp only [delivererStep, hp] at hst
    cases hst
    exact .quiet rfl (hmove _ hp (DelivererPc.rank_next rest).le) (by simp [hp])
  | count o rest | tally rest | notifyReset rest | finish =>
    simp only [delivererStep, hp] at hst
    cases hst
    exact .quiet rfl (hmove _ hp le_rfl) (by simp [hp])

/-- What a deliverer leaves alone. -/
lemma delivererStep_rest {c d : ℕ} {s t : State c d} {i : Fin d}
    (hst : delivererStep s i = some t) : t.maxOrder = s.maxOrder ∧ t.main = s.main ∧
      t.chef = s.chef ∧ t.deliverer = Function.update s.deliverer i (t.deliverer i) ∧
      t.sizes = s.sizes := by
  unfold delivererStep at hst
  split at hst
  all_goals try split_ifs at hst
  all_goals first
    | (obtain ⟨-, rfl⟩ := lock_eq_some hst
       exact ⟨rfl, rfl, rfl, by simp [State.setDeliverer], rfl⟩)
    | (obtain ⟨o, -, rfl⟩ := Option.map_eq_some_iff.mp hst
       split_ifs <;> exact ⟨rfl, rfl, rfl, by simp [State.setDeliverer, State.setOrder], rfl⟩)
    | (cases hst
       exact ⟨rfl, rfl, rfl, by simp [State.setDeliverer], rfl⟩)
    | cases hst

/-- No statement of a deliverer adds to the effort; to come with a bag is progress, and so
is collecting an order. -/
lemma effort_delivererStep {c d : ℕ} {s t : State c d} {i : Fin d} (hinv : Inv s)
    (hst : delivererStep s i = some t) :
    t.effort ≤ s.effort ∧
      (∀ bag, s.deliverer i = .deliver bag → t.effort < s.effort) ∧
      (∀ k bag o, s.deliverer i = .scan k bag → (k : ℤ) < s.maxOrder →
        bag.length < maxDeliveryBagCapacity → s.order k = some o → o.status = 3 →
        t.effort < s.effort) := by
  obtain ⟨hmax, hmain, hchef, hdeliverer, -⟩ := delivererStep_rest hst
  have hsum := sum_rank_setDeliverer s i (t.deliverer i)
  simp only [State.setDeliverer, ← hdeliverer] at hsum
  simp only [State.effort, hmain, hchef]
  cases delivererWrite_of_delivererStep hst with
  | quiet horder hrank hmissed =>
    have hchanges : t.changes = s.changes := by simp only [State.changes, hmax, hmain, horder]
    refine ⟨by omega, fun bag hp => ?_, fun k bag o hp hk hbag ho hready => ?_⟩
    · simp only [delivererStep, hp] at hst
      obtain ⟨-, rfl⟩ := lock_eq_some hst
      have hnew : (Function.update s.deliverer i (.next bag) i).rank = 0 := by
        rw [Function.update_self, DelivererPc.rank_next]
      have hold : (s.deliverer i).rank = 1 := by rw [hp]; rfl
      dsimp only [State.setDeliverer] at hsum hchanges ⊢
      omega
    · exact absurd hready (hmissed k bag o hp hk hbag ho)
  | collect k o hk ho hready hrank horder =>
    have hsend := hinv.shop.free k o ho hready
    have hchange := (changes_update hmax hmain horder
      (by simp [changesLeft, ho, hready, hsend])).2 hk
    simp [changesLeft, ho, hready, hsend] at hchange
    exact ⟨by omega, fun _ _ => by omega, fun _ _ _ _ _ _ _ _ => by omega⟩
  | mark k o rest p ho hp hrank horder =>
    have hle : changesLeft (some { p with status := 5 }) ≤ changesLeft (s.order k) := by
      simp only [changesLeft, ho]
      split_ifs with hsend
      · have hstatus := (hinv.shop.accepted k p ⟨ho, hsend⟩).2
        omega
      · exact le_rfl
    have hchange := (changes_update hmax hmain horder hle).1
    rw [hp] at hsum ⊢
    exact ⟨by omega, by simp, by simp⟩
  | clear k o rest p ho hp hrank horder =>
    have hle : changesLeft (some .zero) ≤ changesLeft (s.order k) := by
      simp [changesLeft, Order.zero]
    have hchange := (changes_update hmax hmain horder hle).1
    rw [hp] at hsum ⊢
    exact ⟨by omega, by simp, by simp⟩

/-- No statement of `main` adds to the effort, and in front of the mutex each is progress. -/
lemma effort_mainStep {c d : ℕ} {s t : State c d} (hst : mainStep s = some t) :
    t.effort ≤ s.effort ∧ (0 < s.main.rank → t.effort < s.effort) := by
  cases hp : s.main with
  | accept | orders => simp [mainStep, hp] at hst
  | realloc =>
    simp only [mainStep, hp] at hst
    cases hst
    have hnone : ∀ k : ℕ, changesLeft
        ((List.replicate s.maxOrder.toNat (none : Option Order))[k]?).join = 0 := by
      intro k
      rw [List.getElem?_replicate]
      split_ifs <;> rfl
    simp only [State.effort, State.changes, State.order, hnone, hp, MainPc.toStore, MainPc.rank,
      Finset.sum_const_zero]
    omega
  | lock orders =>
    simp only [mainStep, hp] at hst
    obtain ⟨-, rfl⟩ := lock_eq_some hst
    simp only [State.effort, State.changes, State.order, hp, MainPc.toStore, MainPc.rank]
    omega
  | fill k orders =>
    simp only [mainStep, hp] at hst
    by_cases hk : (k : ℤ) < s.maxOrder
    · rw [if_pos hk] at hst
      obtain ⟨o, ho, hst⟩ := Option.bind_eq_some_iff.mp hst
      split_ifs at hst with hstatus hlt <;> cases hst
      · have hmem : k ∈ Finset.range s.maxOrder.toNat := by
          rw [Finset.mem_range]
          omega
        have horder := order_setOrder_of_lt hlt { o with send := 1, id := s.allOrders }
        have hsum := sum_update hmem s.order (some { o with send := 1, id := s.allOrders })
          changesLeft
        rw [← horder] at hsum
        have hnew : changesLeft (some { o with send := 1, id := s.allOrders }) ≤ 6 := by
          simp [changesLeft]
        simp only [State.effort, State.changes, hp, MainPc.toStore, MainPc.rank]
        dsimp only [State.order, State.setOrder] at hsum ⊢
        omega
      · simp only [State.effort, State.changes, State.order, hp, MainPc.toStore, MainPc.rank]
        omega
    · rw [if_neg hk] at hst
      cases hst
      simp only [State.effort, State.changes, State.order, hp, MainPc.toStore, MainPc.rank]
      omega
  | broadcast =>
    have hchef := woken_broadcast ChefPc.waits ChefPc.wake s.chef
    have hdeliverer := woken_broadcast DelivererPc.waits DelivererPc.wake s.deliverer
    simp only [mainStep, hp] at hst
    cases hst
    have hranks : ∀ j, (Monitor.broadcast ChefPc.waits ChefPc.wake s.chef j).rank =
        (s.chef j).rank := hchef.map_eq ChefPc.rank fun _ hw => rank_wake hw
    have hranks' : ∀ j, (Monitor.broadcast DelivererPc.waits DelivererPc.wake s.deliverer j).rank =
        (s.deliverer j).rank := hdeliverer.map_eq DelivererPc.rank fun p hw => by
      cases p <;> first | rfl | cases hw
    simp only [State.effort, State.changes, State.order, hp, MainPc.toStore, MainPc.rank, hranks,
      hranks']
    omega
  | unlock =>
    simp only [mainStep, hp] at hst
    cases hst
    simp only [State.effort, State.changes, State.order, hp, MainPc.toStore, MainPc.rank]
    omega

/-- How far a chef is from giving `ordersMutex` back. -/
def ChefPc.left (m : ℕ) : ChefPc → ℕ
  | .test => m + 5
  | .scan k => m - k + 4
  | .ready _ => 3
  | .readySignal => 2
  | .readyUnlock | .unlock _ => 1
  | _ => 0

/-- How far a deliverer is from giving `ordersMutex` back, for each order of its bag and for
the order it is at. -/
def DelivererPc.left (m : ℕ) : DelivererPc → ℕ
  | .test => m + 5
  | .scan k _ => m - k + 4
  | .mark _ rest k => rest.length * (2 * m + 8) + (m - k) + m + 8
  | .count _ rest => rest.length * (2 * m + 8) + m + 7
  | .clear _ rest k => rest.length * (2 * m + 8) + (m - k) + 6
  | .tally rest => rest.length * (2 * m + 8) + 5
  | .check rest => rest.length * (2 * m + 8) + 4
  | .notifyReset rest => rest.length * (2 * m + 8) + 3
  | .notifySend rest => rest.length * (2 * m + 8) + 2
  | .unlock _ | .finish => 1
  | _ => 0

def MainPc.left (m : ℕ) : MainPc → ℕ
  | .fill k _ => m - k + 3
  | .broadcast => 2
  | .unlock => 1
  | _ => 0

/-- How far the owner of `ordersMutex` is from giving it back. -/
def State.left {c d : ℕ} (s : State c d) : ℕ :=
  match s.mutex with
  | none => 0
  | some (.chef i) => (s.chef i).left s.maxOrder.toNat
  | some (.deliverer i) => (s.deliverer i).left s.maxOrder.toNat
  | some .main => s.main.left s.maxOrder.toNat

lemma DelivererPc.left_next (m : ℕ) (bag : List Order) :
    (DelivererPc.next bag).left m < bag.length * (2 * m + 8) + 2 := by
  cases bag with
  | nil => simp [DelivererPc.next, DelivererPc.left]
  | cons o rest =>
    simp only [DelivererPc.next, DelivererPc.left, List.length_cons, Nat.succ_mul]
    omega

/-- What holds wherever a run has come to. -/
structure Going {c d : ℕ} (s : State c d) : Prop where
  served : Served s
  attentive : Attentive s
  oven : OvenInv s.oven s.chef

lemma Going.step {c d : ℕ} {s t : State c d} {a : Act c d} (h : Going s)
    (ha : AfterNotification s a) (hst : step s a = some t) : Going t :=
  ⟨h.served.step ha hst, h.attentive.step h.served.inv hst, h.oven.step hst⟩

theorem going_of_reach {c d : ℕ} {s : State c d}
    (hr : Reach step AfterNotification (init c d) s) : Going s :=
  hr.invariant (P := Going)
    ⟨served_init c d, attentive_init c d, ⟨stocked_init c d, called_init c d⟩⟩
    fun _ _ _ h ha hst => h.step ha hst

/-- A chef that owns the mutex comes closer to giving it back. -/
lemma Going.chef_inside {c d : ℕ} {s : State c d} (h : Going s) {i : Fin c}
    (hm : s.mutex = some (.chef i)) : ∃ w t, chefStep s i w = some t ∧ t.left < s.left := by
  have hin : (s.chef i).inside = true := (h.served.inv.owns (.chef i)).mp hm
  have hreads : ∀ k, s.reads (.chef i) = some k → (s.order k).isSome = true :=
    fun _ => h.served.inv.reads_written
  cases hp : s.chef i <;> simp only [hp, ChefPc.inside, Bool.false_eq_true] at hin
  case test =>
    by_cases hzero : s.numOrders = 0
    · refine ⟨none, _, by simp only [chefStep, hp, if_pos hzero]; rfl, ?_⟩
      simp [State.left, hm, hp, ChefPc.left]
    · refine ⟨none, _, by simp only [chefStep, hp, if_neg hzero]; rfl, ?_⟩
      simp [State.left, hm, hp, State.setChef, ChefPc.left]
  case scan k =>
    by_cases hk : (k : ℤ) < s.maxOrder
    · obtain ⟨o, ho⟩ := Option.isSome_iff_exists.mp
        (hreads k (by simp only [State.reads, hp, if_pos hk]))
      refine ⟨none, _, by simp only [chefStep, hp, if_pos hk, ho, Option.map_some]; rfl, ?_⟩
      split_ifs
      · simp [State.left, hm, hp, State.setChef, State.setOrder, ChefPc.left]
      · simp only [State.left, hm, hp, State.setChef, Function.update_self, ChefPc.left]
        omega
    · refine ⟨none, _, by simp only [chefStep, hp, if_neg hk]; rfl, ?_⟩
      simp [State.left, hm, hp, State.setChef, ChefPc.left]
  case unlock o =>
    cases o <;>
      exact ⟨none, _, by simp only [chefStep, hp]; rfl, by simp [State.left, hm, hp, ChefPc.left]⟩
  case ready k =>
    obtain ⟨o, ho⟩ := Option.isSome_iff_exists.mp
      (hreads k (by simp only [State.reads, hp]))
    refine ⟨none, _, by simp only [chefStep, hp, ho, Option.map_some]; rfl, ?_⟩
    simp [State.left, hm, hp, State.setChef, State.setOrder, ChefPc.left]
  case readySignal =>
    obtain ⟨w, t, ht⟩ := exists_signalOrder (s.setChef i .readyUnlock)
    refine ⟨w, t, by simp only [chefStep, hp]; exact ht, ?_⟩
    obtain ⟨chef, deliverer, rfl, hchef, -⟩ := signalOrder_woken ht
    have hself : chef i = .readyUnlock := by simpa [State.setChef] using hchef i
    simp [State.left, hm, hp, State.setChef, hself, ChefPc.left]
  case readyUnlock =>
    exact ⟨none, _, by simp only [chefStep, hp]; rfl, by simp [State.left, hm, hp, ChefPc.left]⟩

/-- So does a deliverer. -/
lemma Going.deliverer_inside {c d : ℕ} {s : State c d} (h : Going s) {i : Fin d}
    (hm : s.mutex = some (.deliverer i)) : ∃ t, delivererStep s i = some t ∧ t.left < s.left := by
  have hin : (s.deliverer i).inside = true := (h.served.inv.owns (.deliverer i)).mp hm
  have hreads : ∀ k, s.reads (.deliverer i) = some k → (s.order k).isSome = true :=
    fun _ => h.served.inv.reads_written
  cases hp : s.deliverer i <;> simp only [hp, DelivererPc.inside, Bool.false_eq_true] at hin
  case test =>
    by_cases hzero : s.numOrders = 0
    · refine ⟨_, by simp only [delivererStep, hp, if_pos hzero]; rfl, ?_⟩
      simp [State.left, hm, hp, DelivererPc.left]
    · refine ⟨_, by simp only [delivererStep, hp, if_neg hzero]; rfl, ?_⟩
      simp [State.left, hm, hp, State.setDeliverer, DelivererPc.left]
  case scan k bag =>
    by_cases hk : (k : ℤ) < s.maxOrder ∧ bag.length < maxDeliveryBagCapacity
    · obtain ⟨o, ho⟩ := Option.isSome_iff_exists.mp
        (hreads k (by simp only [State.reads, hp, if_pos hk]))
      refine ⟨_, by simp only [delivererStep, hp, if_pos hk, ho, Option.map_some]; rfl, ?_⟩
      have hlt := hk.1
      split_ifs <;>
        (simp only [State.left, hm, hp, State.setDeliverer, State.setOrder, Function.update_self,
          DelivererPc.left]
         omega)
    · refine ⟨_, by simp only [delivererStep, hp, if_neg hk]; rfl, ?_⟩
      simp [State.left, hm, hp, State.setDeliverer, DelivererPc.left]
  case unlock bag =>
    exact ⟨_, by simp only [delivererStep, hp]; rfl, by simp [State.left, hm, hp, DelivererPc.left]⟩
  case mark o rest k =>
    by_cases hk : (k : ℤ) < s.maxOrder
    · obtain ⟨p, ho⟩ := Option.isSome_iff_exists.mp
        (hreads k (by simp only [State.reads, hp, if_pos hk]))
      refine ⟨_, by simp only [delivererStep, hp, if_pos hk, ho, Option.map_some]; rfl, ?_⟩
      split_ifs <;>
        (simp only [State.left, hm, hp, State.setDeliverer, State.setOrder, Function.update_self,
          DelivererPc.left]
         omega)
    · refine ⟨_, by simp only [delivererStep, hp, if_neg hk]; rfl, ?_⟩
      simp only [State.left, hm, hp, State.setDeliverer, Function.update_self, DelivererPc.left]
      omega
  case clear o rest k =>
    by_cases hk : (k : ℤ) < s.maxOrder
    · obtain ⟨p, ho⟩ := Option.isSome_iff_exists.mp
        (hreads k (by simp only [State.reads, hp, if_pos hk]))
      refine ⟨_, by simp only [delivererStep, hp, if_pos hk, ho, Option.map_some]; rfl, ?_⟩
      split_ifs <;>
        (simp only [State.left, hm, hp, State.setDeliverer, State.setOrder, Function.update_self,
          DelivererPc.left]
         omega)
    · refine ⟨_, by simp only [delivererStep, hp, if_neg hk]; rfl, ?_⟩
      simp only [State.left, hm, hp, State.setDeliverer, Function.update_self, DelivererPc.left]
      omega
  case count o rest =>
    refine ⟨_, by simp only [delivererStep, hp]; rfl, ?_⟩
    simp only [State.left, hm, hp, State.setDeliverer, Function.update_self, DelivererPc.left]
    omega
  case tally rest | notifyReset rest =>
    refine ⟨_, by simp only [delivererStep, hp]; rfl, ?_⟩
    simp [State.left, hm, hp, State.setDeliverer, DelivererPc.left]
  case check rest =>
    have hnext := DelivererPc.left_next s.maxOrder.toNat rest
    refine ⟨_, by simp only [delivererStep, hp]; rfl, ?_⟩
    simp only [State.left, hm, hp, State.setDeliverer, Function.update_self]
    split_ifs
    · simp [DelivererPc.left]
    · exact hnext.trans (by simp [DelivererPc.left])
  case notifySend rest =>
    refine ⟨_, by simp only [delivererStep, hp]; rfl, ?_⟩
    simp only [State.left, hm, hp, State.setDeliverer, Function.update_self]
    exact DelivererPc.left_next s.maxOrder.toNat rest
  case finish =>
    exact ⟨_, by simp only [delivererStep, hp]; rfl, by simp [State.left, hm, hp, DelivererPc.left]⟩

/-- So does `main`. -/
lemma Going.main_inside {c d : ℕ} {s : State c d} (h : Going s) (hm : s.mutex = some .main) :
    ∃ t, mainStep s = some t ∧ t.left < s.left := by
  have hin : s.main.inside = true := (h.served.inv.owns .main).mp hm
  cases hp : s.main <;> simp only [hp, MainPc.inside, Bool.false_eq_true] at hin
  case fill k orders =>
    obtain ⟨hlen, hstatus⟩ := h.served.inv.stock.placed orders (Or.inr ⟨k, hp⟩)
    have htable := h.served.inv.stock.length_eq (by simp [hp])
    by_cases hk : (k : ℤ) < s.maxOrder
    · obtain ⟨o, ho⟩ : ∃ o, orders[k]? = some o :=
        ⟨_, List.getElem?_eq_getElem (show k < orders.length by omega)⟩
      have hplace : k < s.table.length := by omega
      refine ⟨_, by simp only [mainStep, hp, if_pos hk, ho, Option.bind_some,
        if_pos (hstatus o (List.mem_of_getElem? ho)), if_pos hplace]; rfl, ?_⟩
      simp only [State.left, State.setOrder, hm, hp, MainPc.left]
      omega
    · refine ⟨_, by simp only [mainStep, hp, if_neg hk]; rfl, ?_⟩
      simp [State.left, hm, hp, MainPc.left]
  case broadcast =>
    exact ⟨_, by simp only [mainStep, hp]; rfl, by simp [State.left, hm, hp, MainPc.left]⟩
  case unlock =>
    exact ⟨_, by simp only [mainStep, hp]; rfl, by simp [State.left, hm, hp, MainPc.left]⟩

/-- The owner of the mutex gives it back, and nothing more is left to do than before. -/
lemma Going.drain {c d : ℕ} {s : State c d} (h : Going s) :
    ∃ t, Reach PideShop.step ByThreads s t ∧ (Going t ∧ t.effort ≤ s.effort) ∧
      t.mutex = none := by
  refine exists_reach_of_measure (P := fun t => Going t ∧ t.effort ≤ s.effort) State.left ?_
    ⟨h, le_rfl⟩
  rintro u ⟨hu, hle⟩ howned
  obtain ⟨owner, hm⟩ := Option.ne_none_iff_exists'.mp howned
  have hinv := hu.served.inv
  cases owner with
  | chef i =>
    obtain ⟨w, t, hst, hlt⟩ := hu.chef_inside hm
    exact ⟨t, Reach.start.next (a := .chef i w) trivial hst,
      ⟨hu.step (a := .chef i w) trivial hst, (effort_chefStep hinv hst).1.trans hle⟩, hlt⟩
  | deliverer i =>
    obtain ⟨t, hst, hlt⟩ := hu.deliverer_inside hm
    exact ⟨t, Reach.start.next (a := .deliverer i) trivial hst,
      ⟨hu.step (a := .deliverer i) trivial hst, (effort_delivererStep hinv hst).1.trans hle⟩, hlt⟩
  | main =>
    obtain ⟨t, hst, hlt⟩ := hu.main_inside hm
    exact ⟨t, Reach.start.next (a := .main) trivial hst,
      ⟨hu.step (a := .main) trivial hst, (effort_mainStep hst).1.trans hle⟩, hlt⟩

/-- Outside the mutex a chef with an order is stopped only at a gate. -/
lemma Going.chefStep_of_working {c d : ℕ} {s : State c d} (h : Going s) (hfree : s.mutex = none)
    {i : Fin c} (hi : (s.chef i).working = true)
    (hgate : ∀ g, (s.chef i).locksGate g = true → s.oven.mutex g = none)
    (hwait : ∀ g k, s.chef i ≠ .acquireWait g k) : ∃ w t, chefStep s i w = some t := by
  have hin : (s.chef i).inside = false := by
    have hnone := hfree ▸ h.served.inv.owns
    exact owns_none.mp hnone (.chef i)
  have hslot : ∀ k st, (s.chef i).work = some (k, st) → ∃ o, s.order k = some o := by
    intro k st hw
    obtain ⟨-, p, hp, -⟩ := h.served.inv.shop.working i k st hw
    exact ⟨p, hp.1⟩
  cases hp : s.chef i <;>
    simp only [hp, ChefPc.working, ChefPc.inside, Bool.true_eq_false, Bool.false_eq_true] at hi hin
  case acquireWait g k => exact absurd hp (hwait g k)
  case readyLock k => exact ⟨none, _, by simp only [chefStep, hp]; exact if_pos hfree⟩
  case acquireLock g _ | acquireWoken g _ | releaseLock g _ =>
    have hopen := hgate g (by simp [hp, ChefPc.locksGate])
    exact ⟨none, _, by simp only [chefStep, hp]; exact if_pos hopen⟩
  case cook k =>
    obtain ⟨o, ho⟩ := hslot k 1 (by rw [hp]; rfl)
    exact ⟨none, _, by simp only [chefStep, hp, ho]; rfl⟩
  case acquireTest g k =>
    refine ⟨none, ?_⟩
    simp only [chefStep, hp]
    split_ifs <;> exact ⟨_, rfl⟩
  case releaseSignal g k =>
    obtain ⟨w, pc, hpc⟩ := exists_signal (ChefPc.waitsAt g) ChefPc.wake s.chef
    refine ⟨w.map Sum.inl, ?_⟩
    have hw : (w.map (Sum.inl : Fin c → Fin c ⊕ Fin d)).bind Sum.getLeft? = w := by
      cases w <;> rfl
    simp only [chefStep, hp, hw, hpc]
    exact ⟨_, rfl⟩
  all_goals exact ⟨none, _, by simp only [chefStep, hp]; rfl⟩

/-- While a chef has an order, some chef with an order can go on. -/
lemma Going.chef_works {c d : ℕ} {s : State c d} (h : Going s) (hfree : s.mutex = none)
    {i : Fin c} (hi : (s.chef i).working = true) :
    ∃ j w t, (s.chef j).working = true ∧ chefStep s j w = some t := by
  by_cases hgate : ∃ g j, s.oven.mutex g = some j
  · obtain ⟨g, j, hj⟩ := hgate
    have hin := (h.oven.stocked.owns g j).mp hj
    have hwork := working_of_insideGate hin
    obtain ⟨-, hlock, hblocked⟩ := not_blocked_of_insideGate hin
    obtain ⟨w, t, hst⟩ := h.chefStep_of_working hfree hwork (by simp [hlock])
      fun g' k hp => by simp [hp, ChefPc.blocked] at hblocked
    exact ⟨j, w, t, hwork, hst⟩
  have hgates : ∀ g, s.oven.mutex g = none := fun g =>
    Option.eq_none_iff_forall_ne_some.mpr fun j hj => hgate ⟨g, j, hj⟩
  by_contra hstuck
  have hall : ∀ j, (s.chef j).working = true → ∃ g k, s.chef j = .acquireWait g k := by
    intro j hj
    by_contra hw
    obtain ⟨w, t, hst⟩ := h.chefStep_of_working hfree hj (fun g _ => hgates g)
      fun g k hp => hw ⟨g, k, hp⟩
    exact hstuck ⟨j, w, t, hj, hst⟩
  have hoven := not_wait_of_later h.oven hall .oven (fun g' hg' => by cases g' <;> cases hg')
  have hpeels := not_wait_of_later h.oven hall .peels fun g' hg' => by
    cases g' <;> first | exact hoven | cases hg'
  have hslots := not_wait_of_later h.oven hall .slots fun g' hg' => by
    cases g' <;> first | exact hoven | exact hpeels | cases hg'
  obtain ⟨g, k, hw⟩ := hall i hi
  cases g
  · exact hslots i k hw
  · exact hpeels i k hw
  · exact hoven i k hw

/-- A chef that scans comes to an order that nobody has picked. -/
lemma Going.chef_finds {c d : ℕ} {s : State c d} (h : Going s) {i : Fin c} {k : ℕ} {o : Order}
    (hp : s.chef i = .scan k) (hk : (k : ℤ) < s.maxOrder) (ho : s.order k = some o)
    (hfound : o.status = 0 ∧ o.isPlaced = 0 ∧ o.send = 1) :
    ∃ t, Reach PideShop.step ByThreads s t ∧ Going t ∧ t.effort < s.effort := by
  obtain ⟨t, hst, hnew⟩ : ∃ t, chefStep s i none = some t ∧ t.chef i = .unlock (some k) :=
    ⟨_, by simp only [chefStep, hp, if_pos hk, ho, Option.map_some, if_pos hfound]; rfl,
      by simp [State.setChef]⟩
  exact ⟨t, Reach.start.next (a := .chef i none) trivial hst,
    h.step (a := .chef i none) trivial hst, (effort_chefStep h.served.inv hst).2.2 k hp hnew⟩

/-- A chef that scans towards such an order picks one. -/
lemma Going.chef_picks {c d : ℕ} {s : State c d} (h : Going s) {i : Fin c} {k n : ℕ} {o : Order}
    (hp : s.chef i = .scan k) (ho : s.order (k + n) = some o)
    (hfound : o.status = 0 ∧ o.isPlaced = 0 ∧ o.send = 1)
    (hn : ((k + n : ℕ) : ℤ) < s.maxOrder) :
    ∃ t, Reach PideShop.step ByThreads s t ∧ Going t ∧ t.effort < s.effort := by
  induction n generalizing s k with
  | zero => exact h.chef_finds hp hn ho hfound
  | succ n ih =>
    have hk : (k : ℤ) < s.maxOrder := by omega
    obtain ⟨p, hpk⟩ := Option.isSome_iff_exists.mp (h.served.inv.reads_written (t := .chef i)
      (k := k) (by simp only [State.reads, hp, if_pos hk]))
    by_cases hnow : p.status = 0 ∧ p.isPlaced = 0 ∧ p.send = 1
    · exact h.chef_finds hp hk hpk hnow
    · have hst : chefStep s i none = some (s.setChef i (.scan (k + 1))) := by
        simp only [chefStep, hp, if_pos hk, hpk, Option.map_some, if_neg hnow]
      have hmove : Reach PideShop.step ByThreads s (s.setChef i (.scan (k + 1))) :=
        Reach.start.next (a := .chef i none) trivial hst
      have heq : k + 1 + n = k + (n + 1) := by omega
      obtain ⟨t, hr, ht, hlt⟩ := ih (h.step (a := .chef i none) trivial hst) (k := k + 1)
        (by simp [State.setChef]) (by rw [heq]; exact ho) (by rw [heq]; exact hn)
      exact ⟨t, hmove.trans hr, ht, hlt.trans_le (effort_chefStep h.served.inv hst).1⟩

/-- A deliverer with an empty bag comes to an order that is ready. -/
lemma Going.deliverer_finds {c d : ℕ} {s : State c d} (h : Going s) {i : Fin d} {k : ℕ}
    {o : Order} (hp : s.deliverer i = .scan k []) (hk : (k : ℤ) < s.maxOrder)
    (ho : s.order k = some o) (hready : o.status = 3) :
    ∃ t, Reach PideShop.step ByThreads s t ∧ Going t ∧ t.effort < s.effort := by
  have hbag : ([] : List Order).length < maxDeliveryBagCapacity := by decide
  obtain ⟨t, hst⟩ : ∃ t, delivererStep s i = some t :=
    ⟨_, by simp only [delivererStep, hp, if_pos (And.intro hk hbag), ho, Option.map_some]; rfl⟩
  exact ⟨t, Reach.start.next (a := .deliverer i) trivial hst,
    h.step (a := .deliverer i) trivial hst,
    (effort_delivererStep h.served.inv hst).2.2 k [] o hp hk hbag ho hready⟩

/-- A deliverer with an empty bag that scans towards such an order collects one. -/
lemma Going.deliverer_collects {c d : ℕ} {s : State c d} (h : Going s) {i : Fin d} {k n : ℕ}
    {o : Order} (hp : s.deliverer i = .scan k []) (ho : s.order (k + n) = some o)
    (hready : o.status = 3) (hn : ((k + n : ℕ) : ℤ) < s.maxOrder) :
    ∃ t, Reach PideShop.step ByThreads s t ∧ Going t ∧ t.effort < s.effort := by
  induction n generalizing s k with
  | zero => exact h.deliverer_finds hp hn ho hready
  | succ n ih =>
    have hk : (k : ℤ) < s.maxOrder ∧ ([] : List Order).length < maxDeliveryBagCapacity :=
      ⟨by omega, by decide⟩
    obtain ⟨p, hpk⟩ := Option.isSome_iff_exists.mp (h.served.inv.reads_written
      (t := .deliverer i) (k := k) (by simp only [State.reads, hp, if_pos hk]))
    by_cases hnow : p.status = 3
    · exact h.deliverer_finds hp hk.1 hpk hnow
    · have hst : delivererStep s i = some (s.setDeliverer i (.scan (k + 1) [])) := by
        simp only [delivererStep, hp, if_pos hk, hpk, Option.map_some, if_neg hnow]
      have hmove : Reach PideShop.step ByThreads s (s.setDeliverer i (.scan (k + 1) [])) :=
        Reach.start.next (a := .deliverer i) trivial hst
      have heq : k + 1 + n = k + (n + 1) := by omega
      obtain ⟨t, hr, ht, hlt⟩ := ih (h.step (a := .deliverer i) trivial hst) (k := k + 1)
        (by simp [State.setDeliverer]) (by rw [heq]; exact ho) (by rw [heq]; exact hn)
      exact ⟨t, hmove.trans hr, ht, hlt.trans_le (effort_delivererStep h.served.inv hst).1⟩

/-- Nobody is inside a mutex that nobody owns. -/
lemma Going.outside {c d : ℕ} {s : State c d} (h : Going s) (hfree : s.mutex = none)
    (u : Thread c d) : s.inside u = false :=
  owns_none.mp (hfree ▸ h.served.inv.owns) u

lemma Going.not_wakes {c d : ℕ} {s : State c d} (h : Going s) (hfree : s.mutex = none) :
    s.main.wakes = false := by
  have hmain : s.main.inside = false := h.outside hfree .main
  cases hp : s.main <;> simp_all [MainPc.inside, MainPc.wakes]

/-- A chef without an order takes up one that nobody has picked. -/
lemma Going.chef_starts {c d : ℕ} {s : State c d} (h : Going s) (hfree : s.mutex = none)
    {i : Fin c} (hidle : (s.chef i).working = false) {l : ℕ} {o : Order} (ho : Live s.order l o)
    (hstatus : o.status = 0) (hopen : s.numOrders ≠ 0) :
    ∃ t, Reach PideShop.step ByThreads s t ∧ Going t ∧ t.effort < s.effort := by
  have hplaced := h.attentive.attended.unplaced l o ho hstatus
  have hlt := h.served.inv.lt_maxOrder (fun hq => h.served.inv.shop.not_live hq l o ho) ho.1
  have hlock : chefStep s i none = some { s.setChef i .test with mutex := some (.chef i) } := by
    have hin : (s.chef i).inside = false := h.outside hfree (.chef i)
    have hwaits : s.chef i ≠ .waiting := fun hp =>
      hopen ((h.attentive.chef_waits i hp).resolve_right (by simp [h.not_wakes hfree]))
    cases hp : s.chef i with
    | lock | woken => simp only [chefStep, hp, State.lock, if_pos hfree]
    | waiting => exact absurd hp hwaits
    | unlock k => simp [hp, ChefPc.inside] at hin
    | _ => simp [hp, ChefPc.inside, ChefPc.working] at hin hidle
  have h₁ := h.step (a := .chef i none) trivial hlock
  have htest : chefStep { s.setChef i .test with mutex := some (.chef i) } i none =
      some { s.setChef i (.scan 0) with mutex := some (.chef i) } := by
    simp [chefStep, State.setChef, hopen]
  obtain ⟨t, hr, ht, hless⟩ := (h₁.step (a := .chef i none) trivial htest).chef_picks (i := i)
    (k := 0) (n := l) (by simp [State.setChef]) (by rw [Nat.zero_add]; exact ho.1)
    ⟨hstatus, hplaced, ho.2⟩ (by rw [Nat.zero_add]; exact hlt)
  refine ⟨t, ((Reach.start.next (a := .chef i none) trivial hlock).next (a := .chef i none)
    trivial htest).trans hr, ht, hless.trans_le ?_⟩
  exact (effort_chefStep h₁.served.inv htest).1.trans (effort_chefStep h.served.inv hlock).1

/-- A deliverer without a bag takes up an order that is ready. -/
lemma Going.deliverer_starts {c d : ℕ} {s : State c d} (h : Going s) (hfree : s.mutex = none)
    {i : Fin d} (hidle : ∀ bag, s.deliverer i ≠ .deliver bag) {l : ℕ} {o : Order}
    (ho : Live s.order l o) (hready : o.status = 3) (hopen : s.numOrders ≠ 0) :
    ∃ t, Reach PideShop.step ByThreads s t ∧ Going t ∧ t.effort < s.effort := by
  have hlt := h.served.inv.lt_maxOrder (fun hq => h.served.inv.shop.not_live hq l o ho) ho.1
  have hlock : delivererStep s i =
      some { s.setDeliverer i .test with mutex := some (.deliverer i) } := by
    have hin : (s.deliverer i).inside = false := h.outside hfree (.deliverer i)
    have hwaits : s.deliverer i ≠ .waiting := fun hp =>
      hopen ((h.attentive.deliverer_waits i hp).resolve_right (by simp [h.not_wakes hfree]))
    cases hp : s.deliverer i with
    | lock | woken => simp only [delivererStep, hp, State.lock, if_pos hfree]
    | waiting => exact absurd hp hwaits
    | deliver bag => exact absurd hp (hidle bag)
    | _ => simp [hp, DelivererPc.inside] at hin
  have h₁ := h.step (a := .deliverer i) trivial hlock
  have htest : delivererStep { s.setDeliverer i .test with mutex := some (.deliverer i) } i =
      some { s.setDeliverer i (.scan 0 []) with mutex := some (.deliverer i) } := by
    simp [delivererStep, State.setDeliverer, hopen]
  obtain ⟨t, hr, ht, hless⟩ := (h₁.step (a := .deliverer i) trivial htest).deliverer_collects
    (i := i) (k := 0) (n := l) (by simp [State.setDeliverer]) (by rw [Nat.zero_add]; exact ho.1)
    hready (by rw [Nat.zero_add]; exact hlt)
  refine ⟨t, ((Reach.start.next (a := .deliverer i) trivial hlock).next (a := .deliverer i)
    trivial htest).trans hr, ht, hless.trans_le ?_⟩
  exact (effort_delivererStep h₁.served.inv htest).1.trans
    (effort_delivererStep h.served.inv hlock).1

/-- A deliverer comes with its bag. -/
lemma Going.deliverer_comes {c d : ℕ} {s : State c d} (h : Going s) (hfree : s.mutex = none)
    {i : Fin d} {bag : List Order} (hp : s.deliverer i = .deliver bag) :
    ∃ t, Reach PideShop.step ByThreads s t ∧ Going t ∧ t.effort < s.effort := by
  obtain ⟨t, hst⟩ : ∃ t, delivererStep s i = some t :=
    ⟨_, by simp only [delivererStep, hp, State.lock, if_pos hfree]; rfl⟩
  exact ⟨t, Reach.start.next (a := .deliverer i) trivial hst,
    h.step (a := .deliverer i) trivial hst, (effort_delivererStep h.served.inv hst).2.1 bag hp⟩

/-- A chef with an order goes on. -/
lemma Going.chef_goes_on {c d : ℕ} {s : State c d} (h : Going s) (hfree : s.mutex = none)
    {i : Fin c} (hi : (s.chef i).working = true) :
    ∃ t, Reach PideShop.step ByThreads s t ∧ Going t ∧ t.effort < s.effort := by
  obtain ⟨j, w, t, hwork, hst⟩ := h.chef_works hfree hi
  exact ⟨t, Reach.start.next (a := .chef j w) trivial hst, h.step (a := .chef j w) trivial hst,
    (effort_chefStep h.served.inv hst).2.1 hwork (h.outside hfree (.chef j))⟩

/-- All that has been accepted is delivered, and `main` waits for a client. -/
def Finished {c d : ℕ} (s : State c d) : Prop :=
  (s.main = .accept ∨ s.main = .orders) ∧ ∀ o, o < s.allOrders → o ∈ s.delivered

/-- Short of that somebody makes progress. -/
lemma Going.goes_on {c d : ℕ} (hc : 0 < c) (hd : 0 < d) {s : State c d} (h : Going s)
    (hfree : s.mutex = none) (hnot : ¬ Finished s) :
    ∃ t, Reach PideShop.step ByThreads s t ∧ Going t ∧ t.effort < s.effort := by
  have hmain : s.main.inside = false := h.outside hfree .main
  have hstart : 0 < s.main.rank → ∃ t, mainStep s = some t := by
    intro hrank
    cases hp : s.main <;> simp only [hp, MainPc.rank, lt_irrefl] at hrank
    case realloc => exact ⟨_, by simp only [mainStep, hp]; rfl⟩
    case lock orders => exact ⟨_, by simp only [mainStep, hp, State.lock, if_pos hfree]; rfl⟩
  by_cases hrank : 0 < s.main.rank
  · obtain ⟨t, hst⟩ := hstart hrank
    exact ⟨t, Reach.start.next (a := .main) trivial hst, h.step (a := .main) trivial hst,
      (effort_mainStep hst).2 hrank⟩
  have hidle : s.main = .accept ∨ s.main = .orders := by
    cases hp : s.main <;> simp_all [MainPc.inside, MainPc.rank]
  obtain ⟨o, ho, hopen⟩ : ∃ o, o < s.allOrders ∧ o ∉ s.delivered := by
    by_contra hall
    push Not at hall
    exact hnot ⟨hidle, hall⟩
  have hinv := h.served.inv
  obtain ⟨k, p, hp, rfl⟩ := hinv.shop.present o ho hopen
  have hnum : s.numOrders ≠ 0 := by
    intro hzero
    have heq := hinv.orders_eq
    have hlen : s.delivered.length = s.allOrders := by omega
    exact hopen (hinv.shop.delivered_length.2.mp hlen p.id ho)
  cases h.attentive.withParty hinv hp hopen with
  | placed hstatus _ =>
    by_cases hwork : (s.chef ⟨0, hc⟩).working = true
    · exact h.chef_goes_on hfree hwork
    · exact h.chef_starts hfree (by simpa using hwork) hp hstatus hnum
  | chef _ hone =>
    obtain ⟨i, hi, -⟩ := hone
    refine h.chef_goes_on hfree (i := i) ?_
    cases hpc : s.chef i with
    | unlock o => cases o <;> simp_all [ChefPc.slot, ChefPc.work, ChefPc.working]
    | _ => simp_all [ChefPc.slot, ChefPc.work, ChefPc.working]
  | ready hready =>
    by_cases hbag : ∃ bag, s.deliverer ⟨0, hd⟩ = .deliver bag
    · obtain ⟨bag, hbag⟩ := hbag
      exact h.deliverer_comes hfree hbag
    · exact h.deliverer_starts hfree (fun bag hb => hbag ⟨bag, hb⟩) hp hready hnum
  | deliverer _ hone =>
    obtain ⟨i, hi, -⟩ := hone
    have hin : (s.deliverer i).inside = false := h.outside hfree (.deliverer i)
    cases hpc : s.deliverer i with
    | deliver bag => exact h.deliverer_comes hfree hpc
    | _ => simp [hpc, DelivererPc.load, DelivererPc.inside] at hi hin

/-- A client has announced its orders and not sent them. -/
def MainPc.owed : MainPc → Bool
  | .realloc | .orders => true
  | _ => false

/-- Only clients bring orders. -/
lemma owed_of_byThreads {c d : ℕ} {s t : State c d} {a : Act c d} (ha : ByThreads s a)
    (hst : step s a = some t) : t.sizes = s.sizes ∧ t.main.owed = s.main.owed := by
  cases a with
  | count _ | orders _ _ | spuriousChef _ | spuriousDeliverer _ => cases ha
  | chef i w =>
    refine ⟨congrArg Book.sizes (book_chefStep hst), ?_⟩
    rw [(chefFrame_of_chefStep hst).main]
  | deliverer i =>
    obtain ⟨-, hmain, -, -, hsizes⟩ := delivererStep_rest hst
    exact ⟨hsizes, by rw [hmain]⟩
  | main =>
    simp only [step] at hst
    cases hp : s.main with
    | accept | orders => simp [mainStep, hp] at hst
    | lock orders =>
      simp only [mainStep, hp] at hst
      obtain ⟨-, rfl⟩ := lock_eq_some hst
      exact ⟨rfl, rfl⟩
    | fill k orders =>
      simp only [mainStep, hp] at hst
      by_cases hk : (k : ℤ) < s.maxOrder
      · rw [if_pos hk] at hst
        obtain ⟨o, -, ho⟩ := Option.bind_eq_some_iff.mp hst
        split_ifs at ho <;> cases ho <;> exact ⟨rfl, rfl⟩
      · rw [if_neg hk] at hst
        cases hst
        exact ⟨rfl, rfl⟩
    | realloc | broadcast | unlock =>
      simp only [mainStep, hp] at hst
      cases hst
      exact ⟨rfl, rfl⟩

/-- With the mutex free and all delivered, a batch that has come is closed by its
notification. -/
lemma Going.closed {c d : ℕ} {s : State c d} (h : Going s) (hfree : s.mutex = none)
    (hdone : Finished s) (howed : s.main.owed = false) :
    s.allOrders = s.sizes.sum ∧ s.notified = s.sizes.length := by
  obtain ⟨hmain, hall⟩ := hdone
  have haccept : s.main = .accept :=
    hmain.resolve_right fun hp => by simp [hp, MainPc.owed] at howed
  have hlen : s.delivered.length = s.allOrders := h.served.inv.shop.delivered_length.2.mpr hall
  have hstored := h.served.ledger.stored
  simp only [State.book, haccept, MainPc.toStore] at hstored
  have hsum : s.allOrders = s.sizes.sum := by omega
  exact ⟨hsum, h.served.lifeCycle.notified_all hfree (hlen.trans hsum)⟩

end SystemProgramming.PideShop
