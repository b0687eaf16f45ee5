import SystemProgramming.Kitchen
import SystemProgramming.PideShopLifeCycle

/-!
# Somebody attends to every order

An order that has been picked is with a chef until it is ready, and one that has been
collected is with a deliverer until it is delivered. Whoever waits for orders finds none
undelivered, unless `main` owns `ordersMutex` and has its broadcast still to come: no
wake-up is lost.
-/
namespace SystemProgramming.PideShop
open SystemProgramming.Transition SystemProgramming.Monitor

/-- The orders in the slots by who attends to them: nobody yet, a chef or a deliverer. -/
structure Attended {c d : ℕ} (order : ℕ → Option Order) (slot : Fin c → Option ℕ)
    (held : Fin d → List ℕ) (delivered : List ℕ) : Prop where
  unplaced : ∀ k p, Live order k p → p.status = 0 → p.isPlaced = 0
  prepared : ∀ k p, Live order k p → p.status = 1 ∨ p.status = 2 → ∃ i, slot i = some k
  carried : ∀ k p, Live order k p → p.id ∉ delivered → p.status = 4 ∨ p.status = 5 →
    ∃ i, p.id ∈ held i

/-- Slot `k` is written; nobody puts down an order of another slot. -/
lemma Attended.write {c d : ℕ} {order : ℕ → Option Order} {slot slot' : Fin c → Option ℕ}
    {held held' : Fin d → List ℕ} {delivered : List ℕ} (h : Attended order slot held delivered)
    {k : ℕ} {p' : Order}
    (hslot : ∀ i l, l ≠ k → slot i = some l → ∃ j, slot' j = some l)
    (hheld : ∀ i o, o ∈ held i → ∃ j, o ∈ held' j)
    (hnew : p'.send = 1 → (p'.status = 0 → p'.isPlaced = 0) ∧
      (p'.status = 1 ∨ p'.status = 2 → ∃ i, slot' i = some k) ∧
      (p'.status = 4 ∨ p'.status = 5 → ∃ i, p'.id ∈ held' i)) :
    Attended (Function.update order k (some p')) slot' held' delivered := by
  have hlive : ∀ l q, Live (Function.update order k (some p')) l q →
      l = k ∧ q = p' ∧ p'.send = 1 ∨ l ≠ k ∧ Live order l q := by
    intro l q hq
    rcases eq_or_ne l k with rfl | hl
    · obtain ⟨hq, hsend⟩ := hq
      obtain rfl : p' = q := by simpa using hq
      exact Or.inl ⟨rfl, rfl, hsend⟩
    · unfold Live at hq
      rw [Function.update_of_ne hl] at hq
      exact Or.inr ⟨hl, hq⟩
  refine ⟨fun l q hq hstatus => ?_, fun l q hq hstatus => ?_, fun l q hq hopen hstatus => ?_⟩
  · rcases hlive l q hq with ⟨-, rfl, hsend⟩ | ⟨-, hold⟩
    · exact (hnew hsend).1 hstatus
    · exact h.unplaced l q hold hstatus
  · rcases hlive l q hq with ⟨rfl, rfl, hsend⟩ | ⟨hl, hold⟩
    · exact (hnew hsend).2.1 hstatus
    · obtain ⟨i, hi⟩ := h.prepared l q hold hstatus
      exact hslot i l hl hi
  · rcases hlive l q hq with ⟨-, rfl, hsend⟩ | ⟨-, hold⟩
    · exact (hnew hsend).2.2 hstatus
    · obtain ⟨i, hi⟩ := h.carried l q hold hopen hstatus
      exact hheld i q.id hi

/-- No slot is written; an order is put down only when it is delivered. -/
lemma Attended.pass {c d : ℕ} {order : ℕ → Option Order} {slot slot' : Fin c → Option ℕ}
    {held held' : Fin d → List ℕ} {delivered delivered' : List ℕ}
    (h : Attended order slot held delivered)
    (hslot : ∀ i l, slot i = some l → ∃ j, slot' j = some l)
    (hheld : ∀ i o, o ∈ held i → (∃ j, o ∈ held' j) ∨ o ∈ delivered')
    (hdelivered : ∀ o, o ∈ delivered → o ∈ delivered') :
    Attended order slot' held' delivered' := by
  refine ⟨h.unplaced, fun l q hq hstatus => ?_, fun l q hq hopen hstatus => ?_⟩
  · obtain ⟨i, hi⟩ := h.prepared l q hq hstatus
    exact hslot i l hi
  · obtain ⟨i, hi⟩ := h.carried l q hq (fun hdel => hopen (hdelivered _ hdel)) hstatus
    exact (hheld i q.id hi).resolve_right hopen

/-- `main` stores orders, or is about to wake everybody. -/
def MainPc.wakes : MainPc → Bool
  | .fill _ _ | .broadcast => true
  | _ => false

/-- Nobody waits beside an undelivered order. -/
structure Attentive {c d : ℕ} (s : State c d) : Prop where
  attended : Attended s.order (fun i => (s.chef i).slot) (fun i => (s.deliverer i).load.held)
    s.delivered
  placed : ∀ orders, (s.main = .lock orders ∨ ∃ k, s.main = .fill k orders) →
    ∀ o, o ∈ orders → o.isPlaced = 0
  chef_waits : ∀ i, s.chef i = .waiting → s.numOrders = 0 ∨ s.main.wakes = true
  deliverer_waits : ∀ i, s.deliverer i = .waiting → s.numOrders = 0 ∨ s.main.wakes = true

/-- What a statement of chef `i` makes of the slots and of its own: nothing, or it picks an
order, or it raises the status of the order in its slot. -/
inductive ChefWrite {c d : ℕ} (s t : State c d) (i : Fin c) : Prop
  | quiet (horder : t.order = s.order) (hslot : (t.chef i).slot = (s.chef i).slot)
  | pick (k : ℕ) (o : Order) (hp : s.chef i = .scan k) (hk : (k : ℤ) < s.maxOrder)
      (ho : s.order k = some o) (hstatus : o.status = 0) (hsend : o.send = 1)
      (horder : t.order = Function.update s.order k (some { o with status := 1, isPlaced := 1 }))
      (hnew : t.chef i = .unlock (some k))
  | raise (k st : ℕ) (o : Order) (hp : (s.chef i).work = some (k, st)) (ho : s.order k = some o)
      (horder : t.order = Function.update s.order k (some { o with status := st + 1 }))
      (hnew : st = 1 ∧ (t.chef i).slot = some k ∨ st = 2 ∧ (t.chef i).slot = none)

/-- A signal for orders changes nothing but who waits. -/
lemma signalOrder_woken {c d : ℕ} {s t : State c d} {w : Option (Fin c ⊕ Fin d)}
    (hst : signalOrder s w = some t) : ∃ chef deliverer,
      t = { s with chef := chef, deliverer := deliverer } ∧
      (∀ i, chef i = s.chef i ∨ s.chef i = .waiting ∧ chef i = .woken) ∧
      ∀ i, deliverer i = s.deliverer i ∨ s.deliverer i = .waiting ∧ deliverer i = .woken := by
  rcases w with _ | j | j <;> simp only [signalOrder] at hst <;> split_ifs at hst with hj <;>
    cases hst
  · exact ⟨_, _, rfl, fun _ => Or.inl rfl, fun _ => Or.inl rfl⟩
  · refine ⟨_, _, rfl, fun i => ?_, fun _ => Or.inl rfl⟩
    rcases eq_or_ne i j with rfl | hij
    · exact Or.inr ⟨hj, by simp⟩
    · exact Or.inl (by simp [hij])
  · refine ⟨_, _, rfl, fun _ => Or.inl rfl, fun i => ?_⟩
    rcases eq_or_ne i j with rfl | hij
    · exact Or.inr ⟨hj, by simp⟩
    · exact Or.inl (by simp [hij])

lemma chefWrite_of_chefStep {c d : ℕ} {s t : State c d} {i : Fin c} {w : Option (Fin c ⊕ Fin d)}
    (hst : chefStep s i w = some t) : ChefWrite s t i := by
  cases hp : s.chef i with
  | waiting | acquireWait _ _ => simp [chefStep, hp] at hst
  | scan k =>
    simp only [chefStep, hp] at hst
    split_ifs at hst with hk
    · obtain ⟨o, ho, rfl⟩ := Option.map_eq_some_iff.mp hst
      split_ifs with hfound
      · exact .pick k o hp hk ho hfound.1 hfound.2.2 (order_setOrder ho _)
          (by simp [State.setChef])
      · exact .quiet rfl (by simp [hp, State.setChef, ChefPc.slot, ChefPc.work])
    · cases hst
      exact .quiet rfl (by simp [hp, State.setChef, ChefPc.slot, ChefPc.work])
  | cook k =>
    simp only [chefStep, hp] at hst
    obtain ⟨o, ho, rfl⟩ := Option.map_eq_some_iff.mp hst
    exact .raise k 1 o (by rw [hp]; rfl) ho (order_setOrder ho _)
      (Or.inl ⟨rfl, by simp [State.setChef, ChefPc.slot, ChefPc.work]⟩)
  | ready k =>
    simp only [chefStep, hp] at hst
    obtain ⟨o, ho, rfl⟩ := Option.map_eq_some_iff.mp hst
    exact .raise k 2 o (by rw [hp]; rfl) ho (order_setOrder ho _)
      (Or.inr ⟨rfl, by simp [State.setChef, ChefPc.slot, ChefPc.work]⟩)
  | readySignal =>
    simp only [chefStep, hp] at hst
    obtain ⟨chef, deliverer, rfl, hchef, -⟩ := signalOrder_woken hst
    have hself : chef i = .readyUnlock := by simpa [State.setChef] using hchef i
    exact .quiet rfl (by simp [hself, hp, ChefPc.slot, ChefPc.work])
  | unlock o =>
    cases o <;>
      (simp only [chefStep, hp] at hst
       cases hst
       exact .quiet rfl (by simp [hp, State.setChef, ChefPc.slot, ChefPc.work]))
  | lock | woken | readyLock k =>
    simp only [chefStep, hp] at hst
    obtain ⟨-, rfl⟩ := lock_eq_some hst
    exact .quiet rfl (by simp [hp, State.setChef, ChefPc.slot, ChefPc.work])
  | acquireLock g k | acquireWoken g k | releaseLock g k =>
    simp only [chefStep, hp] at hst
    obtain ⟨-, rfl⟩ := lockGate_eq_some hst
    exact .quiet rfl (by simp [hp, State.setChef, ChefPc.slot, ChefPc.work])
  | test | acquireTest g k =>
    simp only [chefStep, hp] at hst
    split_ifs at hst <;>
      (cases hst
       exact .quiet rfl (by simp [hp, State.setChef, ChefPc.slot, ChefPc.work]))
  | releaseSignal g k =>
    simp only [chefStep, hp] at hst
    obtain ⟨pc, -, rfl⟩ := Option.map_eq_some_iff.mp hst
    exact .quiet rfl (by simp [hp, ChefPc.slot, ChefPc.work])
  | acquire g k | acquireUnlock g k | release g k | releaseUnlock g k =>
    simp only [chefStep, hp] at hst
    cases hst
    cases g <;>
      exact .quiet rfl (by
        simp [hp, State.setChef, ChefPc.slot, ChefPc.work, afterAcquire, afterRelease])
  | readyUnlock =>
    simp only [chefStep, hp] at hst
    cases hst
    exact .quiet rfl (by simp [hp, State.setChef, ChefPc.slot, ChefPc.work])

/-- What the statements of the chefs leave alone. -/
lemma chefStep_rest {c d : ℕ} {s t : State c d} {i : Fin c} {w : Option (Fin c ⊕ Fin d)}
    (hst : chefStep s i w = some t) : t.numOrders = s.numOrders ∧ t.delivered = s.delivered ∧
      (∀ j, t.deliverer j = s.deliverer j ∨ s.deliverer j = .waiting ∧ t.deliverer j = .woken) ∧
      (t.chef i = .waiting → s.numOrders = 0) := by
  cases hp : s.chef i with
  | waiting | acquireWait _ _ => simp [chefStep, hp] at hst
  | readySignal =>
    simp only [chefStep, hp] at hst
    obtain ⟨chef, deliverer, rfl, hchef, hdeliverer⟩ := signalOrder_woken hst
    have hself : chef i = .readyUnlock := by simpa [State.setChef] using hchef i
    exact ⟨rfl, rfl, hdeliverer, fun hi => by simp [hself] at hi⟩
  | test =>
    simp only [chefStep, hp] at hst
    split_ifs at hst with hzero <;> cases hst
    · exact ⟨rfl, rfl, fun _ => Or.inl rfl, fun _ => hzero⟩
    · exact ⟨rfl, rfl, fun _ => Or.inl rfl, fun hi => by simp [State.setChef] at hi⟩
  | scan k =>
    simp only [chefStep, hp] at hst
    split_ifs at hst
    · obtain ⟨o, -, rfl⟩ := Option.map_eq_some_iff.mp hst
      split_ifs <;> exact ⟨rfl, rfl, fun _ => Or.inl rfl, fun hi => by simp [State.setChef] at hi⟩
    · cases hst
      exact ⟨rfl, rfl, fun _ => Or.inl rfl, fun hi => by simp [State.setChef] at hi⟩
  | cook k | ready k =>
    simp only [chefStep, hp] at hst
    obtain ⟨o, -, rfl⟩ := Option.map_eq_some_iff.mp hst
    exact ⟨rfl, rfl, fun _ => Or.inl rfl, fun hi => by simp [State.setChef] at hi⟩
  | unlock o =>
    cases o <;>
      (simp only [chefStep, hp] at hst
       cases hst
       exact ⟨rfl, rfl, fun _ => Or.inl rfl, fun hi => by simp [State.setChef] at hi⟩)
  | lock | woken | readyLock k =>
    simp only [chefStep, hp] at hst
    obtain ⟨-, rfl⟩ := lock_eq_some hst
    exact ⟨rfl, rfl, fun _ => Or.inl rfl, fun hi => by simp [State.setChef] at hi⟩
  | acquireLock g k | acquireWoken g k | releaseLock g k =>
    simp only [chefStep, hp] at hst
    obtain ⟨-, rfl⟩ := lockGate_eq_some hst
    exact ⟨rfl, rfl, fun _ => Or.inl rfl, fun hi => by simp [State.setChef] at hi⟩
  | acquireTest g k =>
    simp only [chefStep, hp] at hst
    split_ifs at hst <;>
      (cases hst
       exact ⟨rfl, rfl, fun _ => Or.inl rfl, fun hi => by simp [State.setChef] at hi⟩)
  | releaseSignal g k =>
    simp only [chefStep, hp] at hst
    obtain ⟨pc, -, rfl⟩ := Option.map_eq_some_iff.mp hst
    exact ⟨rfl, rfl, fun _ => Or.inl rfl, fun hi => by simp at hi⟩
  | acquire g k | acquireUnlock g k | release g k | releaseUnlock g k =>
    simp only [chefStep, hp] at hst
    cases hst
    cases g <;>
      exact ⟨rfl, rfl, fun _ => Or.inl rfl, fun hi => by
        simp [State.setChef, afterAcquire, afterRelease] at hi⟩
  | readyUnlock =>
    simp only [chefStep, hp] at hst
    cases hst
    exact ⟨rfl, rfl, fun _ => Or.inl rfl, fun hi => by simp [State.setChef] at hi⟩

lemma Attentive.chefStep {c d : ℕ} {s t : State c d} {i : Fin c} {w : Option (Fin c ⊕ Fin d)}
    (h : Attentive s) (hst : chefStep s i w = some t) : Attentive t := by
  have hframe := chefFrame_of_chefStep hst
  obtain ⟨hnum, hdelivered, hdeliverer, hwaits⟩ := chefStep_rest hst
  have hothers : ∀ j, j ≠ i → (t.chef j).slot = (s.chef j).slot := by
    intro j hji
    rcases hframe.others j hji with heq | heq
    · rw [heq]
    · rw [heq, slot_wake]
  have hheld : (fun j => (t.deliverer j).load.held) = fun j => (s.deliverer j).load.held := by
    funext j
    rcases hdeliverer j with heq | ⟨hold, hnew⟩
    · rw [heq]
    · rw [hold, hnew]
      rfl
  refine ⟨?_, by rw [hframe.main]; exact h.placed, fun j hj => ?_, fun j hj => ?_⟩
  · rw [hdelivered, hheld]
    cases chefWrite_of_chefStep hst with
    | quiet horder hslot =>
      rw [horder]
      refine h.attended.pass (fun j l hj => ⟨j, ?_⟩) (fun j o ho => Or.inl ⟨j, ho⟩) fun _ => id
      rcases eq_or_ne j i with rfl | hji
      · rwa [hslot]
      · rwa [hothers j hji]
    | pick k o hp hk ho hstatus hsend horder hnew =>
      rw [horder]
      refine h.attended.write (fun j l _ hj => ⟨j, ?_⟩) (fun j o ho => ⟨j, ho⟩)
        fun _ => ⟨by simp, fun _ => ⟨i, by rw [hnew]; rfl⟩, by simp⟩
      rcases eq_or_ne j i with rfl | hji
      · simp [hp, ChefPc.slot, ChefPc.work] at hj
      · rwa [hothers j hji]
    | raise k st o hp ho horder hnew =>
      rw [horder]
      have hslot : (s.chef i).slot = some k := by rw [ChefPc.slot, hp]; rfl
      refine h.attended.write (fun j l hl hj => ⟨j, ?_⟩) (fun j o ho => ⟨j, ho⟩) fun _ => ?_
      · rcases eq_or_ne j i with rfl | hji
        · rw [hslot] at hj
          exact absurd (Option.some.inj hj).symm hl
        · rwa [hothers j hji]
      · rcases hnew with ⟨rfl, hnew⟩ | ⟨rfl, -⟩
        · exact ⟨by simp, fun _ => ⟨i, hnew⟩, by simp⟩
        · exact ⟨by simp, by simp, by simp⟩
  · rw [hnum, hframe.main]
    rcases eq_or_ne j i with rfl | hji
    · exact Or.inl (hwaits hj)
    · refine h.chef_waits j ?_
      rcases hframe.others j hji with heq | heq <;> rw [heq] at hj
      · exact hj
      · cases hp : s.chef j <;> simp [hp, ChefPc.wake] at hj
  · rw [hnum, hframe.main]
    rcases hdeliverer j with heq | ⟨-, hnew⟩
    · exact h.deliverer_waits j (heq ▸ hj)
    · rw [hnew] at hj
      cases hj

/-- A deliverer moves; what it makes of the orders is left open. -/
lemma Attentive.moveDeliverer {c d : ℕ} {s t : State c d} (h : Attentive s) {i : Fin d}
    (q : DelivererPc) (hdeliverer : t.deliverer = Function.update s.deliverer i q)
    (hchef : t.chef = s.chef) (hmain : t.main = s.main)
    (hnum : s.numOrders = 0 → t.numOrders = 0) (hq : q = .waiting → s.numOrders = 0)
    (hattended : Attended t.order (fun j => (s.chef j).slot)
      (fun j => (Function.update s.deliverer i q j).load.held) t.delivered) : Attentive t := by
  refine ⟨?_, by rw [hmain]; exact h.placed, fun j hj => ?_, fun j hj => ?_⟩
  · rw [hdeliverer, hchef]
    exact hattended
  · rw [hmain]
    exact (h.chef_waits j (hchef ▸ hj)).imp_left hnum
  · rw [hmain]
    rcases eq_or_ne j i with rfl | hji
    · exact Or.inl (hnum (hq (by simpa [hdeliverer] using hj)))
    · exact (h.deliverer_waits j (by simpa [hdeliverer, hji] using hj)).imp_left hnum

/-- A deliverer that moves with its orders. -/
lemma Attended.carry {c d : ℕ} {order : ℕ → Option Order} {slot : Fin c → Option ℕ}
    {deliverer : Fin d → DelivererPc} {delivered : List ℕ}
    (h : Attended order slot (fun j => (deliverer j).load.held) delivered) {i : Fin d}
    {q : DelivererPc} (hq : (deliverer i).load.held ⊆ q.load.held) :
    Attended order slot (fun j => (Function.update deliverer i q j).load.held) delivered := by
  refine h.pass (fun j l hj => ⟨j, hj⟩) (fun j o ho => Or.inl ⟨j, ?_⟩) fun _ => id
  rcases eq_or_ne j i with rfl | hji
  · rw [Function.update_self]
    exact hq ho
  · rwa [Function.update_of_ne hji]

/-- A deliverer writes a slot and moves with its orders. -/
lemma Attended.rewrite {c d : ℕ} {order : ℕ → Option Order} {slot : Fin c → Option ℕ}
    {deliverer : Fin d → DelivererPc} {delivered : List ℕ}
    (h : Attended order slot (fun j => (deliverer j).load.held) delivered) {i : Fin d}
    {q : DelivererPc} (hq : (deliverer i).load.held ⊆ q.load.held) (k : ℕ) (p : Order)
    (hp : p.send = 1 → (p.status = 4 ∨ p.status = 5) ∧ p.id ∈ q.load.held) :
    Attended (Function.update order k (some p)) slot
      (fun j => (Function.update deliverer i q j).load.held) delivered := by
  refine h.write (fun j l _ hj => ⟨j, hj⟩) (fun j o ho => ⟨j, ?_⟩) fun hsend => ?_
  · rcases eq_or_ne j i with rfl | hji
    · rw [Function.update_self]
      exact hq ho
    · rwa [Function.update_of_ne hji]
  · obtain ⟨hstatus, hheld⟩ := hp hsend
    exact ⟨fun _ => by omega, fun _ => by omega, fun _ => ⟨i, by rwa [Function.update_self]⟩⟩

/-- An order in a bag is undelivered. -/
lemma Inv.numOrders_ne_zero {c d : ℕ} {s : State c d} (h : Inv s) {i : Fin d} {o : ℕ}
    (ho : o ∈ (s.deliverer i).load.held) : s.numOrders ≠ 0 := by
  intro hzero
  obtain ⟨hopen, k, p, hp, rfl, -⟩ := h.shop.bag i o ho
  have heq := h.orders_eq
  have hlen : s.delivered.length = s.allOrders := by omega
  exact hopen (h.shop.delivered_length.2.mp hlen p.id (h.shop.accepted k p hp).1)

lemma held_next (bag : List Order) : (DelivererPc.next bag).load.held = bag.map Order.id := by
  rw [load_next]

lemma Attentive.delivererStep {c d : ℕ} {s t : State c d} {i : Fin d} (h : Attentive s)
    (hinv : Inv s) (hst : delivererStep s i = some t) : Attentive t := by
  cases hp : s.deliverer i with
  | waiting => simp [PideShop.delivererStep, hp] at hst
  | lock | woken =>
    simp only [PideShop.delivererStep, hp] at hst
    obtain ⟨-, rfl⟩ := lock_eq_some hst
    exact h.moveDeliverer _ rfl rfl rfl id (by simp)
      (h.attended.carry (by simp [hp, DelivererPc.load]))
  | test =>
    simp only [PideShop.delivererStep, hp] at hst
    split_ifs at hst with hzero <;> cases hst
    · exact h.moveDeliverer _ rfl rfl rfl id (fun _ => hzero)
        (h.attended.carry (by simp [hp, DelivererPc.load]))
    · exact h.moveDeliverer _ rfl rfl rfl id (by simp)
        (h.attended.carry (by simp [hp, DelivererPc.load]))
  | scan k bag =>
    simp only [PideShop.delivererStep, hp] at hst
    split_ifs at hst with hk
    · obtain ⟨o, ho, rfl⟩ := Option.map_eq_some_iff.mp hst
      split_ifs with hready
      · refine h.moveDeliverer _ rfl rfl rfl id (by simp) ?_
        have horder := order_setOrder ho { o with status := 4 }
        exact horder ▸ h.attended.rewrite (by simp [hp, DelivererPc.load]) k _
          fun _ => ⟨Or.inl rfl, by simp [DelivererPc.load]⟩
      · exact h.moveDeliverer _ rfl rfl rfl id (by simp)
          (h.attended.carry (by simp [hp, DelivererPc.load]))
    · cases hst
      exact h.moveDeliverer _ rfl rfl rfl id (by simp)
        (h.attended.carry (by simp [hp, DelivererPc.load]))
  | unlock bag =>
    simp only [PideShop.delivererStep, hp] at hst
    cases hst
    cases bag <;>
      exact h.moveDeliverer _ rfl rfl rfl id (by simp)
        (h.attended.carry (by simp [hp, DelivererPc.load]))
  | deliver bag =>
    simp only [PideShop.delivererStep, hp] at hst
    obtain ⟨-, rfl⟩ := lock_eq_some hst
    exact h.moveDeliverer _ rfl rfl rfl id (by cases bag <;> simp [DelivererPc.next])
      (h.attended.carry (by rw [held_next, hp]; exact List.Subset.refl _))
  | mark o rest k =>
    simp only [PideShop.delivererStep, hp] at hst
    split_ifs at hst with hk
    · obtain ⟨p, ho, rfl⟩ := Option.map_eq_some_iff.mp hst
      split_ifs with hid
      · refine h.moveDeliverer _ rfl rfl rfl id (by simp) ?_
        have horder := order_setOrder ho { p with status := 5 }
        exact horder ▸ h.attended.rewrite (by simp [hp, DelivererPc.load]) k _
          fun _ => ⟨Or.inr rfl, by simp [DelivererPc.load, hid]⟩
      · exact h.moveDeliverer _ rfl rfl rfl id (by simp)
          (h.attended.carry (by simp [hp, DelivererPc.load]))
    · cases hst
      exact h.moveDeliverer _ rfl rfl rfl id (by simp)
        (h.attended.carry (by simp [hp, DelivererPc.load]))
  | count o rest =>
    have hopen := hinv.numOrders_ne_zero (i := i) (o := o.id) (by simp [hp, DelivererPc.load])
    simp only [PideShop.delivererStep, hp] at hst
    cases hst
    refine h.moveDeliverer _ rfl rfl rfl (fun hzero => absurd hzero hopen) (by simp) ?_
    refine h.attended.pass (fun j l hj => ⟨j, hj⟩) (fun j x hx => ?_)
      fun x hx => List.mem_append_left _ hx
    rcases eq_or_ne j i with rfl | hji
    · simp only [hp, DelivererPc.load, List.mem_cons] at hx
      rcases hx with rfl | hx
      · exact Or.inr (by simp)
      · exact Or.inl ⟨j, by simpa [DelivererPc.load] using hx⟩
    · exact Or.inl ⟨j, by rwa [Function.update_of_ne hji]⟩
  | clear o rest k =>
    simp only [PideShop.delivererStep, hp] at hst
    split_ifs at hst with hk
    · obtain ⟨p, ho, rfl⟩ := Option.map_eq_some_iff.mp hst
      split_ifs with hid
      · refine h.moveDeliverer _ rfl rfl rfl id (by simp) ?_
        have horder := order_setOrder ho .zero
        exact horder ▸ h.attended.rewrite (by simp [hp, DelivererPc.load]) k _
          fun hsend => by simp [Order.zero] at hsend
      · exact h.moveDeliverer _ rfl rfl rfl id (by simp)
          (h.attended.carry (by simp [hp, DelivererPc.load]))
    · cases hst
      exact h.moveDeliverer _ rfl rfl rfl id (by simp)
        (h.attended.carry (by simp [hp, DelivererPc.load]))
  | tally rest | notifyReset rest =>
    simp only [PideShop.delivererStep, hp] at hst
    cases hst
    exact h.moveDeliverer _ rfl rfl rfl id (by simp)
      (h.attended.carry (by simp [hp, DelivererPc.load]))
  | check rest =>
    simp only [PideShop.delivererStep, hp] at hst
    cases hst
    refine h.moveDeliverer _ rfl rfl rfl id ?_ (h.attended.carry ?_)
    · split_ifs <;> cases rest <;> simp [DelivererPc.next]
    · split_ifs
      · simp [hp, DelivererPc.load]
      · rw [held_next, hp]
        exact List.Subset.refl _
  | notifySend rest =>
    simp only [PideShop.delivererStep, hp] at hst
    cases hst
    exact h.moveDeliverer _ rfl rfl rfl id (by cases rest <;> simp [DelivererPc.next])
      (h.attended.carry (by rw [held_next, hp]; exact List.Subset.refl _))
  | finish =>
    simp only [PideShop.delivererStep, hp] at hst
    cases hst
    exact h.moveDeliverer _ rfl rfl rfl id (by simp)
      (h.attended.carry (by simp [hp, DelivererPc.load]))

/-- `main` moves; the others may be woken. -/
lemma Attentive.mainStep {c d : ℕ} {s t : State c d} (h : Attentive s) (hinv : Inv s)
    (hst : mainStep s = some t) : Attentive t := by
  have hasleep : s.main.wakes = false → (∀ i, s.chef i = .waiting → s.numOrders = 0) ∧
      ∀ i, s.deliverer i = .waiting → s.numOrders = 0 := fun hw =>
    ⟨fun i hi => (h.chef_waits i hi).resolve_right (by simp [hw]),
      fun i hi => (h.deliverer_waits i hi).resolve_right (by simp [hw])⟩
  cases hp : s.main with
  | accept | orders => simp [PideShop.mainStep, hp] at hst
  | realloc =>
    obtain ⟨hchef, hdeliverer⟩ := hasleep (by rw [hp]; rfl)
    simp only [PideShop.mainStep, hp] at hst
    cases hst
    have hnone : ∀ k q, ¬ Live (fun k =>
        ((List.replicate s.maxOrder.toNat (none : Option Order))[k]?).join) k q := by
      intro k q hq
      have hslot := hq.1
      simp only [List.getElem?_replicate] at hslot
      split_ifs at hslot <;> cases hslot
    exact ⟨⟨fun k q hq => absurd hq (hnone k q), fun k q hq => absurd hq (hnone k q),
      fun k q hq => absurd hq (hnone k q)⟩, by simp, fun i hi => Or.inl (hchef i hi),
      fun i hi => Or.inl (hdeliverer i hi)⟩
  | lock orders =>
    obtain ⟨hchef, hdeliverer⟩ := hasleep (by rw [hp]; rfl)
    have hplaced := h.placed orders (Or.inl hp)
    simp only [PideShop.mainStep, hp] at hst
    obtain ⟨-, rfl⟩ := lock_eq_some hst
    refine ⟨h.attended, ?_, fun i hi => Or.inr rfl, fun i hi => Or.inr rfl⟩
    rintro orders' (hm | ⟨k, hm⟩)
    · cases hm
    · cases hm
      exact hplaced
  | fill k orders =>
    have hplaced := h.placed orders (Or.inr ⟨k, hp⟩)
    have hstock := (hinv.stock.placed orders (Or.inr ⟨k, hp⟩)).2
    have hsame : ∀ orders', (MainPc.fill (k + 1) orders = .lock orders' ∨
        ∃ m, MainPc.fill (k + 1) orders = .fill m orders') → ∀ o, o ∈ orders' → o.isPlaced = 0 := by
      rintro orders' (hm | ⟨m, hm⟩)
      · cases hm
      · cases hm
        exact hplaced
    simp only [PideShop.mainStep, hp] at hst
    by_cases hk : (k : ℤ) < s.maxOrder
    · rw [if_pos hk] at hst
      obtain ⟨o, ho, hst⟩ := Option.bind_eq_some_iff.mp hst
      have hmem := List.mem_of_getElem? ho
      rw [if_pos (hstock o hmem)] at hst
      split_ifs at hst with hlt
      cases hst
      refine ⟨?_, hsame, fun i hi => Or.inr rfl, fun i hi => Or.inr rfl⟩
      have horder := order_setOrder_of_lt hlt { o with send := 1, id := s.allOrders }
      exact horder ▸ h.attended.write (fun i l _ hi => ⟨i, hi⟩) (fun i x hx => ⟨i, hx⟩)
        fun _ => ⟨fun _ => hplaced o hmem, by simp [hstock o hmem], by simp [hstock o hmem]⟩
    · rw [if_neg hk] at hst
      cases hst
      exact ⟨h.attended, by simp, fun i hi => Or.inr rfl, fun i hi => Or.inr rfl⟩
  | broadcast =>
    have hchef := woken_broadcast ChefPc.waits ChefPc.wake s.chef
    have hdeliverer := woken_broadcast DelivererPc.waits DelivererPc.wake s.deliverer
    simp only [PideShop.mainStep, hp] at hst
    cases hst
    refine ⟨?_, by simp, fun i hi => ?_, fun i hi => ?_⟩
    · refine h.attended.pass (fun i l hi => ⟨i, ?_⟩) (fun i x hx => Or.inl ⟨i, ?_⟩) fun _ => id
      · rwa [hchef.map_eq ChefPc.slot (fun p _ => slot_wake p) i]
      · rwa [hdeliverer.map_eq (fun p => p.load.held) (fun p hw => by
          cases p <;> simp_all [DelivererPc.waits, DelivererPc.wake, DelivererPc.load]) i]
    · simp only [Monitor.broadcast] at hi
      split_ifs at hi with hw
      · cases hc : s.chef i <;> simp [hc, ChefPc.wake] at hi
      · rw [hi] at hw
        exact absurd rfl hw
    · simp only [Monitor.broadcast] at hi
      split_ifs at hi with hw
      · cases hi
      · rw [hi] at hw
        exact absurd rfl hw
  | unlock =>
    obtain ⟨hchef, hdeliverer⟩ := hasleep (by rw [hp]; rfl)
    simp only [PideShop.mainStep, hp] at hst
    cases hst
    exact ⟨h.attended, by simp, fun i hi => Or.inl (hchef i hi),
      fun i hi => Or.inl (hdeliverer i hi)⟩

theorem Attentive.step {c d : ℕ} {s t : State c d} {a : Act c d} (h : Attentive s) (hinv : Inv s)
    (hst : step s a = some t) : Attentive t := by
  cases a with
  | main => exact h.mainStep hinv hst
  | chef i w => exact h.chefStep hst
  | deliverer i => exact h.delivererStep hinv hst
  | count n =>
    simp only [PideShop.step] at hst
    split_ifs at hst with hp hn <;> cases hst
    · refine ⟨h.attended, by simp, fun i hi => ?_, fun i hi => ?_⟩
      · exact Or.inl ((h.chef_waits i hi).resolve_right (by simp [hp.1, MainPc.wakes]))
      · exact Or.inl ((h.deliverer_waits i hi).resolve_right (by simp [hp.1, MainPc.wakes]))
    · refine ⟨h.attended, by simp, fun i hi => ?_, fun i hi => ?_⟩
      · exact Or.inl ((h.chef_waits i hi).resolve_right (by simp [hp.1, MainPc.wakes]))
      · exact Or.inl ((h.deliverer_waits i hi).resolve_right (by simp [hp.1, MainPc.wakes]))
  | orders pid customers =>
    simp only [PideShop.step] at hst
    split_ifs at hst with hp
    cases hst
    refine ⟨h.attended, ?_, fun i hi => ?_, fun i hi => ?_⟩
    · rintro orders (hm | ⟨k, hm⟩) o ho
      · cases hm
        simp only [clientOrders, List.mem_mapIdx] at ho
        obtain ⟨j, hj, rfl⟩ := ho
        rfl
      · cases hm
    · exact Or.inl ((h.chef_waits i hi).resolve_right (by simp [hp.1, MainPc.wakes]))
    · exact Or.inl ((h.deliverer_waits i hi).resolve_right (by simp [hp.1, MainPc.wakes]))
  | spuriousChef i =>
    cases hst
    refine ⟨?_, h.placed, fun j hj => ?_, h.deliverer_waits⟩
    · refine h.attended.pass (fun j l hj => ⟨j, ?_⟩) (fun j x hx => Or.inl ⟨j, hx⟩) fun _ => id
      have hsame := apply_update_eq (f := s.chef) (g := ChefPc.slot) (slot_wake (s.chef i)) j
      exact hsame.trans hj
    · rcases eq_or_ne j i with rfl | hji
      · cases hp : s.chef j <;> simp [State.setChef, hp, ChefPc.wake] at hj
      · exact h.chef_waits j (by simpa [State.setChef, hji] using hj)
  | spuriousDeliverer i =>
    simp only [PideShop.step] at hst
    split_ifs at hst with hp
    cases hst
    exact h.moveDeliverer .woken rfl rfl rfl id (by simp)
      (h.attended.carry (by simp [hp, DelivererPc.load]))

theorem attentive_init (c d : ℕ) : Attentive (init c d) where
  attended := ⟨fun k p hp => by simp [Live, init, State.order] at hp,
    fun k p hp => by simp [Live, init, State.order] at hp,
    fun k p hp => by simp [Live, init, State.order] at hp⟩
  placed := by simp [init]
  chef_waits := fun i hi => by cases hi
  deliverer_waits := fun i hi => by cases hi

theorem attentive_of_reach {c d : ℕ} {s : State c d}
    (hr : Reach step AfterNotification (init c d) s) : Served s ∧ Attentive s :=
  hr.invariant (P := fun s => Served s ∧ Attentive s) ⟨served_init c d, attentive_init c d⟩
    fun _ _ _ h ha hst => ⟨h.1.step ha hst, h.2.step h.1.inv hst⟩

/-- A party that an order is with. -/
inductive WithParty {c d : ℕ} (s : State c d) (k : ℕ) (p : Order) : Prop
  | placed (hstatus : p.status = 0) (hplaced : p.isPlaced = 0)
  | chef (hstatus : p.status = 1 ∨ p.status = 2) (hone : ∃! i, (s.chef i).slot = some k)
  | ready (hstatus : p.status = 3)
  | deliverer (hstatus : p.status = 4 ∨ p.status = 5)
      (hone : ∃! i, p.id ∈ (s.deliverer i).load.held)

lemma Attentive.withParty {c d : ℕ} {s : State c d} (h : Attentive s) (hinv : Inv s) {k : ℕ}
    {p : Order} (hp : Live s.order k p) (hopen : p.id ∉ s.delivered) : WithParty s k p := by
  have hle := (hinv.shop.accepted k p hp).2
  by_cases hzero : p.status = 0
  · exact .placed hzero (h.attended.unplaced k p hp hzero)
  by_cases hthree : p.status = 3
  · exact .ready hthree
  by_cases hearly : p.status < 3
  · have hstatus : p.status = 1 ∨ p.status = 2 := by omega
    obtain ⟨i, hi⟩ := h.attended.prepared k p hp hstatus
    refine .chef hstatus ⟨i, hi, fun j hj => ?_⟩
    obtain ⟨⟨l, st⟩, hwork, rfl⟩ := Option.map_eq_some_iff.mp hi
    obtain ⟨⟨l', st'⟩, hwork', heq⟩ := Option.map_eq_some_iff.mp hj
    obtain rfl : l' = l := heq
    exact hinv.shop.apart j i l' st' st hwork' hwork
  · have hstatus : p.status = 4 ∨ p.status = 5 := by omega
    obtain ⟨i, hi⟩ := h.attended.carried k p hp hopen hstatus
    exact .deliverer hstatus ⟨i, hi, fun j hj => hinv.shop.bags j i p.id hj hi⟩

/-- While batches come after notifications, in every interleaving: an undelivered order is
in a slot, where it waits to be picked or collected or is with just one chef or one
deliverer; and whoever waits for orders has none undelivered, or `main` owns the mutex and
will wake it. -/
theorem nobody_sleeps_beside_an_order {c d : ℕ} {s : State c d}
    (hr : Reach step AfterNotification (init c d) s) :
    (∀ o, o < s.allOrders → o ∉ s.delivered →
      ∃ k p, Live s.order k p ∧ p.id = o ∧ WithParty s k p) ∧
    ((∃ i, s.chef i = .waiting) ∨ (∃ i, s.deliverer i = .waiting) →
      (∀ o, o < s.allOrders → o ∈ s.delivered) ∨
        s.mutex = some .main ∧ s.main.wakes = true) := by
  obtain ⟨hserved, h⟩ := attentive_of_reach hr
  have hinv := hserved.inv
  refine ⟨fun o ho hopen => ?_, fun hwaits => ?_⟩
  · obtain ⟨k, p, hp, rfl⟩ := hinv.shop.present o ho hopen
    exact ⟨k, p, hp, rfl, h.withParty hinv hp hopen⟩
  · have hsleep : s.numOrders = 0 ∨ s.main.wakes = true := by
      rcases hwaits with ⟨i, hi⟩ | ⟨i, hi⟩
      · exact h.chef_waits i hi
      · exact h.deliverer_waits i hi
    refine hsleep.imp (fun hzero => ?_) fun hwakes => ⟨?_, hwakes⟩
    · have heq := hinv.orders_eq
      have hlen : s.delivered.length = s.allOrders := by omega
      exact hinv.shop.delivered_length.2.mp hlen
    · refine (hinv.owns .main).mpr ?_
      simp only [State.inside]
      cases hm : s.main <;> simp [hm, MainPc.wakes] at hwakes <;> rfl

/-- A deliverer still waits when the first order of a batch is stored. -/
theorem nobody_sleeps_beside_an_order_stored : ∃ s : State 1 1, s.deliverer 0 = .waiting ∧
    s.allOrders = 1 ∧ s.delivered = [] ∧ s.mutex = some .main ∧ s.main.wakes = true := by
  have hstart : Reach step AfterNotification (init 1 1) _ := Reach.start
  have hwait := hstart.trans (reach_of_run_of_forall [.deliverer 0, .deliverer 0]
    (by
      intro u a ha
      cases a with
      | count n => simp at ha
      | _ => trivial) rfl)
  have hcount := Reach.next hwait (a := .count 1) rfl rfl
  have hstored := hcount.trans (reach_of_run_of_forall
    [.main, .orders 7 [⟨3, 4, 0⟩], .main, .main]
    (by
      intro u a ha
      cases a with
      | count n => simp at ha
      | _ => trivial) rfl)
  have h := nobody_sleeps_beside_an_order hstored
  have hlast := (h.2 (Or.inr ⟨0, rfl⟩)).resolve_left fun hall => by
    have hmem := hall 0 (by decide)
    cases hmem
  exact ⟨_, by rfl, by rfl, by rfl, hlast⟩

end SystemProgramming.PideShop
