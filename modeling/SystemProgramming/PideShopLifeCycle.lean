import SystemProgramming.PideShopBatches

/-!
# Every order is prepared and delivered exactly once

What a client may rely on when every batch comes after the notification for the
batch before it: how the orders in the slots move, and when notifications are
sent.
-/
namespace SystemProgramming.PideShop
open SystemProgramming.Transition SystemProgramming.Monitor

/-- What one step may make of the slot of the order `p`: nothing changes, the
status goes up by one, or the slot of a delivered order is zeroed. -/
def Order.Advances (delivered : List ℕ) (p : Order) (slot : Option Order) : Prop :=
  slot = some p ∨
  (∃ placed, slot = some { p with status := p.status + 1, isPlaced := placed }) ∨
  p.status = 5 ∧ p.id ∈ delivered ∧ slot = some .zero

/-- How one step moves the orders: those in the slots advance, and an order that
was in no slot has the status zero and the next id. -/
structure Progress {c d : ℕ} (s t : State c d) : Prop where
  advances : ∀ k p, Live s.order k p → p.Advances s.delivered (t.order k)
  appears : ∀ k q, Live t.order k q →
    (∃ p, Live s.order k p ∧ p.id = q.id) ∨ q.status = 0 ∧ q.id = s.allOrders

lemma Progress.of_order_eq {c d : ℕ} {s t : State c d} (horder : t.order = s.order) :
    Progress s t where
  advances := fun k p hp => Or.inl (by rw [horder, hp.1])
  appears := fun k q hq => Or.inl ⟨q, horder ▸ hq, rfl⟩

/-- A written slot is rewritten; if it holds an order, that order advances. -/
lemma Progress.of_write {c d : ℕ} {s t : State c d} {k : ℕ} {p q : Order}
    (hk : s.order k = some p) (ht : t.order = Function.update s.order k (some q))
    (hsend : q.send = 1 → p.send = 1 ∧ p.id = q.id)
    (hadv : p.send = 1 → p.Advances s.delivered (some q)) : Progress s t where
  advances := by
    rintro l r ⟨hr, hrs⟩
    rw [ht]
    rcases eq_or_ne l k with rfl | hl
    · obtain rfl : p = r := Option.some.inj (hk.symm.trans hr)
      rw [Function.update_self]
      exact hadv hrs
    · rw [Function.update_of_ne hl, hr]
      exact Or.inl rfl
  appears := by
    intro l r hr
    rw [ht] at hr
    rcases eq_or_ne l k with rfl | hl
    · obtain ⟨hr, hrs⟩ := hr
      obtain rfl : q = r := by simpa using hr
      obtain ⟨hps, hid⟩ := hsend hrs
      exact Or.inl ⟨p, ⟨hk, hps⟩, hid⟩
    · unfold Live at hr
      rw [Function.update_of_ne hl] at hr
      exact Or.inl ⟨r, hr, rfl⟩

lemma order_signalOrder {c d : ℕ} {s t : State c d} {w : Option (Fin c ⊕ Fin d)}
    (hst : signalOrder s w = some t) : t.order = s.order := by
  rcases w with _ | j | j <;> simp only [signalOrder] at hst <;> split_ifs at hst <;> cases hst <;>
    rfl

/-- A chef raises the status of the order in its slot. -/
lemma progress_raise {c d : ℕ} {s t : State c d} (h : Inv s) {i : Fin c} {p : ChefPc} {k st : ℕ}
    {o : Order} (hp : s.chef i = p) (hwork : p.work = some (k, st)) (ho : s.order k = some o)
    (ht : t.order = Function.update s.order k (some { o with status := st + 1 })) :
    Progress s t := by
  subst hp
  obtain ⟨-, hlive, -, hstatus⟩ := h.shop.working_eq hwork ho
  exact .of_write ho ht (fun _ => ⟨hlive.2, rfl⟩)
    fun _ => Or.inr (Or.inl ⟨o.isPlaced, by rw [hstatus]⟩)

lemma progress_chefStep {c d : ℕ} {s t : State c d} {i : Fin c} {w : Option (Fin c ⊕ Fin d)}
    (h : Inv s) (hst : chefStep s i w = some t) : Progress s t := by
  cases hp : s.chef i with
  | scan k =>
    simp only [chefStep, hp] at hst
    split_ifs at hst with hk
    · obtain ⟨o, ho, rfl⟩ := Option.map_eq_some_iff.mp hst
      split_ifs with hfound
      · obtain ⟨hstatus, -, hsend⟩ := hfound
        exact .of_write ho (order_setOrder ho _) (fun _ => ⟨hsend, rfl⟩)
          fun _ => Or.inr (Or.inl ⟨1, by rw [hstatus]⟩)
      · exact .of_order_eq rfl
    · cases hst
      exact .of_order_eq rfl
  | cook k =>
    simp only [chefStep, hp] at hst
    obtain ⟨o, ho, rfl⟩ := Option.map_eq_some_iff.mp hst
    exact progress_raise h hp rfl ho (order_setOrder ho _)
  | ready k =>
    simp only [chefStep, hp] at hst
    obtain ⟨o, ho, rfl⟩ := Option.map_eq_some_iff.mp hst
    exact progress_raise h hp rfl ho (order_setOrder ho _)
  | readySignal =>
    simp only [chefStep, hp] at hst
    exact .of_order_eq ((order_signalOrder hst).trans rfl)
  | unlock o =>
    cases o <;> (simp only [chefStep, hp] at hst; cases hst; exact .of_order_eq rfl)
  | lock | woken | readyLock k =>
    simp only [chefStep, hp] at hst
    obtain ⟨-, rfl⟩ := lock_eq_some hst
    exact .of_order_eq rfl
  | test | acquireTest g k | acquireLock g k | acquireWoken g k | releaseLock g k =>
    simp only [chefStep, hp, lockGate] at hst
    split_ifs at hst <;> (cases hst; exact .of_order_eq rfl)
  | releaseSignal g k =>
    simp only [chefStep, hp] at hst
    obtain ⟨pc, -, rfl⟩ := Option.map_eq_some_iff.mp hst
    exact .of_order_eq rfl
  | waiting | acquireWait g k => simp [chefStep, hp] at hst
  | acquire g k | acquireUnlock g k | release g k | releaseUnlock g k | readyUnlock =>
    simp only [chefStep, hp] at hst
    cases hst
    exact .of_order_eq rfl

lemma progress_delivererStep {c d : ℕ} {s t : State c d} {i : Fin d} (h : Inv s)
    (hst : delivererStep s i = some t) : Progress s t := by
  cases hp : s.deliverer i with
  | scan k bag =>
    simp only [delivererStep, hp] at hst
    split_ifs at hst with hk
    · obtain ⟨o, ho, rfl⟩ := Option.map_eq_some_iff.mp hst
      split_ifs with hready
      · exact .of_write ho (order_setOrder ho _) (fun hs => ⟨hs, rfl⟩)
          fun _ => Or.inr (Or.inl ⟨o.isPlaced, by rw [hready]⟩)
      · exact .of_order_eq rfl
    · cases hst
      exact .of_order_eq rfl
  | mark o rest k =>
    simp only [delivererStep, hp] at hst
    split_ifs at hst with hk
    · obtain ⟨p, ho, rfl⟩ := Option.map_eq_some_iff.mp hst
      split_ifs with hid
      · refine .of_write ho (order_setOrder ho _) (fun hs => ⟨hs, rfl⟩) fun hs => ?_
        have hheld : p.id ∈ (s.view.load i).held := by
          simp [State.view, hp, DelivererPc.load, hid]
        have hstatus : p.status = 4 := by
          simpa [State.view, hp, DelivererPc.load] using (h.shop.status_of_held ⟨ho, hs⟩ hheld).1
        exact Or.inr (Or.inl ⟨p.isPlaced, by rw [hstatus]⟩)
      · exact .of_order_eq rfl
    · cases hst
      exact .of_order_eq rfl
  | clear o rest k =>
    simp only [delivererStep, hp] at hst
    split_ifs at hst with hk
    · obtain ⟨p, ho, rfl⟩ := Option.map_eq_some_iff.mp hst
      split_ifs with hid
      · refine .of_write ho (order_setOrder ho _) (by simp [Order.zero]) fun hs => ?_
        obtain ⟨hdel, hrest⟩ := h.shop.cleared i o.id k (by simp [State.view, hp, DelivererPc.load])
        exact Or.inr (Or.inr ⟨(hrest k p ⟨ho, hs⟩ hid).2, hid ▸ hdel, rfl⟩)
      · exact .of_order_eq rfl
    · cases hst
      exact .of_order_eq rfl
  | lock | woken | deliver bag =>
    simp only [delivererStep, hp] at hst
    obtain ⟨-, rfl⟩ := lock_eq_some hst
    exact .of_order_eq rfl
  | waiting => simp [delivererStep, hp] at hst
  | test =>
    simp only [delivererStep, hp] at hst
    split_ifs at hst <;> (cases hst; exact .of_order_eq rfl)
  | unlock bag | count o rest | tally rest | check rest | notifyReset rest | notifySend rest
  | finish =>
    simp only [delivererStep, hp] at hst
    cases hst
    exact .of_order_eq rfl

/-- `main` stores an order where none was, and replaces the table only when it
holds none. -/
lemma progress_mainStep {c d : ℕ} {s t : State c d} (h : Inv s)
    (hst : mainStep s = some t) : Progress s t := by
  cases hp : s.main with
  | accept | orders => simp [mainStep, hp] at hst
  | realloc =>
    have hquiet := h.stock.replacing hp
    simp only [mainStep, hp] at hst
    cases hst
    refine ⟨fun k p hk => absurd hk (h.shop.not_live hquiet k p), fun k q hk => ?_⟩
    have hnone := hk.1
    simp only [State.order, List.getElem?_replicate] at hnone
    split_ifs at hnone <;> cases hnone
  | lock orders =>
    simp only [mainStep, hp] at hst
    obtain ⟨-, rfl⟩ := lock_eq_some hst
    exact .of_order_eq rfl
  | fill k orders =>
    obtain ⟨hbelow, -⟩ := h.stock.filling k orders hp
    obtain ⟨-, hplaced⟩ := h.stock.placed orders (Or.inr ⟨k, hp⟩)
    simp only [mainStep, hp] at hst
    by_cases hk : (k : ℤ) < s.maxOrder
    · rw [if_pos hk] at hst
      obtain ⟨o, ho, hst⟩ := Option.bind_eq_some_iff.mp hst
      have hstatus := hplaced o (List.mem_of_getElem? ho)
      rw [if_pos hstatus] at hst
      split_ifs at hst with hlt
      cases hst
      have hread := order_setOrder_of_lt hlt { o with send := 1, id := s.allOrders }
      refine ⟨fun l p hl => Or.inl ?_, fun l q hl => ?_⟩
      · have hne : l ≠ k := (hbelow l p hl.1 hl.2).ne
        exact ((congrFun hread l).trans (Function.update_of_ne hne ..)).trans hl.1
      · have hl' : Live (Function.update s.order k
            (some { o with send := 1, id := s.allOrders })) l q := hread ▸ hl
        rcases (live_update rfl).mp hl' with ⟨-, rfl⟩ | ⟨-, hold⟩
        · exact Or.inr ⟨hstatus, rfl⟩
        · exact Or.inl ⟨q, hold, rfl⟩
    · rw [if_neg hk] at hst
      cases hst
      exact .of_order_eq rfl
  | broadcast | unlock =>
    simp only [mainStep, hp] at hst
    cases hst
    exact .of_order_eq rfl

theorem progress_step {c d : ℕ} {s t : State c d} {a : Act c d} (h : Inv s)
    (hst : step s a = some t) : Progress s t := by
  cases a with
  | count n | orders pid customers | spuriousDeliverer i =>
    simp only [step] at hst
    split_ifs at hst <;> (cases hst; exact .of_order_eq rfl)
  | main => exact progress_mainStep h hst
  | chef i w => exact progress_chefStep h hst
  | deliverer i => exact progress_delivererStep h hst
  | spuriousChef i =>
    cases hst
    exact .of_order_eq rfl

/-- The slot the next statement of a chef or a deliverer reads. -/
def State.reads {c d : ℕ} (s : State c d) : Thread c d → Option ℕ
  | .chef i => match s.chef i with
    | .scan k => if (k : ℤ) < s.maxOrder then some k else none
    | .cook k | .ready k => some k
    | _ => none
  | .deliverer i => match s.deliverer i with
    | .scan k bag =>
      if (k : ℤ) < s.maxOrder ∧ bag.length < maxDeliveryBagCapacity then some k else none
    | .mark _ _ k | .clear _ _ k => if (k : ℤ) < s.maxOrder then some k else none
    | _ => none
  | .main => none

lemma Inv.numOrders_eq_zero {c d : ℕ} {s : State c d} (h : Inv s) (hq : s.view.Quiet) :
    s.numOrders = 0 := by
  have hall : s.delivered.length = s.allOrders := h.shop.delivered_length.2.mpr hq.1
  rw [h.orders_eq, hall, sub_self]

/-- While a chef or a deliverer is inside `ordersMutex` and something is
undelivered, the whole table is written. -/
lemma Inv.written {c d : ℕ} {s : State c d} (h : Inv s) {t : Thread c d}
    (ht : s.inside t = true) (hmain : t ≠ .main) (hq : ¬ s.view.Quiet) {k : ℕ}
    (hk : (k : ℤ) < s.maxOrder) : (s.order k).isSome = true := by
  have hrealloc : s.main ≠ .realloc := fun hm => hq (h.stock.replacing hm)
  have hfill : ∀ m orders, s.main ≠ .fill m orders := by
    intro m orders hm
    exact hmain (h.owns.unique ht (u := .main) (by simp [State.inside, hm, MainPc.inside]))
  have hlen := h.stock.length_eq hrealloc
  exact (h.stock.written hfill hrealloc).resolve_left hq k (by omega)

theorem Inv.reads_written {c d : ℕ} {s : State c d} (h : Inv s) {t : Thread c d} {k : ℕ}
    (hk : s.reads t = some k) : (s.order k).isSome = true := by
  have hworking : ∀ i st, (s.chef i).work = some (k, st) → (s.order k).isSome = true := by
    intro i st hi
    obtain ⟨-, p, hp, -⟩ := h.shop.working i k st hi
    exact Option.isSome_of_eq_some hp.1
  cases t with
  | main => simp [State.reads] at hk
  | chef i =>
    cases hp : s.chef i <;> simp only [State.reads, hp, reduceCtorEq] at hk
    case scan m =>
      obtain ⟨hlt, ⟨⟩⟩ := Option.ite_none_right_eq_some.mp hk
      have hopen := h.chef_scans i (by rw [hp]; rfl)
      exact h.written (t := .chef i) (by simp [State.inside, hp, ChefPc.inside]) (by simp)
        (fun hq => hopen (h.numOrders_eq_zero hq)) hlt
    case cook m | ready m =>
      obtain rfl := Option.some.inj hk
      exact hworking i _ (by rw [hp]; rfl)
  | deliverer i =>
    have hin : s.inside (.deliverer i) = (s.deliverer i).inside := rfl
    cases hp : s.deliverer i <;> simp only [State.reads, hp, reduceCtorEq] at hk
    case scan m bag =>
      obtain ⟨⟨hlt, -⟩, ⟨⟩⟩ := Option.ite_none_right_eq_some.mp hk
      have hopen := h.deliverer_scans i (by rw [hp]; rfl)
      exact h.written (hin.trans (by rw [hp]; rfl)) (by simp)
        (fun hq => hopen (h.numOrders_eq_zero hq)) hlt
    case mark o rest m =>
      obtain ⟨hlt, ⟨⟩⟩ := Option.ite_none_right_eq_some.mp hk
      exact h.written (hin.trans (by rw [hp]; rfl)) (by simp)
        (h.not_quiet (i := i) (Or.inl (by simp [hp, DelivererPc.load]))) hlt
    case clear o rest m =>
      obtain ⟨hlt, ⟨⟩⟩ := Option.ite_none_right_eq_some.mp hk
      exact h.written (hin.trans (by rw [hp]; rfl)) (by simp)
        (h.not_quiet (i := i) (Or.inr (by simp [hp, DelivererPc.load]))) hlt

/-- Nobody inside `ordersMutex` is between a count and the next order. -/
lemma Inv.all_outside {c d : ℕ} {s : State c d} (h : Inv s) (hfree : s.mutex = none) (i : Fin d) :
    s.book.stage i = .outside := by
  by_contra hi
  have howner := (h.owns (.deliverer i)).mpr (inside_of_stage hi)
  simp [hfree] at howner

/-- The life of the orders in a run. An accepted order is in a slot until it is
delivered; it has been picked by one chef once its status is one, and collected
by one deliverer once its status is four. There is one notification for every
batch, and it comes after the last order of the batch. -/
structure LifeCycle {c d : ℕ} (s : State c d) : Prop where
  present : ∀ o, o < s.allOrders → o ∉ s.delivered → ∃ k p, Live s.order k p ∧ p.id = o
  picked : ∀ k p, Live s.order k p → (s.picks p.id).length = if p.status = 0 then 0 else 1
  collected : ∀ k p, Live s.order k p → (s.collects p.id).length = if p.status < 4 then 0 else 1
  served : ∀ o, o ∈ s.delivered → (s.picks o).length = 1 ∧ (s.collects o).length = 1
  delivered_once : s.delivered.Nodup ∧ ∀ o, o ∈ s.delivered → o < s.allOrders
  numOrders_eq : s.numOrders = s.allOrders - s.delivered.length
  progress : ∀ a t, AfterNotification s a → step s a = some t → Progress s t
  reads_written : ∀ t k, s.reads t = some k → (s.order k).isSome = true
  notified_le : s.notified ≤ s.sizes.length ∧ s.sizes.length ≤ s.notified + 1
  notified_after : s.notified = s.sizes.length →
    s.allOrders = s.sizes.sum ∧ s.delivered.length = s.sizes.sum ∧
      ∑ i, s.totalDelivered i = s.sizes.sum
  notified_all : s.mutex = none → s.delivered.length = s.sizes.sum →
    s.notified = s.sizes.length

lemma Served.lifeCycle {c d : ℕ} {s : State c d} (h : Served s) : LifeCycle s where
  present := h.inv.shop.present
  picked := h.inv.shop.picked
  collected := h.inv.shop.collected
  served := h.inv.shop.served
  delivered_once := ⟨h.inv.shop.delivered_nodup, h.inv.shop.delivered_lt⟩
  numOrders_eq := h.inv.orders_eq
  progress := fun _ _ _ hst => progress_step h.inv hst
  reads_written := fun _ _ hk => h.inv.reads_written hk
  notified_le := by
    rcases h.ledger.phase with hidle | ⟨n, rest, hbusy⟩
    · have hnot : s.notified = s.sizes.length := hidle.notified_eq
      omega
    · have hnot : s.notified = rest.length := hbusy.notified_eq
      have hsizes : s.sizes = n :: rest := hbusy.sizes_eq
      simp [hnot, hsizes]
  notified_after := by
    intro hn
    have hidle := h.ledger.idle hn
    have hstored := h.ledger.stored
    rw [hidle.all_stored, add_zero] at hstored
    have hall : s.delivered.length = s.allOrders := hidle.all_delivered
    have hsum : s.allOrders = s.sizes.sum := Int.ofNat_inj.mp hstored
    exact ⟨hsum, hall.trans hsum, h.inv.total_eq.trans (hall.trans hsum)⟩
  notified_all := by
    intro hfree hall
    rcases h.ledger.phase with hidle | ⟨n, rest, hbusy⟩
    · exact hidle.notified_eq
    · have hlt := hbusy.undelivered (h.inv.all_outside hfree)
      exact absurd hall hlt.ne

/-- Whatever the interleaving of chefs, deliverers and `main`, when every batch
comes after the notification for the batch before it, each order is prepared and
delivered once, and the deliverers' totals grow by the size of each batch from
one notification to the next. -/
theorem life_cycle {c d : ℕ} {s : State c d} (hr : Reach step AfterNotification (init c d) s) :
    LifeCycle s ∧
    ∀ t n, Reach step AfterNotification s t → s.notified = s.sizes.length →
      t.notified = t.sizes.length → t.sizes = n :: s.sizes →
      ∑ i, t.totalDelivered i = ∑ i, s.totalDelivered i + n := by
  have hs := (served_of_reach hr).lifeCycle
  refine ⟨hs, fun t n ht hns hnt hsizes => ?_⟩
  have htl := (served_of_reach (hr.trans ht)).lifeCycle
  rw [(htl.notified_after hnt).2.2, (hs.notified_after hns).2.2, hsizes, List.sum_cons]
  exact Nat.add_comm ..

set_option maxRecDepth 8000 in
/-- The second client comes after the notification for the first, and its two orders are
prepared and delivered. -/
theorem life_cycle_two_batches : ∃ s t : State 1 1,
    s.delivered = [0] ∧ s.notified = 1 ∧ t.delivered = [0, 1, 2] ∧ t.picks 2 = [0] ∧
      t.collects 2 = [0] ∧ t.notified = 2 ∧ LifeCycle t ∧
      ∑ i, t.totalDelivered i = ∑ i, s.totalDelivered i + 2 := by
  have hfirst : Reach step AfterNotification (init 1 1) _ := reach_of_checked_run firstBatch rfl
  have hboth : Reach step AfterNotification (init 1 1) _ :=
    hfirst.trans (reach_of_checked_run (secondBatch ++ workers 67 28) rfl)
  exact ⟨_, _, by rfl, by rfl, by rfl, by rfl, by rfl, by rfl, (life_cycle hboth).1,
    (life_cycle hfirst).2 _ 2 (reach_of_checked_run (secondBatch ++ workers 67 28) rfl)
      (by rfl) (by rfl) (by rfl)⟩

end SystemProgramming.PideShop
