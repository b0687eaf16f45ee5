import SystemProgramming.OrderTable
import Mathlib.Algebra.BigOperators.Group.Finset.Basic
import Mathlib.Data.List.Perm.Subperm
import Mathlib.Data.Fintype.BigOperators

/-!
# No order is lost while batches do not overlap

The invariant of the shop. It holds in every run in which `main` replaces the
table, and starts to fill it, only while no accepted order is undelivered.
-/
namespace SystemProgramming.PideShop
open SystemProgramming.Transition SystemProgramming.Monitor

def ChefPc.inside : ChefPc → Bool
  | .test | .scan _ | .unlock _ | .ready _ | .readySignal | .readyUnlock => true
  | _ => false

def DelivererPc.inside : DelivererPc → Bool
  | .test | .scan _ _ | .unlock _ | .mark _ _ _ | .count _ _ | .clear _ _ _ | .tally _ | .check _
  | .notifyReset _ | .notifySend _ | .finish => true
  | _ => false

def MainPc.inside : MainPc → Bool
  | .fill _ _ | .broadcast | .unlock => true
  | _ => false

/-- Who is inside `ordersMutex`. -/
def State.inside {c d : ℕ} (s : State c d) : Thread c d → Bool
  | .chef i => (s.chef i).inside
  | .deliverer i => (s.deliverer i).inside
  | .main => s.main.inside

/-- The slot a chef works on and the status of its order. -/
def ChefPc.work : ChefPc → Option (ℕ × ℕ)
  | .unlock (some k) | .acquireLock _ k | .acquireTest _ k | .acquireWait _ k | .acquireWoken _ k
  | .acquire _ k | .cook k => some (k, 1)
  | .acquireUnlock g k => some (k, if g = .oven then 2 else 1)
  | .releaseLock _ k | .release _ k | .releaseSignal _ k | .releaseUnlock _ k | .readyLock k
  | .ready k => some (k, 2)
  | _ => none

/-- Orders have status four in the bag and five behind the index of the marking loop. -/
def DelivererPc.load : DelivererPc → Load
  | .scan _ bag | .unlock bag | .deliver bag => ⟨bag.map Order.id, fun _ _ => 4, none⟩
  | .mark o rest m =>
    ⟨o.id :: rest.map Order.id, fun k x => if x = o.id ∧ k < m then 5 else 4, none⟩
  | .count o rest => ⟨o.id :: rest.map Order.id, fun _ x => if x = o.id then 5 else 4, none⟩
  | .clear o rest m => ⟨rest.map Order.id, fun _ _ => 4, some (o.id, m)⟩
  | .tally rest | .check rest | .notifyReset rest | .notifySend rest =>
    ⟨rest.map Order.id, fun _ _ => 4, none⟩
  | _ => ⟨[], fun _ _ => 4, none⟩

def ChefPc.scans : ChefPc → Bool
  | .scan _ => true
  | _ => false

def DelivererPc.scans : DelivererPc → Bool
  | .scan _ _ => true
  | _ => false

def State.view {c d : ℕ} (s : State c d) : View c d where
  order := s.order
  accepted := s.allOrders
  delivered := s.delivered
  work := fun i => (s.chef i).work
  holding := s.holding
  load := fun i => (s.deliverer i).load
  picks := s.picks
  collects := s.collects

/-- Every accepted order is delivered, and no deliverer still clears one. -/
def View.Quiet {c d : ℕ} (v : View c d) : Prop :=
  (∀ o, o < v.accepted → o ∈ v.delivered) ∧ ∀ i, (v.load i).clearing = none

lemma View.Quiet.congr {c d : ℕ} {v : View c d} (h : v.Quiet) {load : Fin d → Load}
    (hload : load = v.load) : { v with load := load }.Quiet := by
  subst hload
  exact h

/-- In a quiet shop no slot holds an order. -/
lemma Shop.not_live {c d : ℕ} {v : View c d} (h : Shop v) (hq : v.Quiet) (k : ℕ) (p : Order) :
    ¬ Live v.order k p := by
  intro hp
  obtain ⟨i, m, hi⟩ := h.clearing k p hp (hq.1 p.id (h.accepted k p hp).1)
  simp [hq.2 i] at hi

lemma Shop.not_held {c d : ℕ} {v : View c d} (h : Shop v) (hq : v.Quiet) (i : Fin d) (o : ℕ) :
    o ∉ (v.load i).held := by
  intro ho
  obtain ⟨-, k, p, hp, -⟩ := h.bag i o ho
  exact h.not_live hq k p hp

/-- Delivered orders are distinct and accepted, so counting them decides the rest. -/
lemma Shop.delivered_length {c d : ℕ} {v : View c d} (h : Shop v) :
    v.delivered.length ≤ v.accepted ∧
    (v.delivered.length = v.accepted ↔ ∀ o, o < v.accepted → o ∈ v.delivered) := by
  have hsub : v.delivered.Subperm (List.range v.accepted) :=
    h.delivered_nodup.subperm fun o ho => List.mem_range.mpr (h.delivered_lt o ho)
  have hle := hsub.length_le
  rw [List.length_range] at hle
  refine ⟨hle, fun heq o ho => ?_, fun hall => ?_⟩
  · have hperm := hsub.perm_of_length_le (by rw [List.length_range, heq])
    exact hperm.mem_iff.mpr (List.mem_range.mpr ho)
  · have hback := (List.nodup_range (n := v.accepted)).subperm fun o ho =>
      hall o (List.mem_range.mp ho)
    have := hback.length_le
    rw [List.length_range] at this
    omega

/-- The table as `main` leaves it: of the announced size except while it is being
replaced, which happens only in a quiet shop; written up to the index of the
filling loop; and, outside that loop, written completely unless the shop is quiet. -/
structure Stock (main : MainPc) (maxOrder : ℤ) (table : List (Option Order)) (quiet : Prop) :
    Prop where
  length_eq : main ≠ .realloc → table.length = maxOrder.toNat
  replacing : main = .realloc → quiet
  filling : ∀ k orders, main = .fill k orders →
    (∀ l p, (table[l]?).join = some p → p.send = 1 → l < k) ∧
    ∀ l, l < k → l < table.length → ((table[l]?).join).isSome = true
  written : (∀ k orders, main ≠ .fill k orders) → main ≠ .realloc →
    quiet ∨ ∀ l, l < table.length → ((table[l]?).join).isSome = true
  placed : ∀ orders, (main = .lock orders ∨ ∃ k, main = .fill k orders) →
    (orders.length : ℤ) = maxOrder ∧ ∀ o, o ∈ orders → o.status = 0

structure Inv {c d : ℕ} (s : State c d) : Prop where
  owns : Owns s.mutex s.inside
  shop : Shop s.view
  stock : Stock s.main s.maxOrder s.table s.view.Quiet
  orders_eq : s.numOrders = s.allOrders - s.delivered.length
  total_eq : ∑ i, s.totalDelivered i = s.delivered.length
  chef_scans : ∀ i, (s.chef i).scans = true → s.numOrders ≠ 0
  deliverer_scans : ∀ i, (s.deliverer i).scans = true → s.numOrders ≠ 0

theorem inv_init (c d : ℕ) : Inv (init c d) where
  owns := owns_none.mpr fun t => by cases t <;> rfl
  shop := by
    constructor <;> simp [init, State.view, Live, State.order, ChefPc.work, DelivererPc.load]
  stock := by constructor <;> simp [init]
  orders_eq := rfl
  total_eq := by simp [init]
  chef_scans := by simp [init, ChefPc.scans]
  deliverer_scans := by simp [init, DelivererPc.scans]

lemma work_update {c : ℕ} (chef : Fin c → ChefPc) (i : Fin c) (q : ChefPc) :
    (fun j => (Function.update chef i q j).work) =
      Function.update (fun j => (chef j).work) i q.work :=
  Function.comp_update ChefPc.work chef i q

lemma load_update {d : ℕ} (deliverer : Fin d → DelivererPc) (i : Fin d) (q : DelivererPc) :
    (fun j => (Function.update deliverer i q j).load) =
      Function.update (fun j => (deliverer j).load) i q.load :=
  Function.comp_update DelivererPc.load deliverer i q

lemma work_update_eq {c : ℕ} {chef : Fin c → ChefPc} {i : Fin c} {q : ChefPc}
    (hq : q.work = (chef i).work) :
    (fun j => (Function.update chef i q j).work) = fun j => (chef j).work :=
  funext (apply_update_eq hq)

lemma load_update_eq {d : ℕ} {deliverer : Fin d → DelivererPc} {i : Fin d} {q : DelivererPc}
    (hq : q.load = (deliverer i).load) :
    (fun j => (Function.update deliverer i q j).load) = fun j => (deliverer j).load :=
  funext (apply_update_eq hq)

/-- A flag of the program counters holds where it held unless the new statement has it. -/
lemma forall_update {ι α : Type*} [DecidableEq ι] {pc : ι → α} {i : ι} {q : α} {f : α → Bool}
    {P : Prop} (h : ∀ j, f (pc j) = true → P) (hq : f q = true → P) (j : ι)
    (hj : f (Function.update pc i q j) = true) : P :=
  (Function.forall_update_iff pc fun _ p => f p = true → P).mpr ⟨hq, fun j _ => h j⟩ j hj

lemma order_setOrder_of_lt {c d : ℕ} {s : State c d} {k : ℕ} (hk : k < s.table.length)
    (q : Order) : (s.setOrder k q).order = Function.update s.order k (some q) := by
  funext l
  rcases eq_or_ne l k with rfl | hl
  · simp [State.order, State.setOrder, hk]
  · simp [State.order, State.setOrder, hl, hl.symm]

/-- Writing a slot that has been written before. -/
lemma order_setOrder {c d : ℕ} {s : State c d} {k : ℕ} {p : Order} (hk : s.order k = some p)
    (q : Order) : (s.setOrder k q).order = Function.update s.order k (some q) := by
  apply order_setOrder_of_lt
  by_contra hge
  simp [State.order, List.getElem?_eq_none (not_lt.mp hge)] at hk

lemma Stock.mono {main : MainPc} {maxOrder : ℤ} {table : List (Option Order)} {P Q : Prop}
    (h : Stock main maxOrder table P) (himp : P → Q) : Stock main maxOrder table Q :=
  ⟨h.length_eq, fun hm => himp (h.replacing hm), h.filling,
    fun hm hr => (h.written hm hr).imp_left himp, h.placed⟩

/-- `main` moves between statements that neither replace nor fill the table. -/
lemma Stock.move {main q : MainPc} {maxOrder : ℤ} {table : List (Option Order)} {P : Prop}
    (h : Stock main maxOrder table P) (hmain : main ≠ .realloc ∧ ∀ k orders, main ≠ .fill k orders)
    (hq : q ≠ .realloc ∧ ∀ k orders, q ≠ .fill k orders)
    (hplaced : ∀ orders, q = .lock orders →
      (orders.length : ℤ) = maxOrder ∧ ∀ o, o ∈ orders → o.status = 0) :
    Stock q maxOrder table P where
  length_eq _ := h.length_eq hmain.1
  replacing hr := absurd hr hq.1
  filling k orders hf := absurd hf (hq.2 k orders)
  written _ _ := h.written hmain.2 hmain.1
  placed orders hm := by
    rcases hm with hlock | ⟨k, hfill⟩
    · exact hplaced orders hlock
    · exact absurd hfill (hq.2 k orders)

/-- Rewriting a written slot keeps the table of `main`, provided no order appears. -/
lemma Stock.write {main : MainPc} {maxOrder : ℤ} {table : List (Option Order)} {P Q : Prop}
    (h : Stock main maxOrder table P) {k : ℕ} {p q : Order} (hk : (table[k]?).join = some p)
    (hsend : q.send = 1 → p.send = 1) (himp : P → Q) :
    Stock main maxOrder (table.set k (some q)) Q := by
  have hread : ∀ l : ℕ, ((table.set k (some q))[l]?).join =
      if l = k then some q else (table[l]?).join := by
    intro l
    split_ifs with hl
    · subst hl
      have hlt : l < table.length := by
        by_contra hge
        simp [List.getElem?_eq_none (not_lt.mp hge)] at hk
      simp [hlt]
    · simp [Ne.symm hl]
  have hsome : ∀ l : ℕ, ((table[l]?).join).isSome = true →
      (((table.set k (some q))[l]?).join).isSome = true := by
    intro l hl
    rw [hread]
    split_ifs
    · rfl
    · exact hl
  refine ⟨by simpa using h.length_eq, fun hm => himp (h.replacing hm), ?_, ?_, h.placed⟩
  · intro m orders hm
    obtain ⟨hlt, hwritten⟩ := h.filling m orders hm
    refine ⟨fun l o ho hs => ?_, fun l hl hlen => hsome l (hwritten l hl (by simpa using hlen))⟩
    rw [hread] at ho
    split_ifs at ho with hlk
    · subst hlk
      obtain rfl := Option.some.inj ho
      exact hlt l p hk (hsend hs)
    · exact hlt l o ho hs
  · intro hm hr
    exact (h.written hm hr).imp himp fun hw l hl => hsome l (hw l (by simpa using hl))

/-- A chef moves without touching the table. -/
lemma Inv.moveChef {c d : ℕ} {s : State c d} (h : Inv s) {i : Fin c} {p : ChefPc}
    (hp : s.chef i = p) (q : ChefPc) (m : Option (Thread c d)) (oven : Oven c)
    (hm : Handover (.chef i) p.inside q.inside s.mutex m) (hwork : q.work = p.work)
    (hscan : q.scans = true → s.numOrders ≠ 0) :
    Inv { s.setChef i q with mutex := m, oven := oven } := by
  subst hp
  refine ⟨h.owns.move (.chef i) ?_ (by simpa [State.inside, State.setChef] using hm),
    h.shop.congr rfl (work_update_eq hwork) rfl, h.stock, h.orders_eq,
    h.total_eq, forall_update h.chef_scans hscan, h.deliverer_scans⟩
  intro t ht
  cases t with
  | chef j =>
    have hji : j ≠ i := fun hji => ht (hji ▸ rfl)
    simp [State.inside, State.setChef, hji]
  | _ => rfl

/-- A deliverer moves without touching the table or its load. -/
lemma Inv.moveDeliverer {c d : ℕ} {s : State c d} (h : Inv s) {i : Fin d} {p : DelivererPc}
    (hp : s.deliverer i = p) (q : DelivererPc) (m : Option (Thread c d)) (counted : ℤ)
    (notified : ℕ) (hm : Handover (.deliverer i) p.inside q.inside s.mutex m)
    (hload : q.load = p.load) (hscan : q.scans = true → s.numOrders ≠ 0) :
    Inv { s.setDeliverer i q with
      mutex := m, deliveredOrders := counted, notified := notified } := by
  subst hp
  have hload' := load_update_eq hload
  refine ⟨h.owns.move (.deliverer i) ?_ (by simpa [State.inside, State.setDeliverer] using hm),
    h.shop.congr rfl rfl hload',
    h.stock.mono fun hq => hq.congr hload', h.orders_eq, h.total_eq, h.chef_scans,
    forall_update h.deliverer_scans hscan⟩
  intro t ht
  cases t with
  | deliverer j =>
    have hji : j ≠ i := fun hji => ht (hji ▸ rfl)
    simp [State.inside, State.setDeliverer, hji]
  | _ => rfl

/-- Wake-ups change nothing but who waits. -/
lemma Inv.wake {c d : ℕ} {s : State c d} (h : Inv s) {chef : Fin c → ChefPc}
    {deliverer : Fin d → DelivererPc}
    (hc : ∀ i, chef i = s.chef i ∨ chef i = (s.chef i).wake)
    (hd : ∀ i, deliverer i = s.deliverer i ∨ s.deliverer i = .waiting ∧ deliverer i = .woken) :
    Inv { s with chef := chef, deliverer := deliverer } := by
  have hchef : ∀ {γ : Type} (f : ChefPc → γ), (∀ p, f p.wake = f p) →
      ∀ i, f (chef i) = f (s.chef i) := by
    intro γ f hf i
    rcases hc i with heq | heq
    · rw [heq]
    · rw [heq, hf]
  have hdel : ∀ {γ : Type} (f : DelivererPc → γ), f .woken = f .waiting →
      ∀ i, f (deliverer i) = f (s.deliverer i) := by
    intro γ f hf i
    rcases hd i with heq | ⟨hold, hnew⟩
    · rw [heq]
    · rw [hnew, hold, hf]
  have hwork : (fun i => (chef i).work) = fun i => (s.chef i).work :=
    funext (hchef ChefPc.work fun p => by cases p <;> rfl)
  have hload : (fun i => (deliverer i).load) = fun i => (s.deliverer i).load :=
    funext (hdel DelivererPc.load rfl)
  refine ⟨h.owns.congr ?_, h.shop.congr rfl hwork hload,
    h.stock.mono fun hq => hq.congr hload, h.orders_eq, h.total_eq, ?_, ?_⟩
  · intro t
    cases t with
    | chef i => exact hchef ChefPc.inside (fun p => by cases p <;> rfl) i
    | deliverer i => exact hdel DelivererPc.inside rfl i
    | main => rfl
  · intro i hi
    exact h.chef_scans i (by rwa [← hchef ChefPc.scans (fun p => by cases p <;> rfl) i])
  · intro i hi
    exact h.deliverer_scans i (by rwa [← hdel DelivererPc.scans rfl i])

lemma lock_eq_some {c d : ℕ} {s s' u : State c d} {t : Thread c d} (h : s.lock t s' = some u) :
    s.mutex = none ∧ u = { s' with mutex := some t } := by
  unfold State.lock at h
  split_ifs at h with hfree
  cases h
  exact ⟨hfree, rfl⟩

lemma ChefPc.inside_of_scans {p : ChefPc} (h : p.scans = true) : p.inside = true := by
  cases p <;> simp_all [ChefPc.scans, ChefPc.inside]

lemma DelivererPc.inside_of_scans {p : DelivererPc} (h : p.scans = true) : p.inside = true := by
  cases p <;> simp_all [DelivererPc.scans, DelivererPc.inside]

/-- Whoever is inside is the only one that scans. -/
lemma Inv.scans_unique {c d : ℕ} {s : State c d} (h : Inv s) {t : Thread c d}
    (ht : s.inside t = true) :
    (∀ i, (s.chef i).scans = true → t = .chef i) ∧
    ∀ i, (s.deliverer i).scans = true → t = .deliverer i := by
  constructor
  · intro i hi
    exact h.owns.unique ht (ChefPc.inside_of_scans hi)
  · intro i hi
    exact h.owns.unique ht (DelivererPc.inside_of_scans hi)

/-- The scanning chef has found an order to prepare. -/
lemma Inv.pick {c d : ℕ} {s : State c d} (h : Inv s) {i : Fin c} {k : ℕ} {o : Order}
    (hp : s.chef i = .scan k) (ho : s.order k = some o) (hstatus : o.status = 0)
    (hsend : o.send = 1) :
    Inv { (s.setOrder k { o with status := 1, isPlaced := 1 }).setChef i (.unlock (some k)) with
      picks := Function.update s.picks o.id (s.picks o.id ++ [i])
      holding := Function.update s.holding i o.id } := by
  have hshop : Shop { s.view with
      order := Function.update s.order k (some { o with status := 1, isPlaced := 1 })
      work := Function.update s.view.work i (some (k, 1))
      holding := Function.update s.holding i o.id
      picks := Function.update s.picks o.id (s.picks o.id ++ [i]) } :=
    h.shop.pick ⟨ho, hsend⟩ hstatus
  refine ⟨h.owns.congr ?_, hshop.congr (order_setOrder ho _) (work_update ..) rfl,
    h.stock.write ho id id, h.orders_eq, h.total_eq,
    forall_update h.chef_scans (by simp [ChefPc.scans]), h.deliverer_scans⟩
  intro t
  cases t with
  | chef j =>
    rcases eq_or_ne j i with rfl | hji
    · simp [State.inside, State.setChef, hp, ChefPc.inside]
    · simp [State.inside, State.setChef, State.setOrder, hji]
  | _ => rfl

/-- A chef writes the status of the order it works on. -/
lemma Inv.advance {c d : ℕ} {s : State c d} (h : Inv s) {i : Fin c} {k st st' : ℕ} {o : Order}
    {p q : ChefPc} (hp : s.chef i = p) (hwork : p.work = some (k, st)) (ho : s.order k = some o)
    (hnext : st' = 2 ∧ q.work = some (k, 2) ∨ st' = 3 ∧ q.work = none)
    (hinside : q.inside = p.inside) (hscan : q.scans = false) :
    Inv ((s.setOrder k { o with status := st' }).setChef i q) := by
  subst hp
  have hshop : Shop { s.view with
      order := Function.update s.order k (some { o with status := st' })
      work := Function.update s.view.work i q.work } := h.shop.advance hwork ho hnext
  refine ⟨h.owns.congr ?_, hshop.congr (order_setOrder ho _) (work_update ..) rfl,
    h.stock.write ho id id, h.orders_eq, h.total_eq,
    forall_update h.chef_scans (by simp [hscan]), h.deliverer_scans⟩
  intro t
  cases t with
  | chef j =>
    rcases eq_or_ne j i with rfl | hji
    · simp [State.inside, State.setChef, hinside]
    · simp [State.inside, State.setChef, State.setOrder, hji]
  | _ => rfl

/-- A deliverer that stays inside `ordersMutex` keeps its owner. -/
lemma owns_setDeliverer {c d : ℕ} {s t : State c d} {i : Fin d} {q : DelivererPc}
    (h : Owns s.mutex s.inside) (hmutex : t.mutex = s.mutex) (hchef : t.chef = s.chef)
    (hmain : t.main = s.main) (hdel : t.deliverer = Function.update s.deliverer i q)
    (hq : q.inside = (s.deliverer i).inside) : Owns t.mutex t.inside := by
  rw [hmutex]
  apply h.congr
  intro u
  cases u with
  | chef j => simp [State.inside, hchef]
  | deliverer j =>
    rcases eq_or_ne j i with rfl | hji
    · simp [State.inside, hdel, hq]
    · simp [State.inside, hdel, hji]
  | main => simp [State.inside, hmain]

/-- A deliverer that carries orders, or clears one, works in a shop that is not quiet. -/
lemma Inv.not_quiet {c d : ℕ} {s : State c d} (h : Inv s) {i : Fin d}
    (hi : (s.deliverer i).load.held ≠ [] ∨ (s.deliverer i).load.clearing ≠ none) :
    ¬ s.view.Quiet := by
  intro hq
  rcases hi with hheld | hclear
  · obtain ⟨o, ho⟩ := List.exists_mem_of_ne_nil _ hheld
    exact h.shop.not_held hq i o ho
  · exact hclear (hq.2 i)

/-- While somebody carries an order, every written slot lies below `max_order`. -/
lemma Inv.lt_maxOrder {c d : ℕ} {s : State c d} (h : Inv s) (hq : ¬ s.view.Quiet) {l : ℕ}
    {p : Order} (hl : s.order l = some p) : (l : ℤ) < s.maxOrder := by
  have hlen := h.stock.length_eq fun hm => hq (h.stock.replacing hm)
  have hlt : l < s.table.length := by
    by_contra hge
    simp [State.order, List.getElem?_eq_none (not_lt.mp hge)] at hl
  omega

/-- A deliverer inside `ordersMutex` changes what it carries. -/
lemma Inv.reload {c d : ℕ} {s : State c d} (h : Inv s) {i : Fin d} {q : DelivererPc} {load : Load}
    (hquiet : ¬ s.view.Quiet) (hinside : q.inside = (s.deliverer i).inside) (hload : q.load = load)
    (hshop : Shop { s.view with load := Function.update s.view.load i load })
    (hscan : q.scans = true → s.numOrders ≠ 0) : Inv (s.setDeliverer i q) where
  owns := owns_setDeliverer h.owns rfl rfl rfl rfl hinside
  shop := hshop.congr rfl rfl (hload ▸ load_update ..)
  stock := h.stock.mono fun hq => absurd hq hquiet
  orders_eq := h.orders_eq
  total_eq := h.total_eq
  chef_scans := h.chef_scans
  deliverer_scans := forall_update h.deliverer_scans hscan

/-- A deliverer inside `ordersMutex` writes a slot and changes what it carries. -/
lemma Inv.rewrite {c d : ℕ} {s : State c d} (h : Inv s) {i : Fin d} {q : DelivererPc} {load : Load}
    {k : ℕ} {p : Order} (ho : s.order k = some p) (p' : Order) (hsend : p'.send = 1 → p.send = 1)
    (hquiet : ¬ s.view.Quiet) (hinside : q.inside = (s.deliverer i).inside) (hload : q.load = load)
    (collects : ℕ → List (Fin d)) (hshop : Shop { s.view with
      order := Function.update s.order k (some p')
      load := Function.update s.view.load i load
      collects := collects })
    (hscan : q.scans = true → s.numOrders ≠ 0) :
    Inv { (s.setOrder k p').setDeliverer i q with collects := collects } where
  owns := owns_setDeliverer h.owns rfl rfl rfl rfl hinside
  shop := hshop.congr (order_setOrder ho _) rfl (hload ▸ load_update ..)
  stock := h.stock.write ho hsend fun hq => absurd hq hquiet
  orders_eq := h.orders_eq
  total_eq := h.total_eq
  chef_scans := h.chef_scans
  deliverer_scans := forall_update h.deliverer_scans hscan

/-- The scanning deliverer has found an order that is ready. -/
lemma Inv.collect {c d : ℕ} {s : State c d} (h : Inv s) {i : Fin d} {k : ℕ} {o : Order}
    {bag : List Order} (hp : s.deliverer i = .scan k bag) (ho : s.order k = some o)
    (hstatus : o.status = 3) :
    Inv { (s.setOrder k { o with status := 4 }).setDeliverer i
        (.scan (k + 1) (bag ++ [{ o with status := 4 }])) with
      collects := Function.update s.collects o.id (s.collects o.id ++ [i]) } := by
  have hload : s.view.load i = (DelivererPc.scan k bag).load := by simp [State.view, hp]
  have hshop := h.shop.collect (i := i) ho hstatus (by rw [hload]; rfl)
  rw [hload] at hshop
  have hquiet : ¬ s.view.Quiet := fun hq => h.shop.not_live hq k o ⟨ho, h.shop.free k o ho hstatus⟩
  exact h.rewrite ho { o with status := 4 } id hquiet (by rw [hp]; rfl)
    (by simp [DelivererPc.load]) _ hshop fun _ => h.deliverer_scans i (by rw [hp]; rfl)

/-- One round of the marking loop. -/
lemma Inv.mark {c d : ℕ} {s : State c d} (h : Inv s) {i : Fin d} {k : ℕ} {o p : Order}
    {rest : List Order} (hp : s.deliverer i = .mark o rest k) (ho : s.order k = some p) :
    Inv ((if p.id = o.id then s.setOrder k { p with status := 5 } else s).setDeliverer i
      (.mark o rest (k + 1))) := by
  have hload : s.view.load i = (DelivererPc.mark o rest k).load := by simp [State.view, hp]
  have hdue : ∀ l x, (DelivererPc.mark o rest (k + 1)).load.due l x = 4 ∨
      (DelivererPc.mark o rest (k + 1)).load.due l x = 5 := by
    intro l x
    simp only [DelivererPc.load]
    split_ifs <;> simp
  have hother : ∀ l x, l ≠ k ∨ x ≠ o.id → (DelivererPc.mark o rest (k + 1)).load.due l x =
      (s.view.load i).due l x := by
    intro l x hlx
    rw [hload]
    simp only [DelivererPc.load]
    congr 1
    simp only [eq_iff_iff, and_congr_right_iff]
    intro hx
    have hl := hlx.resolve_right (not_not.mpr hx)
    omega
  have hnew : (DelivererPc.mark o rest (k + 1)).load =
      { (s.view.load i) with due := (DelivererPc.mark o rest (k + 1)).load.due } := by
    rw [hload]
    rfl
  have hquiet : ¬ s.view.Quiet := h.not_quiet (i := i) (Or.inl (by simp [hp, DelivererPc.load]))
  have hinside : (DelivererPc.mark o rest (k + 1)).inside = (s.deliverer i).inside := by
    rw [hp]
    rfl
  split_ifs with hid
  · have hshop : Shop { s.view with
        order := Function.update s.order k (some { p with status := 5 })
        load := Function.update s.view.load i
          { (s.view.load i) with due := (DelivererPc.mark o rest (k + 1)).load.due } } := by
      by_cases hsend : p.send = 1
      · apply h.shop.mark ⟨ho, hsend⟩ _ hdue
        · simp [DelivererPc.load, hid]
        · exact fun l x hl => hother l x (Or.inl hl)
        · rw [hload]
          simp [DelivererPc.load, hid]
      · have hnone : ∀ q, ¬ Live s.view.order k q := by
          rintro q ⟨hq, hs⟩
          exact hsend (by rwa [Option.some.inj (ho.symm.trans hq)])
        have herase := h.shop.erase (k := k) (q := { p with status := 5 })
          (fun q hq => absurd hq (hnone q)) hsend (by simp)
        apply herase.due_congr i hdue
        intro l q hq _
        have hl := ((live_update_of_ne (by exact hsend)).mp hq).1
        exact hother l q.id (Or.inl hl)
    exact h.rewrite ho { p with status := 5 } id hquiet hinside hnew s.collects hshop
      (by simp [DelivererPc.scans])
  · have hshop := h.shop.due_congr i hdue fun l q hq _ => hother l q.id (by
      rcases eq_or_ne l k with rfl | hl
      · exact Or.inr fun hqo => hid (by rwa [Option.some.inj (ho.symm.trans hq.1)])
      · exact Or.inl hl)
    exact h.reload hquiet hinside hnew hshop (by simp [DelivererPc.scans])

/-- The marking loop ends: every slot that holds the order is marked. -/
lemma Inv.marked {c d : ℕ} {s : State c d} (h : Inv s) {i : Fin d} {k : ℕ} {o : Order}
    {rest : List Order} (hp : s.deliverer i = .mark o rest k) (hk : s.maxOrder ≤ k) :
    Inv (s.setDeliverer i (.count o rest)) := by
  have hload : s.view.load i = (DelivererPc.mark o rest k).load := by simp [State.view, hp]
  have hquiet : ¬ s.view.Quiet := h.not_quiet (i := i) (Or.inl (by simp [hp, DelivererPc.load]))
  have hdue : ∀ l x, (DelivererPc.count o rest).load.due l x = 4 ∨
      (DelivererPc.count o rest).load.due l x = 5 := by
    intro l x
    simp only [DelivererPc.load]
    split_ifs <;> simp
  have hshop := h.shop.due_congr i hdue fun l q hq _ => by
    have hlt := h.lt_maxOrder hquiet hq.1
    rw [hload]
    simp only [DelivererPc.load]
    congr 1
    simp only [eq_iff_iff]
    exact ⟨fun hx => ⟨hx, by omega⟩, And.left⟩
  exact h.reload hquiet (by rw [hp]; rfl) (by rw [hload]; rfl) hshop (by simp [DelivererPc.scans])

/-- The order counts as delivered. -/
lemma Inv.count {c d : ℕ} {s : State c d} (h : Inv s) {i : Fin d} {o : Order} {rest : List Order}
    (hp : s.deliverer i = .count o rest) :
    Inv { s.setDeliverer i (.clear o rest 0) with
      numOrders := s.numOrders - 1
      totalDelivered := Function.update s.totalDelivered i (s.totalDelivered i + 1)
      delivered := s.delivered ++ [o.id] } := by
  have hload : s.view.load i = (DelivererPc.count o rest).load := by simp [State.view, hp]
  have hquiet : ¬ s.view.Quiet := h.not_quiet (i := i) (Or.inl (by simp [hp, DelivererPc.load]))
  have hin : s.inside (.deliverer i) = true := by simp [State.inside, hp, DelivererPc.inside]
  obtain ⟨hchefs, hdeliverers⟩ := h.scans_unique hin
  have hshop : Shop { s.view with
      delivered := s.delivered ++ [o.id]
      load := Function.update s.view.load i (DelivererPc.clear o rest 0).load } := by
    apply h.shop.count
    · rw [hload]
      rfl
    · rw [hload]
      rfl
    · rw [hload]
      simp [DelivererPc.load]
    · simp
    · intro k x hx
      rw [hload]
      simp [DelivererPc.load, hx]
  have horders := h.orders_eq
  have htotal := h.total_eq
  refine ⟨owns_setDeliverer h.owns rfl rfl rfl rfl (by rw [hp]; rfl),
    hshop.congr rfl rfl (load_update ..),
    h.stock.mono fun hq => absurd hq hquiet, ?_, ?_, ?_, ?_⟩
  · simp only [State.setDeliverer, List.length_append, List.length_singleton]
    push_cast
    omega
  · simp only [List.length_append, List.length_singleton, ← htotal]
    rw [Finset.sum_update_of_mem (Finset.mem_univ i),
      ← Finset.add_sum_erase Finset.univ s.totalDelivered (Finset.mem_univ i),
      Finset.sdiff_singleton_eq_erase]
    omega
  · intro j hj
    cases hchefs j hj
  · intro j hj
    rcases eq_or_ne j i with rfl | hji
    · simp [State.setDeliverer, DelivererPc.scans] at hj
    · have hsame := hdeliverers j (by simpa [State.setDeliverer, hji] using hj)
      exact absurd (Thread.deliverer.inj hsame).symm hji

/-- One round of the clearing loop. -/
lemma Inv.clear {c d : ℕ} {s : State c d} (h : Inv s) {i : Fin d} {k : ℕ} {o p : Order}
    {rest : List Order} (hp : s.deliverer i = .clear o rest k) (ho : s.order k = some p) :
    Inv ((if p.id = o.id then s.setOrder k .zero else s).setDeliverer i
      (.clear o rest (k + 1))) := by
  have hload : s.view.load i = (DelivererPc.clear o rest k).load := by simp [State.view, hp]
  have hclearing : (s.view.load i).clearing = some (o.id, k) := by rw [hload]; rfl
  have hquiet : ¬ s.view.Quiet := h.not_quiet (i := i) (Or.inr (by simp [hp, DelivererPc.load]))
  have hnew : (DelivererPc.clear o rest (k + 1)).load =
      { (s.view.load i) with clearing := some (o.id, k + 1) } := by
    rw [hload]
    rfl
  have hinside : (DelivererPc.clear o rest (k + 1)).inside = (s.deliverer i).inside := by
    rw [hp]
    rfl
  obtain ⟨hdel, -⟩ := h.shop.cleared i o.id k hclearing
  split_ifs with hid
  · have herase := h.shop.erase (k := k) (q := .zero) (by
      intro q hq
      rwa [← Option.some.inj (ho.symm.trans hq.1), hid]) (by decide) (by decide)
    have hshop := herase.clear (i := i) hclearing (Or.inl ⟨rfl, by
      intro q hq
      exact absurd rfl ((live_update_of_ne (by decide)).mp hq).1⟩)
    exact h.rewrite ho .zero (by simp [Order.zero]) hquiet hinside hnew s.collects hshop
      (by simp [DelivererPc.scans])
  · have hshop := h.shop.clear (i := i) hclearing (Or.inl ⟨rfl, by
      intro q hq
      rwa [← Option.some.inj (ho.symm.trans hq.1)]⟩)
    exact h.reload hquiet hinside hnew hshop (by simp [DelivererPc.scans])

/-- The clearing loop ends: no slot holds the order any more. -/
lemma Inv.cleared {c d : ℕ} {s : State c d} (h : Inv s) {i : Fin d} {k : ℕ} {o : Order}
    {rest : List Order} (hp : s.deliverer i = .clear o rest k) (hk : s.maxOrder ≤ k) :
    Inv (s.setDeliverer i (.tally rest)) := by
  have hload : s.view.load i = (DelivererPc.clear o rest k).load := by simp [State.view, hp]
  have hclearing : (s.view.load i).clearing = some (o.id, k) := by rw [hload]; rfl
  have hquiet : ¬ s.view.Quiet := h.not_quiet (i := i) (Or.inr (by simp [hp, DelivererPc.load]))
  have hshop := h.shop.clear (i := i) hclearing (Or.inr ⟨rfl, by
    intro l q hq hid
    have hle := ((h.shop.cleared i o.id k hclearing).2 l q hq hid).1
    have hlt := h.lt_maxOrder hquiet hq.1
    omega⟩)
  exact h.reload hquiet (by rw [hp]; rfl) (by rw [hload]; rfl) hshop (by simp [DelivererPc.scans])

/-- `main` moves without touching the table. -/
lemma Inv.moveMain {c d : ℕ} {s : State c d} (h : Inv s) {p : MainPc} (hp : s.main = p)
    (q : MainPc) (m : Option (Thread c d)) (sizes : List ℕ) (maxOrder : ℤ)
    (table : List (Option Order)) (hm : Handover .main p.inside q.inside s.mutex m)
    (hshop : Shop { s.view with order := fun k => (table[k]?).join })
    (hstock : Stock q maxOrder table s.view.Quiet) :
    Inv { s with
      main := q, mutex := m, sizes := sizes, maxOrder := maxOrder, table := table } := by
  subst hp
  refine ⟨h.owns.move .main ?_ hm, hshop, hstock, h.orders_eq, h.total_eq, h.chef_scans,
    h.deliverer_scans⟩
  intro t ht
  cases t with
  | main => exact absurd rfl ht
  | _ => rfl

/-- `main` stores the next order of a batch. -/
lemma Inv.store {c d : ℕ} {s : State c d} (h : Inv s) {k : ℕ} {o : Order} {orders : List Order}
    (hp : s.main = .fill k orders) (ho : o.status = 0) (hk : k < s.table.length) :
    Inv { s.setOrder k { o with send := 1, id := s.allOrders } with
      allOrders := s.allOrders + 1
      numOrders := s.numOrders + 1
      main := .fill (k + 1) orders } := by
  obtain ⟨hlt, hwritten⟩ := h.stock.filling k orders hp
  have hin : s.inside .main = true := by simp [State.inside, hp, MainPc.inside]
  obtain ⟨hchefs, hdeliverers⟩ := h.scans_unique hin
  have hfree : ∀ q, ¬ Live s.view.order k q := fun q hq => lt_irrefl k (hlt k q hq.1 hq.2)
  have hshop := h.shop.store (p := { o with send := 1, id := s.allOrders }) hfree rfl rfl ho
  have horder := order_setOrder_of_lt hk { o with send := 1, id := s.allOrders }
  have hread : ∀ l : ℕ, ((s.table.set k (some { o with send := 1, id := s.allOrders }))[l]?).join =
      if l = k then some { o with send := 1, id := s.allOrders } else (s.table[l]?).join :=
    fun l => (congrFun horder l).trans (Function.update_apply ..)
  have horders := h.orders_eq
  refine ⟨h.owns.congr ?_, hshop.congr horder rfl rfl, ?_, ?_, h.total_eq, ?_,
    ?_⟩
  · intro t
    cases t with
    | main => simp [State.inside, hp, MainPc.inside]
    | _ => rfl
  · refine ⟨fun _ => ?_, by simp, ?_, by simp, ?_⟩
    · simpa [State.setOrder] using h.stock.length_eq (by simp [hp])
    · intro m orders' hm
      simp only [MainPc.fill.injEq] at hm
      obtain ⟨rfl, rfl⟩ := hm
      simp only [State.setOrder, hread, List.length_set]
      constructor
      · intro l p hl hs
        split_ifs at hl with hlk
        · omega
        · have := hlt l p hl hs
          omega
      · intro l hl hlen
        split_ifs with hlk
        · rfl
        · exact hwritten l (by omega) hlen
    · rintro orders' (hm | ⟨m, hm⟩)
      · cases hm
      · cases hm
        exact h.stock.placed orders (Or.inr ⟨k, hp⟩)
  · simp only [State.setOrder]
    push_cast
    omega
  · intro j hj
    cases hchefs j hj
  · intro j hj
    cases hdeliverers j hj

lemma load_next (bag : List Order) :
    (DelivererPc.next bag).load = ⟨bag.map Order.id, fun _ _ => 4, none⟩ := by
  cases bag <;> simp [DelivererPc.next, DelivererPc.load]

lemma next_frame (bag : List Order) :
    (DelivererPc.next bag).inside = true ∧ (DelivererPc.next bag).scans = false := by
  cases bag <;> exact ⟨rfl, rfl⟩

lemma Inv.signalOrder {c d : ℕ} {s t : State c d} {w : Option (Fin c ⊕ Fin d)} (h : Inv s)
    (hst : signalOrder s w = some t) : Inv t := by
  rcases w with _ | j | j <;> simp only [PideShop.signalOrder] at hst <;> split_ifs at hst with hj
  · cases hst
    exact h
  · cases hst
    refine h.wake (fun i => ?_) fun i => Or.inl rfl
    rcases eq_or_ne i j with rfl | hij
    · simp [hj, ChefPc.wake]
    · simp [hij]
  · cases hst
    refine h.wake (fun i => Or.inl rfl) fun i => ?_
    rcases eq_or_ne i j with rfl | hij
    · simp [hj]
    · simp [hij]

lemma Inv.lockGate {c d : ℕ} {s t : State c d} {i : Fin c} {g : Gate} {p q : ChefPc} (h : Inv s)
    (hp : s.chef i = p) (hst : lockGate s i g q = some t) (hinside : q.inside = p.inside)
    (hwork : q.work = p.work) (hscan : q.scans = false) : Inv t := by
  unfold PideShop.lockGate at hst
  split_ifs at hst
  cases hst
  exact h.moveChef hp q s.mutex _ (by rw [hinside]; exact .keep _ _) hwork (by simp [hscan])

lemma Inv.chefStep {c d : ℕ} {s t : State c d} {i : Fin c} {w : Option (Fin c ⊕ Fin d)}
    (h : Inv s) (hst : chefStep s i w = some t) : Inv t := by
  cases hp : s.chef i with
  | waiting | acquireWait _ _ => simp [PideShop.chefStep, hp] at hst
  | lock | woken | readyLock _ =>
    simp only [PideShop.chefStep, hp] at hst
    obtain ⟨hfree, rfl⟩ := lock_eq_some hst
    exact h.moveChef hp _ _ s.oven (by rw [hfree]; exact .lock) rfl (by simp [ChefPc.scans])
  | test =>
    simp only [PideShop.chefStep, hp] at hst
    split_ifs at hst with hzero
    · cases hst
      exact h.moveChef hp _ _ s.oven (.unlock _) rfl (by simp [ChefPc.scans])
    · cases hst
      exact h.moveChef hp _ s.mutex s.oven (.keep _ _) rfl fun _ => hzero
  | scan k =>
    simp only [PideShop.chefStep, hp] at hst
    split_ifs at hst with hk
    · obtain ⟨o, ho, rfl⟩ := Option.map_eq_some_iff.mp hst
      split_ifs with hfound
      · exact h.pick hp ho hfound.1 hfound.2.2
      · exact h.moveChef hp _ s.mutex s.oven (.keep _ _) rfl
          fun _ => h.chef_scans i (by rw [hp]; rfl)
    · cases hst
      exact h.moveChef hp _ s.mutex s.oven (.keep _ _) rfl (by simp [ChefPc.scans])
  | unlock orderIndex =>
    cases orderIndex <;> simp only [PideShop.chefStep, hp] at hst <;> cases hst <;>
      exact h.moveChef hp _ _ s.oven (.unlock _) rfl (by simp [ChefPc.scans])
  | acquireLock _ _ | acquireWoken _ _ | releaseLock _ _ =>
    simp only [PideShop.chefStep, hp] at hst
    exact h.lockGate hp hst rfl rfl rfl
  | acquireTest g k =>
    simp only [PideShop.chefStep, hp] at hst
    split_ifs at hst
    · cases hst
      exact h.moveChef hp _ s.mutex _ (.keep _ _) rfl (by simp [ChefPc.scans])
    · cases hst
      exact h.moveChef hp _ s.mutex s.oven (.keep _ _) rfl (by simp [ChefPc.scans])
  | acquire g k =>
    simp only [PideShop.chefStep, hp] at hst
    cases hst
    cases g <;> exact h.moveChef hp _ s.mutex _ (.keep _ _) rfl (by simp [ChefPc.scans])
  | cook k =>
    simp only [PideShop.chefStep, hp] at hst
    obtain ⟨o, ho, rfl⟩ := Option.map_eq_some_iff.mp hst
    exact h.advance hp rfl ho (Or.inl ⟨rfl, rfl⟩) rfl rfl
  | acquireUnlock g k | releaseUnlock g k =>
    simp only [PideShop.chefStep, hp] at hst
    cases hst
    cases g <;> exact h.moveChef hp _ s.mutex _ (.keep _ _) rfl
      (by simp [afterAcquire, afterRelease, ChefPc.scans])
  | release g k =>
    simp only [PideShop.chefStep, hp] at hst
    cases hst
    exact h.moveChef hp _ s.mutex _ (.keep _ _) rfl (by simp [ChefPc.scans])
  | releaseSignal g k =>
    simp only [PideShop.chefStep, hp] at hst
    obtain ⟨pc, hpc, rfl⟩ := Option.map_eq_some_iff.mp hst
    have hwoken := woken_signal hpc
    have hwake : Inv { s with chef := pc, deliverer := s.deliverer } :=
      h.wake (fun j => (hwoken j).imp_right And.right) fun j => Or.inl rfl
    have hown : pc i = .releaseSignal g k := by
      rcases hwoken i with heq | ⟨hwaits, -⟩
      · rw [heq, hp]
      · simp [hp, ChefPc.waitsAt] at hwaits
    exact hwake.moveChef hown (.releaseUnlock g k) s.mutex s.oven (.keep _ _) rfl
      (by simp [ChefPc.scans])
  | ready k =>
    simp only [PideShop.chefStep, hp] at hst
    obtain ⟨o, ho, rfl⟩ := Option.map_eq_some_iff.mp hst
    exact h.advance hp rfl ho (Or.inr ⟨rfl, rfl⟩) rfl rfl
  | readySignal =>
    simp only [PideShop.chefStep, hp] at hst
    have hmove : Inv (s.setChef i .readyUnlock) := h.moveChef hp _ s.mutex s.oven
      (.keep _ _) rfl (by simp [ChefPc.scans])
    exact hmove.signalOrder hst
  | readyUnlock =>
    simp only [PideShop.chefStep, hp] at hst
    cases hst
    exact h.moveChef hp _ _ s.oven (.unlock _) rfl (by simp [ChefPc.scans])

lemma Inv.delivererStep {c d : ℕ} {s t : State c d} {i : Fin d} (h : Inv s)
    (hst : delivererStep s i = some t) : Inv t := by
  cases hp : s.deliverer i with
  | waiting => simp [PideShop.delivererStep, hp] at hst
  | lock | woken =>
    simp only [PideShop.delivererStep, hp] at hst
    obtain ⟨hfree, rfl⟩ := lock_eq_some hst
    exact h.moveDeliverer hp _ _ s.deliveredOrders s.notified (by rw [hfree]; exact .lock) rfl
      (by simp [DelivererPc.scans])
  | test =>
    simp only [PideShop.delivererStep, hp] at hst
    split_ifs at hst with hzero
    · cases hst
      exact h.moveDeliverer hp _ _ s.deliveredOrders s.notified (.unlock _) rfl
        (by simp [DelivererPc.scans])
    · cases hst
      exact h.moveDeliverer hp _ s.mutex s.deliveredOrders s.notified (.keep _ _) rfl fun _ => hzero
  | scan k bag =>
    simp only [PideShop.delivererStep, hp] at hst
    split_ifs at hst with hk
    · obtain ⟨o, ho, rfl⟩ := Option.map_eq_some_iff.mp hst
      split_ifs with hfound
      · exact h.collect hp ho hfound
      · exact h.moveDeliverer hp _ s.mutex s.deliveredOrders s.notified
          (.keep _ _) rfl fun _ => h.deliverer_scans i (by rw [hp]; rfl)
    · cases hst
      exact h.moveDeliverer hp _ s.mutex s.deliveredOrders s.notified (.keep _ _) rfl
        (by simp [DelivererPc.scans])
  | unlock bag =>
    simp only [PideShop.delivererStep, hp] at hst
    cases hst
    cases bag <;> exact h.moveDeliverer hp _ _ s.deliveredOrders s.notified
      (.unlock _) rfl (by simp [DelivererPc.scans])
  | deliver bag =>
    simp only [PideShop.delivererStep, hp] at hst
    obtain ⟨hfree, rfl⟩ := lock_eq_some hst
    obtain ⟨hin, hscan⟩ := next_frame bag
    exact h.moveDeliverer hp _ _ s.deliveredOrders s.notified
      (by rw [hfree, hin]; exact .lock) (load_next _) (by simp [hscan])
  | mark o rest k =>
    simp only [PideShop.delivererStep, hp] at hst
    split_ifs at hst with hk
    · obtain ⟨p, ho, rfl⟩ := Option.map_eq_some_iff.mp hst
      exact h.mark hp ho
    · cases hst
      exact h.marked hp (not_lt.mp hk)
  | count o rest =>
    simp only [PideShop.delivererStep, hp] at hst
    cases hst
    exact h.count hp
  | clear o rest k =>
    simp only [PideShop.delivererStep, hp] at hst
    split_ifs at hst with hk
    · obtain ⟨p, ho, rfl⟩ := Option.map_eq_some_iff.mp hst
      exact h.clear hp ho
    · cases hst
      exact h.cleared hp (not_lt.mp hk)
  | tally rest | notifyReset rest =>
    simp only [PideShop.delivererStep, hp] at hst
    cases hst
    exact h.moveDeliverer hp _ s.mutex _ s.notified (.keep _ _) rfl
      (by simp [DelivererPc.scans])
  | check rest =>
    obtain ⟨hin, hscan⟩ := next_frame rest
    simp only [PideShop.delivererStep, hp] at hst
    cases hst
    split_ifs
    · exact h.moveDeliverer hp _ s.mutex s.deliveredOrders s.notified (.keep _ _) rfl
        (by simp [DelivererPc.scans])
    · exact h.moveDeliverer hp _ s.mutex s.deliveredOrders s.notified
        (by rw [hin]; exact .keep _ _) (load_next _) (by simp [hscan])
  | notifySend rest =>
    obtain ⟨hin, hscan⟩ := next_frame rest
    simp only [PideShop.delivererStep, hp] at hst
    cases hst
    exact h.moveDeliverer hp _ s.mutex s.deliveredOrders _ (by rw [hin]; exact .keep _ _)
      (load_next _) (by simp [hscan])
  | finish =>
    simp only [PideShop.delivererStep, hp] at hst
    cases hst
    exact h.moveDeliverer hp _ _ s.deliveredOrders s.notified (.unlock _) rfl
      (by simp [DelivererPc.scans])

/-- A batch comes at a good time: nothing is undelivered when `main` is about to
replace the table, or to fill it. -/
def Orderly {c d : ℕ} (s : State c d) : Act c d → Prop
  | .count n => (n : ℤ) ≠ s.maxOrder → s.view.Quiet
  | .main => ∀ orders, s.main = .lock orders → s.view.Quiet
  | _ => True

instance {c d : ℕ} (v : View c d) : Decidable v.Quiet :=
  inferInstanceAs (Decidable (_ ∧ _))

instance {c d : ℕ} (s : State c d) (a : Act c d) : Decidable (Orderly s a) :=
  match a with
  | .count n => inferInstanceAs (Decidable ((n : ℤ) ≠ s.maxOrder → s.view.Quiet))
  | .main => match hp : s.main with
    | .lock orders =>
      decidable_of_iff s.view.Quiet ⟨fun hquiet _ _ => hquiet, fun hall => hall orders hp⟩
    | .accept | .realloc | .orders | .fill _ _ | .broadcast | .unlock =>
      isTrue fun orders hlock => by simp [hp] at hlock
  | .orders _ _ | .chef _ _ | .deliverer _ | .spuriousChef _ | .spuriousDeliverer _ =>
    isTrue trivial

lemma clientOrders_status (pid : ℤ) (customers : List Customer) :
    (clientOrders pid customers).length = customers.length ∧
    ∀ o, o ∈ clientOrders pid customers → o.status = 0 := by
  constructor
  · simp [clientOrders]
  · intro o ho
    simp only [clientOrders, List.mem_mapIdx] at ho
    obtain ⟨i, hi, rfl⟩ := ho
    rfl

lemma Inv.mainStep {c d : ℕ} {s t : State c d} (h : Inv s) (ha : Orderly s .main)
    (hst : mainStep s = some t) : Inv t := by
  cases hp : s.main with
  | accept | orders => simp [PideShop.mainStep, hp] at hst
  | realloc =>
    have hquiet := h.stock.replacing hp
    simp only [PideShop.mainStep, hp] at hst
    cases hst
    have hnone : ∀ k : ℕ,
        ((List.replicate s.maxOrder.toNat (none : Option Order))[k]?).join = none := by
      intro k
      rw [List.getElem?_replicate]
      split_ifs <;> rfl
    refine h.moveMain hp _ s.mutex s.sizes s.maxOrder _ (.keep _ _) ?_ ?_
    · exact (h.shop.discard (h.shop.not_live hquiet)).congr (funext hnone) rfl rfl
    · exact ⟨by simp, by simp, by simp, fun _ _ => Or.inl hquiet, by simp⟩
  | lock orders =>
    have hquiet := ha orders hp
    have hlen := h.stock.length_eq (by simp [hp])
    have hplaced := h.stock.placed orders (Or.inl hp)
    simp only [PideShop.mainStep, hp] at hst
    obtain ⟨hfree, rfl⟩ := lock_eq_some hst
    refine h.moveMain hp _ _ s.sizes s.maxOrder s.table (by rw [hfree]; exact .lock) h.shop ?_
    refine ⟨fun _ => hlen, by simp, ?_, by simp, by simpa using hplaced⟩
    intro k orders' hk
    simp only [MainPc.fill.injEq] at hk
    obtain ⟨rfl, -⟩ := hk
    exact ⟨fun l p hl hs => absurd ⟨hl, hs⟩ (h.shop.not_live hquiet l p), by simp⟩
  | fill k orders =>
    have hlen := h.stock.length_eq (by simp [hp])
    have hwritten := (h.stock.filling k orders hp).2
    obtain ⟨-, hplaced⟩ := h.stock.placed orders (Or.inr ⟨k, hp⟩)
    simp only [PideShop.mainStep, hp] at hst
    by_cases hk : (k : ℤ) < s.maxOrder
    · rw [if_pos hk] at hst
      obtain ⟨o, ho, hst⟩ := Option.bind_eq_some_iff.mp hst
      have hstatus := hplaced o (List.mem_of_getElem? ho)
      rw [if_pos hstatus] at hst
      split_ifs at hst with hlt
      cases hst
      exact h.store hp hstatus hlt
    · rw [if_neg hk] at hst
      cases hst
      refine h.moveMain hp _ s.mutex s.sizes s.maxOrder s.table (.keep _ _) h.shop ?_
      exact ⟨fun _ => hlen, by simp, by simp,
        fun _ _ => Or.inr fun l hl => hwritten l (by omega) hl, by simp⟩
  | broadcast =>
    have hstock := h.stock
    rw [hp] at hstock
    simp only [PideShop.mainStep, hp] at hst
    cases hst
    have hmove : Inv { s with main := .unlock } :=
      h.moveMain hp _ s.mutex s.sizes s.maxOrder s.table (.keep _ _) h.shop
        (hstock.move (by simp) (by simp) (by simp))
    refine hmove.wake (fun i => ?_) fun i => ?_
    · exact (woken_broadcast ChefPc.waits ChefPc.wake s.chef i).imp_right And.right
    · refine (woken_broadcast DelivererPc.waits DelivererPc.wake s.deliverer i).imp_right ?_
      rintro ⟨hwaits, hnew⟩
      refine ⟨?_, hnew⟩
      cases hd : s.deliverer i <;> simp_all [DelivererPc.waits]
  | unlock =>
    have hstock := h.stock
    rw [hp] at hstock
    simp only [PideShop.mainStep, hp] at hst
    cases hst
    exact h.moveMain hp _ _ s.sizes s.maxOrder s.table (.unlock _) h.shop
      (hstock.move (by simp) (by simp) (by simp))

theorem Inv.step {c d : ℕ} {s t : State c d} {a : Act c d} (h : Inv s) (ha : Orderly s a)
    (hst : step s a = some t) : Inv t := by
  cases a with
  | count n =>
    simp only [PideShop.step] at hst
    split_ifs at hst with hp hn
    · cases hst
      have hstock := h.stock
      rw [hp.1, hn.symm] at hstock
      exact h.moveMain hp.1 _ s.mutex _ _ s.table (.keep _ _) h.shop
        (hstock.move (by simp) (by simp) (by simp))
    · cases hst
      refine h.moveMain hp.1 _ s.mutex _ _ s.table (.keep _ _) h.shop ?_
      exact ⟨by simp, fun _ => ha hn, by simp, by simp, by simp⟩
  | orders pid customers =>
    simp only [PideShop.step] at hst
    split_ifs at hst with hp
    cases hst
    have hstock := h.stock
    rw [hp.1] at hstock
    obtain ⟨hlen, hstatus⟩ := clientOrders_status pid customers
    refine h.moveMain hp.1 _ s.mutex s.sizes s.maxOrder s.table (.keep _ _) h.shop
      (hstock.move (by simp) (by simp) ?_)
    intro orders hm
    cases hm
    exact ⟨by rw [hlen]; exact hp.2, hstatus⟩
  | main => exact h.mainStep ha hst
  | chef i w => exact h.chefStep hst
  | deliverer i => exact h.delivererStep hst
  | spuriousChef i =>
    cases hst
    refine h.wake (fun j => ?_) fun j => Or.inl rfl
    rcases eq_or_ne j i with rfl | hji
    · simp
    · simp [hji]
  | spuriousDeliverer i =>
    simp only [PideShop.step] at hst
    split_ifs at hst with hp
    cases hst
    refine h.wake (fun j => Or.inl rfl) fun j => ?_
    rcases eq_or_ne j i with rfl | hji
    · simp [hp]
    · simp [hji]

/-- What the accept loop promises whatever the clients do: no accepted order
leaves the table before it is delivered, the slot of a chef holds the order it
picked, and `numOrders` counts the orders still to be delivered. -/
structure NothingLost {c d : ℕ} (s : State c d) : Prop where
  present : ∀ o, o < s.allOrders → o ∉ s.delivered →
    ∃ k p, s.order k = some p ∧ p.send = 1 ∧ p.id = o
  slot : ∀ i k st, (s.chef i).work = some (k, st) →
    ∃ p, s.order k = some p ∧ p.send = 1 ∧ p.id = s.holding i
  numOrders_eq : s.numOrders = s.allOrders - s.delivered.length
  delivered_once : s.delivered.Nodup ∧ ∀ o, o ∈ s.delivered → o < s.allOrders

lemma Inv.nothingLost {c d : ℕ} {s : State c d} (h : Inv s) : NothingLost s where
  present := by
    intro o ho hopen
    obtain ⟨k, p, hp, hid⟩ := h.shop.present o ho hopen
    exact ⟨k, p, hp.1, hp.2, hid⟩
  slot := by
    intro i k st hi
    obtain ⟨-, p, hp, hid, -⟩ := h.shop.working i k st hi
    exact ⟨p, hp.1, hp.2, hid⟩
  numOrders_eq := h.orders_eq
  delivered_once := ⟨h.shop.delivered_nodup, h.shop.delivered_lt⟩

/-- In every run in which `main` replaces or refills the table only while nothing
is undelivered, no order is lost. -/
theorem nothing_lost_of_orderly {c d : ℕ} {s : State c d}
    (hr : Reach step Orderly (init c d) s) : NothingLost s :=
  (hr.invariant (inv_init c d) fun _ _ _ h ha hst => h.step ha hst).nothingLost

/-- The only chef makes so many steps, and then the only deliverer. -/
def workers (chef deliverer : ℕ) : List (Act 1 1) :=
  List.replicate chef (.chef 0 none) ++ List.replicate deliverer (.deliverer 0)

/-- A client orders one pide, and the shop prepares and delivers it. -/
def firstBatch : List (Act 1 1) :=
  [.count 1, .main, .orders 7 [⟨3, 4, 0⟩]] ++ List.replicate 5 .main ++ workers 33 16

/-- Another client orders two. -/
def secondBatch : List (Act 1 1) :=
  [.count 2, .main, .orders 8 [⟨5, 6, 0⟩, ⟨7, 8, 0⟩]] ++ List.replicate 6 .main

set_option maxRecDepth 4000 in
/-- The chef has taken the first order of the second client. -/
theorem nothing_lost_of_orderly_two_batches : ∃ s : State 1 1,
    s.chef 0 = .unlock (some 0) ∧ s.holding 0 = 1 ∧ s.delivered = [0] ∧ s.allOrders = 3 ∧
      s.numOrders = 2 ∧ NothingLost s := by
  have hr : Reach step Orderly (init 1 1) _ :=
    reach_of_checked_run (firstBatch ++ secondBatch ++ workers 3 0) rfl
  exact ⟨_, by rfl, by rfl, by rfl, by rfl, by rfl, nothing_lost_of_orderly hr⟩

/-- A second client orders while the chef prepares the order of the first one: the
new order is stored in the slot the chef works on, and the first order is gone. -/
theorem overlapping_batch_loses_order : ∃ s : State 1 1,
    Reach step always (init 1 1) s ∧ s.chef 0 = .acquireLock .slots 0 ∧ s.holding 0 = 0 ∧
    s.table.map (Option.map Order.id) = [some 1] ∧ s.allOrders = 2 ∧ s.delivered = [] ∧
    s.numOrders = 2 ∧ ¬ NothingLost s := by
  refine ⟨_, reach_of_run [.count 1, .main, .orders 7 [⟨3, 4, 0⟩], .main, .main, .main, .main,
    .main, .chef 0 none, .chef 0 none, .chef 0 none, .chef 0 none, .count 1,
    .orders 8 [⟨5, 6, 0⟩], .main, .main] rfl, by rfl, by rfl, by rfl, by rfl, by rfl, by rfl, ?_⟩
  intro h
  obtain ⟨p, hp, -, hid⟩ := h.slot 0 0 1 rfl
  cases hp
  cases hid

end SystemProgramming.PideShop
