import Mathlib.Algebra.GroupWithZero.Nat
import SystemProgramming.PideShopInvariant

/-!
# The life cycle of an order

In the runs of this module every batch comes after the notification for the
batch before it. Then `main` never meets an undelivered order, so the invariant
of the shop holds, and the notification is sent once for every batch.
-/
namespace SystemProgramming.PideShop
open SystemProgramming.Transition SystemProgramming.Monitor

/-- What a deliverer does between counting an order and taking up the next one. -/
inductive Stage where
  | outside
  | counted
  | checking
  | resetting
  | sending
  deriving DecidableEq, Repr

def DelivererPc.stage : DelivererPc → Stage
  | .clear _ _ _ | .tally _ => .counted
  | .check _ => .checking
  | .notifyReset _ => .resetting
  | .notifySend _ => .sending
  | _ => .outside

def Stage.isCounted : Stage → Bool
  | .counted => true
  | _ => false

/-- The orders of the current batch that `main` has still to store. -/
def MainPc.toStore (maxOrder : ℤ) : MainPc → ℤ
  | .realloc | .orders | .lock _ => maxOrder
  | .fill k _ => max 0 (maxOrder - k)
  | _ => 0

/-- The counters of the shop, and what they are compared with. -/
@[ext] structure Book (d : ℕ) where
  accepted : ℕ
  delivered : ℕ
  tallied : ℤ
  toStore : ℤ
  maxOrder : ℤ
  sizes : List ℕ
  notified : ℕ
  stage : Fin d → Stage

def State.book {c d : ℕ} (s : State c d) : Book d where
  accepted := s.allOrders
  delivered := s.delivered.length
  tallied := s.deliveredOrders
  toStore := s.main.toStore s.maxOrder
  maxOrder := s.maxOrder
  sizes := s.sizes
  notified := s.notified
  stage := fun i => (s.deliverer i).stage

/-- The notification for the newest batch, of `n` orders, is still to be sent. -/
structure Busy {d : ℕ} (b : Book d) (n : ℕ) (rest : List ℕ) : Prop where
  sizes_eq : b.sizes = n :: rest
  notified_eq : b.notified = rest.length
  maxOrder_eq : b.maxOrder = n
  pos : 0 < n
  tallied_eq : (∀ i, b.stage i ≠ .sending) →
    b.tallied + census Stage.isCounted b.stage + rest.sum = b.delivered
  complete : ∀ i, b.stage i = .resetting ∨ b.stage i = .sending → b.delivered = b.sizes.sum
  reset : ∀ i, b.stage i = .sending → b.tallied = 0
  undelivered : (∀ i, b.stage i = .outside) → b.delivered < b.sizes.sum

/-- Every notification has been sent. -/
structure Idle {d : ℕ} (b : Book d) : Prop where
  notified_eq : b.notified = b.sizes.length
  all_delivered : b.delivered = b.accepted
  all_stored : b.toStore = 0
  tallied_eq : b.tallied = 0
  outside : ∀ i, b.stage i = .outside

structure Ledger {d : ℕ} (b : Book d) : Prop where
  stored : (b.accepted : ℤ) + b.toStore = b.sizes.sum
  toStore_nonneg : 0 ≤ b.toStore
  tallied_nonneg : 0 ≤ b.tallied
  phase : Idle b ∨ ∃ n rest, Busy b n rest

lemma Ledger.congr {d : ℕ} {b : Book d} (h : Ledger b) {delivered : ℕ} {toStore : ℤ}
    {stage : Fin d → Stage} (hdelivered : delivered = b.delivered) (htoStore : toStore = b.toStore)
    (hstage : stage = b.stage) :
    Ledger { b with delivered := delivered, toStore := toStore, stage := stage } := by
  subst hdelivered htoStore hstage
  exact h

lemma inside_of_stage {q : DelivererPc} (h : q.stage ≠ .outside) : q.inside = true := by
  cases q <;> simp_all [DelivererPc.stage, DelivererPc.inside]

lemma clearing_of_stage {q : DelivererPc} (h : q.stage ≠ .counted) : q.load.clearing = none := by
  cases q <;> simp_all [DelivererPc.stage, DelivererPc.load]

/-- Only the deliverer inside `ordersMutex` is in a stage of its own. -/
lemma Inv.stage_unique {c d : ℕ} {s : State c d} (h : Inv s) {t : Thread c d}
    (ht : s.inside t = true) {i : Fin d} (hi : (s.deliverer i).stage ≠ .outside) :
    t = .deliverer i :=
  h.owns.unique ht (inside_of_stage hi)

lemma stage_update {d : ℕ} (deliverer : Fin d → DelivererPc) (i : Fin d) (q : DelivererPc) :
    (fun j => (Function.update deliverer i q j).stage) =
      Function.update (fun j => (deliverer j).stage) i q.stage :=
  Function.comp_update DelivererPc.stage deliverer i q

lemma stage_update_eq {d : ℕ} {deliverer : Fin d → DelivererPc} {i : Fin d} {q : DelivererPc}
    (hq : q.stage = (deliverer i).stage) :
    (fun j => (Function.update deliverer i q j).stage) = fun j => (deliverer j).stage :=
  funext (apply_update_eq hq)

lemma book_signalOrder {c d : ℕ} {s t : State c d} {w : Option (Fin c ⊕ Fin d)}
    (hst : signalOrder s w = some t) : t.book = s.book := by
  rcases w with _ | j | j <;> simp only [signalOrder] at hst <;> split_ifs at hst with hj
  · cases hst
    rfl
  · cases hst
    rfl
  · cases hst
    exact Book.ext rfl rfl rfl rfl rfl rfl rfl (stage_update_eq (by rw [hj]; rfl))

/-- The chefs do not touch the books. -/
lemma book_chefStep {c d : ℕ} {s t : State c d} {i : Fin c} {w : Option (Fin c ⊕ Fin d)}
    (hst : chefStep s i w = some t) : t.book = s.book := by
  simp only [chefStep, lockGate] at hst
  split at hst
  case h_21 => exact (book_signalOrder hst).trans rfl
  all_goals try split_ifs at hst
  all_goals first
    | (obtain ⟨-, rfl⟩ := lock_eq_some hst; rfl)
    | (obtain ⟨o, -, rfl⟩ := Option.map_eq_some_iff.mp hst; split_ifs <;> rfl)
    | (obtain ⟨o, -, rfl⟩ := Option.map_eq_some_iff.mp hst; rfl)
    | (cases hst; rfl)
    | cases hst

/-- Without a deliverer past the count nothing is pending. -/
lemma census_counted_eq_zero {d : ℕ} {stage : Fin d → Stage} (h : ∀ i, stage i ≠ .counted) :
    census Stage.isCounted stage = 0 := by
  apply census_eq_zero
  intro i
  cases hs : stage i <;> simp_all [Stage.isCounted]

/-- The stage of one deliverer changes while the others are outside. -/
lemma census_counted_update {d : ℕ} {stage : Fin d → Stage} {i : Fin d} (q : Stage)
    (hothers : ∀ j, j ≠ i → stage j = .outside) :
    census Stage.isCounted (Function.update stage i q) = q.isCounted.toNat := by
  have hzero : census Stage.isCounted (Function.update stage i .outside) = 0 := by
    apply census_counted_eq_zero
    intro j
    rcases eq_or_ne j i with rfl | hji
    · simp
    · simp [hji, hothers j hji]
  have hcensus := census_update Stage.isCounted (Function.update stage i .outside) i q
  rw [Function.update_idem, Function.update_self, hzero] at hcensus
  simpa [Stage.isCounted] using hcensus

lemma forall_stage_update {d : ℕ} {stage : Fin d → Stage} {i : Fin d} {q : Stage}
    (hothers : ∀ j, j ≠ i → stage j = .outside) (j : Fin d) :
    j = i ∧ Function.update stage i q j = q ∨
      j ≠ i ∧ Function.update stage i q j = .outside := by
  rcases eq_or_ne j i with rfl | hji
  · simp
  · simp [hji, hothers j hji]

/-- A deliverer that is in a stage of its own works for a batch in progress. -/
lemma Ledger.busy {d : ℕ} {b : Book d} (h : Ledger b)
    (hnot : b.delivered ≠ b.accepted ∨ ∃ i, b.stage i ≠ .outside) :
    ∃ n rest, Busy b n rest := by
  refine h.phase.resolve_left fun hidle => ?_
  rcases hnot with hne | ⟨i, hi⟩
  · exact hne hidle.all_delivered
  · exact hi (hidle.outside i)

/-- The deliverer `i` counts an order. -/
lemma Ledger.count {d : ℕ} {b : Book d} (h : Ledger b) {i : Fin d}
    (hothers : ∀ j, b.stage j = .outside) (hopen : b.delivered < b.accepted) :
    Ledger { b with
      delivered := b.delivered + 1, stage := Function.update b.stage i .counted } := by
  obtain ⟨n, rest, hbusy⟩ := h.busy (Or.inl hopen.ne)
  have hstage := forall_stage_update (q := .counted) (i := i) fun j _ => hothers j
  have htallied := hbusy.tallied_eq fun j => by simp [hothers j]
  rw [census_counted_eq_zero fun j => by simp [hothers j]] at htallied
  refine ⟨h.stored, h.toStore_nonneg, h.tallied_nonneg, Or.inr ⟨n, rest, hbusy.sizes_eq,
    hbusy.notified_eq, hbusy.maxOrder_eq, hbusy.pos, fun _ => ?_, fun j hj => ?_, fun j hj => ?_,
    fun hout => ?_⟩⟩
  · rw [census_counted_update .counted fun j _ => hothers j]
    simp only [Stage.isCounted, Bool.toNat_true]
    omega
  · rcases hstage j with ⟨-, heq⟩ | ⟨-, heq⟩ <;> simp [heq] at hj
  · rcases hstage j with ⟨-, heq⟩ | ⟨-, heq⟩ <;> simp [heq] at hj
  · simpa using hout i

/-- The deliverer `i` adds its order to `deliveredOrders`. -/
lemma Ledger.tally {d : ℕ} {b : Book d} (h : Ledger b) {i : Fin d} (hi : b.stage i = .counted)
    (hothers : ∀ j, j ≠ i → b.stage j = .outside) :
    Ledger { b with
      tallied := b.tallied + 1, stage := Function.update b.stage i .checking } := by
  obtain ⟨n, rest, hbusy⟩ := h.busy (Or.inr ⟨i, by simp [hi]⟩)
  have hstage := forall_stage_update (q := .checking) hothers
  have hold := census_counted_update .counted hothers
  rw [← hi, Function.update_eq_self] at hold
  have htallied := hbusy.tallied_eq fun j => by
    rcases eq_or_ne j i with rfl | hji
    · simp [hi]
    · simp [hothers j hji]
  rw [hold, hi] at htallied
  have hnonneg := h.tallied_nonneg
  refine ⟨h.stored, h.toStore_nonneg, by dsimp only; omega, Or.inr ⟨n, rest, hbusy.sizes_eq,
    hbusy.notified_eq, hbusy.maxOrder_eq, hbusy.pos, fun _ => ?_, fun j hj => ?_, fun j hj => ?_,
    fun hout => ?_⟩⟩
  · rw [census_counted_update .checking hothers]
    simp only [Stage.isCounted, Bool.toNat_true, Bool.toNat_false] at htallied ⊢
    omega
  · rcases hstage j with ⟨-, heq⟩ | ⟨-, heq⟩ <;> simp [heq] at hj
  · rcases hstage j with ⟨-, heq⟩ | ⟨-, heq⟩ <;> simp [heq] at hj
  · simpa using hout i

/-- The deliverer `i` compares `deliveredOrders` with `max_order`: they are equal
just when the whole batch is delivered. -/
lemma Ledger.check {d : ℕ} {b : Book d} (h : Ledger b) {i : Fin d} (hi : b.stage i = .checking)
    (hothers : ∀ j, j ≠ i → b.stage j = .outside) (hle : b.delivered ≤ b.accepted) :
    Ledger { b with
      stage := Function.update b.stage i
        (if b.tallied = b.maxOrder then .resetting else .outside) } := by
  obtain ⟨n, rest, hbusy⟩ := h.busy (Or.inr ⟨i, by simp [hi]⟩)
  have hstored := h.stored
  have hnonneg := h.toStore_nonneg
  have hmax := hbusy.maxOrder_eq
  have hsum : b.sizes.sum = n + rest.sum := by rw [hbusy.sizes_eq, List.sum_cons]
  have hnone : ∀ j, b.stage j ≠ .counted ∧ b.stage j ≠ .sending := by
    intro j
    rcases eq_or_ne j i with rfl | hji
    · simp [hi]
    · simp [hothers j hji]
  have htallied := hbusy.tallied_eq fun j => (hnone j).2
  rw [census_counted_eq_zero fun j => (hnone j).1] at htallied
  by_cases heq : b.tallied = b.maxOrder
  · have hstage := forall_stage_update (q := .resetting) hothers
    rw [if_pos heq]
    refine ⟨hstored, hnonneg, h.tallied_nonneg, Or.inr ⟨n, rest, hbusy.sizes_eq,
      hbusy.notified_eq, hmax, hbusy.pos, fun _ => ?_, fun j _ => ?_, fun j hj => ?_,
      fun hout => ?_⟩⟩
    · rw [census_counted_update .resetting hothers]
      simp only [Stage.isCounted, Bool.toNat_false]
      omega
    · dsimp only
      omega
    · rcases hstage j with ⟨-, h'⟩ | ⟨-, h'⟩ <;> simp [h'] at hj
    · simpa using hout i
  · have hstage := forall_stage_update (q := .outside) hothers
    rw [if_neg heq]
    refine ⟨hstored, hnonneg, h.tallied_nonneg, Or.inr ⟨n, rest, hbusy.sizes_eq,
      hbusy.notified_eq, hmax, hbusy.pos, fun _ => ?_, fun j hj => ?_, fun j hj => ?_,
      fun hout => ?_⟩⟩
    · rw [census_counted_update .outside hothers]
      simp only [Stage.isCounted, Bool.toNat_false]
      omega
    · rcases hstage j with ⟨-, h'⟩ | ⟨-, h'⟩ <;> simp [h'] at hj
    · rcases hstage j with ⟨-, h'⟩ | ⟨-, h'⟩ <;> simp [h'] at hj
    · dsimp only
      omega

/-- `sendNotification` resets `deliveredOrders`. -/
lemma Ledger.reset {d : ℕ} {b : Book d} (h : Ledger b) {i : Fin d}
    (hi : b.stage i = .resetting) :
    Ledger { b with tallied := 0, stage := Function.update b.stage i .sending } := by
  obtain ⟨n, rest, hbusy⟩ := h.busy (Or.inr ⟨i, by simp [hi]⟩)
  refine ⟨h.stored, h.toStore_nonneg, le_rfl, Or.inr ⟨n, rest, hbusy.sizes_eq,
    hbusy.notified_eq, hbusy.maxOrder_eq, hbusy.pos, fun hsend => ?_,
    fun j _ => hbusy.complete i (Or.inl hi), fun _ _ => rfl, fun hout => ?_⟩⟩
  · simpa using hsend i
  · simpa using hout i

/-- `sendNotification` sends the notification of the batch. -/
lemma Ledger.send {d : ℕ} {b : Book d} (h : Ledger b) {i : Fin d} (hi : b.stage i = .sending)
    (hothers : ∀ j, j ≠ i → b.stage j = .outside) (hle : b.delivered ≤ b.accepted) :
    Ledger { b with
      notified := b.notified + 1, stage := Function.update b.stage i .outside } := by
  obtain ⟨n, rest, hbusy⟩ := h.busy (Or.inr ⟨i, by simp [hi]⟩)
  have hstored := h.stored
  have hnonneg := h.toStore_nonneg
  have hcomplete := hbusy.complete i (Or.inr hi)
  refine ⟨hstored, hnonneg, h.tallied_nonneg, Or.inl ⟨?_, ?_, ?_, hbusy.reset i hi, fun j => ?_⟩⟩
  · simp [hbusy.notified_eq, hbusy.sizes_eq]
  · dsimp only
    omega
  · dsimp only
    omega
  · rcases forall_stage_update (q := .outside) hothers j with ⟨-, heq⟩ | ⟨-, heq⟩ <;> exact heq

/-- Between the last notification and the next batch nothing is pending. -/
lemma Ledger.idle {d : ℕ} {b : Book d} (h : Ledger b) (hn : b.notified = b.sizes.length) :
    Idle b := by
  refine h.phase.resolve_right ?_
  rintro ⟨m, rest, hbusy⟩
  have hlen := congrArg List.length hbusy.sizes_eq
  rw [List.length_cons] at hlen
  have := hbusy.notified_eq
  omega

/-- A client announces `n` orders after the last notification. -/
lemma Ledger.announce {d : ℕ} {b : Book d} (h : Ledger b) (hidle : b.notified = b.sizes.length)
    {n : ℕ} (hn : 0 < n) :
    Ledger { b with toStore := n, maxOrder := n, sizes := n :: b.sizes } := by
  have hstored := h.stored
  obtain ⟨hnot, hall, hzero, htallied, hout⟩ := h.idle hidle
  refine ⟨?_, by simp, h.tallied_nonneg, Or.inr ⟨n, b.sizes, rfl, hnot, rfl, hn, fun _ => ?_,
    fun j hj => ?_, fun j hj => ?_, fun _ => ?_⟩⟩
  · simp only [List.sum_cons]
    omega
  · rw [census_counted_eq_zero fun j => by simp [hout j]]
    dsimp only
    omega
  · simp [hout j] at hj
  · simp [hout j] at hj
  · simp only [List.sum_cons]
    omega

/-- `main` stores an order of the batch. -/
lemma Ledger.store {d : ℕ} {b : Book d} (h : Ledger b) (hmore : 0 < b.toStore) :
    Ledger { b with accepted := b.accepted + 1, toStore := b.toStore - 1 } := by
  have hstored := h.stored
  refine ⟨?_, ?_, h.tallied_nonneg, Or.inr ?_⟩
  · dsimp only
    omega
  · dsimp only
    omega
  · obtain ⟨n, rest, hbusy⟩ := h.phase.resolve_left fun hidle => by
      have := hidle.all_stored
      omega
    exact ⟨n, rest, hbusy.sizes_eq, hbusy.notified_eq, hbusy.maxOrder_eq, hbusy.pos,
      hbusy.tallied_eq, hbusy.complete, hbusy.reset, hbusy.undelivered⟩

lemma stage_next (rest : List Order) : (DelivererPc.next rest).stage = .outside := by
  cases rest <;> rfl

/-- The books of a deliverer's step are one of the entries above. -/
lemma Ledger.delivererStep {c d : ℕ} {s t : State c d} {i : Fin d} (h : Ledger s.book)
    (hinv : Inv s) (hst : delivererStep s i = some t) : Ledger t.book := by
  have hothers : ∀ {p : DelivererPc}, s.deliverer i = p → p.inside = true →
      ∀ j, j ≠ i → s.book.stage j = .outside := by
    intro p hp hin j hji
    by_contra hj
    have hsame := hinv.stage_unique (t := .deliverer i) (by rwa [← hp] at hin) hj
    exact hji (Thread.deliverer.inj hsame).symm
  have hle : s.book.delivered ≤ s.book.accepted := hinv.shop.delivered_length.1
  have hmove : ∀ {p q : DelivererPc}, s.deliverer i = p → q.stage = p.stage →
      Ledger { s.book with stage := fun j => (Function.update s.deliverer i q j).stage } := by
    intro p q hp hq
    rw [← hp] at hq
    exact h.congr rfl rfl (stage_update_eq hq)
  cases hp : s.deliverer i with
  | waiting => simp [PideShop.delivererStep, hp] at hst
  | lock | woken =>
    simp only [PideShop.delivererStep, hp] at hst
    obtain ⟨-, rfl⟩ := lock_eq_some hst
    exact hmove hp rfl
  | test =>
    simp only [PideShop.delivererStep, hp] at hst
    split_ifs at hst
    · cases hst
      exact hmove hp rfl
    · cases hst
      exact hmove hp rfl
  | scan k bag =>
    simp only [PideShop.delivererStep, hp] at hst
    split_ifs at hst
    · obtain ⟨o, -, rfl⟩ := Option.map_eq_some_iff.mp hst
      split_ifs
      · exact hmove hp rfl
      · exact hmove hp rfl
    · cases hst
      exact hmove hp rfl
  | unlock bag =>
    simp only [PideShop.delivererStep, hp] at hst
    cases hst
    cases bag <;> exact hmove hp rfl
  | deliver bag =>
    simp only [PideShop.delivererStep, hp] at hst
    obtain ⟨-, rfl⟩ := lock_eq_some hst
    exact hmove hp (stage_next bag)
  | mark o rest k =>
    simp only [PideShop.delivererStep, hp] at hst
    split_ifs at hst
    · obtain ⟨p, -, rfl⟩ := Option.map_eq_some_iff.mp hst
      split_ifs
      · exact hmove hp rfl
      · exact hmove hp rfl
    · cases hst
      exact hmove hp rfl
  | count o rest =>
    simp only [PideShop.delivererStep, hp] at hst
    cases hst
    have hout : ∀ j, s.book.stage j = .outside := by
      intro j
      rcases eq_or_ne j i with rfl | hji
      · simp [State.book, hp, DelivererPc.stage]
      · exact hothers hp rfl j hji
    have hopen : s.book.delivered < s.book.accepted := by
      refine lt_of_le_of_ne hle fun heq => ?_
      have hall := hinv.shop.delivered_length.2.mp heq
      obtain ⟨hnew, k, p, hpl, hid, -⟩ := hinv.shop.bag i o.id
        (by simp [State.view, hp, DelivererPc.load])
      exact hnew (hall o.id (hid ▸ (hinv.shop.accepted k p hpl).1))
    have hcount := h.count (i := i) hout hopen
    exact hcount.congr (by simp [State.book]) rfl (stage_update ..)
  | clear o rest k =>
    simp only [PideShop.delivererStep, hp] at hst
    split_ifs at hst
    · obtain ⟨p, -, rfl⟩ := Option.map_eq_some_iff.mp hst
      split_ifs
      · exact hmove hp rfl
      · exact hmove hp rfl
    · cases hst
      exact hmove hp rfl
  | tally rest =>
    simp only [PideShop.delivererStep, hp] at hst
    cases hst
    have htally := h.tally (i := i) (by simp [State.book, hp, DelivererPc.stage])
      (hothers hp rfl)
    exact htally.congr rfl rfl (stage_update ..)
  | check rest =>
    simp only [PideShop.delivererStep, hp] at hst
    cases hst
    have hcheck := h.check (i := i) (by simp [State.book, hp, DelivererPc.stage])
      (hothers hp rfl) hle
    refine hcheck.congr rfl rfl ((stage_update ..).trans ?_)
    by_cases heq : s.deliveredOrders = s.maxOrder
    · simp [heq, State.book, DelivererPc.stage]
    · simp [heq, State.book, stage_next]
  | notifyReset rest =>
    simp only [PideShop.delivererStep, hp] at hst
    cases hst
    have hreset := h.reset (i := i) (by simp [State.book, hp, DelivererPc.stage])
    exact hreset.congr rfl rfl (stage_update ..)
  | notifySend rest =>
    simp only [PideShop.delivererStep, hp] at hst
    cases hst
    have hsend := h.send (i := i) (by simp [State.book, hp, DelivererPc.stage])
      (hothers hp rfl) hle
    refine hsend.congr rfl rfl ((stage_update ..).trans ?_)
    rw [stage_next]
    rfl
  | finish =>
    simp only [PideShop.delivererStep, hp] at hst
    cases hst
    exact hmove hp rfl

/-- `main` moves on without storing an order. -/
lemma Ledger.mainStep {c d : ℕ} {s t : State c d} (h : Ledger s.book) (hinv : Inv s)
    (hst : mainStep s = some t) : Ledger t.book := by
  cases hp : s.main with
  | accept | orders => simp [PideShop.mainStep, hp] at hst
  | realloc =>
    simp only [PideShop.mainStep, hp] at hst
    cases hst
    exact h.congr rfl (by simp [State.book, hp, MainPc.toStore]) rfl
  | lock orders =>
    simp only [PideShop.mainStep, hp] at hst
    obtain ⟨-, rfl⟩ := lock_eq_some hst
    have hnonneg := h.toStore_nonneg
    simp only [State.book, hp, MainPc.toStore] at hnonneg
    refine h.congr rfl ?_ rfl
    simp [State.book, hp, MainPc.toStore, hnonneg]
  | fill k orders =>
    obtain ⟨-, hplaced⟩ := hinv.stock.placed orders (Or.inr ⟨k, hp⟩)
    simp only [PideShop.mainStep, hp] at hst
    by_cases hk : (k : ℤ) < s.maxOrder
    · rw [if_pos hk] at hst
      obtain ⟨o, ho, hst⟩ := Option.bind_eq_some_iff.mp hst
      rw [if_pos (hplaced o (List.mem_of_getElem? ho))] at hst
      split_ifs at hst
      cases hst
      have htoStore : s.book.toStore = s.maxOrder - k := by
        simp only [State.book, hp, MainPc.toStore]
        omega
      have hstore := h.store (by omega)
      refine hstore.congr rfl ?_ rfl
      rw [htoStore]
      simp only [MainPc.toStore, State.setOrder]
      omega
    · rw [if_neg hk] at hst
      cases hst
      refine h.congr rfl ?_ rfl
      simp only [State.book, hp, MainPc.toStore]
      omega
  | broadcast =>
    simp only [PideShop.mainStep, hp] at hst
    cases hst
    refine h.congr rfl (by simp [State.book, hp, MainPc.toStore]) ?_
    funext i
    apply (woken_broadcast DelivererPc.waits DelivererPc.wake s.deliverer).map_eq DelivererPc.stage
    intro p hpw
    cases p <;> simp_all [DelivererPc.waits, DelivererPc.wake, DelivererPc.stage]
  | unlock =>
    simp only [PideShop.mainStep, hp] at hst
    cases hst
    exact h.congr rfl (by simp [State.book, hp, MainPc.toStore]) rfl

/-- A client announces its batch only after the notification for the batch before. -/
def AfterNotification {c d : ℕ} (s : State c d) : Act c d → Prop
  | .count _ => s.notified = s.sizes.length
  | _ => True

instance {c d : ℕ} (s : State c d) (a : Act c d) : Decidable (AfterNotification s a) :=
  match a with
  | .count _ => inferInstanceAs (Decidable (s.notified = s.sizes.length))
  | .orders _ _ | .main | .chef _ _ | .deliverer _ | .spuriousChef _ | .spuriousDeliverer _ =>
    isTrue trivial

structure Served {c d : ℕ} (s : State c d) : Prop where
  inv : Inv s
  ledger : Ledger s.book

/-- After the last notification the shop is quiet. -/
lemma Served.quiet {c d : ℕ} {s : State c d} (h : Served s)
    (hn : s.notified = s.sizes.length) : s.view.Quiet := by
  have hidle := h.ledger.idle hn
  refine ⟨h.inv.shop.delivered_length.2.mp hidle.all_delivered, fun i => ?_⟩
  have hout : (s.deliverer i).stage = .outside := hidle.outside i
  exact clearing_of_stage (by simp [hout])

/-- The books are closed for a batch whose orders are still to be stored: what was
delivered are the orders of the batches before. -/
lemma Ledger.closed {d : ℕ} {b : Book d} (h : Ledger b) (hpos : 0 < b.toStore)
    (hall : b.toStore = b.maxOrder) (hle : b.delivered ≤ b.accepted) :
    b.delivered = b.accepted ∧ ∀ i, b.stage i ≠ .counted := by
  obtain ⟨n, rest, hbusy⟩ := h.phase.resolve_left fun hidle => by
    have := hidle.all_stored
    omega
  have hstored := h.stored
  have hnonneg := h.tallied_nonneg
  have hmax := hbusy.maxOrder_eq
  have hsum : b.sizes.sum = n + rest.sum := by rw [hbusy.sizes_eq, List.sum_cons]
  have hsend : ∀ i, b.stage i ≠ .sending := by
    intro i hi
    have := hbusy.complete i (Or.inr hi)
    omega
  have htallied := hbusy.tallied_eq hsend
  refine ⟨by omega, fun i hi => ?_⟩
  have := census_pos (p := Stage.isCounted) (f := b.stage) i (by rw [hi]; rfl)
  omega

/-- A batch that is announced and not yet stored finds the shop quiet. -/
lemma Served.quiet_of_lock {c d : ℕ} {s : State c d} (h : Served s) {orders : List Order}
    (hp : s.main = .lock orders) : s.view.Quiet := by
  rcases h.ledger.phase with hidle | ⟨n, rest, hbusy⟩
  · exact h.quiet hidle.notified_eq
  have htoStore : s.book.toStore = s.maxOrder := by simp [State.book, hp, MainPc.toStore]
  have hpos : 0 < s.book.toStore := by
    have hmax : s.maxOrder = n := hbusy.maxOrder_eq
    have := hbusy.pos
    omega
  obtain ⟨hall, hcounted⟩ := h.ledger.closed hpos htoStore h.inv.shop.delivered_length.1
  exact ⟨h.inv.shop.delivered_length.2.mp hall, fun i => clearing_of_stage (hcounted i)⟩

/-- In these runs every action is orderly. -/
lemma Served.orderly {c d : ℕ} {s : State c d} (h : Served s) {a : Act c d}
    (ha : AfterNotification s a) : Orderly s a := by
  cases a with
  | count n => exact fun _ => h.quiet ha
  | main => exact fun orders hp => h.quiet_of_lock hp
  | _ => trivial

theorem Served.step {c d : ℕ} {s t : State c d} {a : Act c d} (h : Served s)
    (ha : AfterNotification s a) (hst : step s a = some t) : Served t := by
  refine ⟨h.inv.step (h.orderly ha) hst, ?_⟩
  cases a with
  | count n =>
    simp only [PideShop.step] at hst
    split_ifs at hst with hp hn
    · cases hst
      exact h.ledger.announce ha hp.2
    · cases hst
      exact h.ledger.announce ha hp.2
  | orders pid customers =>
    simp only [PideShop.step] at hst
    split_ifs at hst with hp
    cases hst
    exact h.ledger.congr rfl (by simp [State.book, hp.1, MainPc.toStore]) rfl
  | main => exact h.ledger.mainStep h.inv hst
  | chef i w => exact (book_chefStep hst) ▸ h.ledger
  | deliverer i => exact h.ledger.delivererStep h.inv hst
  | spuriousChef i =>
    cases hst
    exact h.ledger
  | spuriousDeliverer i =>
    simp only [PideShop.step] at hst
    split_ifs at hst with hp
    cases hst
    exact h.ledger.congr rfl rfl (stage_update_eq (by rw [hp]; rfl))

theorem served_init (c d : ℕ) : Served (init c d) where
  inv := inv_init c d
  ledger := by
    refine ⟨rfl, le_rfl, le_rfl, Or.inl ⟨rfl, rfl, rfl, rfl, fun _ => rfl⟩⟩

theorem served_of_reach {c d : ℕ} {s : State c d}
    (hr : Reach step AfterNotification (init c d) s) : Served s :=
  hr.invariant (served_init c d) fun _ _ _ h ha hst => h.step ha hst

end SystemProgramming.PideShop
