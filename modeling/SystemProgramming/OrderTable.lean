import SystemProgramming.PideShop

/-!
# The table of orders and who works on them

The state of the shop is reduced to a view: the slots, the slot each chef works
on, and what each deliverer carries. `Shop` is the invariant of a view, and the
lemmas say how the statements that write the table keep it.
-/
namespace SystemProgramming.PideShop
open SystemProgramming.Transition

/-- What a deliverer carries: the orders it has collected and not yet counted, the
status of such an order by slot and id, and the order it is clearing with the
index of the loop. -/
structure Load where
  held : List ℕ
  due : ℕ → ℕ → ℕ
  clearing : Option (ℕ × ℕ)

/-- The slots, the orders accepted and delivered, the slot and status each chef
works on, the loads, and the record of picks and collections. -/
@[ext] structure View (c d : ℕ) where
  order : ℕ → Option Order
  accepted : ℕ
  delivered : List ℕ
  work : Fin c → Option (ℕ × ℕ)
  holding : Fin c → ℕ
  load : Fin d → Load
  picks : ℕ → List (Fin c)
  collects : ℕ → List (Fin d)

/-- Slot `k` holds the accepted order `p`. -/
def Live (order : ℕ → Option Order) (k : ℕ) (p : Order) : Prop := order k = some p ∧ p.send = 1

/-- Rewriting slot `k` by an order that is sent. -/
lemma live_update {order : ℕ → Option Order} {k l : ℕ} {p q : Order} (hp : p.send = 1) :
    Live (Function.update order k (some p)) l q ↔ l = k ∧ q = p ∨ l ≠ k ∧ Live order l q := by
  unfold Live
  rcases eq_or_ne l k with rfl | hl
  · simp only [Function.update_self, Option.some.injEq]
    grind
  · simp [hl]

/-- Rewriting slot `k` by an order that is not sent. -/
lemma live_update_of_ne {order : ℕ → Option Order} {k l : ℕ} {p q : Order} (hp : p.send ≠ 1) :
    Live (Function.update order k (some p)) l q ↔ l ≠ k ∧ Live order l q := by
  unfold Live
  rcases eq_or_ne l k with rfl | hl
  · simp only [Function.update_self, Option.some.injEq]
    grind
  · simp [hl]

structure Shop {c d : ℕ} (v : View c d) : Prop where
  accepted : ∀ k p, Live v.order k p → p.id < v.accepted ∧ p.status ≤ 5
  clearing : ∀ k p, Live v.order k p → p.id ∈ v.delivered →
    ∃ i m, (v.load i).clearing = some (p.id, m)
  free : ∀ k p, v.order k = some p → p.status = 3 → p.send = 1
  unique : ∀ k l p q, Live v.order k p → Live v.order l q → p.id = q.id → k = l
  present : ∀ o, o < v.accepted → o ∉ v.delivered → ∃ k p, Live v.order k p ∧ p.id = o
  working : ∀ i k st, v.work i = some (k, st) →
    (st = 1 ∨ st = 2) ∧ ∃ p, Live v.order k p ∧ p.id = v.holding i ∧ p.status = st
  apart : ∀ i j k st st', v.work i = some (k, st) → v.work j = some (k, st') → i = j
  bag : ∀ i o, o ∈ (v.load i).held → o ∉ v.delivered ∧
    ∃ k p, Live v.order k p ∧ p.id = o ∧ p.status = (v.load i).due k o
  due : ∀ i k o, (v.load i).due k o = 4 ∨ (v.load i).due k o = 5
  bags : ∀ i j o, o ∈ (v.load i).held → o ∈ (v.load j).held → i = j
  bag_nodup : ∀ i, (v.load i).held.Nodup
  cleared : ∀ i o m, (v.load i).clearing = some (o, m) → o ∈ v.delivered ∧
    ∀ k p, Live v.order k p → p.id = o → m ≤ k ∧ p.status = 5
  delivered_nodup : v.delivered.Nodup
  delivered_lt : ∀ o, o ∈ v.delivered → o < v.accepted
  picked : ∀ k p, Live v.order k p → (v.picks p.id).length = if p.status = 0 then 0 else 1
  collected : ∀ k p, Live v.order k p → (v.collects p.id).length = if p.status < 4 then 0 else 1
  served : ∀ o, o ∈ v.delivered → (v.picks o).length = 1 ∧ (v.collects o).length = 1
  fresh : ∀ o, v.accepted ≤ o → v.picks o = [] ∧ v.collects o = []

lemma Shop.congr {c d : ℕ} {v : View c d} (h : Shop v) {order : ℕ → Option Order}
    {work : Fin c → Option (ℕ × ℕ)} {load : Fin d → Load} (horder : order = v.order)
    (hwork : work = v.work) (hload : load = v.load) :
    Shop { v with order := order, work := work, load := load } := by
  subst horder hwork hload
  exact h

lemma Shop.due_update {c d : ℕ} {v : View c d} (h : Shop v) {i : Fin d} {b : Load}
    (hb : ∀ k o, b.due k o = 4 ∨ b.due k o = 5) :
    ∀ j k o, (Function.update v.load i b j).due k o = 4 ∨
      (Function.update v.load i b j).due k o = 5 :=
  (Function.forall_update_iff v.load fun _ b => ∀ k o, b.due k o = 4 ∨ b.due k o = 5).mpr
    ⟨hb, fun j _ => h.due j⟩

lemma Shop.bag_nodup_update {c d : ℕ} {v : View c d} (h : Shop v) {i : Fin d} {b : Load}
    (hb : b.held.Nodup) : ∀ j, (Function.update v.load i b j).held.Nodup :=
  (Function.forall_update_iff v.load fun _ b => b.held.Nodup).mpr ⟨hb, fun j _ => h.bag_nodup j⟩

/-- A slot that holds an accepted order still holds it after a rewrite of its status. -/
lemma live_restatus {order : ℕ → Option Order} {k l : ℕ} {p p' q : Order} (hp : Live order k p)
    (hid : p'.id = p.id) (hsend : p'.send = 1) (hq : Live order l q) :
    ∃ q', Live (Function.update order k (some p')) l q' ∧ q'.id = q.id ∧
      (l = k → q' = p') ∧ (l ≠ k → q' = q) := by
  rcases eq_or_ne l k with rfl | hl
  · have heq : q = p := Option.some.inj (hq.1.symm.trans hp.1)
    exact ⟨p', (live_update hsend).mpr (Or.inl ⟨rfl, rfl⟩), by rw [hid, heq], fun _ => rfl,
      fun hl => absurd rfl hl⟩
  · exact ⟨q, (live_update hsend).mpr (Or.inr ⟨hl, hq⟩), rfl, fun h => absurd h hl, fun _ => rfl⟩

/-- The status of the order `p` in slot `k`, which is not delivered, is rewritten.
The hypotheses say what becomes of the chef and of the loads that hold `p`; for
the other orders nothing changes. -/
theorem Shop.restatus {c d : ℕ} {v : View c d} (h : Shop v) {k : ℕ} {p p' : Order}
    {work' : Fin c → Option (ℕ × ℕ)} {holding' : Fin c → ℕ} {load' : Fin d → Load}
    {picks' : ℕ → List (Fin c)} {collects' : ℕ → List (Fin d)}
    (hp : Live v.order k p) (hopen : p.id ∉ v.delivered)
    (hid : p'.id = p.id) (hsend : p'.send = 1) (hle : p'.status ≤ 5)
    (hpicks : ∀ o, o ≠ p.id → picks' o = v.picks o)
    (hpicked : (picks' p.id).length = if p'.status = 0 then 0 else 1)
    (hcollects : ∀ o, o ≠ p.id → collects' o = v.collects o)
    (hcollected : (collects' p.id).length = if p'.status < 4 then 0 else 1)
    (hwork : ∀ i l st, work' i = some (l, st) → l ≠ k →
      v.work i = some (l, st) ∧ holding' i = v.holding i)
    (hworker : ∀ i st, work' i = some (k, st) →
      (st = 1 ∨ st = 2) ∧ p'.status = st ∧ holding' i = p.id)
    (hapart : ∀ i j st st', work' i = some (k, st) → work' j = some (k, st') → i = j)
    (hclearing : ∀ i, (load' i).clearing = (v.load i).clearing)
    (hdue : ∀ i l o, (load' i).due l o = 4 ∨ (load' i).due l o = 5)
    (hload : ∀ i o, o ∈ (load' i).held → o ≠ p.id →
      o ∈ (v.load i).held ∧ ∀ l, l ≠ k → (load' i).due l o = (v.load i).due l o)
    (hheld : ∀ i, p.id ∈ (load' i).held → p'.status = (load' i).due k p.id)
    (hholder : ∀ i j, p.id ∈ (load' i).held → p.id ∈ (load' j).held → i = j)
    (hnodup : ∀ i, (load' i).held.Nodup) :
    Shop { v with
      order := Function.update v.order k (some p'), work := work', holding := holding'
      load := load', picks := picks', collects := collects' } := by
  have hlive : ∀ l q, Live (Function.update v.order k (some p')) l q ↔
      l = k ∧ q = p' ∨ l ≠ k ∧ Live v.order l q := fun l q => live_update hsend
  have hkeep := fun l q => live_restatus (l := l) (q := q) hp hid hsend
  have hlt := (h.accepted k p hp).1
  constructor <;> dsimp only
  case accepted =>
    intro l q hq
    rcases (hlive l q).mp hq with ⟨-, rfl⟩ | ⟨-, hq⟩
    · exact ⟨by rwa [hid], hle⟩
    · exact h.accepted l q hq
  case clearing =>
    intro l q hq hdel
    rcases (hlive l q).mp hq with ⟨-, rfl⟩ | ⟨-, hq⟩
    · exact absurd (hid ▸ hdel) hopen
    · simpa only [hclearing] using h.clearing l q hq hdel
  case free =>
    intro l q hq hstatus
    rcases eq_or_ne l k with rfl | hl
    · rw [Function.update_self, Option.some.injEq] at hq
      rw [← hq, hsend]
    · rw [Function.update_of_ne hl] at hq
      exact h.free l q hq hstatus
  case unique =>
    intro l m q r hq hr heq
    rcases (hlive l q).mp hq with ⟨rfl, rfl⟩ | ⟨hl, hq₀⟩
    · rcases (hlive m r).mp hr with ⟨rfl, rfl⟩ | ⟨hm, hr₀⟩
      · rfl
      · exact h.unique l m p r hp hr₀ (by rw [← heq, hid])
    · rcases (hlive m r).mp hr with ⟨rfl, rfl⟩ | ⟨hm, hr₀⟩
      · exact h.unique l m q p hq₀ hp (by rw [heq, hid])
      · exact h.unique l m q r hq₀ hr₀ heq
  case present =>
    intro o ho hnew
    obtain ⟨l, q, hq, rfl⟩ := h.present o ho hnew
    obtain ⟨q', hq', hid', -⟩ := hkeep l q hq
    exact ⟨l, q', hq', hid'⟩
  case working =>
    intro i l st hi
    rcases eq_or_ne l k with rfl | hl
    · obtain ⟨hst, hstatus, hhold⟩ := hworker i st hi
      exact ⟨hst, p', (hlive l p').mpr (Or.inl ⟨rfl, rfl⟩), by rw [hid, hhold], hstatus⟩
    · obtain ⟨hold, hhold⟩ := hwork i l st hi hl
      obtain ⟨hst, q, hq, hqid, hstatus⟩ := h.working i l st hold
      exact ⟨hst, q, (hlive l q).mpr (Or.inr ⟨hl, hq⟩), by rw [hqid, hhold], hstatus⟩
  case apart =>
    intro i j l st st' hi hj
    rcases eq_or_ne l k with rfl | hl
    · exact hapart i j st st' hi hj
    · exact h.apart i j l st st' (hwork i l st hi hl).1 (hwork j l st' hj hl).1
  case bag =>
    intro i o ho
    rcases eq_or_ne o p.id with rfl | hne
    · exact ⟨hopen, k, p', (hlive k p').mpr (Or.inl ⟨rfl, rfl⟩), hid, hheld i ho⟩
    · obtain ⟨hold, hsame⟩ := hload i o ho hne
      obtain ⟨hnew, l, q, hq, hqid, hstatus⟩ := h.bag i o hold
      have hl : l ≠ k := by
        rintro rfl
        rw [Option.some.inj (hq.1.symm.trans hp.1)] at hqid
        exact hne hqid.symm
      exact ⟨hnew, l, q, (hlive l q).mpr (Or.inr ⟨hl, hq⟩), hqid, by rw [hstatus, hsame l hl]⟩
  case due => exact hdue
  case bags =>
    intro i j o hi hj
    rcases eq_or_ne o p.id with rfl | hne
    · exact hholder i j hi hj
    · exact h.bags i j o (hload i o hi hne).1 (hload j o hj hne).1
  case bag_nodup => exact hnodup
  case cleared =>
    intro i o m hi
    rw [hclearing] at hi
    obtain ⟨hdel, hrest⟩ := h.cleared i o m hi
    refine ⟨hdel, fun l q hq hqid => ?_⟩
    rcases (hlive l q).mp hq with ⟨-, rfl⟩ | ⟨-, hq⟩
    · rw [← hqid, hid] at hdel
      exact absurd hdel hopen
    · exact hrest l q hq hqid
  case delivered_nodup => exact h.delivered_nodup
  case delivered_lt => exact h.delivered_lt
  case picked =>
    intro l q hq
    rcases (hlive l q).mp hq with ⟨rfl, rfl⟩ | ⟨hl, hq⟩
    · rw [hid]
      exact hpicked
    · rw [hpicks _ fun heq => hl (h.unique l k q p hq hp heq)]
      exact h.picked l q hq
  case collected =>
    intro l q hq
    rcases (hlive l q).mp hq with ⟨rfl, rfl⟩ | ⟨hl, hq⟩
    · rw [hid]
      exact hcollected
    · rw [hcollects _ fun heq => hl (h.unique l k q p hq hp heq)]
      exact h.collected l q hq
  case served =>
    intro o ho
    have hne : o ≠ p.id := by
      rintro rfl
      exact hopen ho
    rw [hpicks o hne, hcollects o hne]
    exact h.served o ho
  case fresh =>
    intro o ho
    have hne : o ≠ p.id := by omega
    rw [hpicks o hne, hcollects o hne]
    exact h.fresh o ho

/-- An order whose status is not five is not delivered. -/
lemma Shop.not_delivered {c d : ℕ} {v : View c d} (h : Shop v) {k : ℕ} {p : Order}
    (hp : Live v.order k p) (hstatus : p.status ≠ 5) : p.id ∉ v.delivered := by
  intro hdel
  obtain ⟨i, m, hi⟩ := h.clearing k p hp hdel
  exact hstatus ((h.cleared i p.id m hi).2 k p hp rfl).2

/-- The slot of a chef is the slot of the order it holds. -/
lemma Shop.working_eq {c d : ℕ} {v : View c d} (h : Shop v) {i : Fin c} {k st : ℕ} {p : Order}
    (hi : v.work i = some (k, st)) (hp : v.order k = some p) :
    (st = 1 ∨ st = 2) ∧ Live v.order k p ∧ p.id = v.holding i ∧ p.status = st := by
  obtain ⟨hst, q, hq, hid, hstatus⟩ := h.working i k st hi
  obtain rfl : q = p := Option.some.inj (hq.1.symm.trans hp)
  exact ⟨hst, hq, hid, hstatus⟩

/-- A deliverer carries only orders of status four and five. -/
lemma Shop.status_of_held {c d : ℕ} {v : View c d} (h : Shop v) {i : Fin d} {k : ℕ} {p : Order}
    (hp : Live v.order k p) (hi : p.id ∈ (v.load i).held) :
    p.status = (v.load i).due k p.id ∧ (p.status = 4 ∨ p.status = 5) := by
  obtain ⟨-, l, q, hq, hid, hstatus⟩ := h.bag i p.id hi
  obtain rfl := h.unique l k q p hq hp hid
  obtain rfl : q = p := Option.some.inj (hq.1.symm.trans hp.1)
  refine ⟨hstatus, ?_⟩
  rw [hstatus]
  exact h.due i l q.id

/-- A chef picks an order that nobody has picked. -/
theorem Shop.pick {c d : ℕ} {v : View c d} (h : Shop v) {i : Fin c} {k : ℕ} {p : Order}
    (hp : Live v.order k p) (hstatus : p.status = 0) :
    Shop { v with
      order := Function.update v.order k (some { p with status := 1, isPlaced := 1 })
      work := Function.update v.work i (some (k, 1))
      holding := Function.update v.holding i p.id
      picks := Function.update v.picks p.id (v.picks p.id ++ [i]) } := by
  have hfree : ∀ j st, v.work j ≠ some (k, st) := by
    intro j st hj
    obtain ⟨hst, -, -, hp₂⟩ := h.working_eq hj hp.1
    omega
  have hnobody : ∀ j, p.id ∉ (v.load j).held := by
    intro j hj
    have := (h.status_of_held hp hj).2
    omega
  have hpicked := h.picked k p hp
  have hcollected := h.collected k p hp
  refine h.restatus hp (h.not_delivered hp (by omega)) rfl hp.2 (by simp) ?_ ?_ ?_ ?_ ?_ ?_ ?_ ?_
    h.due ?_ ?_ ?_ h.bag_nodup
  · exact fun o ho => Function.update_of_ne ho ..
  · simpa [hstatus] using hpicked
  · exact fun _ _ => rfl
  · simpa [hstatus] using hcollected
  · intro j l st hj hl
    have hji : j ≠ i := by
      rintro rfl
      simp only [Function.update_self, Option.some.injEq, Prod.mk.injEq] at hj
      exact hl hj.1.symm
    rw [Function.update_of_ne hji] at hj ⊢
    exact ⟨hj, rfl⟩
  · intro j st hj
    rcases eq_or_ne j i with rfl | hji
    · simp only [Function.update_self, Option.some.injEq, Prod.mk.injEq, true_and] at hj
      simp [← hj]
    · rw [Function.update_of_ne hji] at hj
      exact absurd hj (hfree j st)
  · intro j j' st st' hj hj'
    have honly : ∀ j st, Function.update v.work i (some (k, 1)) j = some (k, st) → j = i := by
      intro j st hj
      by_contra hji
      rw [Function.update_of_ne hji] at hj
      exact hfree j st hj
    rw [honly j st hj, honly j' st' hj']
  · exact fun _ => rfl
  · exact fun j o ho _ => ⟨ho, fun _ _ => rfl⟩
  · exact fun j hj => absurd hj (hnobody j)
  · exact fun j _ hj => absurd hj (hnobody j)

/-- A chef puts its order into the oven or hands it over as ready. -/
theorem Shop.advance {c d : ℕ} {v : View c d} (h : Shop v) {i : Fin c} {k st st' : ℕ} {p : Order}
    {w : Option (ℕ × ℕ)} (hi : v.work i = some (k, st)) (hp : v.order k = some p)
    (hnext : st' = 2 ∧ w = some (k, 2) ∨ st' = 3 ∧ w = none) :
    Shop { v with
      order := Function.update v.order k (some { p with status := st' })
      work := Function.update v.work i w } := by
  obtain ⟨hst, hlive, hhold, hstatus⟩ := h.working_eq hi hp
  have hnobody : ∀ j, p.id ∉ (v.load j).held := by
    intro j hj
    have := (h.status_of_held hlive hj).2
    omega
  have hmine : ∀ j l st₁, Function.update v.work i w j = some (l, st₁) →
      j = i ∧ l = k ∧ st₁ = st' ∧ st' = 2 ∨ j ≠ i ∧ v.work j = some (l, st₁) := by
    intro j l st₁ hj
    rcases eq_or_ne j i with rfl | hji
    · rw [Function.update_self] at hj
      rcases hnext with ⟨rfl, rfl⟩ | ⟨rfl, rfl⟩ <;> simp_all
    · rw [Function.update_of_ne hji] at hj
      exact Or.inr ⟨hji, hj⟩
  have hpicked := h.picked k p hlive
  have hcollected := h.collected k p hlive
  refine h.restatus hlive (h.not_delivered hlive (by omega)) rfl hlive.2 (by grind) ?_ ?_ ?_ ?_
    ?_ ?_ ?_ ?_ h.due ?_ ?_ ?_ h.bag_nodup
  · exact fun _ _ => rfl
  · grind
  · exact fun _ _ => rfl
  · grind
  · intro j l st₁ hj hl
    rcases hmine j l st₁ hj with ⟨-, rfl, -⟩ | ⟨-, hold⟩
    · exact absurd rfl hl
    · exact ⟨hold, rfl⟩
  · intro j st₁ hj
    rcases hmine j k st₁ hj with ⟨rfl, -, rfl, htwo⟩ | ⟨hji, hold⟩
    · exact ⟨Or.inr htwo, rfl, hhold.symm⟩
    · exact absurd (h.apart j i k st₁ st hold hi) hji
  · intro j j' st₁ st₂ hj hj'
    have honly : ∀ j st₁, Function.update v.work i w j = some (k, st₁) → j = i := by
      intro j st₁ hj
      rcases hmine j k st₁ hj with ⟨hji, -⟩ | ⟨-, hold⟩
      · exact hji
      · exact h.apart j i k st₁ st hold hi
    rw [honly j st₁ hj, honly j' st₂ hj']
  · exact fun _ => rfl
  · exact fun j o ho _ => ⟨ho, fun _ _ => rfl⟩
  · exact fun j hj => absurd hj (hnobody j)
  · exact fun j _ hj => absurd hj (hnobody j)

/-- No chef works on an order that is past the oven. -/
lemma Shop.not_working {c d : ℕ} {v : View c d} (h : Shop v) {k : ℕ} {p : Order}
    (hp : v.order k = some p) (hstatus : 3 ≤ p.status) (i : Fin c) (st : ℕ) :
    v.work i ≠ some (k, st) := by
  intro hi
  obtain ⟨hst, -, -, heq⟩ := h.working_eq hi hp
  omega

/-- A deliverer puts an order that is ready into its bag. -/
theorem Shop.collect {c d : ℕ} {v : View c d} (h : Shop v) {i : Fin d} {k : ℕ} {p : Order}
    (hp : v.order k = some p) (hstatus : p.status = 3)
    (hdue : (v.load i).due = fun _ _ => 4) :
    Shop { v with
      order := Function.update v.order k (some { p with status := 4 })
      load := Function.update v.load i
        { (v.load i) with held := (v.load i).held ++ [p.id] }
      collects := Function.update v.collects p.id (v.collects p.id ++ [i]) } := by
  have hlive : Live v.order k p := ⟨hp, h.free k p hp hstatus⟩
  have hnobody : ∀ j, p.id ∉ (v.load j).held := by
    intro j hj
    have := (h.status_of_held hlive hj).2
    omega
  have hbusy := h.not_working hp (by omega)
  have hmine : ∀ j, p.id ∈ (Function.update v.load i
      { (v.load i) with held := (v.load i).held ++ [p.id] } j).held → j = i := by
    intro j hj
    by_contra hji
    rw [Function.update_of_ne hji] at hj
    exact hnobody j hj
  have hpicked := h.picked k p hlive
  have hcollected := h.collected k p hlive
  refine h.restatus hlive (h.not_delivered hlive (by omega)) rfl hlive.2 (by simp) ?_ ?_ ?_ ?_
    ?_ ?_ ?_ ?_ ?_ ?_ ?_ ?_ ?_
  · exact fun _ _ => rfl
  · simpa [hstatus] using hpicked
  · exact fun o ho => Function.update_of_ne ho ..
  · simpa [hstatus] using hcollected
  · exact fun j l st hj _ => ⟨hj, rfl⟩
  · exact fun j st hj => absurd hj (hbusy j st)
  · exact fun j _ st _ hj => absurd hj (hbusy j st)
  · exact apply_update_eq rfl
  · exact h.due_update (h.due i)
  · intro j o ho hne
    rcases eq_or_ne j i with rfl | hji
    · simpa [hne] using ho
    · simpa [hji] using ho
  · intro j hj
    obtain rfl := hmine j hj
    simp [hdue]
  · exact fun j j' hj hj' => (hmine j hj).trans (hmine j' hj').symm
  · exact h.bag_nodup_update <|
      (h.bag_nodup i).append (List.nodup_singleton _) (by simpa using hnobody i)

/-- The status a deliverer expects may be restated where it does not matter. -/
theorem Shop.due_congr {c d : ℕ} {v : View c d} (h : Shop v) (i : Fin d) {due' : ℕ → ℕ → ℕ}
    (hdue : ∀ k o, due' k o = 4 ∨ due' k o = 5)
    (hsame : ∀ k p, Live v.order k p → p.id ∈ (v.load i).held →
      due' k p.id = (v.load i).due k p.id) :
    Shop { v with load := Function.update v.load i { (v.load i) with due := due' } } := by
  have hheld : ∀ j, (Function.update v.load i { (v.load i) with due := due' } j).held =
      (v.load j).held := apply_update_eq rfl
  have hclearing : ∀ j, (Function.update v.load i { (v.load i) with due := due' } j).clearing =
      (v.load j).clearing := apply_update_eq rfl
  refine ⟨h.accepted, ?_, h.free, h.unique, h.present, h.working, h.apart, ?_, ?_, ?_, ?_, ?_,
    h.delivered_nodup, h.delivered_lt, h.picked, h.collected, h.served, h.fresh⟩ <;>
    simp only [hheld, hclearing]
  · exact h.clearing
  · intro j o ho
    obtain ⟨hnew, k, p, hp, rfl, hstatus⟩ := h.bag j o ho
    refine ⟨hnew, k, p, hp, rfl, ?_⟩
    rcases eq_or_ne j i with rfl | hji
    · rw [Function.update_self, hstatus]
      exact (hsame k p hp ho).symm
    · rw [Function.update_of_ne hji, hstatus]
  · exact h.due_update hdue
  · exact h.bags
  · exact h.bag_nodup
  · exact h.cleared

/-- Marking: the deliverer gives the slot of its order the status five. -/
theorem Shop.mark {c d : ℕ} {v : View c d} (h : Shop v) {i : Fin d} {k : ℕ} {p : Order}
    {due' : ℕ → ℕ → ℕ} (hp : Live v.order k p) (hi : p.id ∈ (v.load i).held)
    (hdue : ∀ l o, due' l o = 4 ∨ due' l o = 5) (hfive : due' k p.id = 5)
    (hsame : ∀ l o, l ≠ k → due' l o = (v.load i).due l o) :
    Shop { v with
      order := Function.update v.order k (some { p with status := 5 })
      load := Function.update v.load i { (v.load i) with due := due' } } := by
  obtain ⟨-, hfour⟩ := h.status_of_held hp hi
  have hbusy := h.not_working hp.1 (by omega)
  have hmine : ∀ j, p.id ∈ (v.load j).held → j = i := fun j hj => h.bags j i p.id hj hi
  have hheld : ∀ j, (Function.update v.load i { (v.load i) with due := due' } j).held =
      (v.load j).held := apply_update_eq rfl
  have hpicked := h.picked k p hp
  have hcollected := h.collected k p hp
  refine h.restatus hp (h.bag i p.id hi).1 rfl hp.2 (by simp) ?_ ?_ ?_ ?_ ?_ ?_ ?_ ?_ ?_ ?_ ?_ ?_ ?_
  · exact fun _ _ => rfl
  · grind
  · exact fun _ _ => rfl
  · grind
  · exact fun j l st hj _ => ⟨hj, rfl⟩
  · exact fun j st hj => absurd hj (hbusy j st)
  · exact fun j _ st _ hj => absurd hj (hbusy j st)
  · exact apply_update_eq rfl
  · exact h.due_update hdue
  · intro j o ho _
    rw [hheld] at ho
    refine ⟨ho, fun l hl => ?_⟩
    rcases eq_or_ne j i with rfl | hji
    · simpa using hsame l o hl
    · simp [hji]
  · intro j hj
    rw [hheld] at hj
    obtain rfl := hmine j hj
    simp [hfive]
  · intro j j' hj hj'
    rw [hheld] at hj hj'
    exact (hmine j hj).trans (hmine j' hj').symm
  · intro j
    rw [hheld]
    exact h.bag_nodup j

/-- A slot without an undelivered order is overwritten by something that is no order. -/
theorem Shop.erase {c d : ℕ} {v : View c d} (h : Shop v) {k : ℕ} {q : Order}
    (hdel : ∀ p, Live v.order k p → p.id ∈ v.delivered) (hsend : q.send ≠ 1)
    (hstatus : q.status ≠ 3) :
    Shop { v with order := Function.update v.order k (some q) } := by
  have hlive : ∀ l p, Live (Function.update v.order k (some q)) l p ↔ l ≠ k ∧ Live v.order l p :=
    fun l p => live_update_of_ne hsend
  have hsub : ∀ l p, Live (Function.update v.order k (some q)) l p → Live v.order l p :=
    fun l p hp => ((hlive l p).mp hp).2
  have hkeep : ∀ l p, Live v.order l p → p.id ∉ v.delivered →
      Live (Function.update v.order k (some q)) l p := by
    intro l p hp hnew
    refine (hlive l p).mpr ⟨?_, hp⟩
    rintro rfl
    exact hnew (hdel p hp)
  constructor <;> dsimp only
  case accepted => exact fun l p hp => h.accepted l p (hsub l p hp)
  case clearing => exact fun l p hp => h.clearing l p (hsub l p hp)
  case free =>
    intro l p hp hthree
    rcases eq_or_ne l k with rfl | hl
    · rw [Function.update_self, Option.some.injEq] at hp
      exact absurd (hp ▸ hthree) hstatus
    · rw [Function.update_of_ne hl] at hp
      exact h.free l p hp hthree
  case unique => exact fun l m p r hp hr => h.unique l m p r (hsub l p hp) (hsub m r hr)
  case present =>
    intro o ho hnew
    obtain ⟨l, p, hp, rfl⟩ := h.present o ho hnew
    exact ⟨l, p, hkeep l p hp hnew, rfl⟩
  case working =>
    intro i l st hi
    obtain ⟨hst, p, hp, hid, heq⟩ := h.working i l st hi
    exact ⟨hst, p, hkeep l p hp (h.not_delivered hp (by omega)), hid, heq⟩
  case apart => exact h.apart
  case bag =>
    intro i o ho
    obtain ⟨hnew, l, p, hp, rfl, hdue⟩ := h.bag i o ho
    exact ⟨hnew, l, p, hkeep l p hp hnew, rfl, hdue⟩
  case due => exact h.due
  case bags => exact h.bags
  case bag_nodup => exact h.bag_nodup
  case cleared =>
    intro i o m hi
    obtain ⟨ho, hrest⟩ := h.cleared i o m hi
    exact ⟨ho, fun l p hp => hrest l p (hsub l p hp)⟩
  case delivered_nodup => exact h.delivered_nodup
  case delivered_lt => exact h.delivered_lt
  case picked => exact fun l p hp => h.picked l p (hsub l p hp)
  case collected => exact fun l p hp => h.collected l p (hsub l p hp)
  case served => exact h.served
  case fresh => exact h.fresh

/-- Counting: the first order of the bag, marked everywhere, becomes delivered,
and its deliverer starts to clear it. -/
theorem Shop.count {c d : ℕ} {v : View c d} (h : Shop v) {i : Fin d} {o : ℕ} {rest : List ℕ}
    {due' : ℕ → ℕ → ℕ} (hi : (v.load i).held = o :: rest) (hidle : (v.load i).clearing = none)
    (hmarked : ∀ k, (v.load i).due k o = 5) (hdue : ∀ k x, due' k x = 4 ∨ due' k x = 5)
    (hsame : ∀ k x, x ≠ o → due' k x = (v.load i).due k x) :
    Shop { v with
      delivered := v.delivered ++ [o]
      load := Function.update v.load i ⟨rest, due', some (o, 0)⟩ } := by
  have hmem : o ∈ (v.load i).held := by simp [hi]
  obtain ⟨hopen, k, p, hp, rfl, hstatus⟩ := h.bag i o hmem
  rw [hmarked] at hstatus
  have hpicked := h.picked k p hp
  have hcollected := h.collected k p hp
  have hnodup := h.bag_nodup i
  rw [hi, List.nodup_cons] at hnodup
  have hother : ∀ j x, x ∈ (Function.update v.load i ⟨rest, due', some (p.id, 0)⟩ j).held →
      x ∈ (v.load j).held ∧ x ≠ p.id ∧
      ∀ l, (Function.update v.load i ⟨rest, due', some (p.id, 0)⟩ j).due l x =
        (v.load j).due l x := by
    intro j x hx
    rcases eq_or_ne j i with rfl | hji
    · rw [Function.update_self] at hx ⊢
      have hne : x ≠ p.id := by
        rintro rfl
        exact hnodup.1 hx
      exact ⟨by simp [hi, hx], hne, fun l => hsame l x hne⟩
    · rw [Function.update_of_ne hji] at hx ⊢
      refine ⟨hx, ?_, fun _ => rfl⟩
      rintro rfl
      exact hji (h.bags j i p.id hx hmem)
  constructor <;> dsimp only
  case accepted => exact h.accepted
  case clearing =>
    intro l q hq hdel
    rcases List.mem_append.mp hdel with hold | hnew
    · obtain ⟨j, m, hj⟩ := h.clearing l q hq hold
      have hji : j ≠ i := by
        rintro rfl
        simp [hidle] at hj
      exact ⟨j, m, by rw [Function.update_of_ne hji, hj]⟩
    · exact ⟨i, 0, by simpa using (List.mem_singleton.mp hnew).symm⟩
  case free => exact h.free
  case unique => exact h.unique
  case present =>
    intro x hx hnew
    exact h.present x hx fun hold => hnew (List.mem_append_left _ hold)
  case working => exact h.working
  case apart => exact h.apart
  case bag =>
    intro j x hx
    obtain ⟨hold, hne, hsame'⟩ := hother j x hx
    obtain ⟨hnew, l, q, hq, hid, heq⟩ := h.bag j x hold
    exact ⟨by simp [hnew, hne], l, q, hq, hid, by rw [heq, hsame']⟩
  case due => exact h.due_update hdue
  case bags =>
    intro j j' x hj hj'
    exact h.bags j j' x (hother j x hj).1 (hother j' x hj').1
  case bag_nodup => exact h.bag_nodup_update hnodup.2
  case cleared =>
    intro j x m hj
    rcases eq_or_ne j i with rfl | hji
    · simp only [Function.update_self, Option.some.injEq, Prod.mk.injEq] at hj
      obtain ⟨rfl, rfl⟩ := hj
      refine ⟨by simp, fun l q hq hid => ⟨Nat.zero_le l, ?_⟩⟩
      obtain rfl := h.unique l k q p hq hp hid
      rw [Option.some.inj (hq.1.symm.trans hp.1), hstatus]
    · rw [Function.update_of_ne hji] at hj
      obtain ⟨hx, hrest⟩ := h.cleared j x m hj
      exact ⟨List.mem_append_left _ hx, hrest⟩
  case delivered_nodup =>
    exact h.delivered_nodup.append (List.nodup_singleton _) (by simpa using hopen)
  case delivered_lt =>
    intro x hx
    rcases List.mem_append.mp hx with hold | hnew
    · exact h.delivered_lt x hold
    · rw [List.mem_singleton.mp hnew]
      exact (h.accepted k p hp).1
  case picked => exact h.picked
  case collected => exact h.collected
  case served =>
    intro x hx
    rcases List.mem_append.mp hx with hold | hnew
    · exact h.served x hold
    · rw [List.mem_singleton.mp hnew]
      simpa [hstatus] using And.intro hpicked hcollected
  case fresh => exact h.fresh

/-- A table without orders is discarded. -/
theorem Shop.discard {c d : ℕ} {v : View c d} (h : Shop v) (hnone : ∀ k p, ¬ Live v.order k p) :
    Shop { v with order := fun _ => none } := by
  have hempty : ∀ k p, ¬ Live (fun _ => none) k p := by simp [Live]
  refine ⟨fun k p hp => absurd hp (hempty k p), fun k p hp => absurd hp (hempty k p), by simp,
    fun k _ p _ hp => absurd hp (hempty k p), ?_, ?_, h.apart, ?_, h.due, h.bags, h.bag_nodup, ?_,
    h.delivered_nodup, h.delivered_lt, fun k p hp => absurd hp (hempty k p),
    fun k p hp => absurd hp (hempty k p), h.served, h.fresh⟩
  · intro o ho hopen
    obtain ⟨k, p, hp, -⟩ := h.present o ho hopen
    exact absurd hp (hnone k p)
  · intro i k st hi
    obtain ⟨-, p, hp, -⟩ := h.working i k st hi
    exact absurd hp (hnone k p)
  · intro i o ho
    obtain ⟨-, k, p, hp, -⟩ := h.bag i o ho
    exact absurd hp (hnone k p)
  · intro i o m hi
    exact ⟨(h.cleared i o m hi).1, fun k p hp => absurd hp (hempty k p)⟩

/-- The clearing loop goes on behind slot `m`, which holds its order no more, or
ends when no slot holds it. -/
theorem Shop.clear {c d : ℕ} {v : View c d} (h : Shop v) {i : Fin d} {o m : ℕ}
    {w : Option (ℕ × ℕ)} (hi : (v.load i).clearing = some (o, m))
    (hnext : w = some (o, m + 1) ∧ (∀ p, Live v.order m p → p.id ≠ o) ∨
      w = none ∧ ∀ k p, Live v.order k p → p.id ≠ o) :
    Shop { v with load := Function.update v.load i { (v.load i) with clearing := w } } := by
  obtain ⟨hdel, hrest⟩ := h.cleared i o m hi
  have hheld : ∀ j, (Function.update v.load i { (v.load i) with clearing := w } j).held =
      (v.load j).held := apply_update_eq rfl
  have hdue : ∀ j, (Function.update v.load i { (v.load i) with clearing := w } j).due =
      (v.load j).due := apply_update_eq rfl
  refine ⟨h.accepted, ?_, h.free, h.unique, h.present, h.working, h.apart, ?_, ?_, ?_, ?_, ?_,
    h.delivered_nodup, h.delivered_lt, h.picked, h.collected, h.served, h.fresh⟩ <;>
    simp only [hheld, hdue]
  · intro k p hp hp'
    obtain ⟨j, m', hj⟩ := h.clearing k p hp hp'
    rcases eq_or_ne j i with rfl | hji
    · have heq : (o, m) = (p.id, m') := Option.some.inj (hi.symm.trans hj)
      have hid : p.id = o := (congrArg Prod.fst heq).symm
      rcases hnext with ⟨rfl, -⟩ | ⟨-, hnone⟩
      · exact ⟨j, m + 1, by rw [Function.update_self, hid]⟩
      · exact absurd hid (hnone k p hp)
    · exact ⟨j, m', by rw [Function.update_of_ne hji, hj]⟩
  · exact h.bag
  · exact h.due
  · exact h.bags
  · exact h.bag_nodup
  · intro j x m' hj
    rcases eq_or_ne j i with rfl | hji
    · rw [Function.update_self] at hj
      rcases hnext with ⟨rfl, hslot⟩ | ⟨rfl, -⟩
      · simp only [Option.some.injEq, Prod.mk.injEq] at hj
        obtain ⟨rfl, rfl⟩ := hj
        refine ⟨hdel, fun k p hp hid => ⟨?_, (hrest k p hp hid).2⟩⟩
        have hle := (hrest k p hp hid).1
        have hne : k ≠ m := by
          rintro rfl
          exact hslot p hp hid
        omega
      · cases hj
    · rw [Function.update_of_ne hji] at hj
      exact h.cleared j x m' hj

/-- `main` stores a new order in a slot without one. -/
theorem Shop.store {c d : ℕ} {v : View c d} (h : Shop v) {k : ℕ} {p : Order}
    (hfree : ∀ q, ¬ Live v.order k q) (hid : p.id = v.accepted) (hsend : p.send = 1)
    (hstatus : p.status = 0) :
    Shop { v with
      order := Function.update v.order k (some p), accepted := v.accepted + 1 } := by
  have hlive : ∀ l q, Live (Function.update v.order k (some p)) l q ↔
      l = k ∧ q = p ∨ l ≠ k ∧ Live v.order l q := fun l q => live_update hsend
  have hkeep : ∀ l q, Live v.order l q → Live (Function.update v.order k (some p)) l q := by
    intro l q hq
    refine (hlive l q).mpr (Or.inr ⟨?_, hq⟩)
    rintro rfl
    exact hfree q hq
  have hnew : p.id ∉ v.delivered := by
    intro hdel
    have := h.delivered_lt p.id hdel
    omega
  have hfresh := h.fresh p.id (by omega)
  constructor <;> dsimp only
  case accepted =>
    intro l q hq
    rcases (hlive l q).mp hq with ⟨-, rfl⟩ | ⟨-, hq⟩
    · omega
    · have := h.accepted l q hq
      omega
  case clearing =>
    intro l q hq hdel
    rcases (hlive l q).mp hq with ⟨-, rfl⟩ | ⟨-, hq⟩
    · exact absurd hdel hnew
    · exact h.clearing l q hq hdel
  case free =>
    intro l q hq hthree
    rcases eq_or_ne l k with rfl | hl
    · rw [Function.update_self, Option.some.injEq] at hq
      rw [← hq, hsend]
    · rw [Function.update_of_ne hl] at hq
      exact h.free l q hq hthree
  case unique =>
    intro l m q r hq hr heq
    rcases (hlive l q).mp hq with ⟨hl, hqp⟩ | ⟨-, hq₀⟩
    · rcases (hlive m r).mp hr with ⟨hm, -⟩ | ⟨-, hr₀⟩
      · rw [hl, hm]
      · have := (h.accepted m r hr₀).1
        rw [hqp] at heq
        omega
    · have hlt := (h.accepted l q hq₀).1
      rcases (hlive m r).mp hr with ⟨-, hrp⟩ | ⟨-, hr₀⟩
      · rw [hrp] at heq
        omega
      · exact h.unique l m q r hq₀ hr₀ heq
  case present =>
    intro o ho hopen
    rcases eq_or_ne o p.id with rfl | hne
    · exact ⟨k, p, (hlive k p).mpr (Or.inl ⟨rfl, rfl⟩), rfl⟩
    · obtain ⟨l, q, hq, rfl⟩ := h.present o (by omega) hopen
      exact ⟨l, q, hkeep l q hq, rfl⟩
  case working =>
    intro i l st hi
    obtain ⟨hst, q, hq, hrest⟩ := h.working i l st hi
    exact ⟨hst, q, hkeep l q hq, hrest⟩
  case apart => exact h.apart
  case bag =>
    intro i o ho
    obtain ⟨hopen, l, q, hq, hrest⟩ := h.bag i o ho
    exact ⟨hopen, l, q, hkeep l q hq, hrest⟩
  case due => exact h.due
  case bags => exact h.bags
  case bag_nodup => exact h.bag_nodup
  case cleared =>
    intro i o m hi
    obtain ⟨hdel, hrest⟩ := h.cleared i o m hi
    refine ⟨hdel, fun l q hq hqid => ?_⟩
    rcases (hlive l q).mp hq with ⟨-, rfl⟩ | ⟨-, hq⟩
    · exact absurd (hqid ▸ hdel) hnew
    · exact hrest l q hq hqid
  case delivered_nodup => exact h.delivered_nodup
  case delivered_lt =>
    intro o ho
    have := h.delivered_lt o ho
    omega
  case picked =>
    intro l q hq
    rcases (hlive l q).mp hq with ⟨-, rfl⟩ | ⟨-, hq⟩
    · simp [hfresh.1, hstatus]
    · exact h.picked l q hq
  case collected =>
    intro l q hq
    rcases (hlive l q).mp hq with ⟨-, rfl⟩ | ⟨-, hq⟩
    · simp [hfresh.2, hstatus]
    · exact h.collected l q hq
  case served => exact h.served
  case fresh => exact fun o ho => h.fresh o (by omega)

end SystemProgramming.PideShop
