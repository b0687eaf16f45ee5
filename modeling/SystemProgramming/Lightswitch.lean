import Mathlib.Tactic.SplitIfs
import SystemProgramming.Transition

/-!
# The lightswitch pattern

A group of parties shares one lock: the first to come in takes it, the last to
go out gives it back, and a counter guarded by a mutex tells who is first and
last. The lock is therefore owned by the group and may be released by a party
that did not acquire it. The `held` field records whether the group owns the
lock; how the lock is contended for is left to the system using the pattern.
-/
namespace SystemProgramming.Lightswitch
open SystemProgramming.Transition

/-- Where one party stands. The phases from `entering` to `entered` and from
`leaving` to `left` run under the mutex. -/
inductive Phase where
  | out
  | entering
  | counted
  | acquiring
  | entered
  | inside
  | leaving
  | uncounted
  | releasing
  | left
  deriving DecidableEq, Repr

/-- Phases in which a party owns the mutex. -/
def Phase.critical : Phase → Bool
  | .out | .inside => false
  | _ => true

/-- Phases in which a party is included in the counter. -/
def Phase.present : Phase → Bool
  | .counted | .acquiring | .entered | .inside | .leaving => true
  | _ => false

/-- Does the group own the lock, seen by the party owning the mutex in phase `p`
with the counter at `c`? The two update phases lag one behind the counter. -/
def Phase.heldAt (p : Phase) (c : ℤ) : ℕ :=
  match p with
  | .counted => if 2 ≤ c then 1 else 0
  | .acquiring => 0
  | .uncounted | .releasing => 1
  | _ => if 1 ≤ c then 1 else 0

lemma heldAt_of_not_critical {p : Phase} (hp : p.critical = false) (c : ℤ) :
    p.heldAt c = Phase.out.heldAt c := by
  cases p <;> first | rfl | cases hp

structure Switch (ι : Type*) where
  phase : ι → Phase
  mutex : ℕ
  count : ℤ
  held : ℕ

/-- The next statement of a party in phase `p`, on the mutex, the counter and the
ownership of the group's lock. -/
def Phase.next (p : Phase) (mutex : ℕ) (count : ℤ) (held : ℕ) : Option (Phase × ℕ × ℤ × ℕ) :=
  match p with
  | .out => if 0 < mutex then some (.entering, mutex - 1, count, held) else none
  | .entering => some (.counted, mutex, count + 1, held)
  | .counted => some (if count = 1 then .acquiring else .entered, mutex, count, held)
  | .acquiring => some (.entered, mutex, count, 1)
  | .entered => some (.inside, mutex + 1, count, held)
  | .inside => if 0 < mutex then some (.leaving, mutex - 1, count, held) else none
  | .leaving => some (.uncounted, mutex, count - 1, held)
  | .uncounted => some (if count = 0 then .releasing else .left, mutex, count, held)
  | .releasing => some (.left, mutex, count, 0)
  | .left => some (.out, mutex + 1, count, held)

/-- The mutex is a mutex, the counter counts the parties present, and the lock
is owned exactly as the party under the mutex sees it. -/
structure Valid {ι : Type*} [Fintype ι] (s : Switch ι) : Prop where
  mutex_eq : s.mutex + census Phase.critical s.phase = 1
  count_eq : s.count = census Phase.present s.phase
  held_critical : ∀ i, (s.phase i).critical = true → s.held = (s.phase i).heldAt s.count
  held_free : s.mutex = 1 → s.held = Phase.out.heldAt s.count
  acquiring_one : ∀ i, s.phase i = .acquiring → s.count = 1
  releasing_zero : ∀ i, s.phase i = .releasing → s.count = 0

theorem valid_init {ι : Type*} [Fintype ι] : Valid (⟨fun _ => .out, 1, 0, 0⟩ : Switch ι) where
  mutex_eq := by simp [census, Phase.critical]
  count_eq := by simp [census, Phase.present]
  held_critical := by simp [Phase.critical]
  held_free := by simp [Phase.heldAt]
  acquiring_one := by simp
  releasing_zero := by simp

lemma Valid.critical_unique {ι : Type*} [Fintype ι] {s : Switch ι} (h : Valid s) {i j : ι}
    (hi : (s.phase i).critical = true) (hj : (s.phase j).critical = true) : i = j := by
  by_contra hij
  have h2 := two_le_census hij hi hj
  have := h.mutex_eq
  omega

lemma Valid.critical_mutex {ι : Type*} [Fintype ι] {s : Switch ι} (h : Valid s) {i : ι}
    (hi : (s.phase i).critical = true) : s.mutex = 0 := by
  have := census_pos (f := s.phase) i hi
  have := h.mutex_eq
  omega

lemma Valid.not_critical {ι : Type*} [Fintype ι] {s : Switch ι} (h : Valid s)
    (hm : 0 < s.mutex) (i : ι) : (s.phase i).critical = false := by
  by_contra hi
  have := h.critical_mutex (by simpa using hi : (s.phase i).critical = true)
  omega

/-- A party moves while no other party owns the mutex: validity has to be checked
for the moving party alone. -/
lemma Valid.put {ι : Type*} [Fintype ι] [DecidableEq ι] {s : Switch ι} (h : Valid s) {i : ι}
    {p : Phase} {mutex : ℕ} {count : ℤ} {held : ℕ}
    (hsole : ∀ j, j ≠ i → (s.phase j).critical = false)
    (hm : mutex + p.critical.toNat = s.mutex + (s.phase i).critical.toNat)
    (hc : count - p.present.toNat = s.count - (s.phase i).present.toNat)
    (hh : held = p.heldAt count)
    (ha : p = .acquiring → count = 1) (hz : p = .releasing → count = 0) :
    Valid ⟨Function.update s.phase i p, mutex, count, held⟩ := by
  have hcr := census_update Phase.critical s.phase i p
  have hpr := census_update Phase.present s.phase i p
  have hme := h.mutex_eq
  have hce := h.count_eq
  have hother : ∀ j, j ≠ i → (Function.update s.phase i p j).critical = false := by
    intro j hj
    rw [Function.update_of_ne hj]
    exact hsole j hj
  have hmoved : ∀ j, (Function.update s.phase i p j).critical = true → j = i := by
    intro j hj
    by_contra hji
    rw [hother j hji] at hj
    cases hj
  refine ⟨?_, ?_, ?_, ?_, ?_, ?_⟩
  · dsimp only
    omega
  · dsimp only
    omega
  · intro j hj
    obtain rfl := hmoved j hj
    simpa using hh
  · intro hmut
    dsimp only at hmut ⊢
    cases hp : p.critical with
    | false => rw [hh, heldAt_of_not_critical hp]
    | true =>
      have hpos := census_pos (p := Phase.critical) (f := Function.update s.phase i p) i
        (by simpa using hp)
      omega
  · intro j hj
    dsimp only at hj
    obtain rfl := hmoved j (by rw [hj]; rfl)
    exact ha (by simpa using hj)
  · intro j hj
    dsimp only at hj
    obtain rfl := hmoved j (by rw [hj]; rfl)
    exact hz (by simpa using hj)

/-- The party that owns the mutex moves. -/
lemma Valid.put_owner {ι : Type*} [Fintype ι] [DecidableEq ι] {s : Switch ι} (h : Valid s)
    {i : ι} {p : Phase} {mutex : ℕ} {count : ℤ} {held : ℕ}
    (hi : (s.phase i).critical = true)
    (hm : mutex + p.critical.toNat = s.mutex + 1)
    (hc : count - p.present.toNat = s.count - (s.phase i).present.toNat)
    (hh : held = p.heldAt count)
    (ha : p = .acquiring → count = 1) (hz : p = .releasing → count = 0) :
    Valid ⟨Function.update s.phase i p, mutex, count, held⟩ := by
  refine h.put ?_ (by rw [hi]; exact hm) hc hh ha hz
  intro j hj
  by_contra hcj
  exact hj (h.critical_unique (by simpa using hcj) hi)

/-- Every statement of the pattern keeps validity. -/
theorem Valid.step {ι : Type*} [Fintype ι] [DecidableEq ι] {s : Switch ι} (h : Valid s)
    {i : ι} {p : Phase} {mutex : ℕ} {count : ℤ} {held : ℕ}
    (hst : (s.phase i).next s.mutex s.count s.held = some (p, mutex, count, held)) :
    Valid ⟨Function.update s.phase i p, mutex, count, held⟩ := by
  have hce := h.count_eq
  have hme := h.mutex_eq
  have hheld := h.held_critical i
  have hpres := census_pos (p := Phase.present) (f := s.phase) i
  cases hp : s.phase i with
  | out | inside =>
    simp only [hp, Phase.next] at hst
    split at hst
    · rename_i hm
      cases hst
      have hfree := h.held_free (by omega)
      refine h.put (fun j _ => h.not_critical hm j) ?_ ?_ hfree (by simp) (by simp)
      · simp only [hp, Phase.critical, Bool.toNat_true, Bool.toNat_false]
        omega
      · simp [hp, Phase.present]
    · cases hst
  | entering =>
    simp only [hp, Phase.next, Option.some.injEq, Prod.mk.injEq] at hst hheld
    obtain ⟨rfl, rfl, rfl, rfl⟩ := hst
    refine h.put_owner (by rw [hp]; rfl) rfl (by simp [hp, Phase.present]) ?_ (by simp) (by simp)
    rw [hheld rfl]
    simp only [Phase.heldAt]
    split_ifs <;> omega
  | counted =>
    simp only [hp, Phase.next, Option.some.injEq, Prod.mk.injEq] at hst hheld hpres
    obtain ⟨rfl, rfl, rfl, rfl⟩ := hst
    have hpos := hpres rfl
    split_ifs with hone
    · refine h.put_owner (by rw [hp]; rfl) rfl (by simp [hp, Phase.present]) ?_
        (fun _ => hone) (by simp)
      rw [hheld rfl]
      simp [Phase.heldAt, hone]
    · refine h.put_owner (by rw [hp]; rfl) rfl (by simp [hp, Phase.present]) ?_ (by simp) (by simp)
      rw [hheld rfl]
      simp only [Phase.heldAt]
      split_ifs <;> omega
  | acquiring =>
    simp only [hp, Phase.next, Option.some.injEq, Prod.mk.injEq] at hst
    obtain ⟨rfl, rfl, rfl, rfl⟩ := hst
    have hone := h.acquiring_one i hp
    exact h.put_owner (by rw [hp]; rfl) rfl (by simp [hp, Phase.present])
      (by simp [Phase.heldAt, hone]) (by simp) (by simp)
  | entered =>
    simp only [hp, Phase.next, Option.some.injEq, Prod.mk.injEq] at hst hheld
    obtain ⟨rfl, rfl, rfl, rfl⟩ := hst
    exact h.put_owner (by rw [hp]; rfl) rfl (by simp [hp, Phase.present])
      (hheld rfl) (by simp) (by simp)
  | leaving =>
    simp only [hp, Phase.next, Option.some.injEq, Prod.mk.injEq] at hst hheld hpres
    obtain ⟨rfl, rfl, rfl, rfl⟩ := hst
    have hpos := hpres rfl
    refine h.put_owner (by rw [hp]; rfl) rfl (by simp [hp, Phase.present]) ?_ (by simp) (by simp)
    rw [hheld rfl]
    simp only [Phase.heldAt]
    rw [if_pos (by omega)]
  | uncounted =>
    simp only [hp, Phase.next, Option.some.injEq, Prod.mk.injEq] at hst hheld
    obtain ⟨rfl, rfl, rfl, rfl⟩ := hst
    split_ifs with hzero
    · exact h.put_owner (by rw [hp]; rfl) rfl (by simp [hp, Phase.present])
        (hheld rfl) (by simp) (fun _ => hzero)
    · refine h.put_owner (by rw [hp]; rfl) rfl (by simp [hp, Phase.present]) ?_ (by simp) (by simp)
      rw [hheld rfl]
      simp only [Phase.heldAt]
      rw [if_pos (by omega)]
  | releasing =>
    simp only [hp, Phase.next, Option.some.injEq, Prod.mk.injEq] at hst
    obtain ⟨rfl, rfl, rfl, rfl⟩ := hst
    have hzero := h.releasing_zero i hp
    exact h.put_owner (by rw [hp]; rfl) rfl (by simp [hp, Phase.present])
      (by simp [Phase.heldAt, hzero]) (by simp) (by simp)
  | left =>
    simp only [hp, Phase.next, Option.some.injEq, Prod.mk.injEq] at hst hheld
    obtain ⟨rfl, rfl, rfl, rfl⟩ := hst
    exact h.put_owner (by rw [hp]; rfl) rfl (by simp [hp, Phase.present])
      (hheld rfl) (by simp) (by simp)

/-- Parties of any kind whose local states map to phases: a move that is a statement
of the pattern, or that does not touch it, keeps validity. -/
theorem Valid.advance {ι α : Type*} [Fintype ι] [DecidableEq ι] {φ : α → Phase} {f : ι → α}
    {mutex mutex' : ℕ} {count count' : ℤ} {held held' : ℕ} {i : ι} {a : α}
    (h : Valid ⟨fun j => φ (f j), mutex, count, held⟩)
    (hst : (φ (f i)).next mutex count held = some (φ a, mutex', count', held') ∨
      (φ (f i), mutex, count, held) = (φ a, mutex', count', held')) :
    Valid ⟨fun j => φ (Function.update f i a j), mutex', count', held'⟩ := by
  have hphase : (fun j => φ (Function.update f i a j)) =
      Function.update (fun j => φ (f j)) i (φ a) := by
    funext j
    by_cases hj : j = i
    · subst hj
      simp
    · simp [Function.update_of_ne hj]
  rw [hphase]
  rcases hst with hst | hst
  · exact h.step hst
  · simp only [Prod.mk.injEq] at hst
    obtain ⟨hp, rfl, rfl, rfl⟩ := hst
    rwa [← hp, Function.update_eq_self]

/-- A party that is inside keeps the group's lock held. -/
theorem Valid.held_of_inside {ι : Type*} [Fintype ι] {s : Switch ι} (h : Valid s) {i : ι}
    (hi : s.phase i = .inside) : s.held = 1 := by
  have hme := h.mutex_eq
  have hce := h.count_eq
  have hpos := census_pos (p := Phase.present) (f := s.phase) i (by rw [hi]; rfl)
  by_cases hm : s.mutex = 1
  · rw [h.held_free hm]
    simp only [Phase.heldAt]
    rw [if_pos (by omega)]
  · obtain ⟨j, hj⟩ := exists_of_census_pos (p := Phase.critical) (f := s.phase) (by omega)
    have hij : i ≠ j := by
      rintro rfl
      rw [hi] at hj
      cases hj
    have hheld := h.held_critical j hj
    have hone := h.acquiring_one j
    have htwo := fun hp : (s.phase j).present = true =>
      two_le_census (p := Phase.present) (f := s.phase) hij (by rw [hi]; rfl) hp
    rw [hheld]
    cases hp : s.phase j <;> simp_all [Phase.heldAt, Phase.present, Phase.critical] <;> omega

/-- The lock is held only while some party is counted in, or is still about to
give the lock back. -/
theorem Valid.exists_of_held {ι : Type*} [Fintype ι] {s : Switch ι} (h : Valid s)
    (hh : s.held ≠ 0) :
    ∃ i, (s.phase i).present = true ∨ s.phase i = .uncounted ∨ s.phase i = .releasing := by
  have hme := h.mutex_eq
  have hce := h.count_eq
  by_contra hnone
  push Not at hnone
  have hzero : census Phase.present s.phase = 0 :=
    census_eq_zero (fun i => by simpa using (hnone i).1)
  by_cases hm : s.mutex = 1
  · rw [h.held_free hm] at hh
    simp [Phase.heldAt, hce, hzero] at hh
  · obtain ⟨j, hj⟩ := exists_of_census_pos (p := Phase.critical) (f := s.phase) (by omega)
    rw [h.held_critical j hj] at hh
    obtain ⟨hp, hu, hr⟩ := hnone j
    cases hpj : s.phase j <;> simp_all [Phase.heldAt, Phase.present, Phase.critical]

/-- While a party waits for the lock the group does not hold it. -/
theorem Valid.held_of_acquiring {ι : Type*} [Fintype ι] {s : Switch ι} (h : Valid s) {i : ι}
    (hi : s.phase i = .acquiring) : s.held = 0 := by
  rw [h.held_critical i (by rw [hi]; rfl), hi]
  rfl

theorem Valid.held_of_releasing {ι : Type*} [Fintype ι] {s : Switch ι} (h : Valid s) {i : ι}
    (hi : s.phase i = .releasing) : s.held = 1 := by
  rw [h.held_critical i (by rw [hi]; rfl), hi]
  rfl

end SystemProgramming.Lightswitch
