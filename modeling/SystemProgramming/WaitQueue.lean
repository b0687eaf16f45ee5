import SystemProgramming.RingBuffer
import SystemProgramming.Transition

/-!
# The wait queue of the server

A growing circular buffer of pointers to client records. An array cell holds a
pointer or NULL, and a freshly allocated array holds whatever its memory held.
`enqueue` allocates one record, and first a larger array when the queue is full.
The re-packing loop of `resize_queue` runs until `front` meets `rear`, which in
a full queue is before its first iteration; the model keeps that loop as it is.
-/
namespace SystemProgramming.WaitQueue
open SystemProgramming.Transition SystemProgramming.RingBuffer

structure Queue (α : Type*) where
  front : ℕ
  rear : ℕ
  capacity : ℕ
  size : ℕ
  elements : List (Option α)
  deriving DecidableEq, Repr

/-- The queue as `main` initializes it. -/
def emptyQueue {α : Type*} : Queue α := ⟨0, 0, 0, 0, []⟩

/-- The pointer stored in cell `i`. -/
def Queue.cell {α : Type*} (que : Queue α) (i : ℕ) : Option α := (que.elements[i]?).join

/-- The two allocations of one `enqueue`: the larger array, with the pointers
found in its memory, and the record. -/
structure Mallocs (α : Type*) where
  array : Option (ℕ → Option α)
  item : Bool

/-- The index after `i`, starting over behind the last cell. -/
def next (capacity i : ℕ) : ℕ := if i + 1 = capacity then 0 else i + 1

/-- The re-packing loop, from a given `front` and `i`. It has no result when it
is still running after `fuel` tests of its condition. -/
def repack {α : Type*} (que : Queue α) :
    ℕ → ℕ → ℕ → List (Option α) → Option (ℕ × List (Option α))
  | 0, _, _, _ => none
  | fuel + 1, front, i, newElements =>
    if front = que.rear then some (i, newElements)
    else repack que fuel (next que.capacity front) (i + 1) (newElements.set i (que.cell front))

/-- Allocate a larger array and move the elements there. -/
def resizeQueue {α : Type*} (que : Queue α) (array : Option (ℕ → Option α)) :
    Option (Queue α × ℤ) :=
  let newCapa := if que.capacity = 0 then 1 else 2 * que.capacity
  match array with
  | none => some (que, -1)
  | some junk =>
    (repack que (que.capacity + 1) que.front 0 ((List.range newCapa).map junk)).map fun r =>
      (⟨0, r.1, newCapa, que.size, r.2⟩, 0)

/-- The part of `enqueue` after the test for room. -/
def putItem {α : Type*} (que : Queue α) (item : α) (ok : Bool) : Queue α × ℤ :=
  if ok then
    ({ que with
        elements := que.elements.set que.rear (some item)
        rear := next que.capacity que.rear
        size := que.size + 1 }, 0)
  else ({ que with elements := que.elements.set que.rear none }, -1)

def enqueue {α : Type*} (que : Queue α) (item : α) (m : Mallocs α) : Option (Queue α × ℤ) :=
  if que.size = que.capacity then
    (resizeQueue que m.array).map fun r =>
      if r.2 = -1 then (r.1, -1) else putItem r.1 item m.item
  else some (putItem que item m.item)

/-- The pointer returned is NULL when the queue is empty. -/
def dequeue {α : Type*} (que : Queue α) : Queue α × Option α :=
  if que.size = 0 then (que, none)
  else
    ({ que with
        elements := que.elements.set que.front none
        front := next que.capacity que.front
        size := que.size - 1 }, que.cell que.front)

@[simp] lemma next_eq_mod {capacity i : ℕ} (hi : i < capacity) :
    next capacity i = (i + 1) % capacity := advance_eq_mod hi

lemma cell_set {α : Type*} (que : Queue α) (i j : ℕ) (x : Option α)
    (hi : i < que.elements.length) :
    ((que.elements.set i x)[j]?).join = if i = j then x else que.cell j := by
  unfold Queue.cell
  rw [List.getElem?_set]
  split_ifs <;> simp_all

/-- The indices lie in the array, and an unallocated queue starts at zero. -/
structure Wf {α : Type*} (que : Queue α) : Prop where
  length_eq : que.elements.length = que.capacity
  size_le : que.size ≤ que.capacity
  front_le : que.front ≤ que.capacity - 1
  rear_le : que.rear ≤ que.capacity - 1

theorem wf_empty {α : Type*} : Wf (emptyQueue : Queue α) := by
  constructor <;> simp [emptyQueue]

/-- The re-packing loop runs once for each cell from `front` up to `rear`. -/
lemma repack_eq {α : Type*} (que : Queue α) (d fuel front i : ℕ) (newElements : List (Option α))
    (hfront : front < que.capacity) (hrear : que.rear = (front + d) % que.capacity)
    (hd : d < que.capacity) (hfuel : d < fuel) :
    ∃ out, repack que fuel front i newElements = some (i + d, out) ∧
      out.length = newElements.length := by
  induction d generalizing fuel front i newElements with
  | zero =>
    obtain ⟨fuel, rfl⟩ : ∃ k, fuel = k + 1 := ⟨fuel - 1, by omega⟩
    have he : front = que.rear := by rw [hrear, Nat.add_zero, Nat.mod_eq_of_lt hfront]
    exact ⟨newElements, by simp [repack, ← he], rfl⟩
  | succ d ih =>
    obtain ⟨fuel, rfl⟩ : ∃ k, fuel = k + 1 := ⟨fuel - 1, by omega⟩
    have hne : front ≠ que.rear := hrear ▸ head_ne_offset hfront hd
    obtain ⟨out, hout, hlen⟩ := ih fuel ((front + 1) % que.capacity) (i + 1)
      (newElements.set i (que.cell front)) (Nat.mod_lt _ (by omega))
      (by rw [hrear, ← rear_pop]) (by omega) (by omega)
    refine ⟨out, ?_, by simpa using hlen⟩
    rw [repack, if_neg hne, next_eq_mod hfront, hout, Nat.add_assoc, Nat.add_comm 1 d]

/-- Growing a well-formed queue always ends, after fewer iterations than cells. -/
theorem resizeQueue_spec {α : Type*} {que : Queue α} (h : Wf que) (junk : ℕ → Option α) :
    ∃ i out, resizeQueue que (some junk) = some (⟨0, i,
        if que.capacity = 0 then 1 else 2 * que.capacity, que.size, out⟩, 0) ∧
      i ≤ que.capacity - 1 ∧
      out.length = if que.capacity = 0 then 1 else 2 * que.capacity := by
  have hf := h.front_le
  have hr := h.rear_le
  by_cases hc : que.capacity = 0
  · refine ⟨0, [junk 0], ?_, by omega, by simp [hc]⟩
    simp [resizeQueue, repack, hc, show que.front = que.rear by omega]
  · obtain ⟨d, hd, hdist⟩ :=
      exists_offset (show que.front < que.capacity by omega) (show que.rear < que.capacity by omega)
    obtain ⟨out, hout, hlen⟩ := repack_eq que d (que.capacity + 1) que.front 0
      ((List.range (2 * que.capacity)).map junk) (by omega) hdist hd (by omega)
    refine ⟨d, out, ?_, by omega, by simpa [hc] using hlen⟩
    simp [resizeQueue, hc, hout]

/-- A larger array keeps the queue well-formed, and has room. -/
lemma Wf.resizeQueue {α : Type*} {que : Queue α} (h : Wf que) (junk : ℕ → Option α) :
    ∃ que', resizeQueue que (some junk) = some (que', 0) ∧ Wf que' ∧
      que'.capacity = (if que.capacity = 0 then 1 else 2 * que.capacity) ∧
      que'.size < que'.capacity := by
  have hs := h.size_le
  obtain ⟨i, out, hres, hi, hlen⟩ := resizeQueue_spec h junk
  refine ⟨_, hres, ⟨hlen, ?_, by simp, ?_⟩, rfl, ?_⟩ <;> dsimp only <;> split_ifs <;> omega

lemma Wf.putItem {α : Type*} {que : Queue α} (h : Wf que) (hroom : que.size < que.capacity)
    (item : α) (ok : Bool) : Wf (putItem que item ok).1 := by
  have hl := h.length_eq
  have hs := h.size_le
  have hf := h.front_le
  have hr := h.rear_le
  unfold WaitQueue.putItem next
  cases ok with
  | false => exact ⟨by simpa using hl, hs, hf, hr⟩
  | true =>
    refine ⟨by simpa using hl, hroom, hf, ?_⟩
    simp only [if_true]
    split_ifs <;> omega

/-- Every `enqueue` on a well-formed queue returns and keeps it well-formed. -/
theorem Wf.enqueue {α : Type*} {que : Queue α} (h : Wf que) (item : α) (m : Mallocs α) :
    ∃ r, enqueue que item m = some r ∧ Wf r.1 := by
  unfold WaitQueue.enqueue
  split_ifs with hfull
  · cases hm : m.array with
    | none => exact ⟨_, rfl, by simpa using h⟩
    | some junk =>
      obtain ⟨que', hres, hwf, -, hroom⟩ := h.resizeQueue junk
      refine ⟨_, by rw [hres]; rfl, ?_⟩
      simp only [show ¬ ((0 : ℤ) = -1) by decide, if_false]
      exact hwf.putItem hroom item m.item
  · have := h.size_le
    exact ⟨_, rfl, h.putItem (by omega) item m.item⟩

theorem Wf.dequeue {α : Type*} {que : Queue α} (h : Wf que) : Wf (dequeue que).1 := by
  have hl := h.length_eq
  have hs := h.size_le
  have hf := h.front_le
  unfold WaitQueue.dequeue next
  split_ifs with hz hc
  · exact h
  · exact ⟨by simpa using hl, by dsimp only; omega, by simp, h.rear_le⟩
  · exact ⟨by simpa using hl, by dsimp only; omega, by dsimp only; omega, h.rear_le⟩

/-- The records waiting in the queue, next one first. -/
def Queue.waiting {α : Type*} (que : Queue α) : List (Option α) :=
  window que.cell que.capacity que.front que.size

/-- A queue with the records accepted by `enqueue` and those returned by
`dequeue` so far, each in order. -/
structure History (α : Type*) where
  que : Queue α
  accepted : List α
  returned : List α

inductive Call (α : Type*) where
  | enqueue (item : α) (m : Mallocs α)
  | dequeue

def step {α : Type*} (s : History α) : Call α → Option (History α)
  | .enqueue item m => (enqueue s.que item m).map fun r =>
    ⟨r.1, if r.2 = 0 then s.accepted ++ [item] else s.accepted, s.returned⟩
  | .dequeue =>
    some ⟨(dequeue s.que).1, s.accepted, s.returned ++ (dequeue s.que).2.toList⟩

def init (α : Type*) : History α := ⟨emptyQueue, [], []⟩

/-- What a first-in first-out queue promises in one state: the records returned
are a prefix of those accepted, the rest waits in the queue in order, and `size`
counts it. The next `dequeue` returns the first waiting record, or NULL exactly
when there is none. -/
structure Fifo {α : Type*} (s : History α) : Prop where
  order : ∃ rest, s.accepted = s.returned ++ rest ∧ s.que.waiting = rest.map some ∧
    s.que.size = rest.length
  dequeue_eq : (dequeue s.que).2 = (s.accepted.drop s.returned.length).head?

/-- The call does not allocate a larger array for a queue that holds records. -/
def NoRegrowth {α : Type*} (s : History α) : Call α → Prop
  | .enqueue _ m => s.que.size = s.que.capacity → s.que.capacity ≠ 0 → m.array = none
  | .dequeue => True

/-- The representation of a waiting sequence by a circular buffer. -/
structure Rep {α : Type*} (que : Queue α) (rest : List α) : Prop where
  wf : Wf que
  rear_eq : 0 < que.capacity → que.rear = (que.front + que.size) % que.capacity
  waiting_eq : que.waiting = rest.map some

lemma Rep.size_eq {α : Type*} {que : Queue α} {rest : List α} (h : Rep que rest) :
    que.size = rest.length := by
  have hlen := congrArg List.length h.waiting_eq
  simpa [Queue.waiting] using hlen

/-- Storing a record behind the window appends it. -/
lemma Rep.putItem_ok {α : Type*} {que : Queue α} {rest : List α} (h : Rep que rest)
    (hroom : que.size < que.capacity) (item : α) :
    Rep (putItem que item true).1 (rest ++ [item]) := by
  have hrear := h.rear_eq (by omega)
  have hlt : que.rear < que.elements.length := by
    have := h.wf.rear_le
    have := h.wf.length_eq
    omega
  refine ⟨h.wf.putItem hroom item true, ?_, ?_⟩
  · intro hc
    simp only [putItem, if_true]
    rw [next_eq_mod (by rw [← h.wf.length_eq]; exact hlt), hrear, rear_push]
  · have hrest : ∀ i, i ≠ (que.front + que.size) % que.capacity →
        (putItem que item true).1.cell i = que.cell i := by
      intro i hi
      simp only [putItem, if_true, Queue.cell]
      rw [cell_set que _ _ _ hlt, if_neg (by rw [hrear]; exact Ne.symm hi)]
      rfl
    have hpush := window_push hroom hrest
    have hnew : (putItem que item true).1.cell ((que.front + que.size) % que.capacity) =
        some item := by
      simp only [putItem, if_true, Queue.cell]
      rw [cell_set que _ _ _ hlt, if_pos hrear]
    rw [hnew] at hpush
    rw [List.map_append, ← h.waiting_eq]
    exact hpush

/-- When the record cannot be allocated only the cell behind the window changes. -/
lemma Rep.putItem_fail {α : Type*} {que : Queue α} {rest : List α} (h : Rep que rest)
    (hroom : que.size < que.capacity) (item : α) : Rep (putItem que item false).1 rest := by
  have hrear := h.rear_eq (by omega)
  have hlt : que.rear < que.elements.length := by
    have := h.wf.rear_le
    have := h.wf.length_eq
    omega
  refine ⟨h.wf.putItem hroom item false, h.rear_eq, ?_⟩
  rw [← h.waiting_eq]
  apply window_congr
  intro j hj
  simp only [putItem, Bool.false_eq_true, if_false, Queue.cell]
  rw [cell_set que _ _ _ hlt, if_neg]
  · rfl
  · rw [hrear]
    exact (cell_ne_of_lt hj hroom).symm

/-- The first allocation of an array turns the empty queue into one of capacity one. -/
lemma Rep.first_array {α : Type*} {que : Queue α} {rest : List α} (h : Rep que rest)
    (hc : que.capacity = 0) (junk : ℕ → Option α) :
    ∃ que', resizeQueue que (some junk) = some (que', 0) ∧ que'.size = 0 ∧ que'.capacity = 1 ∧
      Rep que' rest := by
  have hs := h.wf.size_le
  have hsize := h.size_eq
  have hrest : rest = [] := List.length_eq_zero_iff.mp (by omega)
  obtain ⟨i, out, hres, hi, hlen⟩ := resizeQueue_spec h.wf junk
  rw [if_pos hc] at hres hlen
  refine ⟨_, hres, by dsimp only; omega, rfl,
    ⟨hlen, by dsimp only; omega, by simp, by dsimp only; omega⟩, ?_, ?_⟩
  · intro _
    dsimp only
    rw [Nat.mod_one]
    omega
  · simp [Queue.waiting, hrest, show que.size = 0 by omega]

/-- The specification of `enqueue` on a queue that does not have to grow while
it holds records: it returns, and appends the record exactly when it returns 0. -/
theorem Rep.enqueue {α : Type*} {que : Queue α} {rest : List α} (h : Rep que rest) (item : α)
    (m : Mallocs α) (hg : que.size = que.capacity → que.capacity ≠ 0 → m.array = none) :
    ∃ que' r, enqueue que item m = some (que', r) ∧
      (r = 0 ∧ Rep que' (rest ++ [item]) ∨ r = -1 ∧ Rep que' rest) := by
  have hput : ∀ {q : Queue α}, Rep q rest → q.size < q.capacity → ∃ que' r,
      some (putItem q item m.item) = some (que', r) ∧
        (r = 0 ∧ Rep que' (rest ++ [item]) ∨ r = -1 ∧ Rep que' rest) := by
    intro q hq hroom
    cases m.item with
    | true => exact ⟨_, _, rfl, Or.inl ⟨rfl, hq.putItem_ok hroom item⟩⟩
    | false => exact ⟨_, _, rfl, Or.inr ⟨rfl, hq.putItem_fail hroom item⟩⟩
  unfold WaitQueue.enqueue
  split_ifs with hfull
  · cases hm : m.array with
    | none => exact ⟨que, -1, by simp [resizeQueue], Or.inr ⟨rfl, h⟩⟩
    | some junk =>
      have hc : que.capacity = 0 := by
        by_contra hne
        rw [hg hfull hne] at hm
        cases hm
      obtain ⟨que', hres, hsize, hcapa, hrep⟩ := h.first_array hc junk
      rw [hres]
      exact hput hrep (by dsimp only; omega)
  · have := h.wf.size_le
    exact hput h (by omega)

/-- The specification of `dequeue`: it takes the first waiting record. -/
theorem Rep.dequeue {α : Type*} {que : Queue α} {rest : List α} (h : Rep que rest) :
    (dequeue que).2 = rest.head? ∧ Rep (dequeue que).1 rest.tail := by
  have hsize := h.size_eq
  have hs := h.wf.size_le
  have hwf := h.wf.dequeue
  unfold WaitQueue.dequeue at hwf ⊢
  split_ifs at hwf ⊢ with hz
  · have hrest : rest = [] := List.length_eq_zero_iff.mp (by omega)
    subst hrest
    exact ⟨rfl, h⟩
  · obtain ⟨x, rest, rfl⟩ := List.exists_cons_of_ne_nil (l := rest) (by rintro rfl; simp_all)
    obtain ⟨n, hn⟩ : ∃ n, que.size = n + 1 := ⟨que.size - 1, by omega⟩
    have hfront : que.front < que.capacity := by
      have := h.wf.front_le
      omega
    have hpop := h.waiting_eq
    rw [Queue.waiting, hn, window_pop que.cell n hfront, List.map_cons, List.cons.injEq] at hpop
    refine ⟨hpop.1, hwf, ?_, ?_⟩
    · intro hc
      dsimp only
      rw [h.rear_eq hc, next_eq_mod hfront, hn, ← rear_pop]
      rfl
    · rw [List.tail_cons, ← hpop.2]
      unfold Queue.waiting
      dsimp only
      rw [next_eq_mod hfront, show que.size - 1 = n by omega]
      apply window_drop_congr hfront (by omega)
      intro i hi
      simp only [Queue.cell]
      rw [cell_set que _ _ _ (by rw [h.wf.length_eq]; exact hfront), if_neg (Ne.symm hi)]
      rfl

lemma rep_empty {α : Type*} : Rep (emptyQueue : Queue α) [] :=
  ⟨wf_empty, by simp [emptyQueue], by simp [emptyQueue, Queue.waiting]⟩

/-- The abstraction relation between a history and a first-in first-out queue. -/
def Related {α : Type*} (s : History α) (rest : List α) : Prop :=
  s.accepted = s.returned ++ rest ∧ Rep s.que rest

/-- One call under the growth condition: it returns, and acts on the waiting
sequence as on a first-in first-out queue. -/
lemma Related.step {α : Type*} {s : History α} {rest : List α} (h : Related s rest)
    (c : Call α) (hc : NoRegrowth s c) :
    ∃ t rest', WaitQueue.step s c = some t ∧ Related t rest' := by
  obtain ⟨hacc, hrep⟩ := h
  cases c with
  | enqueue item m =>
    obtain ⟨que', r, hr, hcase⟩ := hrep.enqueue item m hc
    rcases hcase with ⟨rfl, hrep'⟩ | ⟨rfl, hrep'⟩
    · exact ⟨_, rest ++ [item], by simp only [WaitQueue.step, hr, Option.map_some]; rfl,
        by simp [hacc], hrep'⟩
    · exact ⟨_, rest, by simp only [WaitQueue.step, hr, Option.map_some]; rfl,
        by simp [hacc], hrep'⟩
  | dequeue =>
    obtain ⟨hret, hrep'⟩ := hrep.dequeue
    refine ⟨_, rest.tail, rfl, ?_, hrep'⟩
    rw [hacc, hret]
    cases rest <;> simp

lemma Related.fifo {α : Type*} {s : History α} {rest : List α} (h : Related s rest) :
    Fifo s := by
  obtain ⟨hacc, hrep⟩ := h
  refine ⟨⟨rest, hacc, hrep.waiting_eq, hrep.size_eq⟩, ?_⟩
  rw [hrep.dequeue.1, hacc, List.drop_left]

/-- A run in which no `enqueue` allocates a larger array for a queue that holds
records is a run of a first-in first-out queue: every state is, every further
call of this kind returns, and a refused record leaves the waiting sequence as
it is. -/
theorem fifo_of_no_regrowth {α : Type*} {s : History α}
    (hr : Reach step NoRegrowth (init α) s) :
    Fifo s ∧ (∀ c, NoRegrowth s c → (step s c).isSome = true) ∧
      ∀ item m que, NoRegrowth s (.enqueue item m) → enqueue s.que item m = some (que, -1) →
        que.waiting = s.que.waiting := by
  obtain ⟨rest, h⟩ : ∃ rest, Related s rest := by
    refine Reach.invariant (P := fun s => ∃ rest, Related s rest) hr ⟨[], rfl, rep_empty⟩ ?_
    rintro u c v ⟨rest, h⟩ hc hv
    obtain ⟨t, rest', ht, hrel⟩ := h.step c hc
    rw [hv] at ht
    cases ht
    exact ⟨rest', hrel⟩
  refine ⟨h.fifo, ?_, ?_⟩
  · intro c hc
    obtain ⟨t, _, ht, _⟩ := h.step c hc
    rw [ht]
    rfl
  · intro item m que hc hq
    obtain ⟨que', r, hr', hcase⟩ := h.2.enqueue item m hc
    rw [hq] at hr'
    cases hr'
    rcases hcase with ⟨hr0, _⟩ | ⟨_, hrep⟩
    · cases hr0
    · rw [hrep.waiting_eq, h.2.waiting_eq]

/-- Two records wait one after the other, each alone, and a third is refused. -/
theorem fifo_of_no_regrowth_one_at_a_time : ∃ s : History ℕ,
    s.accepted = [1, 2] ∧ s.returned = [1] ∧ Fifo s := by
  have hr : Reach step NoRegrowth (init ℕ) ⟨⟨0, 0, 1, 1, [some 2]⟩, [1, 2], [1]⟩ := by
    have h0 : Reach step NoRegrowth (init ℕ) (init ℕ) := Reach.start
    have h1 := h0.next (a := .enqueue 1 ⟨some fun _ => none, true⟩)
      (t := ⟨⟨0, 0, 1, 1, [some 1]⟩, [1], []⟩)
      (by simp [NoRegrowth, init, emptyQueue]) rfl
    have h2 := h1.next (a := .dequeue) (t := ⟨⟨0, 0, 1, 0, [none]⟩, [1], [1]⟩) trivial rfl
    have h3 := h2.next (a := .enqueue 2 ⟨none, true⟩) (t := ⟨⟨0, 0, 1, 1, [some 2]⟩, [1, 2], [1]⟩)
      (by simp [NoRegrowth]) rfl
    exact h3.next (a := .enqueue 3 ⟨none, true⟩) (by simp [NoRegrowth]) rfl
  exact ⟨_, rfl, rfl, (fifo_of_no_regrowth hr).1⟩

/-- Two records wait at the same time: the growth drops the first one, and
`dequeue` returns the second one first. -/
theorem regrowth_loses_record : ∃ s : History ℕ, Reach step always (init ℕ) s ∧
    s.accepted = [1, 2] ∧ s.returned = [2] ∧ ¬ Fifo s := by
  refine ⟨_, reach_of_run [.enqueue 1 ⟨some fun _ => none, true⟩,
    .enqueue 2 ⟨some fun _ => none, true⟩, .dequeue] rfl, rfl, rfl, ?_⟩
  rintro ⟨⟨rest, hacc, -⟩, -⟩
  exact absurd (List.cons.inj hacc).1 (by decide)

end SystemProgramming.WaitQueue
