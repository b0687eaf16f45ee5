import SystemProgramming.FifoOverflow
import SystemProgramming.WaitQueue

/-!
# The array accesses of the wait queue

`enqueue` and `dequeue` once more, on the counters as they lie in memory. Every access to
a cell is recorded with the number of cells that the array has. The functions follow
those on sequences step by step, as long as the capacity can be doubled in an `int`.
-/
namespace SystemProgramming.QueueAccesses
open SystemProgramming.Transition SystemProgramming.RingBuffer SystemProgramming.TwoFifos
open SystemProgramming.WaitQueue (Mallocs Call Wf)

structure Queue (α : Type*) where
  front : CInt
  rear : CInt
  capacity : CInt
  size : CInt
  elements : List (Option α)
  deriving DecidableEq, Repr

def emptyQueue {α : Type*} : Queue α := ⟨0, 0, 0, 0, []⟩

/-- An access to an array of so many cells. -/
structure Access where
  cells : ℕ
  index : ℤ
  deriving DecidableEq, Repr

def Access.Inside (a : Access) : Prop := 0 ≤ a.index ∧ a.index < a.cells

/-- The access `elements[i]`. -/
def access {α : Type*} (elements : List (Option α)) (i : CInt) : Access :=
  ⟨elements.length, i.toInt⟩

/-- What the cell holds; it matters only for an access inside. -/
def load {α : Type*} (elements : List (Option α)) (i : CInt) : Option α :=
  (elements[i.toInt.toNat]?).join

def store {α : Type*} (elements : List (Option α)) (i : CInt) (x : Option α) :
    List (Option α) := elements.set i.toInt.toNat x

def next (capacity i : CInt) : CInt := if i = capacity - 1 then 0 else i + 1

/-- The variables of the re-packing loop. -/
structure Repacking (α : Type*) where
  front : CInt
  i : CInt
  newElements : List (Option α)
  accesses : List Access

/-- One iteration. -/
def Repacking.round {α : Type*} (r : Repacking α) (que : Queue α) : Repacking α where
  front := next que.capacity r.front
  i := r.i + 1
  newElements := store r.newElements r.i (load que.elements r.front)
  accesses := r.accesses ++ [access que.elements r.front, access r.newElements r.i]

/-- The loop; it has no result when it is still running after `fuel` tests of its
condition. -/
def repack {α : Type*} (que : Queue α) : ℕ → Repacking α → Option (Repacking α)
  | 0, _ => none
  | fuel + 1, r => if r.front = que.rear then some r else repack que fuel (r.round que)

def newCapa {α : Type*} (que : Queue α) : CInt := if que.capacity = 0 then 1 else 2 * que.capacity

/-- The loop starts with what the memory of the new array held. -/
def Repacking.start {α : Type*} (que : Queue α) (junk : ℕ → Option α) : Repacking α where
  front := que.front
  i := 0
  newElements := (List.range (newCapa que).toInt.toNat).map junk
  accesses := []

/-- What a call leaves and returns, and the accesses that it has made. -/
structure Returned (α β : Type*) where
  que : Queue α
  value : β
  accesses : List Access
  deriving DecidableEq, Repr

def resizeQueue {α : Type*} (que : Queue α) (array : Option (ℕ → Option α)) :
    Option (Returned α CInt) :=
  match array with
  | none => some ⟨que, -1, []⟩
  | some junk => (repack que (que.capacity.toNat + 1) (.start que junk)).map fun r =>
    ⟨⟨0, r.i, newCapa que, que.size, r.newElements⟩, 0, r.accesses⟩

/-- The part of `enqueue` after the test for room. The cell is accessed for the pointer
and, if that is not null, for the record. -/
def putItem {α : Type*} (que : Queue α) (item : α) (ok : Bool) : Returned α CInt :=
  if ok then
    ⟨{ que with
        elements := store que.elements que.rear (some item)
        rear := next que.capacity que.rear
        size := que.size + 1 }, 0, [access que.elements que.rear, access que.elements que.rear]⟩
  else
    ⟨{ que with elements := store que.elements que.rear none }, -1,
      [access que.elements que.rear]⟩

def enqueue {α : Type*} (que : Queue α) (item : α) (m : Mallocs α) : Option (Returned α CInt) :=
  if que.size = que.capacity then
    (resizeQueue que m.array).map fun r =>
      if r.value = -1 then r
      else
        let s := putItem r.que item m.item
        { s with accesses := r.accesses ++ s.accesses }
  else some (putItem que item m.item)

def dequeue {α : Type*} (que : Queue α) : Returned α (Option α) :=
  if que.size = 0 then ⟨que, none, []⟩
  else
    ⟨{ que with
        elements := store que.elements que.front none
        front := next que.capacity que.front
        size := que.size - 1 }, load que.elements que.front,
      [access que.elements que.front, access que.elements que.front]⟩

/-- A queue with the accesses made so far. -/
structure History (α : Type*) where
  que : Queue α
  accesses : List Access
  deriving DecidableEq, Repr

def step {α : Type*} (s : History α) : Call α → Option (History α)
  | .enqueue item m => (enqueue s.que item m).map fun r => ⟨r.que, s.accesses ++ r.accesses⟩
  | .dequeue => some ⟨(dequeue s.que).que, s.accesses ++ (dequeue s.que).accesses⟩

def init (α : Type*) : History α := ⟨emptyQueue, []⟩

/-- The capacity can be doubled. -/
def CapacityBelow {α : Type*} (s : History α) (_ : Call α) : Prop :=
  s.que.capacity.toInt < 2 ^ 30

instance {α : Type*} (s : History α) (c : Call α) : Decidable (CapacityBelow s c) :=
  inferInstanceAs (Decidable (s.que.capacity.toInt < 2 ^ 30))

/-- The counters of a queue lie where they should. -/
structure InRange {α : Type*} (que : Queue α) : Prop where
  size_nonneg : 0 ≤ que.size.toInt
  size_le : que.size.toInt ≤ que.capacity.toInt
  front : 0 < que.capacity.toInt → 0 ≤ que.front.toInt ∧ que.front.toInt < que.capacity.toInt
  rear : 0 < que.capacity.toInt → 0 ≤ que.rear.toInt ∧ que.rear.toInt < que.capacity.toInt

/-- The queue in memory. -/
def ofQueue {α : Type*} (que : WaitQueue.Queue α) : Queue α where
  front := BitVec.ofNat 32 que.front
  rear := BitVec.ofNat 32 que.rear
  capacity := BitVec.ofNat 32 que.capacity
  size := BitVec.ofNat 32 que.size
  elements := que.elements

lemma load_ofNat {α : Type*} (que : WaitQueue.Queue α) {i : ℕ} (hi : i < 2 ^ 31) :
    load que.elements (BitVec.ofNat 32 i) = que.cell i := by
  rw [load, toInt_ofNat hi]
  rfl

lemma store_ofNat {α : Type*} (elements : List (Option α)) {i : ℕ} (hi : i < 2 ^ 31)
    (x : Option α) : store elements (BitVec.ofNat 32 i) x = elements.set i x := by
  rw [store, toInt_ofNat hi]
  rfl

/-- An access is inside when its index is. -/
lemma access_inside {α : Type*} {elements : List (Option α)} {i : ℕ}
    (hi : i < elements.length) (hmax : i < 2 ^ 31) :
    (access elements (BitVec.ofNat 32 i)).Inside := by
  rw [access, Access.Inside, toInt_ofNat hmax]
  exact ⟨Int.natCast_nonneg i, Int.ofNat_lt.mpr hi⟩

lemma next_ofNat {capacity i : ℕ} (hi : i < capacity) (hmax : capacity < 2 ^ 31) :
    next (BitVec.ofNat 32 capacity) (BitVec.ofNat 32 i) =
      BitVec.ofNat 32 (WaitQueue.next capacity i) := by
  obtain ⟨c, rfl⟩ : ∃ c, capacity = c + 1 := ⟨capacity - 1, by omega⟩
  have hlast : BitVec.ofNat 32 (c + 1) - 1 = BitVec.ofNat 32 c := by
    rw [BitVec.ofNat_add]
    exact BitVec.add_sub_cancel _ _
  rw [next, WaitQueue.next, hlast]
  simp only [ofNat_inj (show i < 2 ^ 31 by omega) (show c < 2 ^ 31 by omega), Nat.succ_inj]
  split_ifs
  · rfl
  · rw [BitVec.ofNat_add]
    rfl

/-- Where `front` meets `rear` the loop ends at once. -/
lemma repack_meet {α : Type*} {que : Queue α} {r : Repacking α} (h : r.front = que.rear)
    (fuel : ℕ) : repack que fuel r = if 0 < fuel then some r else none := by
  cases fuel with
  | zero => rfl
  | succ fuel => rw [repack, if_pos h, if_pos (Nat.succ_pos fuel)]

/-- An iteration in a queue with the counters of a sequence. -/
lemma round_ofQueue {α : Type*} {que : WaitQueue.Queue α} {front i : ℕ}
    (hfront : front < que.capacity) (hmax : que.capacity < 2 ^ 31) (hi : i < 2 ^ 31)
    (newElements : List (Option α)) (accesses : List Access) :
    Repacking.round ⟨BitVec.ofNat 32 front, BitVec.ofNat 32 i, newElements, accesses⟩
        (ofQueue que) =
      ⟨BitVec.ofNat 32 ((front + 1) % que.capacity), BitVec.ofNat 32 (i + 1),
        newElements.set i (que.cell front),
        accesses ++ [access que.elements (BitVec.ofNat 32 front),
          access newElements (BitVec.ofNat 32 i)]⟩ := by
  have hnext := next_ofNat hfront hmax
  rw [WaitQueue.next_eq_mod hfront] at hnext
  simp only [Repacking.round, ofQueue, hnext, load_ofNat que (hfront.trans hmax),
    store_ofNat newElements hi, BitVec.ofNat_add]
  rfl

/-- The loop runs once for each cell from `front` up to `rear`, reads one of these cells
each time, and writes the cells of the new array in turn. -/
lemma repack_ofQueue {α : Type*} {que : WaitQueue.Queue α}
    (hlength : que.elements.length = que.capacity) (hmax : que.capacity < 2 ^ 30) (d : ℕ)
    (front i : ℕ) (newElements : List (Option α)) (accesses : List Access)
    (hfront : front < que.capacity) (hrear : que.rear = (front + d) % que.capacity)
    (hd : d < que.capacity) (hroom : i + d ≤ newElements.length)
    (hnew : newElements.length < 2 ^ 31) :
    ∃ out more, out.length = newElements.length ∧ (∀ a, a ∈ more → a.Inside) ∧
      ∀ fuel, WaitQueue.repack que fuel front i newElements =
          (if d < fuel then some (i + d, out) else none) ∧
        repack (ofQueue que) fuel
            ⟨BitVec.ofNat 32 front, BitVec.ofNat 32 i, newElements, accesses⟩ =
          if d < fuel then
            some ⟨BitVec.ofNat 32 que.rear, BitVec.ofNat 32 (i + d), out, accesses ++ more⟩
          else none := by
  induction d generalizing front i newElements accesses with
  | zero =>
    have hmeet : front = que.rear := by rw [hrear, Nat.add_zero, Nat.mod_eq_of_lt hfront]
    refine ⟨newElements, [], rfl, by simp, fun fuel => ⟨?_, ?_⟩⟩
    · cases fuel with
      | zero => rfl
      | succ fuel => rw [WaitQueue.repack, if_pos hmeet, if_pos (Nat.succ_pos fuel), Nat.add_zero]
    · rw [repack_meet (by rw [hmeet]; rfl), hmeet, Nat.add_zero, List.append_nil]
  | succ d ih =>
    have hapart : front ≠ que.rear := hrear ▸ head_ne_offset hfront hd
    have hrearlt : que.rear < que.capacity := hrear ▸ Nat.mod_lt _ (by omega)
    have hapart' : BitVec.ofNat 32 front ≠ (ofQueue que).rear := fun heq =>
      hapart ((ofNat_inj (by omega) (by omega)).mp heq)
    obtain ⟨out, more, hout, hinside, hruns⟩ := ih ((front + 1) % que.capacity) (i + 1)
      (newElements.set i (que.cell front))
      (accesses ++ [access que.elements (BitVec.ofNat 32 front),
        access newElements (BitVec.ofNat 32 i)])
      (Nat.mod_lt _ (by omega)) (by rw [hrear, ← rear_pop]) (by omega)
      (by rw [List.length_set]; omega) (by rwa [List.length_set])
    refine ⟨out, [access que.elements (BitVec.ofNat 32 front),
      access newElements (BitVec.ofNat 32 i)] ++ more, by rw [hout, List.length_set], ?_,
      fun fuel => ⟨?_, ?_⟩⟩
    · intro a ha
      rcases List.mem_append.mp ha with ha | ha
      · simp only [List.mem_cons, List.not_mem_nil, or_false] at ha
        rcases ha with rfl | rfl
        · exact access_inside (by omega) (by omega)
        · exact access_inside (by omega) (by omega)
      · exact hinside a ha
    · cases fuel with
      | zero => rfl
      | succ fuel =>
        rw [WaitQueue.repack, if_neg hapart, WaitQueue.next_eq_mod hfront, (hruns fuel).1]
        simp only [Nat.succ_lt_succ_iff, Nat.add_assoc, Nat.add_comm 1 d]
    · cases fuel with
      | zero => rfl
      | succ fuel =>
        rw [repack, if_neg hapart', round_ofQueue hfront (by omega) (by omega), (hruns fuel).2]
        simp only [Nat.succ_lt_succ_iff, Nat.add_assoc, Nat.add_comm 1 d, List.append_assoc]

@[simp] lemma ofQueue_newCapa {α : Type*} {que : WaitQueue.Queue α} (hmax : que.capacity < 2 ^ 30) :
    newCapa (ofQueue que) =
      BitVec.ofNat 32 (if que.capacity = 0 then 1 else 2 * que.capacity) := by
  rw [newCapa, ofQueue]
  simp only [ofNat_eq_zero (show que.capacity < 2 ^ 31 by omega)]
  split_ifs
  · rfl
  · rw [BitVec.ofNat_mul]
    rfl

/-- In a well-formed queue the loop makes fewer iterations than there are cells. -/
lemma repack_wf {α : Type*} {que : WaitQueue.Queue α} (h : Wf que) (hmax : que.capacity < 2 ^ 30)
    (newElements : List (Option α)) (hroom : que.capacity ≤ newElements.length)
    (hnew : newElements.length < 2 ^ 31) :
    ∃ n out more, n < max 1 que.capacity ∧ (∀ a, a ∈ more → a.Inside) ∧
      ∀ fuel, WaitQueue.repack que fuel que.front 0 newElements =
          (if n < fuel then some (n, out) else none) ∧
        repack (ofQueue que) fuel ⟨BitVec.ofNat 32 que.front, 0, newElements, []⟩ =
          if n < fuel then
            some ⟨BitVec.ofNat 32 que.rear, BitVec.ofNat 32 n, out, more⟩
          else none := by
  have hf := h.front_le
  have hr := h.rear_le
  by_cases hc : que.capacity = 0
  · have hmeet : que.front = que.rear := by omega
    refine ⟨0, newElements, [], by omega, by simp, fun fuel => ⟨?_, ?_⟩⟩
    · cases fuel with
      | zero => rfl
      | succ fuel => rw [WaitQueue.repack, if_pos hmeet, if_pos (Nat.succ_pos fuel)]
    · rw [repack_meet (by rw [hmeet]; rfl), hmeet]
      rfl
  · obtain ⟨d, hd, hdist⟩ := exists_offset (show que.front < que.capacity by omega)
      (show que.rear < que.capacity by omega)
    obtain ⟨out, more, -, hinside, hruns⟩ := repack_ofQueue h.length_eq hmax d que.front 0
      newElements [] (by omega) hdist hd (by omega) hnew
    rw [Nat.zero_add] at hruns
    exact ⟨d, out, more, by omega, hinside, hruns⟩

lemma start_ofQueue {α : Type*} {que : WaitQueue.Queue α} (hmax : que.capacity < 2 ^ 30)
    (junk : ℕ → Option α) : Repacking.start (ofQueue que) junk =
      ⟨BitVec.ofNat 32 que.front, 0,
        (List.range (if que.capacity = 0 then 1 else 2 * que.capacity)).map junk, []⟩ := by
  rw [Repacking.start, ofQueue_newCapa hmax, toInt_ofNat (by split_ifs <;> omega),
    Int.toNat_natCast]
  rfl

/-- The array grows as in the queue on sequences. -/
lemma resizeQueue_ofQueue {α : Type*} {que : WaitQueue.Queue α} (h : Wf que)
    (hmax : que.capacity < 2 ^ 30) (junk : ℕ → Option α) :
    ∃ n r que', n < max 1 que.capacity ∧ (∀ a, a ∈ r.accesses → a.Inside) ∧
      (∀ fuel, repack (ofQueue que) fuel (.start (ofQueue que) junk) =
        if n < fuel then some r else none) ∧
      WaitQueue.resizeQueue que (some junk) = some (que', 0) ∧
      resizeQueue (ofQueue que) (some junk) = some ⟨ofQueue que', 0, r.accesses⟩ := by
  have hcapa : (ofQueue que).capacity.toNat = que.capacity := toNat_ofNat (by omega)
  have hlength : ((List.range (if que.capacity = 0 then 1 else 2 * que.capacity)).map junk).length =
      if que.capacity = 0 then 1 else 2 * que.capacity := by
    rw [List.length_map, List.length_range]
  obtain ⟨n, out, more, hn, hinside, hruns⟩ := repack_wf h hmax
    ((List.range (if que.capacity = 0 then 1 else 2 * que.capacity)).map junk)
    (by rw [hlength]; split_ifs <;> omega) (by rw [hlength]; split_ifs <;> omega)
  rw [← start_ofQueue hmax] at hruns
  have hfuel : n < que.capacity + 1 := by omega
  refine ⟨n, _, ⟨0, n, if que.capacity = 0 then 1 else 2 * que.capacity, que.size, out⟩, hn,
    hinside, fun fuel => (hruns fuel).2, ?_, ?_⟩
  · simp only [WaitQueue.resizeQueue, (hruns _).1, if_pos hfuel, Option.map_some]
  · simp only [resizeQueue, hcapa, (hruns _).2, if_pos hfuel, Option.map_some,
      ofQueue_newCapa hmax]
    rfl

/-- Storing an item accesses the cell at `rear` only. -/
lemma putItem_ofQueue {α : Type*} {que : WaitQueue.Queue α} (h : Wf que)
    (hroom : que.size < que.capacity) (hmax : que.capacity < 2 ^ 31) (item : α) (ok : Bool) :
    ∃ more, (∀ a, a ∈ more → a.Inside) ∧ putItem (ofQueue que) item ok =
      ⟨ofQueue (WaitQueue.putItem que item ok).1,
        BitVec.ofInt 32 (WaitQueue.putItem que item ok).2, more⟩ := by
  have hrear : que.rear < que.capacity := by
    have := h.rear_le
    omega
  have hinside : (access que.elements (BitVec.ofNat 32 que.rear)).Inside :=
    access_inside (h.length_eq ▸ hrear) (hrear.trans hmax)
  cases ok with
  | true =>
    refine ⟨[access que.elements (BitVec.ofNat 32 que.rear),
      access que.elements (BitVec.ofNat 32 que.rear)], by simpa using hinside, ?_⟩
    simp only [putItem, WaitQueue.putItem, ofQueue, if_true,
      store_ofNat que.elements (hrear.trans hmax), next_ofNat hrear hmax, BitVec.ofNat_add]
    rfl
  | false =>
    refine ⟨[access que.elements (BitVec.ofNat 32 que.rear)], by simpa using hinside, ?_⟩
    simp only [putItem, WaitQueue.putItem, ofQueue, Bool.false_eq_true, if_false,
      store_ofNat que.elements (hrear.trans hmax)]
    rfl

@[simp] lemma putItem_capacity {α : Type*} (que : WaitQueue.Queue α) (item : α) (ok : Bool) :
    (WaitQueue.putItem que item ok).1.capacity = que.capacity := by
  cases ok <;> rfl

/-- `enqueue` follows the one on sequences, and its accesses are inside. -/
lemma enqueue_ofQueue {α : Type*} {que : WaitQueue.Queue α} (h : Wf que)
    (hmax : que.capacity < 2 ^ 30) (item : α) (m : Mallocs α) :
    ∃ que' r more, WaitQueue.enqueue que item m = some (que', r) ∧
      enqueue (ofQueue que) item m = some ⟨ofQueue que', BitVec.ofInt 32 r, more⟩ ∧
      Wf que' ∧ que'.capacity < 2 ^ 31 ∧ ∀ a, a ∈ more → a.Inside := by
  have hs := h.size_le
  have hfull : (ofQueue que).size = (ofQueue que).capacity ↔ que.size = que.capacity :=
    ofNat_inj (by omega) (by omega)
  unfold enqueue WaitQueue.enqueue
  simp only [hfull]
  split_ifs with hsize
  · cases hm : m.array with
    | none => exact ⟨que, -1, [], rfl, rfl, h, by omega, by simp⟩
    | some junk =>
      obtain ⟨-, r, que', -, hinside, -, hres, hres'⟩ := resizeQueue_ofQueue h hmax junk
      obtain ⟨que'', heq, hwf, hcapa, hroom⟩ := h.resizeQueue junk
      rw [hres] at heq
      cases heq
      have hmax' : que'.capacity < 2 ^ 31 := by
        rw [hcapa]
        split_ifs <;> omega
      obtain ⟨more, hmore, hput⟩ := putItem_ofQueue hwf hroom hmax' item m.item
      refine ⟨(WaitQueue.putItem que' item m.item).1, (WaitQueue.putItem que' item m.item).2,
        r.accesses ++ more, by rw [hres]; rfl, ?_, hwf.putItem hroom item m.item, ?_, ?_⟩
      · have hzero : (0 : CInt) ≠ -1 := by decide
        rw [hres', Option.map_some, if_neg hzero, hput]
      · rwa [putItem_capacity]
      · intro a ha
        exact (List.mem_append.mp ha).elim (hinside a) (hmore a)
  · obtain ⟨more, hmore, hput⟩ := putItem_ofQueue h (by omega) (by omega) item m.item
    exact ⟨(WaitQueue.putItem que item m.item).1, (WaitQueue.putItem que item m.item).2, more, rfl,
      by rw [hput], h.putItem (by omega) item m.item, by rw [putItem_capacity]; omega, hmore⟩

/-- `dequeue` accesses the cell at `front` only. -/
lemma dequeue_ofQueue {α : Type*} {que : WaitQueue.Queue α} (h : Wf que)
    (hmax : que.capacity < 2 ^ 31) :
    ∃ more, (∀ a, a ∈ more → a.Inside) ∧ dequeue (ofQueue que) =
      ⟨ofQueue (WaitQueue.dequeue que).1, (WaitQueue.dequeue que).2, more⟩ := by
  have hs := h.size_le
  have hf := h.front_le
  have hempty : (ofQueue que).size = 0 ↔ que.size = 0 := ofNat_eq_zero (by omega)
  unfold dequeue WaitQueue.dequeue
  simp only [hempty]
  split_ifs with hzero
  · exact ⟨[], by simp, rfl⟩
  · have hfront : que.front < que.capacity := by omega
    have hsize : BitVec.ofNat 32 que.size - 1 = BitVec.ofNat 32 (que.size - 1) := by
      obtain ⟨n, hn⟩ : ∃ n, que.size = n + 1 := ⟨que.size - 1, by omega⟩
      rw [hn, Nat.add_sub_cancel, BitVec.ofNat_add]
      exact BitVec.add_sub_cancel _ _
    have hinside : (access que.elements (BitVec.ofNat 32 que.front)).Inside :=
      access_inside (h.length_eq ▸ hfront) (hfront.trans hmax)
    refine ⟨[access que.elements (BitVec.ofNat 32 que.front),
      access que.elements (BitVec.ofNat 32 que.front)], by simpa using hinside, ?_⟩
    simp only [ofQueue, store_ofNat que.elements (hfront.trans hmax),
      load_ofNat que (hfront.trans hmax), next_ofNat hfront hmax, hsize]

/-- The queue in memory shows the one on sequences, and has been accessed inside only. -/
structure Shown {α : Type*} (s : History α) (u : WaitQueue.History α) : Prop where
  que : s.que = ofQueue u.que
  wf : Wf u.que
  capacity : u.que.capacity < 2 ^ 31
  accesses : ∀ a, a ∈ s.accesses → a.Inside

lemma Shown.capacity_lt {α : Type*} {s : History α} {u : WaitQueue.History α} (h : Shown s u)
    {c : Call α} (hc : CapacityBelow s c) : u.que.capacity < 2 ^ 30 := by
  rw [CapacityBelow, h.que, ofQueue, toInt_ofNat h.capacity] at hc
  exact Int.ofNat_lt.mp hc

/-- A call follows the one on sequences. -/
lemma Shown.step {α : Type*} {s : History α} {u : WaitQueue.History α} (h : Shown s u)
    {c : Call α} (hc : CapacityBelow s c) :
    ∃ t v, QueueAccesses.step s c = some t ∧ WaitQueue.step u c = some v ∧ Shown t v := by
  have hmax := h.capacity_lt hc
  have happend : ∀ {more : List Access}, (∀ a, a ∈ more → a.Inside) →
      ∀ a, a ∈ s.accesses ++ more → a.Inside := fun hmore a ha =>
    (List.mem_append.mp ha).elim (h.accesses a) (hmore a)
  cases c with
  | enqueue item m =>
    obtain ⟨que', r, more, hres, hres', hwf, hcapa, hmore⟩ := enqueue_ofQueue h.wf hmax item m
    refine ⟨⟨ofQueue que', s.accesses ++ more⟩,
      ⟨que', if r = 0 then u.accepted ++ [item] else u.accepted, u.returned⟩, ?_, ?_,
      ⟨rfl, hwf, hcapa, happend hmore⟩⟩
    · rw [QueueAccesses.step, h.que, hres', Option.map_some]
    · rw [WaitQueue.step, hres, Option.map_some]
  | dequeue =>
    obtain ⟨more, hmore, heq⟩ := dequeue_ofQueue h.wf h.capacity
    refine ⟨_, _, rfl, rfl, ⟨by rw [h.que, heq], h.wf.dequeue, ?_, ?_⟩⟩
    · dsimp only
      unfold WaitQueue.dequeue
      split_ifs
      · exact h.capacity
      · exact h.capacity
    · rw [h.que, heq]
      exact happend hmore

lemma shown_init (α : Type*) : Shown (init α) (WaitQueue.init α) where
  que := rfl
  wf := WaitQueue.wf_empty
  capacity := by simp [WaitQueue.init, WaitQueue.emptyQueue]
  accesses := by simp [init]

/-- Every run is one of the queue on sequences. -/
theorem exists_shown {α : Type*} {s : History α} (h : Reach step CapacityBelow (init α) s) :
    ∃ u, Reach WaitQueue.step always (WaitQueue.init α) u ∧ Shown s u := by
  refine h.invariant (P := fun s => ∃ u, Reach WaitQueue.step always (WaitQueue.init α) u ∧
    Shown s u) ⟨_, .start, shown_init α⟩ fun s c t hs hc ht => ?_
  obtain ⟨u, hreach, hshown⟩ := hs
  obtain ⟨t', v, ht', hv, hnext⟩ := hshown.step hc
  rw [ht] at ht'
  cases ht'
  exact ⟨v, hreach.next trivial hv, hnext⟩

lemma Shown.inRange {α : Type*} {s : History α} {u : WaitQueue.History α} (h : Shown s u) :
    InRange s.que := by
  have hmax := h.capacity
  have hs := h.wf.size_le
  have hf := h.wf.front_le
  have hr := h.wf.rear_le
  constructor <;> rw [h.que] <;> simp only [ofQueue]
  · rw [toInt_ofNat (by omega)]
    omega
  · rw [toInt_ofNat (by omega), toInt_ofNat hmax]
    omega
  · rw [toInt_ofNat hmax, toInt_ofNat (by omega)]
    omega
  · rw [toInt_ofNat hmax, toInt_ofNat (by omega)]
    omega

/-- In every run with capacities that can be doubled the counters stay in range, and only
cells of the arrays are accessed. Every further call returns; its re-packing loop, should
it have one, ends after fewer iterations than the array has cells, or at once. -/
theorem queue_in_bounds {α : Type*} {s : History α} (h : Reach step CapacityBelow (init α) s) :
    InRange s.que ∧ (∀ a, a ∈ s.accesses → a.Inside) ∧
    ∀ c, CapacityBelow s c → (step s c).isSome ∧
      ∀ junk, ∃ n r, n < max 1 s.que.capacity.toNat ∧
        ∀ fuel, repack s.que fuel (.start s.que junk) = if n < fuel then some r else none := by
  obtain ⟨u, -, hshown⟩ := exists_shown h
  refine ⟨hshown.inRange, hshown.accesses, fun c hc => ⟨?_, fun junk => ?_⟩⟩
  · obtain ⟨t, v, ht, -, -⟩ := hshown.step hc
    rw [ht]
    rfl
  · have hmax := hshown.capacity_lt hc
    obtain ⟨n, r, que', hn, -, hruns, -, -⟩ := resizeQueue_ofQueue hshown.wf hmax junk
    have hcapa : (ofQueue u.que).capacity.toNat = u.que.capacity := toNat_ofNat hshown.capacity
    rw [hshown.que, hcapa]
    exact ⟨n, r, hn, hruns⟩

/-- The array grows twice, the second time with one iteration; then a record cannot be
allocated, and the first slot is emptied. -/
theorem queue_in_bounds_grown : ∃ s : History ℕ, s.que = ⟨1, 1, 4, 1, [none, none, none, none]⟩ ∧
    s.accesses = [⟨1, 0⟩, ⟨1, 0⟩, ⟨2, 0⟩, ⟨2, 0⟩, ⟨2, 0⟩, ⟨4, 0⟩, ⟨4, 1⟩, ⟨4, 0⟩, ⟨4, 0⟩] ∧
    InRange s.que ∧ ∀ a, a ∈ s.accesses → a.Inside := by
  have hr : Reach step CapacityBelow (init ℕ) _ := reach_of_checked_run
    [.enqueue 1 ⟨some fun _ => none, true⟩, .enqueue 2 ⟨some fun _ => none, true⟩,
      .enqueue 3 ⟨some fun _ => none, false⟩, .dequeue] rfl
  exact ⟨_, rfl, rfl, (queue_in_bounds hr).1, (queue_in_bounds hr).2.1⟩

end SystemProgramming.QueueAccesses
