import SystemProgramming.WaitQueue

/-!
# Destroying the wait queue

`destroy_queue`, and `main` before it exits, free the records that still wait. The loop
advances `front` before it frees, and counts from the old `front` up to `size`. The
slots it visits are those that hold a record only in a queue that is full and starts in
slot zero, and in an empty one.
-/
namespace SystemProgramming.QueueTeardown
open SystemProgramming.RingBuffer SystemProgramming.WaitQueue

/-- The loop from a given `i` and `front`, and the slots whose pointers it frees. -/
def freeLoop {α : Type*} (que : Queue α) (i front : ℕ) : List ℕ :=
  if i < que.size then
    next que.capacity front :: freeLoop que (i + 1) (next que.capacity front)
  else []
termination_by que.size - i

/-- What is left of a queue: the slots whose pointers were freed, and whether the array
was freed. -/
structure Destroyed (α : Type*) where
  que : Queue α
  slots : List ℕ
  array : Bool

/-- An empty queue keeps its array. -/
def destroyQueue {α : Type*} (que : Queue α) : Destroyed α :=
  if que.size = 0 then ⟨que, [], false⟩
  else ⟨emptyQueue, freeLoop que que.front que.front, true⟩

/-- The end of `main`, where only the loop depends on the size. -/
def destroyInMain {α : Type*} (que : Queue α) : Destroyed α :=
  ⟨emptyQueue, if que.size ≠ 0 then freeLoop que que.front que.front else [], true⟩

/-- The slots of the waiting records. -/
def held {α : Type*} (que : Queue α) : List ℕ := window id que.capacity que.front que.size

/-- The pointer of each waiting record is freed once, and no other. -/
def FreesHeld {α : Type*} (que : Queue α) (slots : List ℕ) : Prop := slots.Perm (held que)

/-- The loop visits the slots behind `front`, one for each count from `i` to `size`. -/
lemma freeLoop_eq {α : Type*} (que : Queue α) (i front : ℕ) (hfront : front < que.capacity) :
    freeLoop que i front =
      window id que.capacity ((front + 1) % que.capacity) (que.size - i) := by
  induction hd : que.size - i generalizing i front with
  | zero => rw [freeLoop, if_neg (by omega), window_zero]
  | succ d ih =>
    have hnext : (front + 1) % que.capacity < que.capacity := Nat.mod_lt _ (by omega)
    rw [freeLoop, if_pos (by omega), next_eq_mod hfront, ih (i + 1) _ hnext (by omega),
      window_pop id d hnext, id]

/-- The slots are those of the waiting records only when as many are visited, and slot
zero among them. -/
lemma freesHeld_freeLoop {α : Type*} (que : Queue α) (hfront : que.front < que.capacity)
    (hsize : que.size ≤ que.capacity) (hne : que.size ≠ 0) :
    FreesHeld que (freeLoop que que.front que.front) ↔
      que.front = 0 ∧ que.size = que.capacity := by
  unfold FreesHeld held
  rw [freeLoop_eq que que.front que.front hfront]
  constructor
  · intro hperm
    have hlength := hperm.length_eq
    rw [length_window, length_window] at hlength
    have hzero : que.front = 0 := by omega
    have hmem : 0 ∈ window id que.capacity que.front que.size := by
      refine List.mem_map.mpr ⟨0, List.mem_range.mpr (by omega), ?_⟩
      simp [hzero]
    obtain ⟨j, hj, hslot⟩ := List.mem_map.mp (hperm.mem_iff.mpr hmem)
    rw [List.mem_range] at hj
    rw [hzero, id, Nat.mod_add_mod] at hslot
    refine ⟨hzero, le_antisymm hsize ?_⟩
    by_contra hlt
    rw [Nat.mod_eq_of_lt (by omega)] at hslot
    omega
  · rintro ⟨hzero, hfull⟩
    have hperm := window_full_perm id hfront
    rwa [hfull, hzero, Nat.sub_zero] at *

/-- Both loops free the waiting records just when there are none, or the queue is full
and starts in slot zero. -/
theorem frees_held_iff {α : Type*} (que : Queue α) (hfront : que.front < que.capacity)
    (hsize : que.size ≤ que.capacity) :
    (FreesHeld que (destroyQueue que).slots ↔
      que.size = 0 ∨ que.front = 0 ∧ que.size = que.capacity) ∧
    (FreesHeld que (destroyInMain que).slots ↔
      que.size = 0 ∨ que.front = 0 ∧ que.size = que.capacity) := by
  by_cases hne : que.size = 0
  · simp [destroyQueue, destroyInMain, hne, FreesHeld, held]
  · have hloop := freesHeld_freeLoop que hfront hsize hne
    simp [destroyQueue, destroyInMain, hne, hloop]

/-- A full queue that starts in slot one: the record there stays allocated. -/
def fullFromOne : Queue ℕ := ⟨1, 1, 2, 2, [some 8, some 7]⟩

theorem fullFromOne_leaks :
    (held fullFromOne).map fullFromOne.cell = [some 7, some 8] ∧
      (destroyQueue fullFromOne).slots = [0] ∧ (destroyInMain fullFromOne).slots = [0] ∧
      ¬ FreesHeld fullFromOne (destroyQueue fullFromOne).slots ∧
      ¬ FreesHeld fullFromOne (destroyInMain fullFromOne).slots := by
  have hslots : freeLoop fullFromOne fullFromOne.front fullFromOne.front = [0] := by
    rw [freeLoop_eq _ _ _ (by decide)]
    decide
  have hnot : ¬ FreesHeld fullFromOne (freeLoop fullFromOne fullFromOne.front
      fullFromOne.front) := by
    rw [freesHeld_freeLoop fullFromOne (by decide) (by decide) (by decide)]
    decide
  exact ⟨by decide, hslots, hslots, hnot, hnot⟩

theorem frees_full_from_zero :
    FreesHeld (⟨0, 0, 2, 2, [some 8, some 7]⟩ : Queue ℕ)
      (destroyQueue (⟨0, 0, 2, 2, [some 8, some 7]⟩ : Queue ℕ)).slots :=
  (frees_held_iff ⟨0, 0, 2, 2, [some 8, some 7]⟩ (by decide) (by decide)).1.mpr (by decide)

end SystemProgramming.QueueTeardown
