import SystemProgramming.Monitor
import SystemProgramming.ParkingLot
import Mathlib.Tactic.SplitIfs

/-!
# The handshake of owners and attendants

Only the owner that holds the arrival lock takes part in the handshake, so one
program counter, the current one, determines how many signals are in flight, how
many cells of the ring are reserved and how many vehicles lie in it. The vehicle
an attendant is called for is therefore the only one in the ring, and it has the
type whose semaphore was posted.
-/
namespace SystemProgramming.ParkingLot
open SystemProgramming.Transition SystemProgramming.Monitor

/-- The owner holds the arrival lock. -/
def OwnerPc.inside : OwnerPc → Bool
  | .sleeping | .lockArrival _ => false
  | _ => true

def OwnerPc.inQueue : OwnerPc → Bool
  | .store _ | .advance _ | .unlockQueue _ => true
  | _ => false

/-- The owner has been granted a free cell and not yet announced its vehicle. -/
def OwnerPc.reserved : OwnerPc → Bool
  | .lockQueue _ | .store _ | .advance _ | .unlockQueue _ | .announce _ => true
  | _ => false

/-- The owner has stored its vehicle and not yet announced it. -/
def OwnerPc.loaded : OwnerPc → Bool
  | .advance _ | .unlockQueue _ | .announce _ => true
  | _ => false

/-- The owner has stored its vehicle and not yet moved the rear of the queue. -/
def OwnerPc.storing : OwnerPc → Bool
  | .advance _ => true
  | _ => false

/-- The owner waits until its vehicle of type `t` is dealt with. -/
def OwnerPc.awaits (t : VehicleType) : OwnerPc → Bool
  | .await v => v.vehicleType = t
  | _ => false

/-- The vehicle an owner has stored and still looks after. -/
def OwnerPc.stored : OwnerPc → Option Vehicle
  | .advance v | .unlockQueue v | .announce v | .await v => some v
  | _ => none

/-- The attendant deals with a vehicle. -/
def AttendantPc.serving : AttendantPc → Bool
  | .waitNew | .clock | .sweepLock _ _ | .sweep _ _ | .sweepUnlock _ _ => false
  | _ => true

/-- The cell of the vehicle is not yet given back. -/
def AttendantPc.reserved : AttendantPc → Bool
  | .waitCharge | .lockQueue | .take | .advance _ | .unlockQueue _ | .postFree _ => true
  | _ => false

/-- The attendant was called for a vehicle that still lies in the queue. -/
def AttendantPc.expects : AttendantPc → Bool
  | .waitCharge | .lockQueue | .take => true
  | _ => false

/-- The attendant has taken the vehicle and not yet moved the front of the queue. -/
def AttendantPc.advancing : AttendantPc → Bool
  | .advance _ => true
  | _ => false

def AttendantPc.inQueue : AttendantPc → Bool
  | .take | .advance _ | .unlockQueue _ => true
  | _ => false

def AttendantPc.inParking : AttendantPc → Bool
  | .park _ | .unlockParking | .sweep _ _ | .sweepUnlock _ _ => true
  | _ => false

def AttendantPc.inCharge : AttendantPc → Bool
  | .lockQueue | .take | .advance _ | .unlockQueue _ | .postFree _ | .lockParking _ | .park _
  | .unlockParking | .postCharge => true
  | _ => false

lemma AttendantPc.reserved_serving {a : AttendantPc} (ha : a.serving = false) :
    a.reserved = false := by
  cases a <;> simp_all [AttendantPc.reserved, AttendantPc.serving]

lemma AttendantPc.expects_serving {a : AttendantPc} (ha : a.serving = false) :
    a.expects = false := by
  cases a <;> simp_all [AttendantPc.expects, AttendantPc.serving]

lemma AttendantPc.advancing_serving {a : AttendantPc} (ha : a.serving = false) :
    a.advancing = false := by
  cases a <;> simp_all [AttendantPc.advancing, AttendantPc.serving]

lemma AttendantPc.inQueue_serving {a : AttendantPc} (ha : a.serving = false) :
    a.inQueue = false := by
  cases a <;> simp_all [AttendantPc.inQueue, AttendantPc.serving]

/-- The pointer an attendant has taken from the queue. -/
def AttendantPc.vehicle : AttendantPc → Option (Option Vehicle)
  | .advance x | .unlockQueue x | .postFree x | .lockParking x | .park x => some x
  | _ => none

def State.inQueue {ι : Type*} (s : State ι) : Thread ι → Bool
  | .owner i => (s.owner i).inQueue
  | .attendant t => (s.attendant t).inQueue

/-- The program counter of the owner that holds the arrival lock. -/
def State.current {ι : Type*} (s : State ι) : OwnerPc :=
  match s.arrivalLock with
  | some i => s.owner i
  | none => .sleeping

def both (f : VehicleType → ℕ) : ℕ := f .pickup + f .automobile

lemma both_update (f : VehicleType → ℕ) (t : VehicleType) (n : ℕ) :
    both (Function.update f t n) + f t = both f + n := by
  cases t <;> simp [both] <;> omega

lemma both_attendant (f : AttendantPc → Bool) (attendant : VehicleType → AttendantPc)
    (t : VehicleType) (b : AttendantPc) {c d : Bool} (hc : f (attendant t) = c) (hd : f b = d) :
    both (fun u => (f (Function.update attendant t b u)).toNat) + c.toNat =
      both (fun u => (f (attendant u)).toNat) + d.toNat := by
  subst hc hd
  cases t <;> simp [both] <;> omega

/-- The books of the handshake, for the program counter `p` of the current owner. -/
structure Handshake {ι : Type*} (p : OwnerPc) (s : State ι) : Prop where
  signals : ∀ t, s.newVehicle t + (s.attendant t).serving.toNat + s.vehicleDone t =
    (p.awaits t).toNat
  slots : s.freeSlot + p.reserved.toNat + both s.newVehicle +
    both (fun t => (s.attendant t).reserved.toNat) = queueCapacity
  charge : ∀ t, s.inCharge t + (s.attendant t).inCharge.toNat = 1
  load : s.enqueued.length = s.taken.length + p.loaded.toNat + both s.newVehicle +
    both (fun t => (s.attendant t).expects.toNat)
  taken_prefix : s.taken <+: s.enqueued
  rear : (s.queueRear + p.storing.toNat) % queueCapacity = s.enqueued.length % queueCapacity
  front : (s.queueFront + both (fun t => (s.attendant t).advancing.toNat)) % queueCapacity =
    s.taken.length % queueCapacity
  rear_lt : s.queueRear < queueCapacity
  front_lt : s.queueFront < queueCapacity
  last : ∀ v, p.stored = some v → s.enqueued.getLast? = some v
  cell : ∀ v, s.enqueued = s.taken ++ [v] →
    s.vehicleQueue (s.taken.length % queueCapacity) = some v
  carried : ∀ t x, (s.attendant t).vehicle = some x → ∃ v, x = some v ∧ v.vehicleType = t
  parked : ∀ t v, some v ∈ s.parking t → v.vehicleType = t

theorem handshake_init (ι : Type*) : Handshake .sleeping (init ι) where
  signals := fun t => rfl
  slots := rfl
  charge := fun t => rfl
  load := rfl
  taken_prefix := List.prefix_refl _
  rear := rfl
  front := rfl
  rear_lt := by simp [init, queueCapacity]
  front_lt := by simp [init, queueCapacity]
  last := fun v hv => by cases hv
  cell := fun v hv => by simp [init] at hv
  carried := fun t x hx => by cases hx
  parked := fun t v hv => by simp [init] at hv

/-- What a program counter of the current owner means to the handshake. -/
def OwnerPc.footprint (p : OwnerPc) : (VehicleType → Bool) × Bool × Bool × Bool × Option Vehicle :=
  (fun t => p.awaits t, p.reserved, p.loaded, p.storing, p.stored)

/-- An owner moves without touching what the handshake is about. -/
lemma Handshake.plainOwner {ι : Type*} {s : State ι} {p : OwnerPc} (h : Handshake p s)
    (q : OwnerPc) (hq : q.footprint = p.footprint) (owner : ι → OwnerPc) (arrivalLock : Option ι)
    (queueLock : Option (Thread ι)) (nextVehicleId : ℕ) :
    Handshake q { s with
      owner := owner, arrivalLock := arrivalLock, queueLock := queueLock
      nextVehicleId := nextVehicleId } := by
  simp only [OwnerPc.footprint, Prod.mk.injEq] at hq
  obtain ⟨hawaits, hreserved, hloaded, hstoring, hstored⟩ := hq
  refine ⟨fun t => ?_, ?_, h.charge, ?_, h.taken_prefix, ?_, h.front, h.rear_lt, h.front_lt, ?_,
    h.cell, h.carried, h.parked⟩
  · rw [congrFun hawaits t]
    exact h.signals t
  · rw [hreserved]
    exact h.slots
  · rw [hloaded]
    exact h.load
  · rw [hstoring]
    exact h.rear
  · rw [hstored]
    exact h.last

/-- As long as the owner has not announced its vehicle, no attendant is called. -/
lemma Handshake.quiet {ι : Type*} {s : State ι} {p : OwnerPc} (h : Handshake p s)
    (hp : ∀ t, p.awaits t = false) :
    both s.newVehicle = 0 ∧ ∀ t, (s.attendant t).serving = false := by
  have hzero : ∀ t, s.newVehicle t = 0 ∧ (s.attendant t).serving = false := by
    intro t
    have hsignals := h.signals t
    simp only [hp t, Bool.toNat_false, Nat.add_eq_zero_iff, Bool.toNat_eq_zero] at hsignals
    exact hsignals.1
  exact ⟨by simp [both, hzero], fun t => (hzero t).2⟩

lemma Handshake.waitFree {ι : Type*} {s : State ι} {v : Vehicle} (h : Handshake (.waitFree v) s)
    (hfree : 0 < s.freeSlot) (owner : ι → OwnerPc) :
    Handshake (.lockQueue v) { s with owner := owner, freeSlot := s.freeSlot - 1 } := by
  have hslots := h.slots
  refine ⟨h.signals, ?_, h.charge, h.load, h.taken_prefix, h.rear, h.front, h.rear_lt, h.front_lt,
    h.last, h.cell, h.carried, h.parked⟩
  simp only [OwnerPc.reserved, Bool.toNat_true, Bool.toNat_false] at hslots ⊢
  omega

/-- The vehicle goes into the cell behind the vehicles that were taken. -/
lemma Handshake.store {ι : Type*} {s : State ι} {v : Vehicle} (h : Handshake (.store v) s)
    (owner : ι → OwnerPc) :
    Handshake (.advance v) { s with
      owner := owner
      vehicleQueue := Function.update s.vehicleQueue s.queueRear (some v)
      enqueued := s.enqueued ++ [v] } := by
  obtain ⟨hnew, hserving⟩ := h.quiet fun t => rfl
  have hexpects : both (fun t => (s.attendant t).expects.toNat) = 0 := by
    simp [both, AttendantPc.expects_serving (hserving _)]
  have hload := h.load
  have hrear := h.rear
  have hrear_lt := h.rear_lt
  have hlen : s.taken.length = s.enqueued.length := by
    simp only [OwnerPc.loaded, Bool.toNat_false] at hload
    omega
  have htaken : s.taken = s.enqueued := h.taken_prefix.eq_of_length hlen
  simp only [OwnerPc.storing, Bool.toNat_false, Nat.add_zero, Nat.mod_eq_of_lt hrear_lt] at hrear
  refine ⟨h.signals, h.slots, h.charge, ?_, ?_, ?_, h.front, h.rear_lt, h.front_lt, ?_, ?_,
    h.carried, h.parked⟩
  · simp only [OwnerPc.loaded, Bool.toNat_false, Bool.toNat_true, List.length_append,
      List.length_singleton] at hload ⊢
    omega
  · rw [htaken]
    exact List.prefix_append _ _
  · simp only [OwnerPc.storing, Bool.toNat_true, List.length_append, List.length_singleton, hrear,
      Nat.mod_add_mod]
  · intro u hu
    cases hu
    exact List.getLast?_concat
  · intro u hu
    rw [htaken, List.append_cancel_left_eq, List.singleton_inj] at hu
    rw [hlen, ← hrear, hu]
    exact Function.update_self ..

lemma Handshake.advanceRear {ι : Type*} {s : State ι} {v : Vehicle} (h : Handshake (.advance v) s)
    (owner : ι → OwnerPc) :
    Handshake (.unlockQueue v) { s with
      owner := owner, queueRear := (s.queueRear + 1) % queueCapacity } := by
  have hrear := h.rear
  refine ⟨h.signals, h.slots, h.charge, h.load, h.taken_prefix, ?_, h.front,
    Nat.mod_lt _ (by decide), h.front_lt, h.last, h.cell, h.carried, h.parked⟩
  simp only [OwnerPc.storing, Bool.toNat_true, Bool.toNat_false, Nat.add_zero, Nat.mod_mod]
    at hrear ⊢
  exact hrear

/-- The owner posts the semaphore of its vehicle's type. -/
lemma Handshake.announce {ι : Type*} {s : State ι} {v : Vehicle} (h : Handshake (.announce v) s)
    (owner : ι → OwnerPc) :
    Handshake (.await v) { s with
      owner := owner
      newVehicle :=
        Function.update s.newVehicle v.vehicleType (s.newVehicle v.vehicleType + 1) } := by
  have hboth := both_update s.newVehicle v.vehicleType (s.newVehicle v.vehicleType + 1)
  have hslots := h.slots
  have hload := h.load
  refine ⟨fun t => ?_, ?_, h.charge, ?_, h.taken_prefix, h.rear, h.front, h.rear_lt, h.front_lt,
    h.last, h.cell, h.carried, h.parked⟩
  · have hsignals := h.signals t
    rcases eq_or_ne t v.vehicleType with rfl | ht
    · simp only [OwnerPc.awaits, Function.update_self, Bool.toNat_false, decide_true,
        Bool.toNat_true] at hsignals ⊢
      omega
    · simpa [OwnerPc.awaits, Function.update_of_ne ht, ht.symm] using hsignals
  · simp only [OwnerPc.reserved, Bool.toNat_true, Bool.toNat_false] at hslots ⊢
    omega
  · simp only [OwnerPc.loaded, Bool.toNat_true, Bool.toNat_false] at hload ⊢
    omega

lemma Handshake.await {ι : Type*} {s : State ι} {v : Vehicle} (h : Handshake (.await v) s)
    (hdone : 0 < s.vehicleDone v.vehicleType) (owner : ι → OwnerPc) :
    Handshake .unlockArrival { s with
      owner := owner
      vehicleDone :=
        Function.update s.vehicleDone v.vehicleType (s.vehicleDone v.vehicleType - 1) } := by
  refine ⟨fun t => ?_, h.slots, h.charge, h.load, h.taken_prefix, h.rear, h.front, h.rear_lt,
    h.front_lt, (fun u hu => by cases hu), h.cell, h.carried, h.parked⟩
  have hsignals := h.signals t
  rcases eq_or_ne t v.vehicleType with rfl | ht
  · simp only [OwnerPc.awaits, Function.update_self, Bool.toNat_false, decide_true,
      Bool.toNat_true] at hsignals ⊢
    omega
  · simpa [OwnerPc.awaits, Function.update_of_ne ht, ht.symm] using hsignals

/-- An attendant moves without touching the queue: what it gives to one of the
semaphores it takes from another. -/
lemma Handshake.serve {ι : Type*} {s : State ι} {p : OwnerPc} (h : Handshake p s)
    (t : VehicleType) (b : AttendantPc) (new done charge free : ℕ)
    (hsignals : new + b.serving.toNat + done =
      s.newVehicle t + (s.attendant t).serving.toNat + s.vehicleDone t)
    (hslots : free + new + b.reserved.toNat =
      s.freeSlot + s.newVehicle t + (s.attendant t).reserved.toNat)
    (hcharge : charge + b.inCharge.toNat = s.inCharge t + (s.attendant t).inCharge.toNat)
    (hload : new + b.expects.toNat = s.newVehicle t + (s.attendant t).expects.toNat)
    (hfront : b.advancing = (s.attendant t).advancing)
    (hcarried : ∀ x, b.vehicle = some x → (s.attendant t).vehicle = some x)
    {parking : VehicleType → List (Option Vehicle)}
    (hparked : ∀ u v, some v ∈ parking u → v.vehicleType = u)
    (queueLock : Option (Thread ι)) (parkingLock : Option VehicleType) (mFree : VehicleType → ℤ)
    (turnedAway : List Vehicle) (removed : List (Vehicle × ℤ)) :
    Handshake p { s with
      attendant := Function.update s.attendant t b
      newVehicle := Function.update s.newVehicle t new
      vehicleDone := Function.update s.vehicleDone t done
      inCharge := Function.update s.inCharge t charge
      freeSlot := free, queueLock := queueLock, parkingLock := parkingLock, parking := parking
      mFree := mFree, turnedAway := turnedAway, removed := removed } := by
  have hboth := both_update s.newVehicle t new
  have hold_slots := h.slots
  have hold_load := h.load
  have hold_front := h.front
  refine ⟨fun u => ?_, ?_, fun u => ?_, ?_, h.taken_prefix, h.rear, ?_, h.rear_lt, h.front_lt,
    h.last, h.cell, fun u x hx => ?_, hparked⟩
  · rcases eq_or_ne u t with rfl | hut
    · simpa only [Function.update_self, hsignals] using h.signals u
    · simpa only [Function.update_of_ne hut] using h.signals u
  · have hreserved := both_attendant AttendantPc.reserved s.attendant t b rfl rfl
    dsimp only
    omega
  · rcases eq_or_ne u t with rfl | hut
    · simpa only [Function.update_self, hcharge] using h.charge u
    · simpa only [Function.update_of_ne hut] using h.charge u
  · have hexpects := both_attendant AttendantPc.expects s.attendant t b rfl rfl
    dsimp only
    omega
  · have hadvancing := both_attendant AttendantPc.advancing s.attendant t b rfl rfl
    rw [hfront, Nat.add_right_cancel_iff] at hadvancing
    simpa only [hadvancing] using hold_front
  · rcases eq_or_ne u t with rfl | hut
    · exact h.carried u x (hcarried x (by simpa only [Function.update_self] using hx))
    · exact h.carried u x (by simpa only [Function.update_of_ne hut] using hx)

/-- What a program counter of an attendant means to the handshake. -/
def AttendantPc.footprint (a : AttendantPc) : Bool × Bool × Bool × Bool × Bool :=
  (a.serving, a.reserved, a.inCharge, a.expects, a.advancing)

/-- An attendant moves without touching a semaphore or the queue. -/
lemma Handshake.plainAttendant {ι : Type*} {s : State ι} {p : OwnerPc} (h : Handshake p s)
    (t : VehicleType) (b : AttendantPc) (hb : b.footprint = (s.attendant t).footprint)
    (hcarried : ∀ x, b.vehicle = some x → (s.attendant t).vehicle = some x)
    {parking : VehicleType → List (Option Vehicle)}
    (hparked : ∀ u v, some v ∈ parking u → v.vehicleType = u)
    (queueLock : Option (Thread ι)) (parkingLock : Option VehicleType) (mFree : VehicleType → ℤ)
    (turnedAway : List Vehicle) (removed : List (Vehicle × ℤ)) :
    Handshake p { s with
      attendant := Function.update s.attendant t b
      queueLock := queueLock, parkingLock := parkingLock, parking := parking
      mFree := mFree, turnedAway := turnedAway, removed := removed } := by
  simp only [AttendantPc.footprint, Prod.mk.injEq] at hb
  obtain ⟨hserving, hreserved, hcharge, hexpects, hadvancing⟩ := hb
  have hserve := h.serve t b (s.newVehicle t) (s.vehicleDone t) (s.inCharge t) s.freeSlot
    (by rw [hserving]) (by rw [hreserved]) (by rw [hcharge]) (by rw [hexpects])
    hadvancing hcarried hparked queueLock parkingLock mFree turnedAway removed
  simp only [Function.update_eq_self] at hserve
  exact hserve

/-- The attendant that deals with a vehicle is the only one, and it was called by
the current owner, which waits until it is done. -/
lemma Handshake.serving {ι : Type*} {s : State ι} {p : OwnerPc} (h : Handshake p s)
    {t : VehicleType} (ht : (s.attendant t).serving = true) :
    (∃ v, p = .await v ∧ v.vehicleType = t) ∧ both s.newVehicle = 0 ∧ s.vehicleDone t = 0 ∧
      ∀ u, u ≠ t → (s.attendant u).serving = false := by
  have hawaits : ∃ v, p = .await v ∧ v.vehicleType = t := by
    have hsignals := h.signals t
    rw [ht] at hsignals
    cases p with
    | await v =>
      refine ⟨v, rfl, ?_⟩
      by_contra hv
      simp [OwnerPc.awaits, hv] at hsignals
    | _ => simp [OwnerPc.awaits] at hsignals
  obtain ⟨v, rfl, rfl⟩ := hawaits
  have hsignals := h.signals v.vehicleType
  simp only [ht, OwnerPc.awaits, decide_true, Bool.toNat_true] at hsignals
  have hother : ∀ u, u ≠ v.vehicleType →
      s.newVehicle u = 0 ∧ (s.attendant u).serving = false := by
    intro u hu
    have hzero : s.newVehicle u = 0 ∧ (s.attendant u).serving = false ∧ s.vehicleDone u = 0 := by
      simpa [OwnerPc.awaits, hu.symm, and_assoc] using h.signals u
    exact ⟨hzero.1, hzero.2.1⟩
  refine ⟨⟨v, rfl, rfl⟩, ?_, by omega, fun u hu => (hother u hu).2⟩
  cases hv : v.vehicleType with
  | pickup =>
    have hautomobile := (hother .automobile (by simp [hv])).1
    rw [hv] at hsignals
    dsimp only [both]
    omega
  | automobile =>
    have hpickup := (hother .pickup (by simp [hv])).1
    rw [hv] at hsignals
    dsimp only [both]
    omega

/-- A predicate that holds of one attendant only while it serves counts once. -/
lemma both_serving {attendant : VehicleType → AttendantPc} {f : AttendantPc → Bool}
    (hf : ∀ a : AttendantPc, a.serving = false → f a = false) {t : VehicleType}
    (hother : ∀ u, u ≠ t → (attendant u).serving = false) :
    both (fun u => (f (attendant u)).toNat) = (f (attendant t)).toNat := by
  cases t with
  | pickup => simp [both, hf _ (hother .automobile (by decide))]
  | automobile => simp [both, hf _ (hother .pickup (by decide))]

/-- The vehicle at the front is the one that was just stored, and it has the type of
the attendant that takes it. -/
lemma Handshake.front_vehicle {ι : Type*} {s : State ι} {p : OwnerPc} (h : Handshake p s)
    {t : VehicleType} (ht : s.attendant t = .take) :
    ∃ v, p = .await v ∧ v.vehicleType = t ∧ s.enqueued = s.taken ++ [v] ∧
      s.vehicleQueue s.queueFront = some v := by
  obtain ⟨⟨v, rfl, hv⟩, hnew, -, hother⟩ := h.serving (t := t) (by rw [ht]; rfl)
  have hexpects : both (fun u => (s.attendant u).expects.toNat) = 1 := by
    rw [both_serving (fun _ => AttendantPc.expects_serving) hother, ht]
    rfl
  have hadvancing : both (fun u => (s.attendant u).advancing.toNat) = 0 := by
    rw [both_serving (fun _ => AttendantPc.advancing_serving) hother, ht]
    rfl
  have hload := h.load
  have hfront := h.front
  simp only [hnew, hexpects, OwnerPc.loaded, Bool.toNat_false, Nat.add_zero] at hload
  rw [hadvancing, Nat.add_zero, Nat.mod_eq_of_lt h.front_lt] at hfront
  obtain ⟨rest, hrest⟩ := h.taken_prefix
  have hlength : rest.length = 1 := by
    rw [← hrest, List.length_append] at hload
    omega
  obtain ⟨w, rfl⟩ := List.length_eq_one_iff.mp hlength
  have hlast := h.last v rfl
  rw [← hrest, List.getLast?_concat, Option.some.injEq] at hlast
  subst hlast
  refine ⟨w, rfl, hv, hrest.symm, ?_⟩
  rw [hfront]
  exact h.cell w hrest.symm

lemma Handshake.take {ι : Type*} {s : State ι} {p : OwnerPc} (h : Handshake p s)
    {t : VehicleType} (ht : s.attendant t = .take) (x : Option Vehicle)
    (hx : x = s.vehicleQueue s.queueFront) :
    Handshake p { s with
      attendant := Function.update s.attendant t (.advance x)
      taken := s.taken ++ x.toList } := by
  obtain ⟨v, rfl, hv, henqueued, hcell⟩ := h.front_vehicle ht
  rw [hcell] at hx
  subst hx
  have hsame : ∀ f : AttendantPc → Bool, f (.advance (some v)) = f .take →
      ∀ u, f (Function.update s.attendant t (.advance (some v)) u) = f (s.attendant u) :=
    fun f hf => apply_update_eq (by rw [ht, hf])
  refine ⟨fun u => ?_, ?_, fun u => ?_, ?_, ?_, h.rear, ?_, h.rear_lt, h.front_lt, h.last,
    fun w hw => ?_, fun u x hx => ?_, h.parked⟩
  · simpa only [hsame AttendantPc.serving rfl] using h.signals u
  · simpa only [hsame AttendantPc.reserved rfl] using h.slots
  · simpa only [hsame AttendantPc.inCharge rfl] using h.charge u
  · have hload := h.load
    have hexpects := both_attendant AttendantPc.expects s.attendant t (.advance (some v))
      (c := true) (d := false) (by rw [ht]; rfl) rfl
    simp only [Bool.toNat_true, Bool.toNat_false, Nat.add_zero] at hexpects
    simp only [Option.toList_some, List.length_append, List.length_singleton]
    omega
  · rw [henqueued]
    exact List.prefix_refl _
  · have hfront := h.front
    have hadvancing := both_attendant AttendantPc.advancing s.attendant t (.advance (some v))
      (c := false) (d := true) (by rw [ht]; rfl) rfl
    simp only [Bool.toNat_true, Bool.toNat_false, Nat.add_zero] at hadvancing
    simp only [Option.toList_some, List.length_append, List.length_singleton]
    rw [hadvancing, ← Nat.add_assoc, Nat.add_mod, hfront, ← Nat.add_mod]
  · have hlength := congrArg List.length hw
    simp [henqueued] at hlength
  · rcases eq_or_ne u t with rfl | hut
    · simp only [Function.update_self, AttendantPc.vehicle, Option.some.injEq] at hx
      exact ⟨v, hx.symm, hv⟩
    · exact h.carried u x (by simpa only [Function.update_of_ne hut] using hx)

lemma Handshake.advanceFront {ι : Type*} {s : State ι} {p : OwnerPc} (h : Handshake p s)
    {t : VehicleType} {x : Option Vehicle} (ht : s.attendant t = .advance x) :
    Handshake p { s with
      attendant := Function.update s.attendant t (.unlockQueue x)
      queueFront := (s.queueFront + 1) % queueCapacity } := by
  have hsame : ∀ f : AttendantPc → Bool, f (.unlockQueue x) = f (.advance x) →
      ∀ u, f (Function.update s.attendant t (.unlockQueue x) u) = f (s.attendant u) :=
    fun f hf => apply_update_eq (by rw [ht, hf])
  refine ⟨fun u => ?_, ?_, fun u => ?_, ?_, h.taken_prefix, h.rear, ?_, h.rear_lt,
    Nat.mod_lt _ (by decide), h.last, h.cell, fun u y hy => ?_, h.parked⟩
  · simpa only [hsame AttendantPc.serving rfl] using h.signals u
  · simpa only [hsame AttendantPc.reserved rfl] using h.slots
  · simpa only [hsame AttendantPc.inCharge rfl] using h.charge u
  · simpa only [hsame AttendantPc.expects rfl] using h.load
  · have hfront := h.front
    have hadvancing := both_attendant AttendantPc.advancing s.attendant t (.unlockQueue x)
      (c := true) (d := false) (by rw [ht]; rfl) rfl
    simp only [Bool.toNat_true, Bool.toNat_false, Nat.add_zero] at hadvancing
    rw [← hadvancing, Nat.add_comm _ 1, ← Nat.add_assoc] at hfront
    simpa only [Nat.mod_add_mod] using hfront
  · rcases eq_or_ne u t with rfl | hut
    · exact h.carried u y (by simpa [ht, AttendantPc.vehicle] using hy)
    · exact h.carried u y (by simpa only [Function.update_of_ne hut] using hy)

/-- The locks are held by the threads inside them, and the books of the handshake
are right for the owner that holds the arrival lock. -/
structure Inv {ι : Type*} (s : State ι) : Prop where
  arrivalLock : Owns s.arrivalLock (fun i => (s.owner i).inside)
  queueLock : Owns s.queueLock s.inQueue
  parkingLock : Owns s.parkingLock (fun t => (s.attendant t).inParking)
  handshake : Handshake s.current s

/-- What a statement of an owner does to the locks and to the other threads. -/
theorem ownerStep_locks {ι : Type*} [DecidableEq ι] {s s' : State ι} {i : ι} {time : ℤ}
    (h : ownerStep s i time = some s') :
    ∃ q, s'.owner = Function.update s.owner i q ∧ s'.attendant = s.attendant ∧
      s'.parkingLock = s.parkingLock ∧
      Handover i (s.owner i).inside q.inside s.arrivalLock s'.arrivalLock ∧
      Handover (Thread.owner i) (s.owner i).inQueue q.inQueue s.queueLock s'.queueLock := by
  cases hp : s.owner i <;>
    simp only [ownerStep, hp, Option.ite_none_right_eq_some, Option.some.injEq, reduceCtorEq] at h
  case lockArrival t =>
    obtain ⟨hfree, rfl⟩ := h
    rw [hfree]
    exact ⟨.alloc t, rfl, rfl, rfl, .lock, .keep _ _⟩
  case alloc t =>
    cases h
    exact ⟨.waitFree _, rfl, rfl, rfl, .keep _ _, .keep _ _⟩
  case waitFree v =>
    obtain ⟨-, rfl⟩ := h
    exact ⟨.lockQueue v, rfl, rfl, rfl, .keep _ _, .keep _ _⟩
  case lockQueue v =>
    obtain ⟨hfree, rfl⟩ := h
    rw [hfree]
    exact ⟨.store v, rfl, rfl, rfl, .keep _ _, .lock⟩
  case store v =>
    cases h
    exact ⟨.advance v, rfl, rfl, rfl, .keep _ _, .keep _ _⟩
  case advance v =>
    cases h
    exact ⟨.unlockQueue v, rfl, rfl, rfl, .keep _ _, .keep _ _⟩
  case unlockQueue v =>
    cases h
    exact ⟨.announce v, rfl, rfl, rfl, .keep _ _, .unlock _⟩
  case announce v =>
    cases h
    exact ⟨.await v, rfl, rfl, rfl, .keep _ _, .keep _ _⟩
  case await v =>
    obtain ⟨-, rfl⟩ := h
    exact ⟨.unlockArrival, rfl, rfl, rfl, .keep _ _, .keep _ _⟩
  case unlockArrival =>
    cases h
    exact ⟨.sleeping, rfl, rfl, rfl, .unlock _, .keep _ _⟩

lemma Handshake.ofCurrent {ι : Type*} {s : State ι} {i : ι} {q : OwnerPc}
    (hlock : s.arrivalLock = some i) (hq : s.owner i = q) (h : Handshake q s) :
    Handshake s.current s := by
  have hcurrent : s.current = q := by simp [State.current, hlock, hq]
  rw [hcurrent]
  exact h

/-- A statement of an owner keeps the books. -/
theorem Inv.ownerHandshake {ι : Type*} [DecidableEq ι] {s s' : State ι} {i : ι} {time : ℤ}
    (hinv : Inv s) (h : ownerStep s i time = some s') : Handshake s'.current s' := by
  have hbooks : (s.owner i).inside = true →
      s.arrivalLock = some i ∧ Handshake (s.owner i) s := by
    intro hi
    have hlock := (hinv.arrivalLock i).mpr hi
    have hcurrent : s.current = s.owner i := by simp [State.current, hlock]
    exact ⟨hlock, hcurrent ▸ hinv.handshake⟩
  cases hp : s.owner i <;> rw [hp] at hbooks <;>
    simp only [ownerStep, hp, Option.ite_none_right_eq_some, Option.some.injEq, reduceCtorEq] at h
  case lockArrival t =>
    obtain ⟨hfree, rfl⟩ := h
    have hhand := hinv.handshake
    have hcurrent : s.current = .sleeping := by simp [State.current, hfree]
    rw [hcurrent] at hhand
    exact .ofCurrent rfl (Function.update_self ..) (hhand.plainOwner (.alloc t) rfl _ _ _ _)
  case alloc t =>
    obtain ⟨hlock, hhand⟩ := hbooks rfl
    cases h
    exact .ofCurrent hlock (Function.update_self ..) (hhand.plainOwner (.waitFree _) rfl _ _ _ _)
  case waitFree v =>
    obtain ⟨hlock, hhand⟩ := hbooks rfl
    obtain ⟨hfree, rfl⟩ := h
    exact .ofCurrent hlock (Function.update_self ..) (hhand.waitFree hfree _)
  case lockQueue v =>
    obtain ⟨hlock, hhand⟩ := hbooks rfl
    obtain ⟨hfree, rfl⟩ := h
    exact .ofCurrent hlock (Function.update_self ..) (hhand.plainOwner (.store v) rfl _ _ _ _)
  case store v =>
    obtain ⟨hlock, hhand⟩ := hbooks rfl
    cases h
    exact .ofCurrent hlock (Function.update_self ..) (hhand.store _)
  case advance v =>
    obtain ⟨hlock, hhand⟩ := hbooks rfl
    cases h
    exact .ofCurrent hlock (Function.update_self ..) (hhand.advanceRear _)
  case unlockQueue v =>
    obtain ⟨hlock, hhand⟩ := hbooks rfl
    cases h
    exact .ofCurrent hlock (Function.update_self ..) (hhand.plainOwner (.announce v) rfl _ _ _ _)
  case announce v =>
    obtain ⟨hlock, hhand⟩ := hbooks rfl
    cases h
    exact .ofCurrent hlock (Function.update_self ..) (hhand.announce _)
  case await v =>
    obtain ⟨hlock, hhand⟩ := hbooks rfl
    obtain ⟨hdone, rfl⟩ := h
    exact .ofCurrent hlock (Function.update_self ..) (hhand.await hdone _)
  case unlockArrival =>
    obtain ⟨hlock, hhand⟩ := hbooks rfl
    cases h
    exact hhand.plainOwner .sleeping rfl _ _ _ _

/-- What a statement of an attendant does to the locks and to the other threads. -/
theorem attendantStep_locks {ι : Type*} {s s' : State ι} {t : VehicleType} {time : ℤ}
    (h : attendantStep s t time = some s') :
    ∃ b, s'.attendant = Function.update s.attendant t b ∧ s'.owner = s.owner ∧
      s'.arrivalLock = s.arrivalLock ∧
      Handover (Thread.attendant t) (s.attendant t).inQueue b.inQueue s.queueLock s'.queueLock ∧
      Handover t (s.attendant t).inParking b.inParking s.parkingLock s'.parkingLock := by
  cases hp : s.attendant t <;> simp only [attendantStep, hp, Option.ite_none_right_eq_some,
    Option.some.injEq] at h
  case waitNew =>
    obtain ⟨-, rfl⟩ := h
    exact ⟨.waitCharge, rfl, rfl, rfl, .keep _ _, .keep _ _⟩
  case waitCharge =>
    obtain ⟨-, rfl⟩ := h
    exact ⟨.lockQueue, rfl, rfl, rfl, .keep _ _, .keep _ _⟩
  case lockQueue =>
    obtain ⟨hfree, rfl⟩ := h
    rw [hfree]
    exact ⟨.take, rfl, rfl, rfl, .lock, .keep _ _⟩
  case take =>
    cases h
    exact ⟨.advance _, rfl, rfl, rfl, .keep _ _, .keep _ _⟩
  case advance x =>
    cases h
    exact ⟨.unlockQueue x, rfl, rfl, rfl, .keep _ _, .keep _ _⟩
  case unlockQueue x =>
    cases h
    exact ⟨.postFree x, rfl, rfl, rfl, .unlock _, .keep _ _⟩
  case postFree x =>
    cases h
    exact ⟨.lockParking x, rfl, rfl, rfl, .keep _ _, .keep _ _⟩
  case lockParking x =>
    obtain ⟨hfree, rfl⟩ := h
    rw [hfree]
    exact ⟨.park x, rfl, rfl, rfl, .keep _ _, .lock⟩
  case park x =>
    cases x with
    | none => cases h
    | some v =>
      simp only at h
      split_ifs at h
      · split at h <;> cases h <;> exact ⟨.unlockParking, rfl, rfl, rfl, .keep _ _, .keep _ _⟩
      · cases h
        exact ⟨.unlockParking, rfl, rfl, rfl, .keep _ _, .keep _ _⟩
  case unlockParking =>
    cases h
    exact ⟨.postCharge, rfl, rfl, rfl, .keep _ _, .unlock _⟩
  case postCharge =>
    cases h
    exact ⟨.postDone, rfl, rfl, rfl, .keep _ _, .keep _ _⟩
  case postDone =>
    cases h
    exact ⟨.clock, rfl, rfl, rfl, .keep _ _, .keep _ _⟩
  case clock =>
    cases h
    exact ⟨.sweepLock .pickup time, rfl, rfl, rfl, .keep _ _, .keep _ _⟩
  case sweepLock area now =>
    obtain ⟨hfree, rfl⟩ := h
    rw [hfree]
    exact ⟨.sweep area now, rfl, rfl, rfl, .keep _ _, .lock⟩
  case sweep area now =>
    cases h
    exact ⟨.sweepUnlock area now, rfl, rfl, rfl, .keep _ _, .keep _ _⟩
  case sweepUnlock area now =>
    cases h
    cases area
    · exact ⟨.sweepLock .automobile now, rfl, rfl, rfl, .keep _ _, .unlock _⟩
    · exact ⟨.waitNew, rfl, rfl, rfl, .keep _ _, .unlock _⟩

lemma mem_parkVehicle {slots slots' : List (Option Vehicle)} {u v : Vehicle}
    (h : parkVehicle slots v = some slots') (hu : some u ∈ slots') : some u ∈ slots ∨ u = v := by
  simp only [parkVehicle, Option.map_eq_some_iff] at h
  obtain ⟨i, -, rfl⟩ := h
  rcases List.mem_or_eq_of_mem_set hu with hmem | heq
  · exact Or.inl hmem
  · exact Or.inr (Option.some.inj heq)

lemma mem_sweepSlots {slots : List (Option Vehicle)} {now : ℤ} {v : Vehicle}
    (hv : some v ∈ sweepSlots slots now) : some v ∈ slots := by
  simp only [sweepSlots, List.mem_map] at hv
  obtain ⟨x, hx, heq⟩ := hv
  split_ifs at heq
  exact heq ▸ hx

/-- A statement of an attendant keeps the books. -/
theorem Inv.attendantHandshake {ι : Type*} {s s' : State ι} {t : VehicleType} {time : ℤ}
    (hinv : Inv s) (h : attendantStep s t time = some s') : Handshake s'.current s' := by
  have hhand := hinv.handshake
  cases hp : s.attendant t <;> simp only [attendantStep, hp, Option.ite_none_right_eq_some,
    Option.some.injEq] at h
  case waitNew =>
    obtain ⟨hnew, rfl⟩ := h
    have hserve := hhand.serve t .waitCharge (s.newVehicle t - 1) (s.vehicleDone t)
      (s.inCharge t) s.freeSlot
      (by simp [hp, AttendantPc.serving]; omega) (by simp [hp, AttendantPc.reserved]; omega)
      (by simp [hp, AttendantPc.inCharge]) (by simp [hp, AttendantPc.expects]; omega)
      (by rw [hp]; rfl) (fun x hx => by cases hx) hhand.parked s.queueLock s.parkingLock s.mFree
      s.turnedAway s.removed
    simp only [Function.update_eq_self] at hserve
    exact hserve
  case waitCharge =>
    obtain ⟨hcharge, rfl⟩ := h
    have hserve := hhand.serve t .lockQueue (s.newVehicle t) (s.vehicleDone t)
      (s.inCharge t - 1) s.freeSlot
      (by rw [hp]; rfl) (by rw [hp]; rfl) (by simp [hp, AttendantPc.inCharge]; omega)
      (by rw [hp]; rfl) (by rw [hp]; rfl) (fun x hx => by cases hx) hhand.parked s.queueLock
      s.parkingLock s.mFree s.turnedAway s.removed
    simp only [Function.update_eq_self] at hserve
    exact hserve
  case lockQueue =>
    obtain ⟨-, rfl⟩ := h
    exact hhand.plainAttendant t .take (by rw [hp]; rfl) (fun x hx => by cases hx) hhand.parked
      _ _ _ _ _
  case take =>
    cases h
    exact hhand.take hp _ rfl
  case advance x =>
    cases h
    exact hhand.advanceFront hp
  case unlockQueue x =>
    cases h
    exact hhand.plainAttendant t (.postFree x) (by rw [hp]; rfl) (fun y hy => by rw [hp]; exact hy)
      hhand.parked _ _ _ _ _
  case postFree x =>
    cases h
    have hserve := hhand.serve t (.lockParking x) (s.newVehicle t) (s.vehicleDone t)
      (s.inCharge t) (s.freeSlot + 1)
      (by rw [hp]; rfl) (by simp [hp, AttendantPc.reserved]; omega) (by rw [hp]; rfl)
      (by rw [hp]; rfl) (by rw [hp]; rfl) (fun y hy => by rw [hp]; exact hy) hhand.parked
      s.queueLock s.parkingLock s.mFree s.turnedAway s.removed
    simp only [Function.update_eq_self] at hserve
    exact hserve
  case lockParking x =>
    obtain ⟨-, rfl⟩ := h
    exact hhand.plainAttendant t (.park x) (by rw [hp]; rfl) (fun y hy => by rw [hp]; exact hy)
      hhand.parked _ _ _ _ _
  case park x =>
    cases x with
    | none => cases h
    | some v =>
      obtain ⟨w, hw, htype⟩ := hhand.carried t (some v) (by rw [hp]; rfl)
      cases hw
      have hplain := fun (parking : VehicleType → List (Option Vehicle))
          (hparked : ∀ u v, some v ∈ parking u → v.vehicleType = u) =>
        hhand.plainAttendant t .unlockParking (by rw [hp]; rfl) (fun y hy => by cases hy) hparked
          s.queueLock s.parkingLock
      simp only at h
      split_ifs at h
      · split at h
        · next slots hslots =>
          cases h
          refine hplain _ (fun u w hw => ?_) _ _ _
          rcases eq_or_ne u t with rfl | hut
          · rw [Function.update_self] at hw
            rcases mem_parkVehicle hslots hw with hmem | rfl
            · exact hhand.parked u w hmem
            · exact htype
          · rw [Function.update_of_ne hut] at hw
            exact hhand.parked u w hw
        · cases h
          exact hplain _ hhand.parked _ _ _
      · cases h
        exact hplain _ hhand.parked _ _ _
  case unlockParking =>
    cases h
    exact hhand.plainAttendant t .postCharge (by rw [hp]; rfl) (fun x hx => by cases hx)
      hhand.parked _ _ _ _ _
  case postCharge =>
    cases h
    have hserve := hhand.serve t .postDone (s.newVehicle t) (s.vehicleDone t)
      (s.inCharge t + 1) s.freeSlot
      (by rw [hp]; rfl) (by rw [hp]; rfl) (by simp [hp, AttendantPc.inCharge])
      (by rw [hp]; rfl) (by rw [hp]; rfl) (fun x hx => by cases hx) hhand.parked s.queueLock
      s.parkingLock s.mFree s.turnedAway s.removed
    simp only [Function.update_eq_self] at hserve
    exact hserve
  case postDone =>
    cases h
    have hserve := hhand.serve t .clock (s.newVehicle t) (s.vehicleDone t + 1)
      (s.inCharge t) s.freeSlot
      (by simp [hp, AttendantPc.serving]; omega) (by rw [hp]; rfl) (by rw [hp]; rfl)
      (by rw [hp]; rfl) (by rw [hp]; rfl) (fun x hx => by cases hx) hhand.parked s.queueLock
      s.parkingLock s.mFree s.turnedAway s.removed
    simp only [Function.update_eq_self] at hserve
    exact hserve
  case clock =>
    cases h
    exact hhand.plainAttendant t (.sweepLock .pickup time) (by rw [hp]; rfl)
      (fun x hx => by cases hx) hhand.parked _ _ _ _ _
  case sweepLock area now =>
    obtain ⟨-, rfl⟩ := h
    exact hhand.plainAttendant t (.sweep area now) (by rw [hp]; rfl) (fun x hx => by cases hx)
      hhand.parked _ _ _ _ _
  case sweep area now =>
    cases h
    refine hhand.plainAttendant t (.sweepUnlock area now) (by rw [hp]; rfl)
      (fun x hx => by cases hx) (fun u v hv => ?_) _ _ _ _ _
    rcases eq_or_ne u area with rfl | hu
    · rw [Function.update_self] at hv
      exact hhand.parked u v (mem_sweepSlots hv)
    · rw [Function.update_of_ne hu] at hv
      exact hhand.parked u v hv
  case sweepUnlock area now =>
    cases h
    cases area
    · exact hhand.plainAttendant t (.sweepLock .automobile now) (by rw [hp]; rfl)
        (fun x hx => by cases hx) hhand.parked _ _ _ _ _
    · exact hhand.plainAttendant t .waitNew (by rw [hp]; rfl) (fun x hx => by cases hx)
        hhand.parked _ _ _ _ _

theorem inv_init (ι : Type*) : Inv (init ι) where
  arrivalLock := owns_none.mpr fun i => rfl
  queueLock := owns_none.mpr fun th => by cases th <;> rfl
  parkingLock := owns_none.mpr fun t => rfl
  handshake := handshake_init ι

theorem Inv.ownerStep {ι : Type*} [DecidableEq ι] {s s' : State ι} {i : ι} {time : ℤ}
    (hinv : Inv s) (h : ParkingLot.ownerStep s i time = some s') : Inv s' := by
  obtain ⟨q, howner, hattendant, hparking, harrival, hqueue⟩ := ownerStep_locks h
  have hq : s'.owner i = q := by rw [howner, Function.update_self]
  have hother : ∀ j, j ≠ i → s'.owner j = s.owner j := by
    intro j hj
    rw [howner, Function.update_of_ne hj]
  refine ⟨?_, ?_, ?_, hinv.ownerHandshake h⟩
  · refine hinv.arrivalLock.move i (fun j hj => by rw [hother j hj]) ?_
    rw [hq]
    exact harrival
  · refine hinv.queueLock.move (.owner i) (fun th hth => ?_) ?_
    · cases th with
      | owner j => exact congrArg OwnerPc.inQueue (hother j fun hji => hth (by rw [hji]))
      | attendant t => exact congrArg AttendantPc.inQueue (congrFun hattendant t)
    · simpa only [State.inQueue, hq] using hqueue
  · rw [hparking]
    exact hinv.parkingLock.congr fun t => by rw [hattendant]

theorem Inv.attendantStep {ι : Type*} {s s' : State ι} {t : VehicleType} {time : ℤ}
    (hinv : Inv s) (h : ParkingLot.attendantStep s t time = some s') : Inv s' := by
  obtain ⟨b, hattendant, howner, harrival, hqueue, hparking⟩ := attendantStep_locks h
  have hb : s'.attendant t = b := by rw [hattendant, Function.update_self]
  have hother : ∀ u, u ≠ t → s'.attendant u = s.attendant u := by
    intro u hu
    rw [hattendant, Function.update_of_ne hu]
  refine ⟨?_, ?_, ?_, hinv.attendantHandshake h⟩
  · rw [harrival]
    exact hinv.arrivalLock.congr fun i => by rw [howner]
  · refine hinv.queueLock.move (.attendant t) (fun th hth => ?_) ?_
    · cases th with
      | owner i => exact congrArg OwnerPc.inQueue (congrFun howner i)
      | attendant u => exact congrArg AttendantPc.inQueue (hother u fun hut => hth (by rw [hut]))
    · simpa only [State.inQueue, hb] using hqueue
  · refine hinv.parkingLock.move t (fun u hu => by rw [hother u hu]) ?_
    rw [hb]
    exact hparking

/-- An owner that wakes up is not inside any lock yet. -/
theorem Inv.draw {ι : Type*} [DecidableEq ι] {s : State ι} {i : ι} (hinv : Inv s)
    (hi : s.owner i = .sleeping) (t : VehicleType) : Inv (s.setOwner i (.lockArrival t)) := by
  have hsame : ∀ f : OwnerPc → Bool, f (.lockArrival t) = f .sleeping →
      ∀ j, f (Function.update s.owner i (.lockArrival t) j) = f (s.owner j) :=
    fun f hf => apply_update_eq (by rw [hi, hf])
  refine ⟨hinv.arrivalLock.congr (hsame _ rfl), hinv.queueLock.congr fun th => ?_,
    hinv.parkingLock, ?_⟩
  · cases th with
    | owner j => exact hsame OwnerPc.inQueue rfl j
    | attendant u => rfl
  · have hcurrent : (s.setOwner i (.lockArrival t)).current = s.current := by
      unfold State.current
      cases hlock : s.arrivalLock with
      | none => simp [State.setOwner, hlock]
      | some j =>
        have hj := (hinv.arrivalLock j).mp hlock
        have hji : j ≠ i := by
          rintro rfl
          simp [hi, OwnerPc.inside] at hj
        simp [State.setOwner, hlock, Function.update_of_ne hji]
    rw [hcurrent]
    exact hinv.handshake.plainOwner s.current rfl _ _ _ _

theorem step_inv {ι : Type*} [DecidableEq ι] {s s' : State ι} {a : Act ι} (hinv : Inv s)
    (h : step s a = some s') : Inv s' := by
  cases a with
  | draw i t =>
    simp only [step, Option.ite_none_right_eq_some, Option.some.injEq] at h
    obtain ⟨hi, rfl⟩ := h
    exact hinv.draw hi t
  | owner i time => exact hinv.ownerStep h
  | attendant t time => exact hinv.attendantStep h

theorem reachable_inv {ι : Type*} [DecidableEq ι] {s : State ι} (h : Reachable s) : Inv s :=
  h.invariant (inv_init ι) fun _ _ _ hinv _ hstep => step_inv hinv hstep

end SystemProgramming.ParkingLot
