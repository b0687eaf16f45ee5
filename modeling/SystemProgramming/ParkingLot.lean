import SystemProgramming.Transition
import Mathlib.Logic.Function.Basic

/-!
# The parking lot

Car owners bring vehicles of two types; one attendant for each type parks them.
An owner holds the arrival lock from before it allocates its vehicle until the
attendant reports that the vehicle was dealt with. In between it puts the vehicle
into a ring of sixteen cells, posts the semaphore of its type and waits for the
one that says done. The attendant takes the vehicle at the front, parks it or
turns it away, and sweeps out the vehicles that have been parked long enough.
Each statement is one step, except that the loops under `parking_lock` are taken
as a whole.
-/
namespace SystemProgramming.ParkingLot
open SystemProgramming.Transition

inductive VehicleType where
  | pickup
  | automobile
  deriving DecidableEq, Repr

/-- The number in `id` is only printed; it counts the vehicles that were allocated. -/
structure Vehicle where
  id : ℕ
  vehicleType : VehicleType
  arrivalTime : ℤ
  deriving DecidableEq, Repr

def parkDuration : ℤ := 20
def queueCapacity : ℕ := 16

def VehicleType.capacity : VehicleType → ℕ
  | .pickup => 8
  | .automobile => 4

/-- The next statement of a car owner. -/
inductive OwnerPc where
  | sleeping
  | lockArrival (t : VehicleType)
  | alloc (t : VehicleType)
  | waitFree (v : Vehicle)
  | lockQueue (v : Vehicle)
  | store (v : Vehicle)
  | advance (v : Vehicle)
  | unlockQueue (v : Vehicle)
  | announce (v : Vehicle)
  | await (v : Vehicle)
  | unlockArrival
  deriving DecidableEq, Repr

/-- The next statement of an attendant; `x` is the pointer it has taken from the
queue, and `now` the clock reading of the sweep. -/
inductive AttendantPc where
  | waitNew
  | waitCharge
  | lockQueue
  | take
  | advance (x : Option Vehicle)
  | unlockQueue (x : Option Vehicle)
  | postFree (x : Option Vehicle)
  | lockParking (x : Option Vehicle)
  | park (x : Option Vehicle)
  | unlockParking
  | postCharge
  | postDone
  | clock
  | sweepLock (area : VehicleType) (now : ℤ)
  | sweep (area : VehicleType) (now : ℤ)
  | sweepUnlock (area : VehicleType) (now : ℤ)
  deriving DecidableEq, Repr

inductive Thread (ι : Type*) where
  | owner (i : ι)
  | attendant (t : VehicleType)
  deriving DecidableEq

/-- The shared data and the program counters, with a record of the vehicles put
into the queue, taken from it, turned away, and removed with the clock reading. -/
structure State (ι : Type*) where
  newVehicle : VehicleType → ℕ
  inCharge : VehicleType → ℕ
  vehicleDone : VehicleType → ℕ
  freeSlot : ℕ
  vehicleQueue : ℕ → Option Vehicle
  queueFront : ℕ
  queueRear : ℕ
  queueLock : Option (Thread ι)
  parkingLock : Option VehicleType
  arrivalLock : Option ι
  parking : VehicleType → List (Option Vehicle)
  mFree : VehicleType → ℤ
  nextVehicleId : ℕ
  owner : ι → OwnerPc
  attendant : VehicleType → AttendantPc
  enqueued : List Vehicle
  taken : List Vehicle
  turnedAway : List Vehicle
  removed : List (Vehicle × ℤ)

def State.setOwner {ι : Type*} [DecidableEq ι] (s : State ι) (i : ι) (q : OwnerPc) : State ι :=
  { s with owner := Function.update s.owner i q }

def State.setAttendant {ι : Type*} (s : State ι) (t : VehicleType) (q : AttendantPc) : State ι :=
  { s with attendant := Function.update s.attendant t q }

/-- Car owner `i` executes its next statement; `time` is what the clock reads. -/
def ownerStep {ι : Type*} [DecidableEq ι] (s : State ι) (i : ι) (time : ℤ) : Option (State ι) :=
  match s.owner i with
  | .sleeping => none
  | .lockArrival t =>
    if s.arrivalLock = none then some { s.setOwner i (.alloc t) with arrivalLock := some i }
    else none
  | .alloc t =>
    some { s.setOwner i (.waitFree ⟨s.nextVehicleId, t, time⟩) with
      nextVehicleId := s.nextVehicleId + 1 }
  | .waitFree v =>
    if 0 < s.freeSlot then some { s.setOwner i (.lockQueue v) with freeSlot := s.freeSlot - 1 }
    else none
  | .lockQueue v =>
    if s.queueLock = none then some { s.setOwner i (.store v) with queueLock := some (.owner i) }
    else none
  | .store v =>
    some { s.setOwner i (.advance v) with
      vehicleQueue := Function.update s.vehicleQueue s.queueRear (some v)
      enqueued := s.enqueued ++ [v] }
  | .advance v =>
    some { s.setOwner i (.unlockQueue v) with queueRear := (s.queueRear + 1) % queueCapacity }
  | .unlockQueue v => some { s.setOwner i (.announce v) with queueLock := none }
  | .announce v =>
    some { s.setOwner i (.await v) with
      newVehicle := Function.update s.newVehicle v.vehicleType (s.newVehicle v.vehicleType + 1) }
  | .await v =>
    if 0 < s.vehicleDone v.vehicleType then
      some { s.setOwner i .unlockArrival with
        vehicleDone :=
          Function.update s.vehicleDone v.vehicleType (s.vehicleDone v.vehicleType - 1) }
    else none
  | .unlockArrival => some { s.setOwner i .sleeping with arrivalLock := none }

/-- The loop that looks for an empty slot and parks the vehicle there. -/
def parkVehicle (slots : List (Option Vehicle)) (v : Vehicle) : Option (List (Option Vehicle)) :=
  (slots.findIdx? Option.isNone).map fun i => slots.set i (some v)

/-- `difftime(now, arrival_time) >= PARK_DURATION` -/
def Vehicle.expired (now : ℤ) (v : Vehicle) : Bool := parkDuration ≤ now - v.arrivalTime

/-- The vehicles that one loop of the sweep removes, in the order of their slots. -/
def expiredVehicles (slots : List (Option Vehicle)) (now : ℤ) : List Vehicle :=
  (slots.filterMap id).filter (Vehicle.expired now)

def sweepSlots (slots : List (Option Vehicle)) (now : ℤ) : List (Option Vehicle) :=
  slots.map fun x => if x.any (Vehicle.expired now) then none else x

/-- The attendant of type `t` executes its next statement; `time` is what the clock
reads. Parking a NULL pointer has no defined result. -/
def attendantStep {ι : Type*} (s : State ι) (t : VehicleType) (time : ℤ) : Option (State ι) :=
  match s.attendant t with
  | .waitNew =>
    if 0 < s.newVehicle t then
      some { s.setAttendant t .waitCharge with
        newVehicle := Function.update s.newVehicle t (s.newVehicle t - 1) }
    else none
  | .waitCharge =>
    if 0 < s.inCharge t then
      some { s.setAttendant t .lockQueue with
        inCharge := Function.update s.inCharge t (s.inCharge t - 1) }
    else none
  | .lockQueue =>
    if s.queueLock = none then
      some { s.setAttendant t .take with queueLock := some (.attendant t) }
    else none
  | .take =>
    some { s.setAttendant t (.advance (s.vehicleQueue s.queueFront)) with
      taken := s.taken ++ (s.vehicleQueue s.queueFront).toList }
  | .advance x =>
    some { s.setAttendant t (.unlockQueue x) with
      queueFront := (s.queueFront + 1) % queueCapacity }
  | .unlockQueue x => some { s.setAttendant t (.postFree x) with queueLock := none }
  | .postFree x => some { s.setAttendant t (.lockParking x) with freeSlot := s.freeSlot + 1 }
  | .lockParking x =>
    if s.parkingLock = none then some { s.setAttendant t (.park x) with parkingLock := some t }
    else none
  | .park none => none
  | .park (some v) =>
    if 0 < s.mFree t then
      match parkVehicle (s.parking t) v with
      | some slots =>
        some { s.setAttendant t .unlockParking with
          parking := Function.update s.parking t slots
          mFree := Function.update s.mFree t (s.mFree t - 1) }
      | none => some (s.setAttendant t .unlockParking)
    else some { s.setAttendant t .unlockParking with turnedAway := s.turnedAway ++ [v] }
  | .unlockParking => some { s.setAttendant t .postCharge with parkingLock := none }
  | .postCharge =>
    some { s.setAttendant t .postDone with
      inCharge := Function.update s.inCharge t (s.inCharge t + 1) }
  | .postDone =>
    some { s.setAttendant t .clock with
      vehicleDone := Function.update s.vehicleDone t (s.vehicleDone t + 1) }
  | .clock => some (s.setAttendant t (.sweepLock .pickup time))
  | .sweepLock area now =>
    if s.parkingLock = none then
      some { s.setAttendant t (.sweep area now) with parkingLock := some t }
    else none
  | .sweep area now =>
    some { s.setAttendant t (.sweepUnlock area now) with
      parking := Function.update s.parking area (sweepSlots (s.parking area) now)
      mFree := Function.update s.mFree area
        (s.mFree area + (expiredVehicles (s.parking area) now).length)
      removed := s.removed ++ (expiredVehicles (s.parking area) now).map fun v => (v, now) }
  | .sweepUnlock area now =>
    some { s.setAttendant t (if area = .pickup then .sweepLock .automobile now else .waitNew) with
      parkingLock := none }

/-- A sleeping owner wakes up and draws the type of its next vehicle; a thread
executes its next statement. -/
inductive Act (ι : Type*) where
  | draw (i : ι) (t : VehicleType)
  | owner (i : ι) (time : ℤ)
  | attendant (t : VehicleType) (time : ℤ)

def step {ι : Type*} [DecidableEq ι] (s : State ι) : Act ι → Option (State ι)
  | .draw i t => if s.owner i = .sleeping then some (s.setOwner i (.lockArrival t)) else none
  | .owner i time => ownerStep s i time
  | .attendant t time => attendantStep s t time

/-- `main` before it starts the threads. -/
def init (ι : Type*) : State ι where
  newVehicle := fun _ => 0
  inCharge := fun _ => 1
  vehicleDone := fun _ => 0
  freeSlot := queueCapacity
  vehicleQueue := fun _ => none
  queueFront := 0
  queueRear := 0
  queueLock := none
  parkingLock := none
  arrivalLock := none
  parking := fun t => List.replicate t.capacity none
  mFree := fun t => t.capacity
  nextVehicleId := 1
  owner := fun _ => .sleeping
  attendant := fun _ => .waitNew
  enqueued := []
  taken := []
  turnedAway := []
  removed := []

abbrev Reachable {ι : Type*} [DecidableEq ι] (s : State ι) : Prop :=
  Reach step always (init ι) s

end SystemProgramming.ParkingLot
