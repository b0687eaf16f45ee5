import SystemProgramming.ParkingHandshake

/-!
# The books of the parking lot

What the attendants do under `parking_lock`, section by section: an attempt to park a
vehicle taken from the queue, and the loop of a sweep over one of the tables. The books
are the tables with their counters of free slots, and what has become of the vehicles
that were taken. Every vehicle is taken once; the last part shows that the sections of
the whole program are such sections.
-/
namespace SystemProgramming.ParkingLot
open SystemProgramming.Transition

/-- The tables and counters, the vehicles that attempts have dealt with, those turned
away and those removed with the clock reading, and every vehicle passed to `free`. -/
structure Books where
  parking : VehicleType → List (Option Vehicle)
  mFree : VehicleType → ℤ
  tried : List Vehicle
  turnedAway : List Vehicle
  removed : List (Vehicle × ℤ)
  freed : List Vehicle

/-- The loop that looks for an empty slot; it may find none. -/
def parkLoop : List (Option Vehicle) → Vehicle → Option (List (Option Vehicle))
  | [], _ => none
  | none :: slots, v => some (some v :: slots)
  | some u :: slots, v => (parkLoop slots v).map (some u :: ·)

/-- The slots and the counter after the loop of a sweep, and the vehicles it has freed. -/
structure Swept where
  slots : List (Option Vehicle)
  mFree : ℤ
  freed : List Vehicle

def sweepLoop (now : ℤ) : List (Option Vehicle) → ℤ → Swept
  | [], mFree => ⟨[], mFree, []⟩
  | none :: slots, mFree =>
    let r := sweepLoop now slots mFree
    { r with slots := none :: r.slots }
  | some v :: slots, mFree =>
    if v.expired now then
      let r := sweepLoop now slots (mFree + 1)
      ⟨none :: r.slots, r.mFree, v :: r.freed⟩
    else
      let r := sweepLoop now slots mFree
      { r with slots := some v :: r.slots }

/-- A section: the attendant of type `t` has taken `v`, or sweeps the area `t`. -/
inductive Section where
  | park (t : VehicleType) (v : Vehicle)
  | sweep (t : VehicleType) (now : ℤ)

def Books.park (b : Books) (t : VehicleType) (v : Vehicle) : Books :=
  if 0 < b.mFree t then
    match parkLoop (b.parking t) v with
    | some slots =>
      { b with
        parking := Function.update b.parking t slots
        mFree := Function.update b.mFree t (b.mFree t - 1)
        tried := b.tried ++ [v] }
    | none => { b with tried := b.tried ++ [v] }
  else
    { b with
      tried := b.tried ++ [v]
      turnedAway := b.turnedAway ++ [v]
      freed := b.freed ++ [v] }

def Books.sweep (b : Books) (t : VehicleType) (now : ℤ) : Books :=
  let r := sweepLoop now (b.parking t) (b.mFree t)
  { b with
    parking := Function.update b.parking t r.slots
    mFree := Function.update b.mFree t r.mFree
    removed := b.removed ++ r.freed.map fun v => (v, now)
    freed := b.freed ++ r.freed }

def sectionStep (b : Books) : Section → Option Books
  | .park t v => some (b.park t v)
  | .sweep t now => some (b.sweep t now)

/-- The vehicle is one of the attendant's type, and no attempt has dealt with it. -/
def TakenOnce (b : Books) : Section → Prop
  | .park t v => v.vehicleType = t ∧ v ∉ b.tried
  | .sweep _ _ => True

instance (b : Books) (a : Section) : Decidable (TakenOnce b a) := by
  cases a <;> unfold TakenOnce <;> infer_instance

/-- `main` before it starts the threads. -/
def Books.empty : Books where
  parking := fun t => List.replicate t.capacity none
  mFree := fun t => t.capacity
  tried := []
  turnedAway := []
  removed := []
  freed := []

/-- How many slots hold the vehicle. -/
def Books.slotsOf (b : Books) (v : Vehicle) : ℕ :=
  (b.parking .pickup).count (some v) + (b.parking .automobile).count (some v)

/-- What every section keeps. -/
structure Balanced (b : Books) : Prop where
  free : ∀ t, b.mFree t = (b.parking t).count none
  state : ∀ v, b.slotsOf v + b.turnedAway.count v + (b.removed.map Prod.fst).count v =
    if v ∈ b.tried then 1 else 0
  freed : ∀ v, b.freed.count v = b.turnedAway.count v + (b.removed.map Prod.fst).count v
  expired : ∀ v now, (v, now) ∈ b.removed → parkDuration ≤ now - v.arrivalTime
  typed : ∀ t v, some v ∈ b.parking t → v.vehicleType = t

lemma parkLoop_eq_none {slots : List (Option Vehicle)} {v : Vehicle} :
    parkLoop slots v = none ↔ slots.count none = 0 := by
  induction slots with
  | nil => simp [parkLoop]
  | cons x slots ih =>
    cases x with
    | none => simp [parkLoop]
    | some u => simp [parkLoop, ih]

/-- An empty slot becomes one with the vehicle. -/
lemma parkLoop_count {slots slots' : List (Option Vehicle)} {v : Vehicle}
    (h : parkLoop slots v = some slots') :
    slots'.count none + 1 = slots.count none ∧
      ∀ u, slots'.count (some u) = slots.count (some u) + if u = v then 1 else 0 := by
  induction slots generalizing slots' with
  | nil => cases h
  | cons x slots ih =>
    cases x with
    | none =>
      cases h
      refine ⟨by simp, fun u => ?_⟩
      by_cases huv : u = v
      · simp [huv]
      · simp [huv, Ne.symm huv]
    | some u =>
      simp only [parkLoop, Option.map_eq_some_iff] at h
      obtain ⟨slots'', hrest, rfl⟩ := h
      obtain ⟨hnone, hsome⟩ := ih hrest
      refine ⟨by simpa using hnone, fun w => ?_⟩
      rw [List.count_cons, List.count_cons, hsome w]
      omega

/-- What a sweep frees is expired and leaves empty slots. -/
lemma sweepLoop_count (now : ℤ) (slots : List (Option Vehicle)) (mFree : ℤ) :
    (sweepLoop now slots mFree).mFree = mFree + (sweepLoop now slots mFree).freed.length ∧
      (sweepLoop now slots mFree).slots.count none =
        slots.count none + (sweepLoop now slots mFree).freed.length ∧
      (∀ u, (sweepLoop now slots mFree).slots.count (some u) +
        (sweepLoop now slots mFree).freed.count u = slots.count (some u)) ∧
      ∀ u, u ∈ (sweepLoop now slots mFree).freed → u.expired now = true := by
  induction slots generalizing mFree with
  | nil => simp [sweepLoop]
  | cons x slots ih =>
    cases x with
    | none =>
      obtain ⟨hfree, hnone, hsome, hexpired⟩ := ih mFree
      refine ⟨hfree, ?_, fun u => ?_, hexpired⟩
      · simp only [sweepLoop, List.count_cons_self, hnone]
        omega
      · simpa [sweepLoop] using hsome u
    | some v =>
      simp only [sweepLoop]
      split_ifs with hv
      · obtain ⟨hfree, hnone, hsome, hexpired⟩ := ih (mFree + 1)
        refine ⟨?_, ?_, fun u => ?_, fun u hu => ?_⟩
        · simp only [hfree, List.length_cons]
          push_cast
          omega
        · simp only [List.count_cons_self, hnone, List.length_cons]
          simp
          omega
        · have hu := hsome u
          simp only [List.count_cons, Option.some_beq_some] at hu ⊢
          simp
          omega
        · rcases List.mem_cons.mp hu with rfl | hu
          · exact hv
          · exact hexpired u hu
      · obtain ⟨hfree, hnone, hsome, hexpired⟩ := ih mFree
        refine ⟨hfree, by simpa using hnone, fun u => ?_, hexpired⟩
        have hu := hsome u
        simp only [List.count_cons]
        omega

lemma balanced_empty : Balanced Books.empty where
  free := fun t => by simp [Books.empty]
  state := fun v => by simp [Books.slotsOf, Books.empty, List.count_replicate]
  freed := fun v => rfl
  expired := fun v now h => by cases h
  typed := fun t v h => by simp [Books.empty, List.mem_replicate] at h

/-- A count over both tables, when one of them changes. -/
lemma slotsOf_update (b : Books) (t : VehicleType) (slots : List (Option Vehicle)) (v : Vehicle) :
    (Function.update b.parking t slots .pickup).count (some v) +
        (Function.update b.parking t slots .automobile).count (some v) +
        (b.parking t).count (some v) =
      b.slotsOf v + slots.count (some v) := by
  cases t <;> simp [Books.slotsOf] <;> omega

lemma Balanced.park {b : Books} (h : Balanced b) {t : VehicleType} {v : Vehicle}
    (hv : v.vehicleType = t) (hnew : v ∉ b.tried) : Balanced (b.park t v) := by
  have hfree := h.free t
  have htried : ∀ u, (if u ∈ b.tried ++ [v] then 1 else 0) =
      (if u ∈ b.tried then 1 else 0) + if u = v then 1 else 0 := by
    intro u
    by_cases huv : u = v
    · simp [huv, hnew]
    · simp [huv]
  unfold Books.park
  split_ifs with hpos
  · split
    case h_1 slots hslots =>
      obtain ⟨hnone, hsome⟩ := parkLoop_count hslots
      refine ⟨fun u => ?_, fun u => ?_, h.freed, h.expired, fun u w hw => ?_⟩
      · rcases eq_or_ne u t with rfl | hut
        · simp only [Function.update_self]
          omega
        · simpa only [Function.update_of_ne hut] using h.free u
      · have hstate := h.state u
        have hslot := slotsOf_update b t slots u
        have hcount := hsome u
        rw [htried]
        simp only [Books.slotsOf] at hstate hslot ⊢
        omega
      · rcases eq_or_ne u t with rfl | hut
        · simp only [Function.update_self] at hw
          by_cases hwv : w = v
          · rw [hwv, hv]
          · have hcount := hsome w
            rw [if_neg hwv, Nat.add_zero] at hcount
            have hpos' := List.count_pos_iff.mpr hw
            rw [hcount] at hpos'
            exact h.typed u w (List.count_pos_iff.mp hpos')
        · simp only [Function.update_of_ne hut] at hw
          exact h.typed u w hw
    case h_2 hnone =>
      rw [parkLoop_eq_none] at hnone
      omega
  · refine ⟨h.free, fun u => ?_, fun u => ?_, h.expired, h.typed⟩
    · have hstate := h.state u
      rw [htried, List.count_append, List.count_singleton]
      simp only [Books.slotsOf, beq_iff_eq, eq_comm (a := v)] at hstate ⊢
      omega
    · have hfreed := h.freed u
      simp only [List.count_append]
      omega

lemma Balanced.sweep {b : Books} (h : Balanced b) (t : VehicleType) (now : ℤ) :
    Balanced (b.sweep t now) := by
  obtain ⟨hfree, hnone, hsome, hexpired⟩ := sweepLoop_count now (b.parking t) (b.mFree t)
  have hold := h.free t
  have hremoved : ∀ u, ((b.removed ++ (sweepLoop now (b.parking t) (b.mFree t)).freed.map
      fun v => (v, now)).map Prod.fst).count u = (b.removed.map Prod.fst).count u +
        (sweepLoop now (b.parking t) (b.mFree t)).freed.count u := by
    intro u
    simp [List.count_append, Function.comp_def]
  refine ⟨fun u => ?_, fun u => ?_, fun u => ?_, fun u clock hu => ?_, fun u w hw => ?_⟩
  · rcases eq_or_ne u t with rfl | hut
    · simp only [Books.sweep, Function.update_self]
      omega
    · simpa only [Books.sweep, Function.update_of_ne hut] using h.free u
  · have hstate := h.state u
    have hslot := slotsOf_update b t (sweepLoop now (b.parking t) (b.mFree t)).slots u
    have hcount := hsome u
    have hrem := hremoved u
    show _ = if u ∈ b.tried then 1 else 0
    simp only [Books.sweep, Books.slotsOf] at hstate hslot ⊢
    omega
  · have hfreed := h.freed u
    have hrem := hremoved u
    simp only [Books.sweep, List.count_append] at hrem ⊢
    omega
  · simp only [Books.sweep, List.mem_append, List.mem_map, Prod.mk.injEq] at hu
    rcases hu with hu | ⟨w, hw, rfl, rfl⟩
    · exact h.expired u clock hu
    · simpa [Vehicle.expired] using hexpired w hw
  · rcases eq_or_ne u t with rfl | hut
    · simp only [Books.sweep, Function.update_self] at hw
      have hpos := List.count_pos_iff.mpr hw
      have hcount := hsome w
      exact h.typed u w (List.count_pos_iff.mp (by omega))
    · simp only [Books.sweep, Function.update_of_ne hut] at hw
      exact h.typed u w hw

/-- Whatever the order of the sections, the books balance. -/
theorem balanced_of_reach {b : Books} (h : Reach sectionStep TakenOnce Books.empty b) :
    Balanced b := by
  refine h.invariant balanced_empty fun c a d hc ha hd => ?_
  cases a with
  | park t v =>
    cases hd
    exact hc.park ha.1 ha.2
  | sweep t now =>
    cases hd
    exact hc.sweep t now

/-- Two slots with the same vehicle make its count at least two. -/
lemma two_le_count {slots : List (Option Vehicle)} {v : Vehicle} {i j : ℕ} (hij : i < j)
    (hi : slots[i]? = some (some v)) (hj : slots[j]? = some (some v)) :
    2 ≤ slots.count (some v) := by
  rw [← List.take_append_drop j slots, List.count_append]
  have hfirst : some v ∈ slots.take j := by
    rw [List.mem_iff_getElem?]
    exact ⟨i, by rw [List.getElem?_take_of_lt hij, hi]⟩
  have hsecond : some v ∈ slots.drop j := by
    rw [List.mem_iff_getElem?]
    exact ⟨0, by rw [List.getElem?_drop, Nat.add_zero, hj]⟩
  have := List.count_pos_iff.mpr hfirst
  have := List.count_pos_iff.mpr hsecond
  omega

def Books.Parked (b : Books) (v : Vehicle) : Prop := ∃ t, some v ∈ b.parking t

/-- What the books say: the counters are right, no vehicle stands in two slots, only a
full area turns a vehicle away, and every vehicle that was dealt with is either parked and
not freed, or was turned away or removed after its time and freed once. -/
structure Sound (b : Books) : Prop where
  free : ∀ t, b.mFree t = (b.parking t).count none
  one_slot : ∀ v t u (i j : ℕ), (b.parking t)[i]? = some (some v) →
    (b.parking u)[j]? = some (some v) → t = u ∧ i = j
  full : ∀ t v, (b.park t v).turnedAway ≠ b.turnedAway → none ∉ b.parking t
  one_state : ∀ v, v ∈ b.tried →
    (b.Parked v ∧ v ∉ b.turnedAway ∧ (∀ now, (v, now) ∉ b.removed) ∧ v ∉ b.freed) ∨
    (¬ b.Parked v ∧ v ∈ b.turnedAway ∧ (∀ now, (v, now) ∉ b.removed) ∧ b.freed.count v = 1) ∨
    (¬ b.Parked v ∧ v ∉ b.turnedAway ∧
      (∃ now, (v, now) ∈ b.removed ∧ parkDuration ≤ now - v.arrivalTime) ∧ b.freed.count v = 1)

lemma slotsOf_pos {b : Books} {v : Vehicle} : 0 < b.slotsOf v ↔ b.Parked v := by
  constructor
  · intro h
    rcases Nat.eq_zero_or_pos ((b.parking .pickup).count (some v)) with hzero | hpos
    · exact ⟨.automobile, List.count_pos_iff.mp (by unfold Books.slotsOf at h; omega)⟩
    · exact ⟨.pickup, List.count_pos_iff.mp hpos⟩
  · rintro ⟨t, ht⟩
    have hpos := List.count_pos_iff.mpr ht
    cases t <;> unfold Books.slotsOf <;> omega

theorem Balanced.sound {b : Books} (h : Balanced b) : Sound b where
  free := h.free
  one_slot := by
    intro v t u i j hi hj
    have hstate := h.state v
    obtain rfl : t = u := (h.typed t v (List.mem_iff_getElem?.mpr ⟨i, hi⟩)).symm.trans
      (h.typed u v (List.mem_iff_getElem?.mpr ⟨j, hj⟩))
    refine ⟨rfl, ?_⟩
    have hle : (b.parking t).count (some v) ≤ 1 := by
      cases t <;> unfold Books.slotsOf at hstate <;> split_ifs at hstate <;> omega
    rcases Nat.lt_trichotomy i j with hij | hij | hij
    · have := two_le_count hij hi hj
      omega
    · exact hij
    · have := two_le_count hij hj hi
      omega
  full := by
    intro t v hturned hmem
    have hpos := List.count_pos_iff.mpr hmem
    have hfree := h.free t
    unfold Books.park at hturned
    rw [if_pos (by omega)] at hturned
    split at hturned <;> exact hturned rfl
  one_state := by
    intro v hv
    have hstate := h.state v
    have hfreed := h.freed v
    have hturned : 0 < b.turnedAway.count v ↔ v ∈ b.turnedAway := List.count_pos_iff
    have hremoved : 0 < (b.removed.map Prod.fst).count v ↔ ∃ now, (v, now) ∈ b.removed := by
      rw [List.count_pos_iff, List.mem_map]
      exact ⟨fun ⟨⟨w, now⟩, hw, heq⟩ => ⟨now, heq ▸ hw⟩, fun ⟨now, hnow⟩ => ⟨(v, now), hnow, rfl⟩⟩
    have hnot : ¬ 0 < (b.removed.map Prod.fst).count v → ∀ now, (v, now) ∉ b.removed :=
      fun hzero now hnow => hzero (hremoved.mpr ⟨now, hnow⟩)
    rw [if_pos hv] at hstate
    by_cases hparked : b.Parked v
    · have hpos := slotsOf_pos.mpr hparked
      refine Or.inl ⟨hparked, fun hmem => ?_, hnot (by omega), fun hmem => ?_⟩
      · have := hturned.mpr hmem
        omega
      · have := List.count_pos_iff.mpr hmem
        omega
    · have hzero : b.slotsOf v = 0 :=
        Nat.eq_zero_of_not_pos fun hpos => hparked (slotsOf_pos.mp hpos)
      by_cases hmem : v ∈ b.turnedAway
      · have hpos := hturned.mpr hmem
        exact Or.inr (Or.inl ⟨hparked, hmem, hnot (by omega), by omega⟩)
      · have hnone : b.turnedAway.count v = 0 := List.count_eq_zero.mpr hmem
        obtain ⟨now, hnow⟩ := hremoved.mp (by omega)
        exact Or.inr (Or.inr ⟨hparked, hmem, ⟨now, hnow, h.expired v now hnow⟩, by omega⟩)

/-- The loops are those of the program. -/
lemma parkLoop_eq (slots : List (Option Vehicle)) (v : Vehicle) :
    parkLoop slots v = parkVehicle slots v := by
  induction slots with
  | nil => rfl
  | cons x slots ih =>
    cases x with
    | none => simp [parkLoop, parkVehicle, List.findIdx?_cons]
    | some u =>
      rw [parkLoop, ih, parkVehicle, parkVehicle, List.findIdx?_cons]
      cases slots.findIdx? Option.isNone <;> simp

lemma sweepLoop_eq (now : ℤ) (slots : List (Option Vehicle)) (mFree : ℤ) :
    sweepLoop now slots mFree = ⟨sweepSlots slots now,
      mFree + (expiredVehicles slots now).length, expiredVehicles slots now⟩ := by
  induction slots generalizing mFree with
  | nil => simp [sweepLoop, sweepSlots, expiredVehicles]
  | cons x slots ih =>
    cases x with
    | none => simp [sweepLoop, ih, sweepSlots, expiredVehicles]
    | some v =>
      by_cases hv : v.expired now = true
      · simp only [sweepLoop, hv, if_true, ih, sweepSlots, expiredVehicles]
        simp [hv]
        omega
      · simp [sweepLoop, hv, ih, sweepSlots, expiredVehicles]

/-- The books of the program, with the vehicles dealt with and freed so far. -/
def State.books {ι : Type*} (s : State ι) (tried freed : List Vehicle) : Books where
  parking := s.parking
  mFree := s.mFree
  tried := tried
  turnedAway := s.turnedAway
  removed := s.removed
  freed := freed

/-- The attendant has taken the vehicle from the queue and not dealt with it. -/
def State.Carries {ι : Type*} (s : State ι) (t : VehicleType) (v : Vehicle) : Prop :=
  (s.attendant t).vehicle = some (some v)

/-- What a statement of an attendant does to the books and to the vehicle it carries. -/
inductive Moves {ι : Type*} (s s' : State ι) (t : VehicleType) : Prop
  | quiet (hbooks : s'.books = s.books) (htaken : s'.taken = s.taken)
      (hvehicle : (s'.attendant t).vehicle = (s.attendant t).vehicle)
  | take (hpc : s.attendant t = .take) (hbooks : s'.books = s.books)
      (htaken : s'.taken = s.taken ++ (s.vehicleQueue s.queueFront).toList)
      (hvehicle : (s'.attendant t).vehicle = some (s.vehicleQueue s.queueFront))
  | park (v : Vehicle) (hv : s.Carries t v) (htaken : s'.taken = s.taken)
      (hvehicle : (s'.attendant t).vehicle = none)
      (hbooks : ∀ tried freed, ∃ freed', s'.books (tried ++ [v]) freed' =
        (s.books tried freed).park t v)
  | sweep (area : VehicleType) (now : ℤ) (htaken : s'.taken = s.taken)
      (hnone : (s.attendant t).vehicle = none) (hvehicle : (s'.attendant t).vehicle = none)
      (hbooks : ∀ tried freed, ∃ freed', s'.books tried freed' =
        (s.books tried freed).sweep area now)

lemma attendantStep_moves {ι : Type*} {s s' : State ι} {t : VehicleType} {time : ℤ}
    (h : attendantStep s t time = some s') :
    Moves s s' t ∧ s'.enqueued = s.enqueued ∧ s'.nextVehicleId = s.nextVehicleId := by
  cases hp : s.attendant t <;> simp only [attendantStep, hp, Option.ite_none_right_eq_some,
    Option.some.injEq] at h
  case take =>
    cases h
    exact ⟨.take hp rfl rfl (by simp [State.setAttendant, AttendantPc.vehicle]), rfl, rfl⟩
  case park x =>
    cases x with
    | none => cases h
    | some v =>
      have hv : s.Carries t v := by rw [State.Carries, hp]; rfl
      simp only at h
      split_ifs at h with hpos
      · rw [← parkLoop_eq] at h
        split at h
        case h_1 slots hslots =>
          cases h
          refine ⟨.park v hv rfl (by simp [State.setAttendant, AttendantPc.vehicle])
            fun tried freed => ⟨freed, ?_⟩, rfl, rfl⟩
          simp [State.books, Books.park, hpos, hslots, State.setAttendant]
        case h_2 hslots =>
          cases h
          refine ⟨.park v hv rfl (by simp [State.setAttendant, AttendantPc.vehicle])
            fun tried freed => ⟨freed, ?_⟩, rfl, rfl⟩
          simp [State.books, Books.park, hpos, hslots, State.setAttendant]
      · cases h
        refine ⟨.park v hv rfl (by simp [State.setAttendant, AttendantPc.vehicle])
          fun tried freed => ⟨freed ++ [v], ?_⟩, rfl, rfl⟩
        simp [State.books, Books.park, hpos, State.setAttendant]
  case sweep area now =>
    cases h
    refine ⟨.sweep area now rfl (by rw [hp]; rfl)
      (by simp [State.setAttendant, AttendantPc.vehicle])
      fun tried freed => ⟨freed ++ expiredVehicles (s.parking area) now, ?_⟩, rfl, rfl⟩
    simp [State.books, Books.sweep, sweepLoop_eq, State.setAttendant]
  case sweepUnlock area now =>
    cases h
    refine ⟨.quiet rfl rfl ?_, rfl, rfl⟩
    cases area <;> simp [State.setAttendant, hp, AttendantPc.vehicle]
  case waitNew | waitCharge | lockQueue | lockParking | sweepLock =>
    obtain ⟨-, rfl⟩ := h
    exact ⟨.quiet rfl rfl (by simp [State.setAttendant, hp, AttendantPc.vehicle]), rfl, rfl⟩
  all_goals
    cases h
    exact ⟨.quiet rfl rfl (by simp [State.setAttendant, hp, AttendantPc.vehicle]), rfl, rfl⟩

/-- The vehicle that an owner has allocated and not yet stored. -/
def OwnerPc.holding : OwnerPc → Option Vehicle
  | .waitFree v | .lockQueue v | .store v => some v
  | _ => none

/-- No two vehicles have the same number. -/
structure Issued {ι : Type*} (s : State ι) : Prop where
  nodup : (s.enqueued.map Vehicle.id).Nodup
  below : ∀ v, v ∈ s.enqueued → v.id < s.nextVehicleId
  held : ∀ i v, (s.owner i).holding = some v →
    v.id < s.nextVehicleId ∧ ∀ u, u ∈ s.enqueued → u.id ≠ v.id

lemma inside_of_holding {p : OwnerPc} {v : Vehicle} (h : p.holding = some v) : p.inside = true := by
  cases p <;> first | rfl | cases h

/-- A statement that neither allocates nor stores a vehicle. -/
lemma Issued.plain {ι : Type*} [DecidableEq ι] {s s' : State ι} (h : Issued s) {i : ι} {q : OwnerPc}
    (howner : s'.owner = Function.update s.owner i q) (henqueued : s'.enqueued = s.enqueued)
    (hnext : s'.nextVehicleId = s.nextVehicleId)
    (hq : ∀ v, q.holding = some v → (s.owner i).holding = some v) : Issued s' := by
  refine ⟨henqueued ▸ h.nodup, fun v hv => ?_, fun j v hv => ?_⟩
  · rw [hnext]
    exact h.below v (henqueued ▸ hv)
  · have hold : (s.owner j).holding = some v := by
      rw [howner] at hv
      rcases eq_or_ne j i with rfl | hji
      · rw [Function.update_self] at hv
        exact hq v hv
      · rwa [Function.update_of_ne hji] at hv
    rw [hnext, henqueued]
    exact h.held j v hold

/-- A statement of an owner leaves the books, and gives out new numbers only. -/
lemma ownerStep_issued {ι : Type*} [DecidableEq ι] {s s' : State ι} {i : ι} {time : ℤ}
    (hinv : Inv s) (hissued : Issued s) (h : ownerStep s i time = some s') :
    Issued s' ∧ s'.books = s.books ∧ s'.taken = s.taken ∧ s'.attendant = s.attendant := by
  cases hp : s.owner i <;> simp only [ownerStep, hp, Option.ite_none_right_eq_some,
    Option.some.injEq, reduceCtorEq] at h
  case alloc t =>
    cases h
    refine ⟨⟨hissued.nodup, fun v hv => ?_, fun j v hv => ?_⟩, rfl, rfl, rfl⟩
    · exact (hissued.below v hv).trans (Nat.lt_succ_self _)
    · rcases eq_or_ne j i with rfl | hji
      · simp only [State.setOwner, Function.update_self, OwnerPc.holding, Option.some.injEq] at hv
        subst hv
        exact ⟨Nat.lt_succ_self _, fun u hu => (hissued.below u hu).ne⟩
      · simp only [State.setOwner, Function.update_of_ne hji] at hv
        obtain ⟨hlt, hne⟩ := hissued.held j v hv
        exact ⟨hlt.trans (Nat.lt_succ_self _), hne⟩
  case store v =>
    cases h
    obtain ⟨hlt, hne⟩ := hissued.held i v (by rw [hp]; rfl)
    refine ⟨⟨?_, fun u hu => ?_, fun j u hu => ?_⟩, rfl, rfl, rfl⟩
    · rw [List.map_append, List.nodup_append]
      refine ⟨hissued.nodup, List.nodup_singleton _, fun x hx y hy => ?_⟩
      obtain ⟨u, hu, rfl⟩ := List.mem_map.mp hx
      rw [List.map_singleton, List.mem_singleton] at hy
      exact hy ▸ hne u hu
    · rcases List.mem_append.mp hu with hu | hu
      · exact hissued.below u hu
      · rw [List.mem_singleton.mp hu]
        exact hlt
    · rcases eq_or_ne j i with rfl | hji
      · simp [State.setOwner, OwnerPc.holding] at hu
      · -- only the owner that has the arrival lock holds a vehicle
        simp only [State.setOwner, Function.update_of_ne hji] at hu
        refine absurd (hinv.arrivalLock.unique (inside_of_holding hu) ?_) hji
        rw [hp]
        rfl
  case lockArrival | waitFree | lockQueue | await =>
    obtain ⟨-, rfl⟩ := h
    refine ⟨hissued.plain rfl rfl rfl fun v hv => ?_, rfl, rfl, rfl⟩
    rw [hp]
    exact hv
  all_goals
    cases h
    refine ⟨hissued.plain rfl rfl rfl fun v hv => ?_, rfl, rfl, rfl⟩
    rw [hp]
    exact hv

/-- The books show what the program has done to the vehicles it has taken. -/
structure Shown {ι : Type*} (s : State ι) (b : Books) : Prop where
  books : s.books b.tried b.freed = b
  tried : ∀ v, v ∈ b.tried → v ∈ s.taken ∧ ∀ t, ¬ s.Carries t v
  taken : ∀ v, v ∈ s.taken → v ∈ b.tried ∨ ∃ t, s.Carries t v
  carried : ∀ t v, s.Carries t v → v ∈ s.taken ∧ ∀ u, s.Carries u v → u = t

lemma Shown.congr {ι : Type*} {s s' : State ι} {b b' : Books} (h : Shown s b)
    (hbooks : s'.books b'.tried b'.freed = b') (htried : b'.tried = b.tried)
    (htaken : s'.taken = s.taken) (hcarries : ∀ t v, s'.Carries t v ↔ s.Carries t v) :
    Shown s' b' where
  books := hbooks
  tried := fun v hv => by
    simp only [hcarries, htaken]
    exact h.tried v (htried ▸ hv)
  taken := fun v hv => by
    simp only [hcarries, htried]
    exact h.taken v (htaken ▸ hv)
  carried := fun t v hv => by
    simp only [hcarries, htaken] at hv ⊢
    exact h.carried t v hv

@[simp] lemma Books.park_tried (b : Books) (t : VehicleType) (v : Vehicle) :
    (b.park t v).tried = b.tried ++ [v] := by
  unfold Books.park
  split_ifs
  · split <;> rfl
  · rfl

/-- A vehicle comes from the queue. -/
lemma Shown.take {ι : Type*} {s s' : State ι} {b : Books} {t : VehicleType} {v : Vehicle}
    (h : Shown s b) (hbooks : s'.books = s.books) (htaken : s'.taken = s.taken ++ [v])
    (hnew : v ∉ s.taken) (hnone : ∀ w, ¬ s.Carries t w) (hself : ∀ w, s'.Carries t w ↔ w = v)
    (hother : ∀ u w, u ≠ t → (s'.Carries u w ↔ s.Carries u w)) : Shown s' b := by
  refine ⟨by rw [hbooks]; exact h.books, fun w hw => ?_, fun w hw => ?_, fun u w hw => ?_⟩
  · obtain ⟨hmem, hfree⟩ := h.tried w hw
    refine ⟨htaken ▸ List.mem_append_left _ hmem, fun u hu => ?_⟩
    rcases eq_or_ne u t with rfl | hut
    · exact hnew ((hself w).mp hu ▸ hmem)
    · exact hfree u ((hother u w hut).mp hu)
  · rw [htaken, List.mem_append, List.mem_singleton] at hw
    rcases hw with hw | rfl
    · refine (h.taken w hw).imp_right fun ⟨u, hu⟩ => ⟨u, (hother u w ?_).mpr hu⟩
      rintro rfl
      exact hnone w hu
    · exact Or.inr ⟨t, (hself w).mpr rfl⟩
  · rcases eq_or_ne u t with rfl | hut
    · obtain rfl := (hself w).mp hw
      refine ⟨htaken ▸ List.mem_append_right _ (List.mem_singleton_self w), fun y hy => ?_⟩
      by_contra hyu
      exact hnew (h.carried y w ((hother y w hyu).mp hy)).1
    · obtain ⟨hmem, hunique⟩ := h.carried u w ((hother u w hut).mp hw)
      refine ⟨htaken ▸ List.mem_append_left _ hmem, fun y hy => ?_⟩
      rcases eq_or_ne y t with rfl | hyt
      · exact absurd ((hself w).mp hy ▸ hmem) hnew
      · exact hunique y ((hother y w hyt).mp hy)

/-- The vehicle that an attendant carries is parked or turned away. -/
lemma Shown.park {ι : Type*} {s s' : State ι} {b : Books} {t : VehicleType} {v : Vehicle}
    (h : Shown s b) (hv : s.Carries t v)
    (hbooks : s'.books (b.park t v).tried (b.park t v).freed = b.park t v)
    (htaken : s'.taken = s.taken) (hself : ∀ w, ¬ s'.Carries t w)
    (hother : ∀ u w, u ≠ t → (s'.Carries u w ↔ s.Carries u w)) : Shown s' (b.park t v) := by
  obtain ⟨hmem, hunique⟩ := h.carried t v hv
  have hne : ∀ {u w}, s'.Carries u w → u ≠ t := by
    rintro u w hu rfl
    exact hself w hu
  refine ⟨hbooks, fun w hw => ?_, fun w hw => ?_, fun u w hw => ?_⟩
  · rw [Books.park_tried, List.mem_append, List.mem_singleton] at hw
    rcases hw with hw | rfl
    · obtain ⟨hmem', hfree⟩ := h.tried w hw
      exact ⟨htaken ▸ hmem', fun u hu => hfree u ((hother u w (hne hu)).mp hu)⟩
    · exact ⟨htaken ▸ hmem, fun u hu => hne hu (hunique u ((hother u w (hne hu)).mp hu))⟩
  · rw [Books.park_tried, List.mem_append, List.mem_singleton]
    rcases h.taken w (htaken ▸ hw) with hin | ⟨u, hu⟩
    · exact Or.inl (Or.inl hin)
    · rcases eq_or_ne u t with rfl | hut
      · rw [State.Carries] at hu hv
        rw [hu, Option.some.injEq, Option.some.injEq] at hv
        exact Or.inl (Or.inr hv)
      · exact Or.inr ⟨u, (hother u w hut).mpr hu⟩
  · obtain ⟨hmem', hunique'⟩ := h.carried u w ((hother u w (hne hw)).mp hw)
    exact ⟨htaken ▸ hmem', fun y hy => hunique' y ((hother y w (hne hy)).mp hy)⟩

/-- A statement of an attendant is no section or one that its books allow. -/
lemma Shown.attendantStep {ι : Type*} {s s' : State ι} {b : Books} {t : VehicleType} {time : ℤ}
    (h : Shown s b) (hinv : Inv s) (hinv' : Inv s') (hissued : Issued s')
    (hstep : ParkingLot.attendantStep s t time = some s') :
    ∃ b', Shown s' b' ∧ (b' = b ∨ ∃ a, TakenOnce b a ∧ sectionStep b a = some b') := by
  obtain ⟨pc, hattendant, -⟩ := attendantStep_locks hstep
  obtain ⟨hmoves, henqueued, -⟩ := attendantStep_moves hstep
  have hother : ∀ u v, u ≠ t → (s'.Carries u v ↔ s.Carries u v) := fun u v hu => by
    rw [State.Carries, hattendant, Function.update_of_ne hu, State.Carries]
  cases hmoves with
  | quiet hbooks htaken hvehicle =>
    refine ⟨b, h.congr (by rw [hbooks]; exact h.books) rfl htaken fun u v => ?_, Or.inl rfl⟩
    rcases eq_or_ne u t with rfl | hu
    · rw [State.Carries, hvehicle, State.Carries]
    · exact hother u v hu
  | take hpc hbooks htaken hvehicle =>
    obtain ⟨v, hv, -⟩ := hinv'.handshake.carried t _ hvehicle
    rw [hv] at htaken hvehicle
    rw [Option.toList_some] at htaken
    have hnew : v ∉ s.taken := by
      -- what is taken was enqueued in this order, and no vehicle is enqueued twice
      have horder := hinv'.handshake.taken_prefix
      have hnodup := (hissued.nodup.of_map _).sublist horder.sublist
      rw [htaken, List.nodup_append] at hnodup
      exact fun hmem => hnodup.2.2 v hmem v (List.mem_singleton_self v) rfl
    refine ⟨b, h.take hbooks htaken hnew (fun w => ?_) (fun w => ?_) hother, Or.inl rfl⟩
    · rw [State.Carries, hpc]
      intro hw
      cases hw
    · rw [State.Carries, hvehicle, Option.some.injEq, Option.some.injEq, eq_comm]
  | park v hv htaken hvehicle hbooks =>
    obtain ⟨freed', hbooks⟩ := hbooks b.tried b.freed
    rw [h.books] at hbooks
    obtain ⟨w, hw, htype⟩ := hinv.handshake.carried t _ hv
    cases hw
    have hnew : v ∉ b.tried := fun hin => (h.tried v hin).2 t hv
    have hfreed : (b.park t v).freed = freed' := by rw [← hbooks]; rfl
    refine ⟨b.park t v, h.park hv (by rw [Books.park_tried, hfreed, hbooks]) htaken (fun w => ?_)
      hother, Or.inr ⟨.park t v, ⟨htype, hnew⟩, rfl⟩⟩
    rw [State.Carries, hvehicle]
    intro hw
    cases hw
  | sweep area now htaken hnone hvehicle hbooks =>
    obtain ⟨freed', hbooks⟩ := hbooks b.tried b.freed
    rw [h.books] at hbooks
    have hfreed : (b.sweep area now).freed = freed' := by rw [← hbooks]; rfl
    have htried : (b.sweep area now).tried = b.tried := rfl
    refine ⟨b.sweep area now, h.congr (by rw [htried, hfreed, hbooks]) rfl htaken fun u v => ?_,
      Or.inr ⟨.sweep area now, trivial, rfl⟩⟩
    rcases eq_or_ne u t with rfl | hu
    · rw [State.Carries, hvehicle, State.Carries, hnone]
    · exact hother u v hu

lemma issued_init (ι : Type*) : Issued (init ι) where
  nodup := List.nodup_nil
  below := fun v hv => by cases hv
  held := fun i v hv => by cases hv

lemma shown_init (ι : Type*) : Shown (init ι) Books.empty where
  books := rfl
  tried := fun v hv => by cases hv
  taken := fun v hv => by cases hv
  carried := fun t v hv => by cases hv

/-- Every run of the program is a run of sections, each with a vehicle taken once. -/
theorem exists_shown {ι : Type*} [DecidableEq ι] {s : State ι} (h : Reachable s) :
    ∃ b, Reach sectionStep TakenOnce Books.empty b ∧ Shown s b := by
  have hinit : Inv (init ι) ∧ Issued (init ι) ∧
      ∃ b, Reach sectionStep TakenOnce Books.empty b ∧ Shown (init ι) b :=
    ⟨inv_init ι, issued_init ι, Books.empty, .start, shown_init ι⟩
  have hall : Inv s ∧ Issued s ∧ ∃ b, Reach sectionStep TakenOnce Books.empty b ∧ Shown s b := by
    refine h.invariant (P := fun u => Inv u ∧ Issued u ∧
      ∃ b, Reach sectionStep TakenOnce Books.empty b ∧ Shown u b) hinit fun u a w hu _ hstep => ?_
    obtain ⟨hinv, hissued, b, hreach, hshown⟩ := hu
    have hinv' := step_inv hinv hstep
    cases a with
    | draw i t =>
      simp only [step, Option.ite_none_right_eq_some, Option.some.injEq] at hstep
      obtain ⟨-, rfl⟩ := hstep
      exact ⟨hinv', hissued.plain rfl rfl rfl fun v hv => (by cases hv), b, hreach,
        hshown.congr hshown.books rfl rfl fun _ _ => Iff.rfl⟩
    | owner i time =>
      obtain ⟨hissued', hbooks, htaken, hattendant⟩ := ownerStep_issued hinv hissued hstep
      refine ⟨hinv', hissued', b, hreach, hshown.congr ?_ rfl htaken fun t v => ?_⟩
      · rw [hbooks]
        exact hshown.books
      · rw [State.Carries, hattendant, State.Carries]
    | attendant t time =>
      obtain ⟨pc, -, howner, -⟩ := attendantStep_locks hstep
      obtain ⟨-, henqueued, hnext⟩ := attendantStep_moves hstep
      have hissued' : Issued w := ⟨henqueued ▸ hissued.nodup, by
        rw [henqueued, hnext]
        exact hissued.below, by
        rw [henqueued, hnext, howner]
        exact hissued.held⟩
      obtain ⟨b', hshown', rfl | ⟨a, hok, ha⟩⟩ :=
        hshown.attendantStep hinv hinv' hissued' hstep
      · exact ⟨hinv', hissued', b', hreach, hshown'⟩
      · exact ⟨hinv', hissued', b', hreach.next hok ha, hshown'⟩
  exact hall.2.2

/-- After any sections in any order the books are sound, whatever the clock has read; and
what a run of the program has done is such a sequence of sections, which has dealt with
every vehicle taken from the queue, unless an attendant still carries it. -/
theorem parking_books {ι : Type*} [DecidableEq ι] :
    (∀ b, Reach sectionStep TakenOnce Books.empty b → Sound b) ∧
    ∀ s : State ι, Reachable s → ∃ b, Reach sectionStep TakenOnce Books.empty b ∧ Shown s b :=
  ⟨fun _ hb => (balanced_of_reach hb).sound, fun _ hs => exists_shown hs⟩

/-- A pickup is parked, stays during a sweep that comes too early, and is removed by a
later one. -/
theorem parking_books_swept : ∃ b : Books, b.tried = [⟨1, .pickup, 5⟩] ∧
    b.removed = [(⟨1, .pickup, 5⟩, 30)] ∧ b.freed = [⟨1, .pickup, 5⟩] ∧ Sound b := by
  have hr : Reach sectionStep TakenOnce Books.empty _ := reach_of_checked_run
    [.park .pickup ⟨1, .pickup, 5⟩, .sweep .pickup 20, .sweep .automobile 20,
      .sweep .pickup 30] rfl
  exact ⟨_, rfl, rfl, rfl, (parking_books (ι := Fin 2)).1 _ hr⟩

end SystemProgramming.ParkingLot
