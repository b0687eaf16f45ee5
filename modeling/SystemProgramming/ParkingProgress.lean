import SystemProgramming.ParkingHandshake

/-!
# Progress of the parking lot

An attendant waits for a lock only while another thread is about to release it,
and for its charge semaphore never. So whatever the owner inside the arrival lock
waits for, one of the three threads taking part in the handshake can go on.
-/
namespace SystemProgramming.ParkingLot
open SystemProgramming.Transition SystemProgramming.Monitor

lemma Inv.arrival_eq {ι : Type*} {s : State ι} (hinv : Inv s) {i : ι}
    (hi : (s.owner i).inside = true) : s.arrivalLock = some i ∧ s.current = s.owner i := by
  have hlock := (hinv.arrivalLock i).mpr hi
  exact ⟨hlock, by simp [State.current, hlock]⟩

/-- A thread inside the parking lock is not blocked. -/
lemma Inv.parking_enabled {ι : Type*} {s : State ι} (hinv : Inv s) {t : VehicleType}
    (ht : (s.attendant t).inParking = true) (time : ℤ) :
    ∃ s', ParkingLot.attendantStep s t time = some s' := by
  cases hp : s.attendant t <;> rw [hp] at ht <;> simp only [ParkingLot.attendantStep, hp] <;>
    simp only [AttendantPc.inParking, Bool.false_eq_true] at ht
  case park x =>
    obtain ⟨v, rfl, -⟩ := hinv.handshake.carried t x (by rw [hp]; rfl)
    simp only
    split_ifs
    · split <;> exact ⟨_, rfl⟩
    · exact ⟨_, rfl⟩
  all_goals exact ⟨_, rfl⟩

/-- An attendant that waits for the parking lock waits for the other one. -/
lemma Inv.parkingLock_enabled {ι : Type*} {s : State ι} (hinv : Inv s) {t : VehicleType}
    {time : ℤ} (ht : s.parkingLock = none → ∃ s', ParkingLot.attendantStep s t time = some s') :
    ∃ u s', ParkingLot.attendantStep s u time = some s' := by
  cases hlock : s.parkingLock with
  | none => exact ⟨t, ht hlock⟩
  | some u => exact ⟨u, hinv.parking_enabled ((hinv.parkingLock u).mp hlock) time⟩

/-- An attendant that was called is never blocked by an owner. -/
lemma Inv.queueLock_enabled {ι : Type*} {s : State ι} (hinv : Inv s) {t : VehicleType}
    (ht : s.attendant t = .lockQueue) (time : ℤ) :
    ∃ u s', ParkingLot.attendantStep s u time = some s' := by
  obtain ⟨⟨v, hcurrent, -⟩, -⟩ := hinv.handshake.serving (t := t) (by rw [ht]; rfl)
  cases hlock : s.queueLock with
  | none => exact ⟨t, _, by simp only [ParkingLot.attendantStep, ht, hlock, if_true]; rfl⟩
  | some th =>
    have hin := (hinv.queueLock th).mp hlock
    cases th with
    | owner j =>
      have hinside : (s.owner j).inside = true := by
        simp only [State.inQueue] at hin
        cases hp : s.owner j <;> simp_all [OwnerPc.inQueue, OwnerPc.inside]
      rw [(hinv.arrival_eq hinside).2] at hcurrent
      simp [State.inQueue, hcurrent, OwnerPc.inQueue] at hin
    | attendant u =>
      refine ⟨u, ?_⟩
      simp only [State.inQueue] at hin
      cases hp : s.attendant u <;> rw [hp] at hin <;>
        simp only [ParkingLot.attendantStep, hp] <;>
        simp only [AttendantPc.inQueue, Bool.false_eq_true] at hin
      all_goals exact ⟨_, rfl⟩

/-- When an attendant has something to do, one of the two can go on. -/
lemma Inv.attendant_enabled {ι : Type*} {s : State ι} (hinv : Inv s) {t : VehicleType}
    (ht : s.attendant t = .waitNew → 0 < s.newVehicle t) (time : ℤ) :
    ∃ u s', ParkingLot.attendantStep s u time = some s' := by
  cases hp : s.attendant t
  case waitNew => exact ⟨t, _, by simp only [ParkingLot.attendantStep, hp, if_pos (ht hp)]; rfl⟩
  case waitCharge =>
    have hcharge := hinv.handshake.charge t
    simp only [hp, AttendantPc.inCharge, Bool.toNat_false, Nat.add_zero] at hcharge
    exact ⟨t, _, by simp only [ParkingLot.attendantStep, hp, hcharge, Nat.one_pos, if_true]; rfl⟩
  case lockQueue => exact hinv.queueLock_enabled hp time
  case lockParking x =>
    refine hinv.parkingLock_enabled (t := t) fun hfree => ?_
    exact ⟨_, by simp only [ParkingLot.attendantStep, hp, hfree, if_true]; rfl⟩
  case sweepLock area now =>
    refine hinv.parkingLock_enabled (t := t) fun hfree => ?_
    exact ⟨_, by simp only [ParkingLot.attendantStep, hp, hfree, if_true]; rfl⟩
  case park x => exact ⟨t, hinv.parking_enabled (by rw [hp]; rfl) time⟩
  all_goals exact ⟨t, _, by simp only [ParkingLot.attendantStep, hp]; rfl⟩

/-- While an owner is inside the arrival lock, it or an attendant can go on. -/
theorem Inv.handshake_enabled {ι : Type*} [DecidableEq ι] {s : State ι} (hinv : Inv s) {i : ι}
    (hi : s.arrivalLock = some i) (time : ℤ) :
    (∃ s', ParkingLot.ownerStep s i time = some s') ∨
      ∃ t s', ParkingLot.attendantStep s t time = some s' := by
  have hinside : (s.owner i).inside = true := (hinv.arrivalLock i).mp hi
  have hcurrent := (hinv.arrival_eq hinside).2
  have hhand := hinv.handshake
  rw [hcurrent] at hhand
  cases hp : s.owner i <;> rw [hp] at hinside hcurrent hhand <;>
    simp only [OwnerPc.inside, Bool.false_eq_true] at hinside
  case waitFree v =>
    obtain ⟨hnew, hserving⟩ := hhand.quiet fun t => rfl
    have hslots := hhand.slots
    have hreserved : both (fun t => (s.attendant t).reserved.toNat) = 0 := by
      simp [both, AttendantPc.reserved_serving (hserving _)]
    simp only [hnew, hreserved, OwnerPc.reserved, Bool.toNat_false, Nat.add_zero] at hslots
    have hfree : 0 < s.freeSlot := by
      rw [hslots]
      decide
    exact Or.inl ⟨_, by simp only [ParkingLot.ownerStep, hp, if_pos hfree]; rfl⟩
  case lockQueue v =>
    obtain ⟨-, hserving⟩ := hhand.quiet fun t => rfl
    have hfree : s.queueLock = none := by
      cases hlock : s.queueLock with
      | none => rfl
      | some th =>
        have hin := (hinv.queueLock th).mp hlock
        cases th with
        | owner j =>
          have hj : (s.owner j).inside = true := by
            simp only [State.inQueue] at hin
            cases hq : s.owner j <;> simp_all [OwnerPc.inQueue, OwnerPc.inside]
          have hji := hinv.arrivalLock.unique hj ((hinv.arrivalLock i).mp hi)
          simp [State.inQueue, hji, hp, OwnerPc.inQueue] at hin
        | attendant t =>
          simp [State.inQueue, AttendantPc.inQueue_serving (hserving t)] at hin
    exact Or.inl ⟨_, by simp only [ParkingLot.ownerStep, hp, hfree, if_true]; rfl⟩
  case await v =>
    by_cases hdone : 0 < s.vehicleDone v.vehicleType
    · exact Or.inl ⟨_, by simp only [ParkingLot.ownerStep, hp, if_pos hdone]; rfl⟩
    · refine Or.inr (hinv.attendant_enabled (t := v.vehicleType) (fun hwait => ?_) time)
      have hsignals := hhand.signals v.vehicleType
      simp only [hwait, AttendantPc.serving, OwnerPc.awaits, decide_true, Bool.toNat_true,
        Bool.toNat_false] at hsignals
      omega
  all_goals exact Or.inl ⟨_, by simp only [ParkingLot.ownerStep, hp]; rfl⟩

/-- With the arrival lock free, every owner can go on. -/
theorem Inv.owner_enabled {ι : Type*} [DecidableEq ι] {s : State ι} (hinv : Inv s)
    (hfree : s.arrivalLock = none) (i : ι) : ∃ a s', step s a = some s' := by
  have hoff : (s.owner i).inside = false := owns_none.mp (hfree ▸ hinv.arrivalLock) i
  cases hp : s.owner i <;> rw [hp] at hoff <;>
    simp only [OwnerPc.inside, Bool.true_eq_false] at hoff
  case sleeping => exact ⟨.draw i .pickup, _, by simp only [step, hp, if_true]; rfl⟩
  case lockArrival t =>
    exact ⟨.owner i 0, _, by simp only [step, ParkingLot.ownerStep, hp, hfree, if_true]; rfl⟩

lemma OwnerPc.awaits_loaded (p : OwnerPc) :
    (p.awaits .pickup).toNat + (p.awaits .automobile).toNat + p.loaded.toNat ≤ 1 := by
  cases p with
  | await v => cases hv : v.vehicleType <;> simp [OwnerPc.awaits, OwnerPc.loaded, hv]
  | _ => simp [OwnerPc.awaits, OwnerPc.loaded]

lemma OwnerPc.storing_loaded (p : OwnerPc) : p.storing.toNat ≤ p.loaded.toNat := by
  cases p <;> simp [OwnerPc.storing, OwnerPc.loaded]

lemma AttendantPc.expects_advancing (a : AttendantPc) :
    a.expects.toNat + a.advancing.toNat ≤ a.serving.toNat := by
  cases a <;> simp [AttendantPc.expects, AttendantPc.advancing, AttendantPc.serving]

/-- At most one vehicle lies in the ring, also when it is counted by the indices. -/
lemma Handshake.ring {ι : Type*} {s : State ι} {p : OwnerPc} (h : Handshake p s) :
    s.enqueued.length ≤ s.taken.length + 1 ∧
      (s.queueRear + (queueCapacity - s.queueFront)) % queueCapacity ≤ 1 := by
  have hpickup := h.signals .pickup
  have hautomobile := h.signals .automobile
  have hloaded := p.awaits_loaded
  have hstoring := p.storing_loaded
  have hserving := (s.attendant .pickup).expects_advancing
  have hserving' := (s.attendant .automobile).expects_advancing
  have hload := h.load
  have hrear := h.rear
  have hfront := h.front
  have hfront_lt := h.front_lt
  dsimp only [both] at hload hfront
  simp only [queueCapacity] at hrear hfront hfront_lt ⊢
  omega

/-- In every reachable state at most one vehicle lies in the ring; an attendant that
takes from the front gets the vehicle that was just stored, of its own type; parked
vehicles stand in the area of their type; a handshake that has begun can go on
without a new arrival, and some thread can always go on if there is an owner. -/
theorem parking_handshake {ι : Type*} [DecidableEq ι] {s : State ι} (h : Reachable s) :
    (∃ waiting, s.enqueued = s.taken ++ waiting ∧ waiting.length ≤ 1) ∧
    (s.queueRear + (queueCapacity - s.queueFront)) % queueCapacity ≤ 1 ∧
    (∀ t, s.attendant t = .take → ∃ v, s.vehicleQueue s.queueFront = some v ∧
      s.enqueued = s.taken ++ [v] ∧ v.vehicleType = t) ∧
    (∀ t v, some v ∈ s.parking t → v.vehicleType = t) ∧
    (∀ i time, s.arrivalLock = some i → (∃ s', step s (.owner i time) = some s') ∨
      ∃ t s', step s (.attendant t time) = some s') ∧
    (Nonempty ι → ∃ a s', step s a = some s') := by
  have hinv := reachable_inv h
  have hhand := hinv.handshake
  refine ⟨?_, hhand.ring.2, fun t ht => ?_, hhand.parked,
    fun i time hi => hinv.handshake_enabled hi time, fun ⟨i⟩ => ?_⟩
  · obtain ⟨waiting, hwaiting⟩ := hhand.taken_prefix
    have hlength := hhand.ring.1
    rw [← hwaiting, List.length_append] at hlength
    exact ⟨waiting, hwaiting.symm, by omega⟩
  · obtain ⟨v, -, hv, henqueued, hfront⟩ := hhand.front_vehicle ht
    exact ⟨v, hfront, henqueued, hv⟩
  · cases hlock : s.arrivalLock with
    | none => exact hinv.owner_enabled hlock i
    | some j =>
      rcases hinv.handshake_enabled hlock 0 with ⟨s', hs'⟩ | ⟨t, s', hs'⟩
      · exact ⟨.owner j 0, s', hs'⟩
      · exact ⟨.attendant t 0, s', hs'⟩

/-- One owner has stored a pickup while the other, with an automobile, waits for the
arrival lock; the attendant of the pickups is about to take it. -/
theorem parking_handshake_called : ∃ s : State (Fin 2), s.owner 1 = .lockArrival .automobile ∧
    (∃ v, s.vehicleQueue s.queueFront = some v ∧ s.enqueued = s.taken ++ [v] ∧
      v.vehicleType = .pickup) ∧
    ∃ a s', step s a = some s' := by
  have hr : Reachable (ι := Fin 2) _ := reach_of_run
    [.draw 0 .pickup, .draw 1 .automobile, .owner 0 5, .owner 0 5, .owner 0 5, .owner 0 5,
      .owner 0 5, .owner 0 5, .owner 0 5, .owner 0 5, .attendant .pickup 5, .attendant .pickup 5,
      .attendant .pickup 5] rfl
  have h := parking_handshake hr
  exact ⟨_, rfl, h.2.2.1 .pickup rfl, h.2.2.2.2.2 ⟨0⟩⟩

end SystemProgramming.ParkingLot
