import SystemProgramming.Transition
import SystemProgramming.Monitor
import Mathlib.Data.Fintype.Sum

/-!
# The pide shop server

Chefs, deliverers and the accept loop of `main` share a table of orders, guarded
by `ordersMutex`, and the chefs share an oven with slots, peels and a capacity,
each behind its own mutex and condition variable. A chef writes the status of
its order inside `ovenMutex`, and `main` replaces the table without any mutex,
so every statement that touches the table is one step and the loops over it are
taken index by index. A cell that `malloc` returned and nobody has written holds
no order; reading it, or a cell outside the table, has no defined result and no
step. Log messages are left out.
-/
namespace SystemProgramming.PideShop
open SystemProgramming.Transition SystemProgramming.Monitor

structure Order where
  id : ℕ
  x : ℤ
  y : ℤ
  status : ℕ
  isPlaced : ℕ
  send : ℕ
  timestamp : ℤ
  customer : ℕ
  clientID : ℤ
  deriving DecidableEq, Repr

/-- What `memset` leaves in a slot. -/
def Order.zero : Order := ⟨0, 0, 0, 0, 0, 0, 0, 0, 0⟩

/-- What the client draws and reads for one customer. -/
structure Customer where
  x : ℤ
  y : ℤ
  timestamp : ℤ
  deriving DecidableEq, Repr

/-- The orders a client process sends. -/
def clientOrders (pid : ℤ) (customers : List Customer) : List Order :=
  customers.mapIdx fun i c =>
    { id := i + 1, x := c.x, y := c.y, status := 0, isPlaced := 0, send := 0
      timestamp := c.timestamp, customer := customers.length, clientID := pid }

def maxOvenCapacity : ℤ := 6
def maxDeliveryBagCapacity : ℕ := 3
def maxOvenSlots : ℤ := 2
def maxOvenPeels : ℤ := 3

/-- The three resources of the oven, in the order in which a chef acquires them. -/
inductive Gate where
  | slots
  | peels
  | oven
  deriving DecidableEq, Repr

structure Oven (c : ℕ) where
  ovenSlots : ℤ
  ovenPeels : ℤ
  ovenCapacity : ℤ
  mutex : Gate → Option (Fin c)

/-- The loop condition of the wait at a gate. -/
def Oven.full {c : ℕ} (o : Oven c) : Gate → Bool
  | .slots => o.ovenSlots ≤ 0
  | .peels => o.ovenPeels ≤ 0
  | .oven => maxOvenCapacity ≤ o.ovenCapacity

def Oven.acquire {c : ℕ} (o : Oven c) : Gate → Oven c
  | .slots => { o with ovenSlots := o.ovenSlots - 1 }
  | .peels => { o with ovenPeels := o.ovenPeels - 1 }
  | .oven => { o with ovenCapacity := o.ovenCapacity + 1 }

def Oven.release {c : ℕ} (o : Oven c) : Gate → Oven c
  | .slots => { o with ovenSlots := o.ovenSlots + 1 }
  | .peels => { o with ovenPeels := o.ovenPeels + 1 }
  | .oven => { o with ovenCapacity := o.ovenCapacity - 1 }

def Oven.setMutex {c : ℕ} (o : Oven c) (g : Gate) (m : Option (Fin c)) : Oven c :=
  { o with mutex := Function.update o.mutex g m }

/-- The next statement of a chef; `k` is its `orderIndex`. -/
inductive ChefPc where
  | lock
  | test
  | waiting
  | woken
  | scan (i : ℕ)
  | unlock (orderIndex : Option ℕ)
  | acquireLock (g : Gate) (k : ℕ)
  | acquireTest (g : Gate) (k : ℕ)
  | acquireWait (g : Gate) (k : ℕ)
  | acquireWoken (g : Gate) (k : ℕ)
  | acquire (g : Gate) (k : ℕ)
  | cook (k : ℕ)
  | acquireUnlock (g : Gate) (k : ℕ)
  | releaseLock (g : Gate) (k : ℕ)
  | release (g : Gate) (k : ℕ)
  | releaseSignal (g : Gate) (k : ℕ)
  | releaseUnlock (g : Gate) (k : ℕ)
  | readyLock (k : ℕ)
  | ready (k : ℕ)
  | readySignal
  | readyUnlock
  deriving DecidableEq, Repr

/-- The next statement of a deliverer. In `mark`, `count` and `clear` it delivers
`o`, with `rest` still to come, and `i` is the index of the inner loop. -/
inductive DelivererPc where
  | lock
  | test
  | waiting
  | woken
  | scan (i : ℕ) (bag : List Order)
  | unlock (bag : List Order)
  | deliver (bag : List Order)
  | mark (o : Order) (rest : List Order) (i : ℕ)
  | count (o : Order) (rest : List Order)
  | clear (o : Order) (rest : List Order) (i : ℕ)
  | tally (rest : List Order)
  | check (rest : List Order)
  | notifyReset (rest : List Order)
  | notifySend (rest : List Order)
  | finish
  deriving DecidableEq, Repr

/-- The next statement of the accept loop; `orders` waits for the second
connection of a client. -/
inductive MainPc where
  | accept
  | realloc
  | orders
  | lock (orders : List Order)
  | fill (i : ℕ) (orders : List Order)
  | broadcast
  | unlock
  deriving DecidableEq, Repr

inductive Thread (c d : ℕ) where
  | chef (i : Fin c)
  | deliverer (i : Fin d)
  | main
  deriving DecidableEq, Repr

/-- The shared data and the program counters, and a record: which chefs picked
and which deliverers collected an order, the order each chef picked last, the
orders delivered, the sizes of the batches (newest first) and the number of
notifications sent. -/
structure State (c d : ℕ) where
  table : List (Option Order)
  maxOrder : ℤ
  numOrders : ℤ
  deliveredOrders : ℤ
  allOrders : ℕ
  mutex : Option (Thread c d)
  oven : Oven c
  chef : Fin c → ChefPc
  deliverer : Fin d → DelivererPc
  totalDelivered : Fin d → ℕ
  main : MainPc
  picks : ℕ → List (Fin c)
  collects : ℕ → List (Fin d)
  holding : Fin c → ℕ
  delivered : List ℕ
  sizes : List ℕ
  notified : ℕ

/-- The order in slot `k`, if the slot has been written. -/
def State.order {c d : ℕ} (s : State c d) (k : ℕ) : Option Order := (s.table[k]?).join

def State.setOrder {c d : ℕ} (s : State c d) (k : ℕ) (o : Order) : State c d :=
  { s with table := s.table.set k (some o) }

def State.lock {c d : ℕ} (s : State c d) (t : Thread c d) (s' : State c d) :
    Option (State c d) :=
  if s.mutex = none then some { s' with mutex := some t } else none

def State.setChef {c d : ℕ} (s : State c d) (i : Fin c) (q : ChefPc) : State c d :=
  { s with chef := Function.update s.chef i q }

def State.setDeliverer {c d : ℕ} (s : State c d) (i : Fin d) (q : DelivererPc) : State c d :=
  { s with deliverer := Function.update s.deliverer i q }

def ChefPc.waitsAt (g : Gate) : ChefPc → Bool
  | .acquireWait g' _ => g' = g
  | _ => false

def ChefPc.waits : ChefPc → Bool
  | .waiting => true
  | _ => false

def ChefPc.wake : ChefPc → ChefPc
  | .waiting => .woken
  | .acquireWait g k => .acquireWoken g k
  | pc => pc

def DelivererPc.waits : DelivererPc → Bool
  | .waiting => true
  | _ => false

def DelivererPc.wake (_ : DelivererPc) : DelivererPc := .woken

/-- `pthread_cond_signal` on `orderAvailable`, for which chefs and deliverers wait. -/
def signalOrder {c d : ℕ} (s : State c d) : Option (Fin c ⊕ Fin d) → Option (State c d)
  | some (.inl i) => if s.chef i = .waiting then some (s.setChef i .woken) else none
  | some (.inr i) => if s.deliverer i = .waiting then some (s.setDeliverer i .woken) else none
  | none =>
    if (∀ i, (s.chef i).waits = false) ∧ ∀ i, (s.deliverer i).waits = false then some s else none

/-- The statement after the lock of gate `g` has been given back. -/
def afterAcquire : Gate → ℕ → ChefPc
  | .slots, k => .acquireLock .peels k
  | .peels, k => .acquireLock .oven k
  | .oven, k => .releaseLock .oven k

def afterRelease : Gate → ℕ → ChefPc
  | .oven, k => .releaseLock .slots k
  | .slots, k => .releaseLock .peels k
  | .peels, k => .readyLock k

def lockGate {c d : ℕ} (s : State c d) (i : Fin c) (g : Gate) (q : ChefPc) : Option (State c d) :=
  if s.oven.mutex g = none then
    some { s.setChef i q with oven := s.oven.setMutex g (some i) }
  else none

/-- Chef `i` executes its next statement; a signal wakes `w`. -/
def chefStep {c d : ℕ} (s : State c d) (i : Fin c) (w : Option (Fin c ⊕ Fin d)) :
    Option (State c d) :=
  match s.chef i with
  | .lock => s.lock (.chef i) (s.setChef i .test)
  | .test =>
    if s.numOrders = 0 then some { s.setChef i .waiting with mutex := none }
    else some (s.setChef i (.scan 0))
  | .waiting => none
  | .woken => s.lock (.chef i) (s.setChef i .test)
  | .scan k =>
    if (k : ℤ) < s.maxOrder then
      (s.order k).map fun o =>
        if o.status = 0 ∧ o.isPlaced = 0 ∧ o.send = 1 then
          { (s.setOrder k { o with status := 1, isPlaced := 1 }).setChef i (.unlock (some k)) with
            picks := Function.update s.picks o.id (s.picks o.id ++ [i])
            holding := Function.update s.holding i o.id }
        else s.setChef i (.scan (k + 1))
    else some (s.setChef i (.unlock none))
  | .unlock none => some { s.setChef i .lock with mutex := none }
  | .unlock (some k) => some { s.setChef i (.acquireLock .slots k) with mutex := none }
  | .acquireLock g k => lockGate s i g (.acquireTest g k)
  | .acquireTest g k =>
    if s.oven.full g then
      some { s.setChef i (.acquireWait g k) with oven := s.oven.setMutex g none }
    else some (s.setChef i (.acquire g k))
  | .acquireWait _ _ => none
  | .acquireWoken g k => lockGate s i g (.acquireTest g k)
  | .acquire g k =>
    some { s.setChef i (if g = .oven then .cook k else .acquireUnlock g k) with
      oven := s.oven.acquire g }
  | .cook k =>
    (s.order k).map fun o =>
      (s.setOrder k { o with status := 2 }).setChef i (.acquireUnlock .oven k)
  | .acquireUnlock g k =>
    some { s.setChef i (afterAcquire g k) with oven := s.oven.setMutex g none }
  | .releaseLock g k => lockGate s i g (.release g k)
  | .release g k => some { s.setChef i (.releaseSignal g k) with oven := s.oven.release g }
  | .releaseSignal g k =>
    (Monitor.signal (ChefPc.waitsAt g) ChefPc.wake s.chef (w.bind Sum.getLeft?)).map fun pc =>
      { s with chef := Function.update pc i (.releaseUnlock g k) }
  | .releaseUnlock g k =>
    some { s.setChef i (afterRelease g k) with oven := s.oven.setMutex g none }
  | .readyLock k => s.lock (.chef i) (s.setChef i (.ready k))
  | .ready k =>
    (s.order k).map fun o => (s.setOrder k { o with status := 3 }).setChef i .readySignal
  | .readySignal => signalOrder (s.setChef i .readyUnlock) w
  | .readyUnlock => some { s.setChef i .lock with mutex := none }

/-- The next order of the bag, or the end of the delivery. -/
def DelivererPc.next : List Order → DelivererPc
  | [] => .finish
  | o :: rest => .mark o rest 0

/-- Deliverer `i` executes its next statement. -/
def delivererStep {c d : ℕ} (s : State c d) (i : Fin d) : Option (State c d) :=
  match s.deliverer i with
  | .lock => s.lock (.deliverer i) (s.setDeliverer i .test)
  | .test =>
    if s.numOrders = 0 then some { s.setDeliverer i .waiting with mutex := none }
    else some (s.setDeliverer i (.scan 0 []))
  | .waiting => none
  | .woken => s.lock (.deliverer i) (s.setDeliverer i .test)
  | .scan k bag =>
    if (k : ℤ) < s.maxOrder ∧ bag.length < maxDeliveryBagCapacity then
      (s.order k).map fun o =>
        if o.status = 3 then
          { (s.setOrder k { o with status := 4 }).setDeliverer i
              (.scan (k + 1) (bag ++ [{ o with status := 4 }])) with
            collects := Function.update s.collects o.id (s.collects o.id ++ [i]) }
        else s.setDeliverer i (.scan (k + 1) bag)
    else some (s.setDeliverer i (.unlock bag))
  | .unlock bag =>
    some { s.setDeliverer i (if bag = [] then .lock else .deliver bag) with mutex := none }
  | .deliver bag => s.lock (.deliverer i) (s.setDeliverer i (.next bag))
  | .mark o rest k =>
    if (k : ℤ) < s.maxOrder then
      (s.order k).map fun p =>
        (if p.id = o.id then s.setOrder k { p with status := 5 } else s).setDeliverer i
          (.mark o rest (k + 1))
    else some (s.setDeliverer i (.count o rest))
  | .count o rest =>
    some { s.setDeliverer i (.clear o rest 0) with
      numOrders := s.numOrders - 1
      totalDelivered := Function.update s.totalDelivered i (s.totalDelivered i + 1)
      delivered := s.delivered ++ [o.id] }
  | .clear o rest k =>
    if (k : ℤ) < s.maxOrder then
      (s.order k).map fun p =>
        (if p.id = o.id then s.setOrder k .zero else s).setDeliverer i (.clear o rest (k + 1))
    else some (s.setDeliverer i (.tally rest))
  | .tally rest =>
    some { s.setDeliverer i (.check rest) with deliveredOrders := s.deliveredOrders + 1 }
  | .check rest =>
    some (s.setDeliverer i
      (if s.deliveredOrders = s.maxOrder then .notifyReset rest else .next rest))
  | .notifyReset rest => some { s.setDeliverer i (.notifySend rest) with deliveredOrders := 0 }
  | .notifySend rest =>
    some { s.setDeliverer i (.next rest) with notified := s.notified + 1 }
  | .finish => some { s.setDeliverer i .lock with mutex := none }

/-- The accept loop executes its next statement; the two connections of a client
are actions of their own. -/
def mainStep {c d : ℕ} (s : State c d) : Option (State c d) :=
  match s.main with
  | .accept | .orders => none
  | .realloc => some { s with table := List.replicate s.maxOrder.toNat none, main := .orders }
  | .lock orders => s.lock .main { s with main := .fill 0 orders }
  | .fill k orders =>
    if (k : ℤ) < s.maxOrder then
      (orders[k]?).bind fun o =>
        if o.status = 0 then
          if k < s.table.length then
            some { s.setOrder k { o with send := 1, id := s.allOrders } with
              allOrders := s.allOrders + 1
              numOrders := s.numOrders + 1
              main := .fill (k + 1) orders }
          else none
        else some { s with main := .fill (k + 1) orders }
    else some { s with main := .broadcast }
  | .broadcast => some { s with
      chef := Monitor.broadcast ChefPc.waits ChefPc.wake s.chef
      deliverer := Monitor.broadcast DelivererPc.waits DelivererPc.wake s.deliverer
      main := .unlock }
  | .unlock => some { s with mutex := none, main := .accept }

/-- A client announces `n` orders or sends them; a thread executes its next
statement; a waiting thread wakes up although nobody has signalled. -/
inductive Act (c d : ℕ) where
  | count (n : ℕ)
  | orders (pid : ℤ) (customers : List Customer)
  | main
  | chef (i : Fin c) (w : Option (Fin c ⊕ Fin d))
  | deliverer (i : Fin d)
  | spuriousChef (i : Fin c)
  | spuriousDeliverer (i : Fin d)

def step {c d : ℕ} (s : State c d) : Act c d → Option (State c d)
  | .count n =>
    if s.main = .accept ∧ 0 < n then
      some { s with
        sizes := n :: s.sizes
        maxOrder := n
        main := if (n : ℤ) = s.maxOrder then .orders else .realloc }
    else none
  | .orders pid customers =>
    if s.main = .orders ∧ (customers.length : ℤ) = s.maxOrder then
      some { s with main := .lock (clientOrders pid customers) }
    else none
  | .main => mainStep s
  | .chef i w => chefStep s i w
  | .deliverer i => delivererStep s i
  | .spuriousChef i => some (s.setChef i (s.chef i).wake)
  | .spuriousDeliverer i =>
    if s.deliverer i = .waiting then some (s.setDeliverer i .woken) else none

def init (c d : ℕ) : State c d where
  table := []
  maxOrder := -1
  numOrders := 0
  deliveredOrders := 0
  allOrders := 0
  mutex := none
  oven := ⟨maxOvenSlots, maxOvenPeels, 0, fun _ => none⟩
  chef := fun _ => .lock
  deliverer := fun _ => .lock
  totalDelivered := fun _ => 0
  main := .accept
  picks := fun _ => []
  collects := fun _ => []
  holding := fun _ => 0
  delivered := []
  sizes := []
  notified := 0

end SystemProgramming.PideShop
