import SystemProgramming.FifoOverflow
import SystemProgramming.NumericArguments
import SystemProgramming.PideShop
import SystemProgramming.ShortRead
import SystemProgramming.Strcmp

/-!
# A batch of orders as bytes

A client sends the number of its orders in decimal and then the array of the orders as it
lies in memory, each over a connection of its own. `main` reads each of the two with one
call of `read`. This module says for which pieces, and for which old contents of the block
that `main` reads the orders into, the batch arrives as it was sent.
-/
namespace SystemProgramming.OrderStream
open SystemProgramming.LineReader SystemProgramming.FileServer SystemProgramming.NumericArguments
open SystemProgramming.ShortRead SystemProgramming.Strcmp SystemProgramming.TwoFifos

/-- An order in machine words; `timestamp` is a `time_t`. -/
structure Order where
  id : CInt
  x : CInt
  y : CInt
  status : CInt
  isPlaced : CInt
  send : CInt
  timestamp : BitVec 64
  customer : CInt
  clientID : CInt
  deriving DecidableEq, Repr

def sizeofOrder : ℕ := 40

/-- An order in memory. No field needs padding in front of it. -/
def Order.bytes (o : Order) : List Byte :=
  intBytes o.id ++ intBytes o.x ++ intBytes o.y ++ intBytes o.status ++ intBytes o.isPlaced ++
    intBytes o.send ++ intBytes (o.timestamp.extractLsb' 0 32) ++
    intBytes (o.timestamp.extractLsb' 32 32) ++ intBytes o.customer ++ intBytes o.clientID

/-- The `int` at an address. -/
def wordAt (memory : List Byte) (address : ℕ) : CInt := bytesInt ((memory.drop address).take 4)

/-- The `i`-th order of an array in memory. -/
def orderAt (memory : List Byte) (i : ℕ) : Order where
  id := wordAt memory (40 * i)
  x := wordAt memory (40 * i + 4)
  y := wordAt memory (40 * i + 8)
  status := wordAt memory (40 * i + 12)
  isPlaced := wordAt memory (40 * i + 16)
  send := wordAt memory (40 * i + 20)
  timestamp := wordAt memory (40 * i + 28) ++ wordAt memory (40 * i + 24)
  customer := wordAt memory (40 * i + 32)
  clientID := wordAt memory (40 * i + 36)

/-- What the client draws and reads for one customer. -/
structure Customer where
  x : CInt
  y : CInt
  timestamp : BitVec 64
  deriving DecidableEq, Repr

/-- The orders that `HungryVeryMuch` sends. -/
def clientOrders (pid : CInt) (customers : List Customer) : List Order :=
  customers.mapIdx fun i c =>
    { id := BitVec.ofNat 32 (i + 1), x := c.x, y := c.y, status := 0, isPlaced := 0, send := 0
      timestamp := c.timestamp, customer := BitVec.ofNat 32 customers.length, clientID := pid }

/-- The number of orders as `sprintf` prints it. -/
def countStream (customers : List Customer) : Text := Nat.toDigits 10 customers.length

/-- The array of orders as `send` takes it from memory. -/
def orderStream (orders : List Order) : List Byte := orders.flatMap Order.bytes

/-- What memory that nobody has written happens to hold: the variable `new_max_order`, and
the blocks that the two calls of `malloc` return. -/
structure Unwritten where
  newMaxOrder : CInt
  ordersArray : ℕ → List Order
  length_ordersArray : ∀ n, (ordersArray n).length = n
  orders : ℕ → List Byte
  length_orders : ∀ n, (orders n).length = n

/-- The variables of the server that a batch changes; the table has `max_order` slots. -/
structure Server where
  maxOrder : CInt
  ordersArray : List Order
  clientID : CInt
  allOrders : CInt
  numOrders : CInt
  slots : ordersArray.length = maxOrder.toInt.toNat

/-- `sscanf` with `"%d"`. -/
def sscanf (buffer : Text) (n : CInt) : CInt :=
  if (strtol (chars buffer)).2.1 = chars buffer then n
  else BitVec.ofInt 32 (strtol (chars buffer)).1

/-- The table for a batch, made anew unless it has the right size. -/
def Server.resize (s : Server) (unwritten : Unwritten) (newMaxOrder : CInt) : Server :=
  if newMaxOrder ≠ s.maxOrder then
    { s with
      maxOrder := newMaxOrder
      ordersArray := unwritten.ordersArray newMaxOrder.toInt.toNat
      slots := unwritten.length_ordersArray _ }
  else s

/-- An order is entered into its slot. -/
def Server.accept (s : Server) (i : ℕ) (o : Order) : Server :=
  { s with
    ordersArray := s.ordersArray.set i { o with send := 1, id := s.allOrders }
    clientID := o.clientID
    allOrders := s.allOrders + 1
    numOrders := s.numOrders + 1
    slots := (List.length_set ..).trans s.slots }

/-- The loop over the orders received, from the `i`-th on. -/
def acceptLoop (orders : List Byte) : ℕ → ℕ → Server → Server
  | 0, _, s => s
  | left + 1, i, s =>
    if (orderAt orders i).status = 0 then
      acceptLoop orders left (i + 1) (s.accept i (orderAt orders i))
    else acceptLoop orders left (i + 1) s

/-- One round of the loop of `main`, given what its two reads return. -/
def serve (unwritten : Unwritten) (countPiece : Text) (orderPiece : List Byte) (s : Server) :
    Server :=
  let buffer := readInto (List.replicate 1024 '\x00') countPiece
  let s' := s.resize unwritten (sscanf buffer unwritten.newMaxOrder)
  let n := s'.maxOrder.toInt.toNat
  let size := n * sizeofOrder
  acceptLoop (readInto (unwritten.orders size) (orderPiece.take size)) n 0 s'

/-- An order without the fields that the server sets. -/
def Order.body (o : Order) : Order := { o with id := 0, send := 0 }

/-- The batch is in the table, complete and in order. -/
structure Arrived (sent : List Order) (s s' : Server) : Prop where
  maxOrder : s'.maxOrder = BitVec.ofNat 32 sent.length
  numOrders : s'.numOrders = s.numOrders + BitVec.ofNat 32 sent.length
  orders : s'.ordersArray.map Order.body = sent.map Order.body

/-- The byte belongs to a field that the server sets. -/
def ServerField (k : ℕ) : Prop := k % 40 < 4 ∨ 20 ≤ k % 40 ∧ k % 40 < 24

instance decidableServerField (k : ℕ) : Decidable (ServerField k) :=
  inferInstanceAs (Decidable (k % 40 < 4 ∨ 20 ≤ k % 40 ∧ k % 40 < 24))

/-- The first piece of the count is all of it, and behind the first piece of the orders the
block holds by chance what is still to come. -/
structure Whole (unwritten : Unwritten) (customers : List Customer) (sent : List Order)
    (countPiece : Text) (orderPiece : List Byte) : Prop where
  count : countPiece = countStream customers
  orders : ∀ k, orderPiece.length ≤ k → k < sent.length * sizeofOrder → ¬ ServerField k →
    (unwritten.orders (sent.length * sizeofOrder))[k]? = (orderStream sent)[k]?

lemma decimal_eq (s : Text) : decimal s = (Nat.ofDigitChars 10 s 0 : ℕ) := by
  have hfold : ∀ (s : Text) (n : ℕ),
      s.foldl (fun (v : ℤ) c => 10 * v + (c.toNat - '0'.toNat : ℕ)) n =
        (Nat.ofDigitChars 10 s n : ℕ) := by
    intro s
    induction s with
    | nil => exact fun n => by simp
    | cons c s ih =>
      intro n
      rw [List.foldl_cons, Nat.ofDigitChars_cons, ← ih]
      push_cast
      rfl
  exact hfold s 0

/-- A proper beginning of a numeral is a smaller number. -/
lemma ofDigitChars_lt {piece rest : Text} {n : ℕ} (hn : 0 < n) (hrest : rest ≠ [])
    (h : piece ++ rest = Nat.toDigits 10 n) : Nat.ofDigitChars 10 piece 0 < n := by
  have hvalue : Nat.ofDigitChars 10 (piece ++ rest) 0 = n := by
    rw [h, Nat.ofDigitChars_ten_toDigits]
  rw [Nat.ofDigitChars_append, Nat.ofDigitChars_eq_ofDigitChars_zero] at hvalue
  have hpow : 10 ≤ 10 ^ rest.length :=
    Nat.le_self_pow (List.length_pos_iff.mpr hrest).ne' 10
  have hmul := Nat.mul_le_mul_right (Nat.ofDigitChars 10 piece 0) hpow
  omega

/-- `sscanf` reads the digits that have arrived. -/
lemma sscanf_piece {piece rest : Text} {n : ℕ} (hn : 0 < n) (hmax : n < 2 ^ 31)
    (hne : piece ≠ []) (h : piece ++ rest = Nat.toDigits 10 n) (old : CInt) :
    sscanf (readInto (List.replicate 1024 '\x00') piece) old =
      BitVec.ofNat 32 (Nat.ofDigitChars 10 piece 0) := by
  have hdigit : ∀ c, c ∈ piece → c.isDigit = true := fun c hc =>
    Nat.isDigit_of_mem_toDigits (b := 10) (by decide) (by decide)
      (h ▸ List.mem_append_left rest hc)
  have hnul : '\x00' ∉ piece := fun hmem => by simpa using hdigit _ hmem
  have hchars : chars (readInto (List.replicate 1024 '\x00') piece) = piece := by
    rw [readInto, chars_append hnul, List.drop_replicate]
    cases 1024 - piece.length with
    | zero => simp
    | succ m => rw [List.replicate_succ, chars_nul, List.append_nil]
  have hle : Nat.ofDigitChars 10 piece 0 ≤ n := by
    by_cases hrest : rest = []
    · rw [hrest, List.append_nil] at h
      rw [h, Nat.ofDigitChars_ten_toDigits]
    · exact (ofDigitChars_lt hn hrest h).le
  have hnumeral : Numeral piece (decimal piece) :=
    ⟨[], Sign.none, piece, rfl, by simp, hne, hdigit, rfl⟩
  have hstrtol : strtol piece = (decimal piece, [], false) := by
    rw [strtol_numeral hnumeral, ranged, decimal_eq, if_neg, if_neg]
    · simp only [longMax]
      omega
    · simp only [longMax]
      omega
  rw [sscanf, hchars, hstrtol, if_neg (Ne.symm hne), decimal_eq]
  exact BitVec.ofInt_natCast 32 _

lemma bytesInt_inj {s t : List Byte} (hs : s.length = 4) (ht : t.length = 4) :
    bytesInt s = bytesInt t ↔ s = t := by
  refine ⟨fun h => ?_, congrArg bytesInt⟩
  match s, t, hs, ht with
  | [a, b, c, d], [a', b', c', d'], _, _ =>
    have hnat := congrArg BitVec.toNat h
    simp only [bytesInt, BitVec.toNat_ofNat] at hnat
    have ha := a.isLt
    have hb := b.isLt
    have hc := c.isLt
    have hd := d.isLt
    have ha' := a'.isLt
    have hb' := b'.isLt
    have hc' := c'.isLt
    have hd' := d'.isLt
    simp only [List.cons.injEq, and_true]
    refine ⟨?_, ?_, ?_, ?_⟩ <;> apply BitVec.eq_of_toNat_eq <;> omega

/-- Two words are equal if their bytes are. -/
lemma wordAt_inj {a b : List Byte} {address : ℕ} (ha : address + 4 ≤ a.length)
    (hb : address + 4 ≤ b.length) : wordAt a address = wordAt b address ↔
      ∀ k, address ≤ k → k < address + 4 → a[k]? = b[k]? := by
  have hlength : ∀ l : List Byte, address + 4 ≤ l.length →
      ((l.drop address).take 4).length = 4 := fun l hl => by
    rw [List.length_take, List.length_drop]
    omega
  rw [wordAt, wordAt, bytesInt_inj (hlength a ha) (hlength b hb), List.ext_getElem?_iff]
  constructor
  · intro h k hle hlt
    have hk := h (k - address)
    rw [List.getElem?_take_of_lt (by omega), List.getElem?_take_of_lt (by omega),
      List.getElem?_drop, List.getElem?_drop, Nat.add_sub_cancel' hle] at hk
    exact hk
  · intro h j
    by_cases hj : j < 4
    · rw [List.getElem?_take_of_lt hj, List.getElem?_take_of_lt hj, List.getElem?_drop,
        List.getElem?_drop]
      exact h (address + j) (by omega) (by omega)
    · rw [List.getElem?_eq_none (by rw [hlength a ha]; omega),
        List.getElem?_eq_none (by rw [hlength b hb]; omega)]

lemma append_word_inj {hi lo hi' lo' : CInt} : hi ++ lo = hi' ++ lo' ↔ hi = hi' ∧ lo = lo' := by
  refine ⟨fun h => ⟨?_, ?_⟩, fun h => by rw [h.1, h.2]⟩
  · have hhi := congrArg (BitVec.extractLsb' 32 32) h
    rwa [BitVec.extractLsb'_append_eq_left, BitVec.extractLsb'_append_eq_left] at hhi
  · have hlo := congrArg (BitVec.extractLsb' 0 32) h
    rwa [BitVec.extractLsb'_append_eq_right, BitVec.extractLsb'_append_eq_right] at hlo

/-- The fields that the server leaves are equal if their bytes are. -/
lemma body_inj {a b : List Byte} {i : ℕ} (ha : 40 * i + 40 ≤ a.length)
    (hb : 40 * i + 40 ≤ b.length) : (orderAt a i).body = (orderAt b i).body ↔
      ∀ k, 40 * i ≤ k → k < 40 * i + 40 → ¬ ServerField k → a[k]? = b[k]? := by
  simp only [Order.body, orderAt, Order.mk.injEq, true_and, append_word_inj]
  rw [wordAt_inj (by omega) (by omega), wordAt_inj (by omega) (by omega),
    wordAt_inj (by omega) (by omega), wordAt_inj (by omega) (by omega),
    wordAt_inj (by omega) (by omega), wordAt_inj (by omega) (by omega),
    wordAt_inj (by omega) (by omega), wordAt_inj (by omega) (by omega)]
  constructor
  · rintro ⟨hx, hy, hstatus, hisPlaced, ⟨hhi, hlo⟩, hcustomer, hclientID⟩ k hle hlt hfield
    simp only [ServerField] at hfield
    rcases (by omega : k < 40 * i + 8 ∧ 40 * i + 4 ≤ k ∨ k < 40 * i + 12 ∧ 40 * i + 8 ≤ k ∨
        k < 40 * i + 16 ∧ 40 * i + 12 ≤ k ∨ k < 40 * i + 20 ∧ 40 * i + 16 ≤ k ∨
        k < 40 * i + 28 ∧ 40 * i + 24 ≤ k ∨ k < 40 * i + 32 ∧ 40 * i + 28 ≤ k ∨
        k < 40 * i + 36 ∧ 40 * i + 32 ≤ k ∨ k < 40 * i + 40 ∧ 40 * i + 36 ≤ k) with
      h | h | h | h | h | h | h | h
    · exact hx k h.2 h.1
    · exact hy k h.2 h.1
    · exact hstatus k h.2 h.1
    · exact hisPlaced k h.2 h.1
    · exact hlo k h.2 h.1
    · exact hhi k h.2 h.1
    · exact hcustomer k h.2 h.1
    · exact hclientID k h.2 h.1
  · intro h
    refine ⟨?_, ?_, ?_, ?_, ⟨?_, ?_⟩, ?_, ?_⟩ <;>
      exact fun k hle hlt => h k (by omega) (by omega) (by simp only [ServerField]; omega)

@[simp] lemma length_bytes (o : Order) : o.bytes.length = sizeofOrder := rfl

@[simp] lemma length_orderStream (orders : List Order) :
    (orderStream orders).length = orders.length * sizeofOrder := by
  induction orders with
  | nil => rfl
  | cons o orders ih =>
    rw [orderStream, List.flatMap_cons, List.length_append, length_bytes, ← orderStream, ih,
      List.length_cons, Nat.succ_mul, Nat.add_comm]

lemma orderAt_drop (memory : List Byte) (i : ℕ) :
    orderAt (memory.drop sizeofOrder) i = orderAt memory (i + 1) := by
  have hword : ∀ offset, wordAt (memory.drop sizeofOrder) (40 * i + offset) =
      wordAt memory (40 * (i + 1) + offset) := fun offset => by
    simp only [wordAt, List.drop_drop, sizeofOrder]
    congr 3
    omega
  have hfirst := hword 0
  simp only [orderAt, Nat.add_zero] at hfirst ⊢
  simp only [hfirst, hword]

lemma wordAt_intBytes (x : CInt) (rest : List Byte) : wordAt (intBytes x ++ rest) 0 = x := by
  rw [wordAt, List.drop_zero, List.take_left' (length_intBytes x), bytesInt_intBytes]

lemma wordAt_skip (x : CInt) (rest : List Byte) (address : ℕ) :
    wordAt (intBytes x ++ rest) (address + 4) = wordAt rest address := by
  rw [wordAt, wordAt, Nat.add_comm, ← List.drop_drop, List.drop_left' (length_intBytes x)]

/-- The first order of a memory that starts with its bytes. -/
lemma orderAt_bytes (o : Order) (rest : List Byte) : orderAt (o.bytes ++ rest) 0 = o := by
  have htimestamp : o.timestamp.extractLsb' 32 32 ++ o.timestamp.extractLsb' 0 32 =
      o.timestamp := by
    rw [BitVec.extractLsb'_append_extractLsb'_eq_extractLsb' (by rfl)]
    exact BitVec.extractLsb'_eq_self
  simp only [orderAt, Order.bytes, List.append_assoc, Nat.mul_zero, Nat.zero_add, wordAt_skip,
    wordAt_intBytes, htimestamp]

/-- Reading the array as orders undoes laying it out. -/
lemma map_orderAt_orderStream (orders : List Order) (rest : List Byte) :
    (List.range orders.length).map (orderAt (orderStream orders ++ rest)) = orders := by
  induction orders with
  | nil => rfl
  | cons o orders ih =>
    have hsplit : orderStream (o :: orders) ++ rest = o.bytes ++ (orderStream orders ++ rest) := by
      rw [orderStream, List.flatMap_cons, List.append_assoc, ← orderStream]
    have htail : ∀ i, orderAt (orderStream (o :: orders) ++ rest) (i + 1) =
        orderAt (orderStream orders ++ rest) i := fun i => by
      rw [← orderAt_drop, hsplit, List.drop_left' (length_bytes o)]
    rw [List.length_cons, List.range_succ_eq_map, List.map_cons, List.map_map, hsplit,
      orderAt_bytes, ← hsplit]
    simp only [Function.comp_def, htail, ih]

/-- The loop keeps the size, counts the orders of status 0, and enters these. -/
lemma acceptLoop_spec (orders : List Byte) (left i : ℕ) (s : Server) :
    (acceptLoop orders left i s).maxOrder = s.maxOrder ∧
      (acceptLoop orders left i s).numOrders = s.numOrders + BitVec.ofNat 32
        ((List.range' i left).countP fun k => (orderAt orders k).status = 0) := by
  induction left generalizing i s with
  | zero => simp [acceptLoop]
  | succ left ih =>
    by_cases hstatus : (orderAt orders i).status = 0
    · obtain ⟨hmax, hnum⟩ := ih (i + 1) (s.accept i (orderAt orders i))
      rw [acceptLoop, if_pos hstatus, List.range'_succ, List.countP_cons_of_pos (by simpa),
        BitVec.ofNat_add, BitVec.add_comm (BitVec.ofNat 32 _), ← BitVec.add_assoc]
      exact ⟨hmax, hnum⟩
    · rw [acceptLoop, if_neg hstatus, List.range'_succ, List.countP_cons_of_neg (by simpa)]
      exact ih (i + 1) s

/-- Orders that all have status 0 fill the slots from the `i`-th on. -/
lemma acceptLoop_fill {orders : List Byte} {left i : ℕ} {s : Server}
    (hslots : i + left = s.ordersArray.length)
    (hstatus : ∀ k, i ≤ k → k < i + left → (orderAt orders k).status = 0) :
    (acceptLoop orders left i s).ordersArray.map Order.body =
      (s.ordersArray.take i).map Order.body ++
        (List.range' i left).map fun k => (orderAt orders k).body := by
  induction left generalizing i s with
  | zero =>
    rw [acceptLoop, List.take_of_length_le (by omega)]
    simp
  | succ left ih =>
    have hlength : i + 1 + left = (s.accept i (orderAt orders i)).ordersArray.length := by
      rw [Server.accept, List.length_set]
      omega
    have htake : (s.accept i (orderAt orders i)).ordersArray.take (i + 1) =
        s.ordersArray.take i ++ [{ orderAt orders i with send := 1, id := s.allOrders }] := by
      rw [Server.accept, List.take_succ_eq_append_getElem (by rw [List.length_set]; omega),
        List.getElem_set_self, List.take_set_of_le le_rfl]
    rw [acceptLoop, if_pos (hstatus i le_rfl (by omega)),
      ih hlength fun k hle hlt => hstatus k (by omega) (by omega), htake, List.range'_succ,
      List.map_append, List.map_cons, List.map_cons, List.map_nil, List.append_assoc]
    rfl

section Batch
variable {unwritten : Unwritten} {customers : List Customer} {pid : CInt}
  {countPiece : Text} {orderPiece : List Byte} {s : Server}

@[simp] lemma length_clientOrders (pid : CInt) (customers : List Customer) :
    (clientOrders pid customers).length = customers.length := List.length_mapIdx

/-- A client sends orders of status 0. -/
lemma status_clientOrders {o : Order} (h : o ∈ clientOrders pid customers) : o.status = 0 := by
  obtain ⟨i, hi, rfl⟩ := List.mem_mapIdx.mp h
  rfl

@[simp] lemma resize_maxOrder (s : Server) (unwritten : Unwritten) (n : CInt) :
    (s.resize unwritten n).maxOrder = n := by
  unfold Server.resize
  split_ifs with hn
  · rfl
  · exact (not_not.mp hn).symm

@[simp] lemma resize_numOrders (s : Server) (unwritten : Unwritten) (n : CInt) :
    (s.resize unwritten n).numOrders = s.numOrders := by
  unfold Server.resize
  split_ifs <;> rfl

/-- What the server holds of the orders after its read. -/
def received (unwritten : Unwritten) (n : ℕ) (orderPiece : List Byte) : List Byte :=
  readInto (unwritten.orders (n * sizeofOrder)) (orderPiece.take (n * sizeofOrder))

/-- With the count read in full, the loop goes over all slots of the table: it counts the
orders of status 0, and fills the table if all are. -/
lemma serve_spec (orderPiece : List Byte) (s : Server) (hmax : customers.length < 2 ^ 31)
    (hcount : sscanf (readInto (List.replicate 1024 '\x00') countPiece) unwritten.newMaxOrder =
      BitVec.ofNat 32 customers.length) :
    (serve unwritten countPiece orderPiece s).maxOrder = BitVec.ofNat 32 customers.length ∧
      (serve unwritten countPiece orderPiece s).numOrders = s.numOrders + BitVec.ofNat 32
        ((List.range' 0 customers.length).countP fun k =>
          (orderAt (received unwritten customers.length orderPiece) k).status = 0) ∧
      ((∀ k, k < customers.length →
          (orderAt (received unwritten customers.length orderPiece) k).status = 0) →
        (serve unwritten countPiece orderPiece s).ordersArray.map Order.body =
          (List.range customers.length).map
            fun i => (orderAt (received unwritten customers.length orderPiece) i).body) := by
  have hn : (s.resize unwritten (BitVec.ofNat 32 customers.length)).maxOrder.toInt.toNat =
      customers.length := by rw [resize_maxOrder, toInt_ofNat hmax, Int.toNat_natCast]
  have hserve : serve unwritten countPiece orderPiece s =
      acceptLoop (received unwritten customers.length orderPiece) customers.length 0
        (s.resize unwritten (BitVec.ofNat 32 customers.length)) := by
    simp only [serve, hcount, hn, received]
  obtain ⟨hmaxOrder, hnumOrders⟩ :=
    acceptLoop_spec (received unwritten customers.length orderPiece) customers.length 0
      (s.resize unwritten (BitVec.ofNat 32 customers.length))
  rw [resize_maxOrder] at hmaxOrder
  rw [resize_numOrders] at hnumOrders
  rw [hserve]
  refine ⟨hmaxOrder, hnumOrders, fun hstatus => ?_⟩
  have hfill := acceptLoop_fill
    (s := s.resize unwritten (BitVec.ofNat 32 customers.length)) (i := 0)
    (by rw [Nat.zero_add, Server.slots, hn]) fun k _ hlt => hstatus k (by omega)
  rw [hfill, List.take_zero, List.map_nil, List.nil_append, List.range_eq_range']

/-- The batch arrives just when the count and all orders, but for two fields, are read. -/
lemma arrived_iff_received (hmax : customers.length < 2 ^ 31) :
    Arrived (clientOrders pid customers) s (serve unwritten countPiece orderPiece s) ↔
      sscanf (readInto (List.replicate 1024 '\x00') countPiece) unwritten.newMaxOrder =
          BitVec.ofNat 32 customers.length ∧
        (List.range customers.length).map
            (fun i => (orderAt (received unwritten customers.length orderPiece) i).body) =
          (clientOrders pid customers).map Order.body := by
  constructor
  · intro h
    have hcount : sscanf (readInto (List.replicate 1024 '\x00') countPiece)
        unwritten.newMaxOrder = BitVec.ofNat 32 customers.length := by
      have hloop := h.maxOrder
      rwa [serve, (acceptLoop_spec _ _ _ _).1, resize_maxOrder, length_clientOrders] at hloop
    obtain ⟨-, hnumOrders, hfill⟩ := serve_spec orderPiece s hmax hcount
    have hnum := h.numOrders
    rw [hnumOrders, length_clientOrders] at hnum
    have hle := List.countP_le_length (l := List.range' 0 customers.length)
      (p := fun k => (orderAt (received unwritten customers.length orderPiece) k).status = 0)
    rw [List.length_range'] at hle
    have hall := congrArg BitVec.toNat (add_left_cancel hnum)
    rw [BitVec.toNat_ofNat, BitVec.toNat_ofNat, Nat.mod_eq_of_lt (by omega),
      Nat.mod_eq_of_lt (by omega)] at hall
    have hstatus := List.countP_eq_length.mp (hall.trans List.length_range'.symm)
    have hbodies := hfill fun k hlt => of_decide_eq_true (hstatus k (by simpa using hlt))
    exact ⟨hcount, hbodies.symm.trans h.orders⟩
  · rintro ⟨hcount, horders⟩
    obtain ⟨hmaxOrder, hnumOrders, hfill⟩ := serve_spec orderPiece s hmax hcount
    have hstatus : ∀ k, k < customers.length →
        (orderAt (received unwritten customers.length orderPiece) k).status = 0 := by
      intro k hk
      have hmem : (orderAt (received unwritten customers.length orderPiece) k).body ∈
          (clientOrders pid customers).map Order.body :=
        horders ▸ List.mem_map_of_mem (List.mem_range.mpr hk)
      obtain ⟨o, ho, hbody⟩ := List.mem_map.mp hmem
      have hfield := congrArg Order.status hbody
      exact hfield.symm.trans (status_clientOrders ho : o.status = 0)
    have hall : ((List.range' 0 customers.length).countP fun k =>
        (orderAt (received unwritten customers.length orderPiece) k).status = 0) =
        customers.length := by
      rw [List.countP_eq_length.mpr, List.length_range']
      exact fun k hk => decide_eq_true (hstatus k (by simpa using hk))
    refine ⟨?_, ?_, (hfill hstatus).trans horders⟩
    · rw [hmaxOrder, length_clientOrders]
    · rw [hnumOrders, hall, length_clientOrders]

/-- The orders in memory are those sent if the bytes are, up to two fields. -/
lemma map_body_iff {sent : List Order} {memory : List Byte}
    (hlength : memory.length = sent.length * sizeofOrder) :
    (List.range sent.length).map (fun i => (orderAt memory i).body) = sent.map Order.body ↔
      ∀ k, k < sent.length * sizeofOrder → ¬ ServerField k →
        memory[k]? = (orderStream sent)[k]? := by
  have hsent : sent.map Order.body =
      (List.range sent.length).map fun i => (orderAt (orderStream sent) i).body := by
    have hread := map_orderAt_orderStream sent []
    rw [List.append_nil] at hread
    conv_lhs => rw [← hread]
    rw [List.map_map]
    rfl
  have hstream := length_orderStream sent
  simp only [sizeofOrder] at hlength hstream ⊢
  rw [hsent, List.map_inj_left]
  constructor
  · intro h k hk hfield
    have hi := h (k / 40) (List.mem_range.mpr (by omega))
    rw [body_inj (by omega) (by omega)] at hi
    exact hi k (by omega) (by omega) hfield
  · intro h i hi
    have hlt := List.mem_range.mp hi
    rw [body_inj (by omega) (by omega)]
    exact fun k _ hk hfield => h k (by omega) hfield

/-- What the first piece does not bring must stand in the block already. -/
lemma received_iff (orderCut : Cut (customers.length * sizeofOrder)
      (orderStream (clientOrders pid customers))) :
    (List.range customers.length).map
        (fun i => (orderAt (received unwritten customers.length orderCut.first) i).body) =
          (clientOrders pid customers).map Order.body ↔
      ∀ k, orderCut.first.length ≤ k → k < customers.length * sizeofOrder → ¬ ServerField k →
        (unwritten.orders (customers.length * sizeofOrder))[k]? =
          (orderStream (clientOrders pid customers))[k]? := by
  have hle := orderCut.length_first_le
  have hblock := unwritten.length_orders (customers.length * sizeofOrder)
  have hreceived : received unwritten customers.length orderCut.first =
      readInto (unwritten.orders (customers.length * sizeofOrder)) orderCut.first := by
    rw [received, List.take_of_length_le hle]
  have hlength : (received unwritten customers.length orderCut.first).length =
      (clientOrders pid customers).length * sizeofOrder := by
    rw [hreceived, length_readInto (by omega), hblock, length_clientOrders]
  have hbytes := map_body_iff hlength
  rw [length_clientOrders, hreceived] at hbytes
  rw [hreceived, hbytes]
  constructor
  · intro h k hfirst hk hfield
    rw [← h k hk hfield, getElem?_readInto_of_le hfirst]
  · intro h k hk hfield
    by_cases hfirst : k < orderCut.first.length
    · have hstream := congrArg (fun l => l[k]?) orderCut.first_append
      rw [getElem?_readInto_of_lt hfirst]
      exact (hstream.trans (List.getElem?_append_left hfirst)).symm
    · rw [getElem?_readInto_of_le (by omega)]
      exact h k (by omega) hk hfield

/-- The number that `sscanf` reads is the number of orders only if all its digits have
arrived. -/
lemma sscanf_iff (hne : customers ≠ []) (hmax : customers.length < 2 ^ 31)
    (countCut : Cut 1024 (countStream customers)) (old : CInt) :
    sscanf (readInto (List.replicate 1024 '\x00') countCut.first) old =
        BitVec.ofNat 32 customers.length ↔ countCut.first = countStream customers := by
  have hpos := List.length_pos_iff.mpr hne
  have hsplit := countCut.first_append
  have hfirst := countCut.first_ne_nil Nat.toDigits_ne_nil
  rw [sscanf_piece hpos hmax hfirst hsplit.symm]
  by_cases hrest : countCut.pieces.tail.flatten = []
  · rw [hrest, List.append_nil] at hsplit
    refine iff_of_true ?_ hsplit.symm
    rw [← hsplit, countStream, Nat.ofDigitChars_ten_toDigits]
  · refine iff_of_false (fun heq => ?_) fun heq => hrest ?_
    · have hlt := ofDigitChars_lt hpos hrest hsplit.symm
      have hnat := congrArg BitVec.toNat heq
      rw [BitVec.toNat_ofNat, BitVec.toNat_ofNat, Nat.mod_eq_of_lt (by omega),
        Nat.mod_eq_of_lt (by omega)] at hnat
      omega
    · rw [heq] at hsplit
      exact List.self_eq_append_right.mp hsplit

/-- A batch arrives as it was sent exactly when the first read of the count returns all of
it, and what the first read of the orders leaves out is in the block by chance. -/
theorem batch_arrives_iff (unwritten : Unwritten) (customers : List Customer) (pid : CInt)
    (s : Server) (hne : customers ≠ []) (hmax : customers.length < 2 ^ 31)
    (countCut : Cut 1024 (countStream customers))
    (orderCut : Cut (customers.length * sizeofOrder)
      (orderStream (clientOrders pid customers))) :
    Arrived (clientOrders pid customers) s
        (serve unwritten countCut.first orderCut.first s) ↔
      Whole unwritten customers (clientOrders pid customers) countCut.first orderCut.first := by
  rw [arrived_iff_received hmax, received_iff, sscanf_iff hne hmax]
  constructor
  · rintro ⟨hcount, horders⟩
    exact ⟨hcount, by rwa [length_clientOrders]⟩
  · rintro ⟨hcount, horders⟩
    exact ⟨hcount, by rwa [length_clientOrders] at horders⟩

/-- The numbers in the words of an order. -/
def Order.values (o : Order) : PideShop.Order where
  id := o.id.toNat
  x := o.x.toInt
  y := o.y.toInt
  status := o.status.toNat
  isPlaced := o.isPlaced.toNat
  send := o.send.toNat
  timestamp := o.timestamp.toInt
  customer := o.customer.toNat
  clientID := o.clientID.toInt

def Customer.values (c : Customer) : PideShop.Customer :=
  ⟨c.x.toInt, c.y.toInt, c.timestamp.toInt⟩

lemma values_clientOrders (pid : CInt) (hmax : customers.length < 2 ^ 31) :
    (clientOrders pid customers).map Order.values =
      PideShop.clientOrders pid.toInt (customers.map Customer.values) := by
  refine List.ext_getElem (by simp [clientOrders, PideShop.clientOrders]) fun i hi _ => ?_
  rw [List.length_map, length_clientOrders] at hi
  simp only [clientOrders, PideShop.clientOrders, List.getElem_map, List.getElem_mapIdx,
    List.length_map, Order.values, Customer.values, PideShop.Order.mk.injEq, BitVec.toNat_ofNat,
    and_true, true_and]
  exact ⟨Nat.mod_eq_of_lt (by omega), rfl, rfl, rfl, Nat.mod_eq_of_lt (by omega)⟩

/-- The orders of a batch that arrives are those with which the table of the shop is filled,
up to the fields that the server sets. -/
theorem Arrived.values {s' : Server} (hmax : customers.length < 2 ^ 31)
    (h : Arrived (clientOrders pid customers) s s') :
    s'.ordersArray.map (fun o => { o.values with id := 0, send := 0 }) =
      (PideShop.clientOrders pid.toInt (customers.map Customer.values)).map
        fun o => { o with id := 0, send := 0 } := by
  have hbody : ∀ orders : List Order,
      orders.map (fun o => { o.values with id := 0, send := 0 }) =
        (orders.map Order.body).map Order.values := fun orders => by
    rw [List.map_map]
    rfl
  rw [hbody, h.orders, ← hbody, ← values_clientOrders pid hmax, List.map_map]
  rfl

/-- Memory of zeros. -/
def zeroed : Unwritten where
  newMaxOrder := 0
  ordersArray := fun n => List.replicate n ⟨0, 0, 0, 0, 0, 0, 0, 0, 0⟩
  length_ordersArray := fun _ => List.length_replicate
  orders := fun n => List.replicate n 0
  length_orders := fun _ => List.length_replicate

/-- The server before its first batch. -/
def Server.initial : Server := ⟨-1, [], 0, 0, 0, rfl⟩

/-- Two customers at different places. -/
def twoCustomers : List Customer := [⟨3, 4, 1700000000⟩, ⟨5, 6, 1700000000⟩]

/-- The two orders in two pieces. -/
def twoPieces (k : ℕ) (hk : 0 < k) (hlt : k < 2 * sizeofOrder) :
    Cut (2 * sizeofOrder) (orderStream (clientOrders 4242 twoCustomers)) :=
  Cut.split k hk (by rwa [length_orderStream]) (by rw [length_orderStream]; exact le_rfl)

/-- The first piece lacks two bytes of the last order, which are zeros. -/
theorem batch_arrives_two :
    Arrived (clientOrders 4242 twoCustomers) Server.initial
      (serve zeroed
        (Cut.whole (by decide) (by decide) : Cut 1024 (countStream twoCustomers)).first
        (twoPieces 78 (by decide) (by decide)).first Server.initial) := by
  refine (batch_arrives_iff zeroed twoCustomers 4242 Server.initial (by decide) (by decide) _
    (twoPieces 78 (by decide) (by decide))).mpr ⟨rfl, fun k hle hlt _ => ?_⟩
  have hfirst : 78 ≤ k := hle
  have hlast : k < 80 := hlt
  obtain rfl | rfl : k = 78 ∨ k = 79 := by omega
  · decide
  · decide

/-- The first piece has the first of two orders. -/
theorem second_order_lost :
    ¬ Arrived (clientOrders 4242 twoCustomers) Server.initial
      (serve zeroed
        (Cut.whole (by decide) (by decide) : Cut 1024 (countStream twoCustomers)).first
        (twoPieces 40 (by decide) (by decide)).first Server.initial) := by
  rw [arrived_iff_received (by decide)]
  decide

end Batch

end SystemProgramming.OrderStream
