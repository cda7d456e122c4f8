import Mathlib.Data.List.Sort
import EmbeddedShell.CString
import EmbeddedShell.Memory

/-!
# The storage of a kernel queue

A queue keeps `length` items of `itemSize` bytes in a ring between `head` and `tail`.
`writeTo` is the next free place and `readFrom` the place of the item that was read last.
The items are copied to and from the ring; `contents` reads them off it. A semaphore is
a queue whose items have no bytes. Pointers are 32-bit addresses.
-/

namespace EmbeddedShell

open Memory

/-- `Queue_t` of a base queue or of a semaphore that is not a mutex, with the memory behind
it; an event list holds its tasks in the order in which they are woken. -/
structure Queue (τ : Type) where
  head : ℕ
  writeTo : ℕ
  tail : ℕ
  readFrom : ℕ
  tasksWaitingToSend : List τ
  tasksWaitingToReceive : List τ
  messagesWaiting : ℕ
  length : ℕ
  itemSize : ℕ
  rxLock : ℤ
  txLock : ℤ
  memory : ℕ → UInt8

namespace Queue

variable {τ : Type}

inductive Position
  | sendToBack
  | sendToFront
  | overwrite
  deriving DecidableEq

def queueUnlocked : ℤ := -1
def queueLockedUnmodified : ℤ := 0

/-- `sizeof( Queue_t )`. -/
def sizeofQueue : ℕ := 72

def xQueueGenericReset (q : Queue τ) (newQueue : Bool) : Queue τ :=
  let q := { q with
    tail := wrap 32 ((q.head : ℤ) + wrap 32 ((q.length : ℤ)*q.itemSize))
    messagesWaiting := 0
    writeTo := q.head
    readFrom := wrap 32 ((q.head : ℤ) + wrap 32 (((q.length : ℤ)-1)*q.itemSize))
    rxLock := queueUnlocked
    txLock := queueUnlocked }
  if newQueue then { q with tasksWaitingToSend := [],tasksWaitingToReceive := [] }
  else { q with tasksWaitingToSend := q.tasksWaitingToSend.tail }

/-- What the structure holds before it is initialised is left to `q`. -/
def prvInitialiseNewQueue (length itemSize storage newQueue : ℕ) (q : Queue τ) : Queue τ :=
  xQueueGenericReset { q with
    head := if itemSize = 0 then newQueue else storage
    length := length
    itemSize := itemSize } true

/-- `xQueueGenericCreate` in the memory that `pvPortMalloc` returns. -/
def xQueueGenericCreate (pvPortMalloc : ℕ → Option ℕ) (length itemSize : ℕ) (q : Queue τ) :
    Option (Queue τ) :=
  let bytes := if itemSize = 0 then 0 else wrap 32 ((length : ℤ)*itemSize)
  (pvPortMalloc (wrap 32 ((sizeofQueue : ℤ) + bytes))).map fun (p : ℕ) =>
    prvInitialiseNewQueue length itemSize (wrap 32 ((p : ℤ)+sizeofQueue)) p q

def xQueueCreateCountingSemaphore (pvPortMalloc : ℕ → Option ℕ) (maxCount initialCount : ℕ)
    (q : Queue τ) : Option (Queue τ) :=
  (xQueueGenericCreate pvPortMalloc maxCount 0 q).map fun q =>
    { q with messagesWaiting := initialCount }

/-- `item` is the memory from the pointer to the item on. The branch for a mutex belongs to
`giveMutex` of the scheduler. -/
def prvCopyDataToQueue (q : Queue τ) (item : ℕ → UInt8) (position : Position) : Queue τ :=
  if q.itemSize = 0 then { q with messagesWaiting := wrap 32 ((q.messagesWaiting : ℤ)+1) }
  else if position = .sendToBack then
    let writeTo := wrap 32 ((q.writeTo : ℤ)+q.itemSize)
    { q with
      memory := store q.memory q.writeTo (load item 0 q.itemSize)
      writeTo := if q.tail ≤ writeTo then q.head else writeTo
      messagesWaiting := wrap 32 ((q.messagesWaiting : ℤ)+1) }
  else
    let readFrom := wrap 32 ((q.readFrom : ℤ)-q.itemSize)
    let messagesWaiting :=
      if position = .overwrite ∧ 0 < q.messagesWaiting then q.messagesWaiting-1
      else q.messagesWaiting
    { q with
      memory := store q.memory q.readFrom (load item 0 q.itemSize)
      readFrom := if readFrom < q.head then wrap 32 ((q.tail : ℤ)-q.itemSize) else readFrom
      messagesWaiting := wrap 32 ((messagesWaiting : ℤ)+1) }

def prvCopyDataFromQueue (q : Queue τ) : Queue τ × Bytes :=
  if q.itemSize = 0 then (q,[])
  else
    let readFrom := wrap 32 ((q.readFrom : ℤ)+q.itemSize)
    let readFrom := if q.tail ≤ readFrom then q.head else readFrom
    ({ q with readFrom := readFrom },load q.memory readFrom q.itemSize)

def slot (q : Queue τ) (i : ℕ) : Bytes := load q.memory (q.head+i*q.itemSize) q.itemSize

/-- The place of the item that was read last, counted in items. -/
def readSlot (q : Queue τ) : ℕ := (q.readFrom-q.head)/q.itemSize

/-- The items in the order in which they will be received. -/
def contents (q : Queue τ) : List Bytes :=
  Ring.window q.length q.slot (q.readSlot+1) q.messagesWaiting

@[simp] theorem contents_length (q : Queue τ) : q.contents.length = q.messagesWaiting := by
  simp [contents,Ring.window]

/-- The ring is whole: it ends below the end of the address space, an item fits below
it, and the two pointers are at items that are `messagesWaiting` items apart. -/
structure WellFormed (q : Queue τ) : Prop where
  length_pos : 0 < q.length
  length_lt : q.length < 2^32
  itemSize_le : q.itemSize ≤ q.head
  tail_lt : q.head + q.length*q.itemSize < 2^32
  tail_eq : q.tail = q.head + q.length*q.itemSize
  readSlot_lt : q.readSlot < q.length
  readFrom_eq : q.readFrom = q.head + q.readSlot*q.itemSize
  writeTo_eq : q.writeTo = q.head + (q.readSlot+1+q.messagesWaiting)%q.length*q.itemSize
  messagesWaiting_le : q.messagesWaiting ≤ q.length

section Ring

variable {q : Queue τ}

theorem slot_end {i : ℕ} (h : i < q.length) :
    q.head + i*q.itemSize + q.itemSize ≤ q.head + q.length*q.itemSize := by
  have := Nat.mul_le_mul_right q.itemSize (Nat.succ_le_of_lt h)
  rw [Nat.succ_mul] at this
  omega

theorem load_store_slot {i j : ℕ} {xs : Bytes} (hx : xs.length = q.itemSize) :
    load (store q.memory (q.head+i*q.itemSize) xs) (q.head+j*q.itemSize) q.itemSize =
      if j = i then xs else q.slot j := by
  split
  · rename_i h
    rw [h,← hx,load_store_self]
  · rename_i h
    apply load_store_disjoint
    rcases Nat.lt_or_gt_of_ne h with hlt | hgt
    · have := Nat.mul_le_mul_right q.itemSize (Nat.succ_le_of_lt hlt)
      rw [Nat.succ_mul] at this
      omega
    · have := Nat.mul_le_mul_right q.itemSize (Nat.succ_le_of_lt hgt)
      rw [Nat.succ_mul] at this
      omega

theorem advance_eq (h : q.WellFormed) (hs : q.itemSize ≠ 0) {i : ℕ} (hi : i < q.length) :
    (if q.tail ≤ wrap 32 (((q.head+i*q.itemSize : ℕ) : ℤ)+q.itemSize) then q.head
      else wrap 32 (((q.head+i*q.itemSize : ℕ) : ℤ)+q.itemSize)) =
      q.head + (i+1)%q.length*q.itemSize := by
  have hend := slot_end hi
  have hlt := h.tail_lt
  have hw : wrap 32 (((q.head+i*q.itemSize : ℕ) : ℤ)+q.itemSize) =
      q.head+(i+1)*q.itemSize := by
    rw [← Nat.cast_add,wrap_natCast,Nat.mod_eq_of_lt (by omega),Nat.succ_mul]
    omega
  rw [hw,h.tail_eq]
  by_cases hlast : i+1 = q.length
  · rw [if_pos (by rw [hlast]),hlast,Nat.mod_self,Nat.zero_mul,Nat.add_zero]
  · have hin : i+1 < q.length := by omega
    have hnext := slot_end hin
    rw [if_neg (by omega),Nat.mod_eq_of_lt hin]

theorem retreat_eq (h : q.WellFormed) (hs : q.itemSize ≠ 0) {i : ℕ} (hi : i < q.length) :
    (if wrap 32 (((q.head+i*q.itemSize : ℕ) : ℤ)-q.itemSize) < q.head then
      wrap 32 ((q.tail : ℤ)-q.itemSize)
      else wrap 32 (((q.head+i*q.itemSize : ℕ) : ℤ)-q.itemSize)) =
      q.head + (i+(q.length-1))%q.length*q.itemSize := by
  have hend := slot_end hi
  have hlt := h.tail_lt
  have hle := h.itemSize_le
  rw [wrap_sub (by omega) (by omega),h.tail_eq,wrap_sub (by omega) (by omega)]
  cases i with
  | zero =>
    rw [if_pos (by omega),Nat.zero_add,Nat.mod_eq_of_lt (by omega),Nat.sub_mul]
    omega
  | succ i =>
    have hstep : i+1+(q.length-1) = i+q.length := by omega
    rw [Nat.succ_mul,if_neg (by omega),hstep,Nat.add_mod_right,Nat.mod_eq_of_lt (by omega)]
    omega

theorem WellFormed.moved (h : q.WellFormed) (q' : Queue τ) {r : ℕ} (hs : q.itemSize ≠ 0)
    (hgeometry : (q'.head,q'.tail,q'.length,q'.itemSize) = (q.head,q.tail,q.length,q.itemSize))
    (hr : r < q.length) (hread : q'.readFrom = q.head+r*q.itemSize)
    (hwrite : q'.writeTo = q.head+(r+1+q'.messagesWaiting)%q.length*q.itemSize)
    (hn : q'.messagesWaiting ≤ q.length) :
    q'.WellFormed ∧ q'.contents = Ring.window q.length q'.slot (r+1) q'.messagesWaiting := by
  obtain ⟨hhead,htail,hlength,hsize⟩ : q'.head = q.head ∧ q'.tail = q.tail ∧
    q'.length = q.length ∧ q'.itemSize = q.itemSize := by simpa using hgeometry
  have hslot : q'.readSlot = r := by
    rw [readSlot,hread,hhead,hsize,Nat.add_sub_cancel_left,
      Nat.mul_div_cancel _ (Nat.pos_of_ne_zero hs)]
  refine ⟨⟨?_,?_,?_,?_,?_,?_,?_,?_,?_⟩,?_⟩ <;>
    simp only [hhead,htail,hlength,hsize,hslot,contents]
  · exact h.length_pos
  · exact h.length_lt
  · exact h.itemSize_le
  · exact h.tail_lt
  · exact h.tail_eq
  · exact hr
  · exact hread
  · exact hwrite
  · exact hn

theorem wrap_succ {n : ℕ} (h : n+1 < 2^32) : wrap 32 ((n : ℤ)+1) = n+1 := by
  rw [← Nat.cast_succ,wrap_natCast,Nat.mod_eq_of_lt h]

end Ring

section Operations

variable {q : Queue τ}

theorem contents_of_itemSize (h : q.itemSize = 0) :
    q.contents = List.replicate q.messagesWaiting [] := by
  apply List.ext_getElem (by simp)
  intro i h₁ h₂
  simp [contents,Ring.window,slot,h]

theorem WellFormed.recount (h : q.WellFormed) (hs : q.itemSize = 0) {n : ℕ} (hn : n ≤ q.length) :
    WellFormed { q with messagesWaiting := n } := by
  refine ⟨h.length_pos,h.length_lt,h.itemSize_le,h.tail_lt,h.tail_eq,h.readSlot_lt,h.readFrom_eq,
    ?_,hn⟩
  have hw := h.writeTo_eq
  simpa [hs] using hw

theorem copyTo_uncounted (h : q.WellFormed) (hs : q.itemSize = 0) (hroom : q.messagesWaiting < q.length)
    (item : ℕ → UInt8) (position : Position) :
    (q.prvCopyDataToQueue item position).WellFormed ∧
      (q.prvCopyDataToQueue item position).messagesWaiting = q.messagesWaiting+1 := by
  have hlen := h.length_lt
  rw [prvCopyDataToQueue,if_pos hs,wrap_succ (by omega)]
  exact ⟨h.recount hs hroom,rfl⟩

theorem replicate_concat (n : ℕ) : (List.replicate (n+1) [] : List Bytes) =
    List.replicate n [] ++ [[]] := by
  rw [List.replicate_succ']

theorem copyTo_back (h : q.WellFormed) (hroom : q.messagesWaiting < q.length) (item : ℕ → UInt8) :
    (q.prvCopyDataToQueue item .sendToBack).WellFormed ∧
      (q.prvCopyDataToQueue item .sendToBack).contents =
        q.contents ++ [load item 0 q.itemSize] := by
  have hlen := h.length_lt
  by_cases hs : q.itemSize = 0
  · obtain ⟨hw,hn⟩ := copyTo_uncounted h hs hroom item .sendToBack
    refine ⟨hw,?_⟩
    rw [contents_of_itemSize (by simp [prvCopyDataToQueue,hs]),hn,contents_of_itemSize hs,hs,
      replicate_concat,load_zero]
  · have hmod : (q.readSlot+1+q.messagesWaiting)%q.length < q.length := Nat.mod_lt _ h.length_pos
    have hq : q.prvCopyDataToQueue item .sendToBack = { q with
        memory := store q.memory (q.head+(q.readSlot+1+q.messagesWaiting)%q.length*q.itemSize)
          (load item 0 q.itemSize)
        writeTo := q.head+(q.readSlot+1+(q.messagesWaiting+1))%q.length*q.itemSize
        messagesWaiting := q.messagesWaiting+1 } := by
      simp only [prvCopyDataToQueue,if_neg hs,if_true,h.writeTo_eq,advance_eq h hs hmod,
        wrap_succ (show q.messagesWaiting+1 < 2^32 by omega)]
      simp [Nat.add_assoc]
    rw [hq]
    refine ⟨⟨h.length_pos,h.length_lt,h.itemSize_le,h.tail_lt,h.tail_eq,h.readSlot_lt,h.readFrom_eq,
      rfl,hroom⟩,?_⟩
    rw [contents,Ring.window_succ]
    congr 1
    · apply Ring.window_congr
      intro i hi
      have hne := Ring.mod_ne_mod (p := q.readSlot+1) hi (by omega : q.messagesWaiting < i+q.length)
      exact (load_store_slot (by simp)).trans (if_neg hne)
    · congr 1
      exact (load_store_slot (by simp)).trans (if_pos rfl)

/-- `sendToFront`, and `overwrite` of an empty place. -/
theorem copyTo_front (h : q.WellFormed) (hroom : q.messagesWaiting < q.length) {position : Position}
    (hp : position = .sendToFront ∨ position = .overwrite ∧ q.messagesWaiting = 0)
    (item : ℕ → UInt8) :
    (q.prvCopyDataToQueue item position).WellFormed ∧
      (q.prvCopyDataToQueue item position).contents = load item 0 q.itemSize :: q.contents := by
  have hlen := h.length_lt
  by_cases hs : q.itemSize = 0
  · obtain ⟨hw,hn⟩ := copyTo_uncounted h hs hroom item position
    refine ⟨hw,?_⟩
    rw [contents_of_itemSize (by simp [prvCopyDataToQueue,hs]),hn,contents_of_itemSize hs,hs,
      List.replicate_succ,load_zero]
  · have hback : position ≠ .sendToBack := by
      rcases hp with rfl | ⟨rfl,-⟩ <;> decide
    have hcount : (if position = .overwrite ∧ 0 < q.messagesWaiting then q.messagesWaiting-1
        else q.messagesWaiting) = q.messagesWaiting := by
      rw [if_neg]
      rintro ⟨rfl,hpos⟩
      rcases hp with hp | ⟨-,hz⟩
      · exact absurd hp (by decide)
      · omega
    have hq : q.prvCopyDataToQueue item position = { q with
        memory := store q.memory (q.head+q.readSlot*q.itemSize) (load item 0 q.itemSize)
        readFrom := q.head+(q.readSlot+(q.length-1))%q.length*q.itemSize
        messagesWaiting := q.messagesWaiting+1 } := by
      simp only [prvCopyDataToQueue,if_neg hs,if_neg hback,hcount,
        wrap_succ (show q.messagesWaiting+1 < 2^32 by omega)]
      rw [h.readFrom_eq,retreat_eq h hs h.readSlot_lt,← h.readFrom_eq]
    have hpos := h.length_pos
    have hnext : ∀ k, ((q.readSlot+(q.length-1))%q.length+1+k)%q.length =
        (q.readSlot+k)%q.length := by
      intro k
      rw [Nat.add_assoc,Nat.mod_add_mod,
        show q.readSlot+(q.length-1)+(1+k) = q.readSlot+k+q.length by omega,Nat.add_mod_right]
    have hmoved := h.moved (q.prvCopyDataToQueue item position) hs (by rw [hq])
      (Nat.mod_lt (q.readSlot+(q.length-1)) hpos) (by rw [hq])
      (by rw [hq]; simp only [hnext,h.writeTo_eq]; rw [Nat.add_assoc,Nat.add_comm 1])
      (by rw [hq]; exact hroom)
    refine ⟨hmoved.1,hmoved.2.trans ?_⟩
    have hfirst := hnext 0
    simp only [Nat.add_zero] at hfirst
    rw [hq,Ring.window_cons,hfirst,Nat.mod_eq_of_lt h.readSlot_lt]
    congr 1
    · exact (load_store_slot (by simp)).trans (if_pos rfl)
    · rw [← Ring.window_mod,hnext 1,Ring.window_mod]
      apply Ring.window_congr
      intro i hi
      have hne := Ring.mod_ne_mod (p := q.readSlot) (i := 0) (j := 1+i) (by omega)
        (by omega : 1+i < 0+q.length)
      rw [Nat.add_zero,Nat.mod_eq_of_lt h.readSlot_lt,← Nat.add_assoc] at hne
      exact (load_store_slot (by simp)).trans (if_neg hne.symm)

theorem copyTo_overwrite (h : q.WellFormed) (hone : q.length = 1) (item : ℕ → UInt8)
    (hs : q.itemSize ≠ 0) :
    (q.prvCopyDataToQueue item .overwrite).WellFormed ∧
      (q.prvCopyDataToQueue item .overwrite).contents = [load item 0 q.itemSize] := by
  have hq : q.prvCopyDataToQueue item .overwrite =
      prvCopyDataToQueue { q with messagesWaiting := 0 } item .overwrite := by
    have hle := h.messagesWaiting_le
    have hn : (if 0 < q.messagesWaiting then q.messagesWaiting-1 else q.messagesWaiting) = 0 := by
      split <;> omega
    simp [prvCopyDataToQueue,hs,hn]
  have hzero : WellFormed { q with messagesWaiting := 0 } := by
    refine ⟨h.length_pos,h.length_lt,h.itemSize_le,h.tail_lt,h.tail_eq,h.readSlot_lt,h.readFrom_eq,
      ?_,Nat.zero_le _⟩
    have hw := h.writeTo_eq
    simpa [hone,Nat.mod_one] using hw
  have hfront := copyTo_front hzero h.length_pos (Or.inr ⟨rfl,rfl⟩) item
  rw [hq]
  exact ⟨hfront.1,by rw [hfront.2]; simp [contents,Ring.window]⟩

theorem copyFrom (h : q.WellFormed) (hsome : 0 < q.messagesWaiting) :
    let r := q.prvCopyDataFromQueue
    let q' := { r.1 with messagesWaiting := q.messagesWaiting-1 }
    q'.WellFormed ∧ q.contents = r.2 :: q'.contents := by
  intro r q'
  have hle := h.messagesWaiting_le
  obtain ⟨n,hn⟩ : ∃ n, q.messagesWaiting = n+1 := ⟨q.messagesWaiting-1,by omega⟩
  by_cases hs : q.itemSize = 0
  · have hr : r = (q,[]) := if_pos hs
    have hq' : q' = { q with messagesWaiting := n } := by simp [q',hr,hn]
    refine ⟨by rw [hq']; exact h.recount hs (by omega),?_⟩
    rw [contents_of_itemSize hs,contents_of_itemSize (by simp [q',hr,hs]),hn,List.replicate_succ]
    simp [q',hr,hn]
  · have hr : r = ({ q with readFrom := q.head+(q.readSlot+1)%q.length*q.itemSize },
        q.slot ((q.readSlot+1)%q.length)) := by
      simp only [r,prvCopyDataFromQueue,if_neg hs]
      rw [h.readFrom_eq,advance_eq h hs h.readSlot_lt]
      rfl
    have hq' : q' = { q with
        readFrom := q.head+(q.readSlot+1)%q.length*q.itemSize
        messagesWaiting := n } := by simp [q',hr,hn]
    have hcount : (q.readSlot+1)%q.length+1+n = (q.readSlot+1)%q.length+(1+n) := by omega
    have hmoved := h.moved q' hs (by rw [hq']) (Nat.mod_lt (q.readSlot+1) h.length_pos)
      (by rw [hq'])
      (by rw [hq']; simp only [h.writeTo_eq,hn,hcount,Nat.mod_add_mod]; rw [Nat.add_comm n])
      (by rw [hq']; show n ≤ q.length; omega)
    refine ⟨hmoved.1,?_⟩
    rw [hmoved.2,hq',hr,contents,hn,Ring.window_cons,← Ring.window_mod (p := _+1+1),
      ← Ring.window_mod (p := _%_+1),Nat.mod_add_mod]
    rfl

end Operations

/-- A whole ring that nobody waits for. -/
structure Idle (q : Queue τ) : Prop where
  wellFormed : q.WellFormed
  noSender : q.tasksWaitingToSend = []
  noReceiver : q.tasksWaitingToReceive = []
  unlocked : q.rxLock = queueUnlocked ∧ q.txLock = queueUnlocked

/-- What the creation of a queue relies on: the size of the block is no more than a word
can hold, and the block is inside the address space and above the size of an item. -/
structure Allocated (pvPortMalloc : ℕ → Option ℕ) (length itemSize : ℕ) : Prop where
  length_pos : 0 < length
  length_lt : length < 2^32
  size_lt : sizeofQueue + length*itemSize < 2^32
  block : ∀ n p, pvPortMalloc n = some p → itemSize ≤ p ∧ p+n < 2^32

theorem reset_wellFormed {q : Queue τ} (hpos : 0 < q.length) (hlen : q.length < 2^32)
    (hlow : q.itemSize ≤ q.head) (hhigh : q.head + q.length*q.itemSize < 2^32) :
    (q.xQueueGenericReset true).WellFormed := by
  have hlast : (q.length-1)*q.itemSize ≤ q.length*q.itemSize :=
    Nat.mul_le_mul_right _ (Nat.sub_le _ _)
  have hreset : q.xQueueGenericReset true = { q with
      tail := q.head + q.length*q.itemSize
      messagesWaiting := 0
      writeTo := q.head
      readFrom := q.head + (q.length-1)*q.itemSize
      rxLock := queueUnlocked
      txLock := queueUnlocked
      tasksWaitingToSend := []
      tasksWaitingToReceive := [] } := by
    have hminus : (q.length : ℤ)-1 = ((q.length-1 : ℕ) : ℤ) := by omega
    simp only [xQueueGenericReset,if_true,hminus,← Nat.cast_mul,wrap_natCast,← Nat.cast_add]
    rw [Nat.mod_eq_of_lt (show q.length*q.itemSize < 2^32 by omega),
      Nat.mod_eq_of_lt (show (q.length-1)*q.itemSize < 2^32 by omega),Nat.mod_eq_of_lt hhigh,
      Nat.mod_eq_of_lt (by omega)]
  have hslot : (q.xQueueGenericReset true).readSlot = if q.itemSize = 0 then 0 else q.length-1 := by
    rw [hreset,readSlot,Nat.add_sub_cancel_left]
    split
    · rename_i hz
      simp [hz]
    · rename_i hz
      exact Nat.mul_div_cancel _ (Nat.pos_of_ne_zero hz)
  refine ⟨?_,?_,?_,?_,?_,?_,?_,?_,?_⟩ <;> rw [hreset] at hslot ⊢
  · exact hpos
  · exact hlen
  · exact hlow
  · exact hhigh
  · rw [hslot]
    split <;> dsimp only <;> omega
  · rw [hslot]
    split <;> simp_all
  · rw [hslot]
    split
    · simp_all
    · simp [Nat.sub_add_cancel hpos]
  · exact Nat.zero_le _

theorem idle_of_create {pvPortMalloc : ℕ → Option ℕ} {length itemSize : ℕ} {junk q : Queue τ}
    (ha : Allocated pvPortMalloc length itemSize)
    (hq : xQueueGenericCreate pvPortMalloc length itemSize junk = some q) :
    q.Idle ∧ q.length = length ∧ q.itemSize = itemSize := by
  have hsize := ha.size_lt
  have hbytes : (if itemSize = 0 then 0 else wrap 32 ((length : ℤ)*itemSize)) = length*itemSize := by
    split
    · rename_i hz
      simp [hz]
    · rw [← Nat.cast_mul,wrap_natCast,Nat.mod_eq_of_lt (by omega)]
  simp only [xQueueGenericCreate,hbytes,← Nat.cast_add,wrap_natCast,Nat.mod_eq_of_lt hsize,
    Option.map_eq_some_iff] at hq
  obtain ⟨p,hp,rfl⟩ := hq
  obtain ⟨hlow,hhigh⟩ := ha.block _ p hp
  rw [Nat.mod_eq_of_lt (by omega),prvInitialiseNewQueue]
  have hhead : itemSize ≤ (if itemSize = 0 then p else p+sizeofQueue) ∧
      (if itemSize = 0 then p else p+sizeofQueue)+length*itemSize < 2^32 := by
    split <;> omega
  exact ⟨⟨reset_wellFormed ha.length_pos ha.length_lt hhead.1 hhead.2,rfl,rfl,rfl,rfl⟩,rfl,rfl⟩

/-- A queue or a counting semaphore as its creation leaves it. -/
inductive Created : Queue τ → Prop
  | queue {pvPortMalloc : ℕ → Option ℕ} {length itemSize : ℕ} {junk q : Queue τ}
      (allocated : Allocated pvPortMalloc length itemSize)
      (created : xQueueGenericCreate pvPortMalloc length itemSize junk = some q) : Created q
  | countingSemaphore {pvPortMalloc : ℕ → Option ℕ} {maxCount initialCount : ℕ} {junk q : Queue τ}
      (allocated : Allocated pvPortMalloc maxCount 0) (initial_le : initialCount ≤ maxCount)
      (created : xQueueCreateCountingSemaphore pvPortMalloc maxCount initialCount junk = some q) : Created q

theorem Created.idle {q : Queue τ} (h : Created q) : q.Idle := by
  cases h with
  | queue allocated created => exact (idle_of_create allocated created).1
  | countingSemaphore allocated initial_le created =>
    obtain ⟨q,hq,rfl⟩ := Option.map_eq_some_iff.mp created
    obtain ⟨hidle,hlength,hsize⟩ := idle_of_create allocated hq
    exact ⟨hidle.wellFormed.recount hsize (hlength ▸ initial_le),hidle.noSender,hidle.noReceiver,hidle.unlocked⟩

end Queue
end EmbeddedShell
