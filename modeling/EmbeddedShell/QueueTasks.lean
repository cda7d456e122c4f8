import Mathlib.Data.Fintype.Card
import EmbeddedShell.Execution
import EmbeddedShell.FreeRtos
import EmbeddedShell.Queue

/-!
# Tasks and interrupts on one queue

Every task that calls a blocking operation of a queue is somewhere in the loop of that
operation. What happens inside a critical section is one step; between two steps any other
task may run, unless the scheduler is suspended, and an interrupt may use the queue at any
time. A run is a sequence of such steps in any order. The events of a run are replayed on
a plain list of items, and no task stays blocked on a queue that has something for it.
-/

namespace EmbeddedShell
namespace QueueTasks

open FreeRtos Memory Queue

variable {τ : Type}

/-- The blocking calls; `semaphoreTake` is for queues whose items have no bytes. -/
inductive Operation
  | receive
  | peek
  | semaphoreTake
  | send (item : ℕ → UInt8) (position : Position)

/-- What a task does once it has unlocked the queue. -/
inductive After
  | block
  | again
  | leave
  deriving DecidableEq

/-- The places in the loop of a blocking call, in the order of the code. -/
inductive Stage
  | attempt
  | suspend
  | check
  | test
  | place
  | unlockTx (after : After)
  | unlockRx (after : After)
  | resume (after : After)
  | wait
  | retest
  deriving DecidableEq

/-- The local variables of a call; `timeOut` is `none` until the entry time has been set. -/
structure Frame where
  operation : Operation
  stage : Stage
  timeOut : Option TimeOut
  ticksToWait : ℕ

/-- `suspended` is the task that has suspended the scheduler. -/
structure System (τ : Type) where
  queue : Queue τ
  frames : τ → Option Frame
  suspended : Option τ

inductive Event
  | sent (item : Bytes) (position : Position)
  | received (item : Bytes)
  | peeked (item : Bytes)
  | full
  | empty
  | gaveUp
  deriving DecidableEq

/-- The critical section of a call, when it finds what the call is for. A task is
woken by taking it off its event list. -/
def critical (q : Queue τ) : Operation → Option (Queue τ × Event)
  | .receive =>
    if 0 < q.messagesWaiting then
      let r := q.prvCopyDataFromQueue
      some ({ r.1 with
        messagesWaiting := q.messagesWaiting-1
        tasksWaitingToSend := r.1.tasksWaitingToSend.tail },.received r.2)
    else none
  | .peek =>
    if 0 < q.messagesWaiting then
      let r := q.prvCopyDataFromQueue
      some ({ r.1 with
        readFrom := q.readFrom
        tasksWaitingToReceive := r.1.tasksWaitingToReceive.tail },.peeked r.2)
    else none
  | .semaphoreTake =>
    if 0 < q.messagesWaiting then
      some ({ q with
        messagesWaiting := q.messagesWaiting-1
        tasksWaitingToSend := q.tasksWaitingToSend.tail },.received [])
    else none
  | .send item position =>
    if q.messagesWaiting < q.length ∨ position = .overwrite then
      let q' := q.prvCopyDataToQueue item position
      some ({ q' with tasksWaitingToReceive := q'.tasksWaitingToReceive.tail },
        .sent (load item 0 q.itemSize) position)
    else none

def prvLockQueue (q : Queue τ) : Queue τ :=
  { q with
    rxLock := if q.rxLock = queueUnlocked then queueLockedUnmodified else q.rxLock
    txLock := if q.txLock = queueUnlocked then queueLockedUnmodified else q.txLock }

/-- The loops of `prvUnlockQueue`: one task for each item that was moved meanwhile. -/
def unlockLoop : ℕ → List τ → List τ
  | 0, ts => ts
  | _+1, [] => []
  | n+1, _::ts => unlockLoop n ts

def unlockTx (q : Queue τ) : Queue τ :=
  { q with
    tasksWaitingToReceive := unlockLoop q.txLock.toNat q.tasksWaitingToReceive
    txLock := queueUnlocked }

def unlockRx (q : Queue τ) : Queue τ :=
  { q with
    tasksWaitingToSend := unlockLoop q.rxLock.toNat q.tasksWaitingToSend
    rxLock := queueUnlocked }

/-- `prvIsQueueFull` for a sender, `prvIsQueueEmpty` for the others. -/
def isUnavailable (q : Queue τ) : Operation → Bool
  | .send _ _ => q.messagesWaiting == q.length
  | _ => q.messagesWaiting == 0

/-- `vTaskPlaceOnEventList`: behind the tasks of the same or a higher priority. -/
def placeOnEventList (priority : τ → ℕ) (q : Queue τ) (t : τ) : Operation → Queue τ
  | .send _ _ => { q with tasksWaitingToSend :=
      q.tasksWaitingToSend.orderedInsert (fun a b => priority b < priority a) t }
  | _ => { q with tasksWaitingToReceive :=
      q.tasksWaitingToReceive.orderedInsert (fun a b => priority b < priority a) t }

def int8 (x : ℤ) : ℤ := (x+128)%256-128

def xQueueGenericSendFromISR (q : Queue τ) (item : ℕ → UInt8) (position : Position) :
    Queue τ × Event :=
  if q.messagesWaiting < q.length ∨ position = .overwrite then
    let q' := q.prvCopyDataToQueue item position
    (if q.txLock = queueUnlocked then
        { q' with tasksWaitingToReceive := q'.tasksWaitingToReceive.tail }
      else { q' with txLock := int8 (q.txLock+1) },
      .sent (load item 0 q.itemSize) position)
  else (q,.full)

def xQueueGiveFromISR (q : Queue τ) : Queue τ × Event :=
  if q.messagesWaiting < q.length then
    let q' := { q with messagesWaiting := wrap 32 ((q.messagesWaiting : ℤ)+1) }
    (if q.txLock = queueUnlocked then
        { q' with tasksWaitingToReceive := q'.tasksWaitingToReceive.tail }
      else { q' with txLock := int8 (q.txLock+1) },
      .sent [] .sendToBack)
  else (q,.full)

def xQueueReceiveFromISR (q : Queue τ) : Queue τ × Event :=
  if 0 < q.messagesWaiting then
    let r := q.prvCopyDataFromQueue
    let q' := { r.1 with messagesWaiting := q.messagesWaiting-1 }
    (if q.rxLock = queueUnlocked then { q' with tasksWaitingToSend := q'.tasksWaitingToSend.tail }
      else { q' with rxLock := int8 (q.rxLock+1) },
      .received r.2)
  else (q,.empty)

def xQueuePeekFromISR (q : Queue τ) : Queue τ × Event :=
  if 0 < q.messagesWaiting then
    let r := q.prvCopyDataFromQueue
    ({ r.1 with readFrom := q.readFrom },.peeked r.2)
  else (q,.empty)

section Steps

variable [DecidableEq τ]

def System.goto (s : System τ) (t : τ) (f : Frame) : System τ :=
  { s with frames := Function.update s.frames t (some f) }

def System.leave (s : System τ) (t : τ) : System τ :=
  { s with frames := Function.update s.frames t none }

def failure : Operation → Event
  | .send _ _ => .full
  | _ => .empty

def attempt (s : System τ) (t : τ) (f : Frame) (now : ℕ) : System τ × List Event :=
  match critical s.queue f.operation with
  | some (q,e) => (({ s with queue := q } : System τ).leave t,[e])
  | none =>
    if f.ticksToWait = 0 then (s.leave t,[failure f.operation])
    else (s.goto t { f with
      stage := .suspend
      timeOut := some (f.timeOut.getD (vTaskInternalSetTimeOutState now)) },[])

def check (f : Frame) (now : ℕ) : Frame :=
  let r := xTaskCheckForTimeOut now (f.timeOut.getD (vTaskInternalSetTimeOutState now))
    f.ticksToWait
  { f with
    stage := if r.1 then .unlockTx .leave else .test
    timeOut := some r.2.1
    ticksToWait := r.2.2 }

/-- `xTaskResumeAll` and what follows it. A sender that has timed out returns, the
others look once more. -/
def resume (s : System τ) (t : τ) (f : Frame) : After → System τ × List Event
  | .block => (({ s with suspended := none } : System τ).goto t { f with stage := .wait },[])
  | .again => (({ s with suspended := none } : System τ).goto t { f with stage := .attempt },[])
  | .leave =>
    match f.operation with
    | .send _ _ => (({ s with suspended := none } : System τ).leave t,[.gaveUp])
    | _ => (({ s with suspended := none } : System τ).goto t { f with stage := .retest },[])

def blocked (q : Queue τ) (t : τ) : Bool :=
  decide (t ∈ q.tasksWaitingToSend) || decide (t ∈ q.tasksWaitingToReceive)

def advance (priority : τ → ℕ) (s : System τ) (t : τ) (f : Frame) (now : ℕ) :
    System τ × List Event :=
  match f.stage with
  | .attempt => attempt s t f now
  | .suspend => (({ s with queue := prvLockQueue s.queue,suspended := some t } : System τ).goto t
      { f with stage := .check },[])
  | .check => (s.goto t (check f now),[])
  | .test => (s.goto t { f with
      stage := if isUnavailable s.queue f.operation then .place else .unlockTx .again },[])
  | .place => (({ s with queue := placeOnEventList priority s.queue t f.operation } :
      System τ).goto t { f with stage := .unlockTx .block },[])
  | .unlockTx after => (({ s with queue := unlockTx s.queue } : System τ).goto t
      { f with stage := .unlockRx after },[])
  | .unlockRx after => (({ s with queue := unlockRx s.queue } : System τ).goto t
      { f with stage := .resume after },[])
  | .resume after => resume s t f after
  | .wait => if blocked s.queue t then (s,[]) else (s.goto t { f with stage := .attempt },[])
  | .retest =>
    if s.queue.messagesWaiting = 0 then (s.leave t,[.empty])
    else (s.goto t { f with stage := .attempt },[])

/-- What happens next: a task enters a call or takes a step of it, the tick takes a task
whose time is over off the event lists, or an interrupt uses the queue. -/
inductive Input (τ : Type)
  | call (t : τ) (operation : Operation) (ticksToWait : ℕ)
  | run (t : τ) (now : ℕ)
  | tick (t : τ)
  | sendFromISR (item : ℕ → UInt8) (position : Position)
  | giveFromISR
  | receiveFromISR
  | peekFromISR

/-- Only the task that has suspended the scheduler runs. -/
def runnable (s : System τ) (t : τ) : Bool :=
  match s.suspended with
  | none => true
  | some u => u = t

def interrupt (s : System τ) (r : Queue τ × Event) : System τ × List Event :=
  ({ s with queue := r.1 },[r.2])

def step (priority : τ → ℕ) : Execution.Machine (System τ) (Input τ) Event
  | s, .call t operation ticksToWait =>
    match s.frames t with
    | none => if runnable s t then (s.goto t ⟨operation,.attempt,none,ticksToWait⟩,[]) else (s,[])
    | some _ => (s,[])
  | s, .run t now =>
    match s.frames t with
    | none => (s,[])
    | some f => if runnable s t then advance priority s t f now else (s,[])
  | s, .tick t =>
    match s.suspended with
    | none => ({ s with queue := { s.queue with
        tasksWaitingToSend := s.queue.tasksWaitingToSend.erase t
        tasksWaitingToReceive := s.queue.tasksWaitingToReceive.erase t } },[])
    | some _ => (s,[])
  | s, .sendFromISR item position => interrupt s (xQueueGenericSendFromISR s.queue item position)
  | s, .giveFromISR => interrupt s (xQueueGiveFromISR s.queue)
  | s, .receiveFromISR => interrupt s (xQueueReceiveFromISR s.queue)
  | s, .peekFromISR => interrupt s (xQueuePeekFromISR s.queue)

end Steps

/-- What a caller owes: a semaphore has items without bytes, and an overwrite is for
a queue of one item that has some. -/
def Permitted (q : Queue τ) : Operation → Prop
  | .semaphoreTake => q.itemSize = 0
  | .send _ .overwrite => q.length = 1 ∧ q.itemSize ≠ 0
  | _ => True

def Input.Permitted (q : Queue τ) : Input τ → Prop
  | .call _ operation _ => QueueTasks.Permitted q operation
  | .sendFromISR item position => QueueTasks.Permitted q (.send item position)
  | .giveFromISR => q.itemSize = 0
  | _ => True

/-- What an event means for the list of the items; `none` if it cannot happen. -/
def accept (capacity : ℕ) (items : List Bytes) : Event → Option (List Bytes)
  | .sent item .sendToBack => if items.length < capacity then some (items ++ [item]) else none
  | .sent item .sendToFront => if items.length < capacity then some (item::items) else none
  | .sent item .overwrite => some [item]
  | .received item => if items.head? = some item then some items.tail else none
  | .peeked item => if items.head? = some item then some items else none
  | .full => if items.length = capacity then some items else none
  | .empty => if items = [] then some items else none
  | .gaveUp => some items

def replay (capacity : ℕ) (items : List Bytes) (events : List Event) : Option (List Bytes) :=
  events.foldlM (accept capacity) items

section Contents

variable {q : Queue τ}

theorem wellFormed_lists (h : q.WellFormed) (send receive : List τ) (rx tx : ℤ) :
    WellFormed { q with
      tasksWaitingToSend := send
      tasksWaitingToReceive := receive
      rxLock := rx
      txLock := tx } :=
  ⟨h.length_pos,h.length_lt,h.itemSize_le,h.tail_lt,h.tail_eq,h.readSlot_lt,h.readFrom_eq,
    h.writeTo_eq,h.messagesWaiting_le⟩

theorem accept_copyTo (h : q.WellFormed) {item : ℕ → UInt8} {position : Position}
    (hp : Permitted q (.send item position))
    (hroom : q.messagesWaiting < q.length ∨ position = .overwrite) :
    (q.prvCopyDataToQueue item position).WellFormed ∧
      accept q.length q.contents (.sent (load item 0 q.itemSize) position) =
        some (q.prvCopyDataToQueue item position).contents := by
  cases position with
  | sendToBack =>
    have hlt : q.messagesWaiting < q.length := hroom.resolve_right (by decide)
    obtain ⟨hw,hc⟩ := copyTo_back h hlt item
    exact ⟨hw,by simp [accept,hlt,hc]⟩
  | sendToFront =>
    have hlt : q.messagesWaiting < q.length := hroom.resolve_right (by decide)
    obtain ⟨hw,hc⟩ := copyTo_front h hlt (Or.inl rfl) item
    exact ⟨hw,by simp [accept,hlt,hc]⟩
  | overwrite =>
    obtain ⟨hw,hc⟩ := copyTo_overwrite h hp.1 item hp.2
    exact ⟨hw,by simp [accept,hc]⟩

theorem accept_peeked (h : q.WellFormed) (hsome : 0 < q.messagesWaiting) :
    accept q.length q.contents (.peeked q.prvCopyDataFromQueue.2) = some q.contents := by
  simp [accept,(copyFrom h hsome).2]

theorem accept_received (h : q.WellFormed) (hsome : 0 < q.messagesWaiting) :
    accept q.length q.contents (.received q.prvCopyDataFromQueue.2) =
      some ({ q.prvCopyDataFromQueue.1 with
        messagesWaiting := q.messagesWaiting-1 } : Queue τ).contents := by
  simp [accept,(copyFrom h hsome).2]

theorem copyFrom_of_itemSize (h : q.itemSize = 0) : q.prvCopyDataFromQueue = (q,[]) := if_pos h

theorem copyFrom_restored (q : Queue τ) :
    { q.prvCopyDataFromQueue.1 with readFrom := q.readFrom } = q := by
  simp only [prvCopyDataFromQueue]
  split <;> rfl

theorem critical_peek (q : Queue τ) : critical q .peek =
    if 0 < q.messagesWaiting then
      some ({ q with tasksWaitingToReceive := q.tasksWaitingToReceive.tail },
        .peeked q.prvCopyDataFromQueue.2)
    else none := by
  simp only [critical,prvCopyDataFromQueue]
  split_ifs <;> rfl

theorem copyFrom_geometry (q : Queue τ) : q.prvCopyDataFromQueue.1.length = q.length ∧
    q.prvCopyDataFromQueue.1.itemSize = q.itemSize := by
  simp only [prvCopyDataFromQueue]
  split <;> exact ⟨rfl,rfl⟩

theorem copyTo_geometry (q : Queue τ) (item : ℕ → UInt8) (position : Position) :
    (q.prvCopyDataToQueue item position).length = q.length ∧
      (q.prvCopyDataToQueue item position).itemSize = q.itemSize := by
  simp only [prvCopyDataToQueue]
  split
  · exact ⟨rfl,rfl⟩
  · split <;> exact ⟨rfl,rfl⟩

theorem accept_critical (h : q.WellFormed) {operation : Operation} (hp : Permitted q operation)
    {q' : Queue τ} {e : Event} (hc : critical q operation = some (q',e)) :
    q'.WellFormed ∧ accept q.length q.contents e = some q'.contents := by
  cases operation with
  | receive =>
    simp only [critical,Option.ite_none_right_eq_some,Option.some.injEq,Prod.mk.injEq] at hc
    obtain ⟨hsome,rfl,rfl⟩ := hc
    exact ⟨wellFormed_lists (copyFrom h hsome).1 _ _ _ _,accept_received h hsome⟩
  | peek =>
    simp only [critical_peek,Option.ite_none_right_eq_some,Option.some.injEq,Prod.mk.injEq] at hc
    obtain ⟨hsome,rfl,rfl⟩ := hc
    exact ⟨wellFormed_lists h _ _ _ _,accept_peeked h hsome⟩
  | semaphoreTake =>
    simp only [critical,Option.ite_none_right_eq_some,Option.some.injEq,Prod.mk.injEq] at hc
    obtain ⟨hsome,rfl,rfl⟩ := hc
    have hw := h.recount hp ((Nat.sub_le q.messagesWaiting 1).trans h.messagesWaiting_le)
    have hr := accept_received h hsome
    rw [copyFrom_of_itemSize hp] at hr
    exact ⟨wellFormed_lists hw _ _ _ _,hr⟩
  | send item position =>
    simp only [critical,Option.ite_none_right_eq_some,Option.some.injEq,Prod.mk.injEq] at hc
    obtain ⟨hroom,rfl,rfl⟩ := hc
    obtain ⟨hw,ha⟩ := accept_copyTo h hp hroom
    exact ⟨wellFormed_lists hw _ _ _ _,ha⟩

theorem critical_geometry {operation : Operation} {q' : Queue τ} {e : Event}
    (hc : critical q operation = some (q',e)) :
    q'.length = q.length ∧ q'.itemSize = q.itemSize := by
  cases operation with
  | receive | peek =>
    simp only [critical,Option.ite_none_right_eq_some,Option.some.injEq,Prod.mk.injEq] at hc
    obtain ⟨-,rfl,-⟩ := hc
    exact copyFrom_geometry q
  | semaphoreTake =>
    simp only [critical,Option.ite_none_right_eq_some,Option.some.injEq,Prod.mk.injEq] at hc
    obtain ⟨-,rfl,-⟩ := hc
    exact ⟨rfl,rfl⟩
  | send item position =>
    simp only [critical,Option.ite_none_right_eq_some,Option.some.injEq,Prod.mk.injEq] at hc
    obtain ⟨-,rfl,-⟩ := hc
    exact copyTo_geometry q item position

theorem accept_failure (h : q.WellFormed) {operation : Operation} (hc : critical q operation = none) :
    accept q.length q.contents (failure operation) = some q.contents := by
  cases operation with
  | receive | peek | semaphoreTake =>
    have hzero : q.messagesWaiting = 0 := by simpa [critical] using hc
    have hnil : q.contents = [] := by rw [← List.length_eq_zero_iff,contents_length,hzero]
    simp [failure,accept,hnil]
  | send item position =>
    have hfull : q.length ≤ q.messagesWaiting := by
      simp only [critical,ite_eq_right_iff,reduceCtorEq,imp_false,not_or] at hc
      omega
    have hle := h.messagesWaiting_le
    simp [failure,accept,show q.messagesWaiting = q.length by omega]

theorem accept_interrupts (h : q.WellFormed) :
    (∀ {item : ℕ → UInt8} {position : Position}, Permitted q (.send item position) →
      (xQueueGenericSendFromISR q item position).1.WellFormed ∧
      accept q.length q.contents (xQueueGenericSendFromISR q item position).2 =
        some (xQueueGenericSendFromISR q item position).1.contents) ∧
    ((xQueueReceiveFromISR q).1.WellFormed ∧
      accept q.length q.contents (xQueueReceiveFromISR q).2 =
        some (xQueueReceiveFromISR q).1.contents) ∧
    (xQueuePeekFromISR q).1.WellFormed ∧
      accept q.length q.contents (xQueuePeekFromISR q).2 =
        some (xQueuePeekFromISR q).1.contents := by
  have hle := h.messagesWaiting_le
  have hempty : ¬ 0 < q.messagesWaiting → accept q.length q.contents .empty = some q.contents := by
    intro hz
    have hnil : q.contents = [] := by rw [← List.length_eq_zero_iff,contents_length]; omega
    simp [accept,hnil]
  refine ⟨?_,?_,?_⟩
  · intro item position hp
    simp only [xQueueGenericSendFromISR]
    split
    · rename_i hroom
      obtain ⟨hw,ha⟩ := accept_copyTo h hp hroom
      split
      · exact ⟨wellFormed_lists hw _ _ _ _,ha⟩
      · exact ⟨wellFormed_lists hw _ _ _ _,ha⟩
    · rename_i hroom
      exact ⟨h,by simp [accept,show q.messagesWaiting = q.length by omega]⟩
  · simp only [xQueueReceiveFromISR]
    split
    · rename_i hsome
      split
      · exact ⟨wellFormed_lists (copyFrom h hsome).1 _ _ _ _,accept_received h hsome⟩
      · exact ⟨wellFormed_lists (copyFrom h hsome).1 _ _ _ _,accept_received h hsome⟩
    · rename_i hnone
      exact ⟨h,hempty hnone⟩
  · simp only [xQueuePeekFromISR]
    split
    · rename_i hsome
      rw [copyFrom_restored]
      exact ⟨h,accept_peeked h hsome⟩
    · rename_i hnone
      exact ⟨h,hempty hnone⟩

/-- On a semaphore, giving is sending an item without bytes. -/
theorem giveFromISR_eq (h : q.itemSize = 0) (item : ℕ → UInt8) :
    xQueueGiveFromISR q = xQueueGenericSendFromISR q item .sendToBack := by
  simp [xQueueGiveFromISR,xQueueGenericSendFromISR,prvCopyDataToQueue,h]

end Contents

/-- The same ring with other event lists and locks. -/
def Relisted (q q' : Queue τ) : Prop :=
  ∃ send receive rx tx, q' = { q with
    tasksWaitingToSend := send
    tasksWaitingToReceive := receive
    rxLock := rx
    txLock := tx }

theorem Relisted.refl (q : Queue τ) : Relisted q q := ⟨_,_,_,_,rfl⟩

theorem Relisted.ring {q q' : Queue τ} (h : Relisted q q') (hw : q.WellFormed) :
    q'.WellFormed ∧ q'.contents = q.contents ∧ q'.length = q.length ∧ q'.itemSize = q.itemSize := by
  obtain ⟨send,receive,rx,tx,rfl⟩ := h
  exact ⟨wellFormed_lists hw send receive rx tx,rfl,rfl,rfl⟩

theorem permitted_congr {q q' : Queue τ} {operation : Operation}
    (hg : q'.length = q.length ∧ q'.itemSize = q.itemSize) :
    Permitted q' operation ↔ Permitted q operation := by
  cases operation with
  | receive | peek => rfl
  | semaphoreTake => simp [Permitted,hg]
  | send item position => cases position <;> simp [Permitted,hg]

theorem Input.permitted_congr {q q' : Queue τ} {x : Input τ}
    (hg : q'.length = q.length ∧ q'.itemSize = q.itemSize) :
    x.Permitted q' ↔ x.Permitted q := by
  cases x with
  | call t operation ticksToWait => exact QueueTasks.permitted_congr hg
  | sendFromISR item position => exact QueueTasks.permitted_congr hg
  | giveFromISR => simp [Input.Permitted,hg]
  | run | tick | receiveFromISR | peekFromISR => rfl

theorem interrupt_geometry (q : Queue τ) :
    (∀ item position, (xQueueGenericSendFromISR q item position).1.length = q.length ∧
      (xQueueGenericSendFromISR q item position).1.itemSize = q.itemSize) ∧
    ((xQueueReceiveFromISR q).1.length = q.length ∧
      (xQueueReceiveFromISR q).1.itemSize = q.itemSize) ∧
    (xQueuePeekFromISR q).1.length = q.length ∧ (xQueuePeekFromISR q).1.itemSize = q.itemSize := by
  refine ⟨?_,?_,?_⟩
  · intro item position
    simp only [xQueueGenericSendFromISR]
    split_ifs
    · exact copyTo_geometry q item position
    · exact copyTo_geometry q item position
    · exact ⟨rfl,rfl⟩
  · simp only [xQueueReceiveFromISR]
    split_ifs
    · exact copyFrom_geometry q
    · exact copyFrom_geometry q
    · exact ⟨rfl,rfl⟩
  · simp only [xQueuePeekFromISR]
    split_ifs
    · exact copyFrom_geometry q
    · exact ⟨rfl,rfl⟩

section Replay

variable [DecidableEq τ] {s : System τ}

@[simp] theorem goto_queue (s : System τ) (t : τ) (f : Frame) : (s.goto t f).queue = s.queue := rfl
@[simp] theorem leave_queue (s : System τ) (t : τ) : (s.leave t).queue = s.queue := rfl
@[simp] theorem goto_suspended (s : System τ) (t : τ) (f : Frame) :
    (s.goto t f).suspended = s.suspended := rfl
@[simp] theorem leave_suspended (s : System τ) (t : τ) : (s.leave t).suspended = s.suspended := rfl
@[simp] theorem goto_frames (s : System τ) (t u : τ) (f : Frame) :
    (s.goto t f).frames u = if u = t then some f else s.frames u := by
  simp [System.goto,Function.update_apply]
@[simp] theorem leave_frames (s : System τ) (t u : τ) :
    (s.leave t).frames u = if u = t then none else s.frames u := by
  simp [System.leave,Function.update_apply]

/-- What a step of a task can be, seen from the ring: nothing happens to it, or a critical
section succeeds, or the call reports that it found nothing. -/
theorem advance_cases (priority : τ → ℕ) (s : System τ) (t : τ) (f : Frame) (now : ℕ) :
    (Relisted s.queue (advance priority s t f now).1.queue ∧
      ((advance priority s t f now).2 = [] ∨ (advance priority s t f now).2 = [.gaveUp] ∨
        critical s.queue f.operation = none ∧
          (advance priority s t f now).2 = [failure f.operation] ∨
        s.queue.messagesWaiting = 0 ∧ (advance priority s t f now).2 = [.empty])) ∨
    ∃ e, critical s.queue f.operation = some ((advance priority s t f now).1.queue,e) ∧
      (advance priority s t f now).2 = [e] := by
  have hsame := Relisted.refl s.queue
  cases hs : f.stage with
  | attempt =>
    simp only [advance,hs,attempt]
    cases hc : critical s.queue f.operation with
    | some r => exact Or.inr ⟨r.2,rfl,rfl⟩
    | none =>
      left
      by_cases hz : f.ticksToWait = 0
      · simp only [if_pos hz]
        exact ⟨hsame,by simp⟩
      · simp only [if_neg hz]
        exact ⟨hsame,by simp⟩
  | suspend => exact Or.inl ⟨⟨_,_,_,_,by simp only [advance,hs]; rfl⟩,by simp [advance,hs]⟩
  | check | test => exact Or.inl ⟨by simpa [advance,hs] using hsame,by simp [advance,hs]⟩
  | place =>
    refine Or.inl ⟨?_,by simp [advance,hs]⟩
    simp only [advance,hs,goto_queue]
    cases f.operation <;> exact ⟨_,_,_,_,rfl⟩
  | unlockTx after | unlockRx after =>
    exact Or.inl ⟨⟨_,_,_,_,by simp only [advance,hs]; rfl⟩,by simp [advance,hs]⟩
  | resume after =>
    left
    cases after with
    | block | again => exact ⟨by simpa [advance,hs,resume] using hsame,by simp [advance,hs,resume]⟩
    | leave =>
      cases ho : f.operation <;>
        exact ⟨by simpa [advance,hs,resume,ho] using hsame,by simp [advance,hs,resume,ho]⟩
  | wait =>
    left
    simp only [advance,hs]
    split <;> exact ⟨hsame,by simp⟩
  | retest =>
    left
    simp only [advance,hs]
    split
    · rename_i hz
      exact ⟨hsame,by simp [hz]⟩
    · exact ⟨hsame,by simp⟩

theorem advance_operation (priority : τ → ℕ) {t u : τ} {f g : Frame} (now : ℕ)
    (hf : s.frames t = some f) (hg : (advance priority s t f now).1.frames u = some g) :
    ∃ g₀, s.frames u = some g₀ ∧ g₀.operation = g.operation := by
  have hgoto : ∀ (s' : System τ) (f' : Frame), (s'.goto t f').frames u = some g →
      s'.frames = s.frames → f'.operation = f.operation →
      ∃ g₀, s.frames u = some g₀ ∧ g₀.operation = g.operation := by
    intro s' f' h hs' hop
    rw [goto_frames,hs'] at h
    split at h
    · rename_i hut
      exact ⟨f,by rw [hut,hf],by rw [← hop,Option.some.inj h]⟩
    · exact ⟨g,h,rfl⟩
  have hleave : ∀ (s' : System τ), (s'.leave t).frames u = some g → s'.frames = s.frames →
      ∃ g₀, s.frames u = some g₀ ∧ g₀.operation = g.operation := by
    intro s' h hs'
    rw [leave_frames,hs'] at h
    split at h
    · cases h
    · exact ⟨g,h,rfl⟩
  cases hs : f.stage with
  | attempt =>
    simp only [advance,hs,attempt] at hg
    split at hg
    · exact hleave _ hg rfl
    · split at hg
      · exact hleave _ hg rfl
      · exact hgoto _ _ hg rfl rfl
  | suspend | check | test | place | unlockTx after | unlockRx after =>
    simp only [advance,hs] at hg
    exact hgoto _ _ hg rfl rfl
  | resume after =>
    simp only [advance,hs] at hg
    cases after with
    | block | again => exact hgoto _ _ hg rfl rfl
    | leave =>
      simp only [resume] at hg
      split at hg
      · exact hleave _ hg rfl
      · exact hgoto _ _ hg rfl rfl
  | wait =>
    simp only [advance,hs] at hg
    split at hg
    · exact ⟨g,hg,rfl⟩
    · exact hgoto _ _ hg rfl rfl
  | retest =>
    simp only [advance,hs] at hg
    split at hg
    · exact hleave _ hg rfl
    · exact hgoto _ _ hg rfl rfl

/-- The ring is whole and every call in progress is a permitted one. -/
structure Sound (s : System τ) : Prop where
  wellFormed : s.queue.WellFormed
  permitted : ∀ t f, s.frames t = some f → Permitted s.queue f.operation

/-- What one step does to the ring, and the replay of its events. -/
structure Replays (s s' : System τ) (events : List Event) : Prop where
  sound : Sound s'
  geometry : s'.queue.length = s.queue.length ∧ s'.queue.itemSize = s.queue.itemSize
  events : replay s.queue.length s.queue.contents events = some s'.queue.contents

theorem replay_single {capacity : ℕ} {items items' : List Bytes} {e : Event}
    (h : accept capacity items e = some items') : replay capacity items [e] = some items' := by
  simp [replay,h]

theorem replay_append (capacity : ℕ) (items : List Bytes) (es es' : List Event) :
    replay capacity items (es++es') =
      (replay capacity items es).bind fun items => replay capacity items es' := by
  simp [replay,List.foldlM_append]

omit [DecidableEq τ] in
theorem replays_same (hs : Sound s) : Replays s s [] := ⟨hs,⟨rfl,rfl⟩,rfl⟩

omit [DecidableEq τ] in
theorem Sound.keep {s' : System τ} (hs : Sound s) (hw : s'.queue.WellFormed)
    (hg : s'.queue.length = s.queue.length ∧ s'.queue.itemSize = s.queue.itemSize)
    (hf : ∀ t f, s'.frames t = some f → ∃ f₀, s.frames t = some f₀ ∧ f₀.operation = f.operation) :
    Sound s' := by
  refine ⟨hw,fun t f h => ?_⟩
  obtain ⟨f₀,h₀,hop⟩ := hf t f h
  rw [permitted_congr hg,← hop]
  exact hs.permitted t f₀ h₀

theorem advance_replays (priority : τ → ℕ) (hs : Sound s) {t : τ} {f : Frame} (now : ℕ)
    (hf : s.frames t = some f) :
    Replays s (advance priority s t f now).1 (advance priority s t f now).2 := by
  have hops := fun u g => advance_operation priority (u := u) (g := g) now hf
  rcases advance_cases priority s t f now with ⟨hr,he⟩ | ⟨e,hc,he⟩
  · obtain ⟨hw,hcontents,hg⟩ := hr.ring hs.wellFormed
    refine ⟨hs.keep hw hg hops,hg,?_⟩
    rw [hcontents]
    rcases he with he | he | ⟨hc,he⟩ | ⟨hz,he⟩
    · rw [he]
      rfl
    · rw [he]
      rfl
    · rw [he]
      exact replay_single (accept_failure hs.wellFormed hc)
    · have hnil : s.queue.contents = [] := by
        rw [← List.length_eq_zero_iff,contents_length,hz]
      rw [he,hnil]
      rfl
  · obtain ⟨hw,ha⟩ := accept_critical hs.wellFormed (hs.permitted t f hf) hc
    have hg := critical_geometry hc
    exact ⟨hs.keep hw hg hops,hg,by rw [he]; exact replay_single ha⟩

omit [DecidableEq τ] in
theorem interrupt_replays (hs : Sound s) {r : Queue τ × Event}
    (hg : r.1.length = s.queue.length ∧ r.1.itemSize = s.queue.itemSize)
    (ha : r.1.WellFormed ∧ accept s.queue.length s.queue.contents r.2 = some r.1.contents) :
    Replays s (interrupt s r).1 (interrupt s r).2 :=
  ⟨hs.keep ha.1 hg fun _ f hf => ⟨f,hf,rfl⟩,hg,replay_single ha.2⟩

theorem step_replays (priority : τ → ℕ) (hs : Sound s) {x : Input τ} (hx : x.Permitted s.queue) :
    Replays s (step priority s x).1 (step priority s x).2 := by
  have haccept := accept_interrupts hs.wellFormed
  have hgeometry := interrupt_geometry s.queue
  cases x with
  | call t operation ticksToWait =>
    simp only [step]
    split
    · split
      · refine ⟨⟨hs.wellFormed,fun u f hf => ?_⟩,⟨rfl,rfl⟩,rfl⟩
        rw [goto_frames] at hf
        split at hf
        · rw [← Option.some.inj hf]
          exact hx
        · exact hs.permitted u f hf
      · exact replays_same hs
    · exact replays_same hs
  | run t now =>
    simp only [step]
    cases hf : s.frames t with
    | none => exact replays_same hs
    | some f =>
      dsimp only
      split
      · exact advance_replays priority hs now hf
      · exact replays_same hs
  | tick t =>
    simp only [step]
    split
    · exact ⟨⟨wellFormed_lists hs.wellFormed _ _ _ _,hs.permitted⟩,⟨rfl,rfl⟩,rfl⟩
    · exact replays_same hs
  | sendFromISR item position =>
    exact interrupt_replays hs (hgeometry.1 item position) (haccept.1 hx)
  | giveFromISR =>
    simp only [step,giveFromISR_eq hx fun _ => 0]
    exact interrupt_replays hs (hgeometry.1 _ _) (haccept.1 trivial)
  | receiveFromISR => exact interrupt_replays hs hgeometry.2.1 haccept.2.1
  | peekFromISR => exact interrupt_replays hs hgeometry.2.2 haccept.2.2

theorem run_replays (priority : τ → ℕ) (hs : Sound s) {xs : List (Input τ)}
    (hx : ∀ x ∈ xs, x.Permitted s.queue) :
    Replays s (Execution.run (step priority) s xs) (Execution.trace (step priority) s xs) := by
  induction xs generalizing s with
  | nil => exact replays_same hs
  | cons x xs ih =>
    have hstep := step_replays priority hs (hx x (by simp))
    have hrest := ih hstep.sound fun y hy =>
      (Input.permitted_congr hstep.geometry).mpr (hx y (by simp [hy]))
    refine ⟨hrest.sound,?_,?_⟩
    · exact ⟨hrest.geometry.1.trans hstep.geometry.1,hrest.geometry.2.trans hstep.geometry.2⟩
    · rw [Execution.trace_cons,replay_append,hstep.events]
      have hevents := hrest.events
      rw [hstep.geometry.1] at hevents
      exact hevents

end Replay

def start (q : Queue τ) : System τ := ⟨q,fun _ => none,none⟩

theorem sound_start {q : Queue τ} (h : Created q) : Sound (start q) :=
  ⟨h.idle.wellFormed,fun _ _ hf => by cases hf⟩

/-- In every order in which tasks and interrupts use a queue, what they are told is what
they would be told by a list of at most `length` items, and the ring holds that list. -/
theorem queue_events_replay [DecidableEq τ] (priority : τ → ℕ) {s : System τ} (hs : Sound s) {xs : List (Input τ)}
    (hx : ∀ x ∈ xs, x.Permitted s.queue) :
    replay s.queue.length s.queue.contents (Execution.trace (step priority) s xs) =
        some (Execution.run (step priority) s xs).queue.contents ∧
      (Execution.run (step priority) s xs).queue.contents.length ≤ s.queue.length ∧
      Sound (Execution.run (step priority) s xs) := by
  have hrun := run_replays priority hs hx
  have hle := hrun.sound.wellFormed.messagesWaiting_le
  rw [hrun.geometry.1] at hle
  exact ⟨hrun.events,by rwa [contents_length],hrun.sound⟩

/-- An allocator that hands out the block at `0x20000100`. -/
def oneBlock (n : ℕ) : Option ℕ := if n ≤ 4096 then some 0x20000100 else none

theorem oneBlock_allocated : Allocated oneBlock 1 4 := by
  refine ⟨by decide,by decide,by decide,fun n p hp => ?_⟩
  simp only [oneBlock,Option.ite_none_right_eq_some,Option.some.injEq] at hp
  omega

def blankQueue : Queue Bool := ⟨0,0,0,0,[],[],0,0,0,0,0,fun _ => 0⟩

/-- A pointer is posted while a task is about to block on the mailbox. -/
def postWhileLocked : List (Input Bool) :=
  [.call true .receive 10,.run true 0,.run true 0,.run true 0,.run true 0,
    .sendFromISR (fun _ => 7) .sendToBack,.run true 0]

theorem queue_events_replay_posted : ∃ q, xQueueGenericCreate oneBlock 1 4 blankQueue = some q ∧
    replay 1 [] (Execution.trace (step fun _ => 0) (start q) postWhileLocked) =
        some (Execution.run (step fun _ => 0) (start q) postWhileLocked).queue.contents ∧
      (Execution.run (step fun _ => 0) (start q) postWhileLocked).queue.contents.length ≤ 1 ∧
      Sound (Execution.run (step fun _ => 0) (start q) postWhileLocked) := by
  refine ⟨_,rfl,queue_events_replay (fun _ => 0) (sound_start (.queue oneBlock_allocated rfl)) ?_⟩
  simp [postWhileLocked,Input.Permitted,Permitted]

end QueueTasks
end EmbeddedShell
