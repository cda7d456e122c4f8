import EmbeddedShell.Memory
import EmbeddedShell.TaskLists

/-!
# The scheduler

Every task has two list items: one for the list that says what state the task is in, one
for the event it waits for. Ready tasks are in one list for each priority, and a bit map
says which of these lists have entries. Tasks that wait for a time are in one of two
lists in the order of their wake times, which change places when the tick count wraps.
-/

namespace EmbeddedShell
namespace Scheduler

open TaskLists

def configMaxPriorities : ℕ := 7

/-- `taskEVENT_LIST_ITEM_VALUE_IN_USE`. -/
def valueInUse : ℕ := 2^31

/-- `xStateListItem` and `xEventListItem` of a task. -/
inductive Item (τ : Type*) where
  | state (t : τ)
  | event (t : τ)
  deriving DecidableEq

inductive ListId (ε : Type*) where
  | ready (priority : ℕ)
  | delayed (second : Bool)
  | pendingReady
  | waitingTermination
  | events (e : ε)
  deriving DecidableEq

structure Tcb where
  priority : ℕ
  basePriority : ℕ
  mutexesHeld : ℕ

/-- `pxCurrentTCB` is `NULL` as long as there are no tasks. -/
structure Kernel (τ ε : Type*) where
  lists : Lists (Item τ) (ListId ε)
  tcb : τ → Tcb
  current : τ
  delayedTaskList : Bool
  tickCount : ℕ
  nextTaskUnblockTime : ℕ
  topReadyPriority : ℕ
  suspended : ℕ
  pendedTicks : ℕ
  yieldPending : Bool
  numOfOverflows : ℕ
  numberOfTasks : ℕ
  running : Bool

variable {τ ε : Type*} [DecidableEq τ] [DecidableEq ε]

namespace Kernel

def priority (k : Kernel τ ε) (t : τ) : ℕ := (k.tcb t).priority

def isEmpty (k : Kernel τ ε) (l : ListId ε) : Bool := (k.lists.list l).items.isEmpty

def recordReadyPriority (k : Kernel τ ε) (p : ℕ) : Kernel τ ε :=
  { k with topReadyPriority := k.topReadyPriority ||| 2^p }

def portResetReadyPriority (k : Kernel τ ε) (p : ℕ) : Kernel τ ε :=
  { k with topReadyPriority := k.topReadyPriority &&& (2^32-1-2^p) }

def taskResetReadyPriority (k : Kernel τ ε) (p : ℕ) : Kernel τ ε :=
  if k.isEmpty (.ready p) then k.portResetReadyPriority p else k

def insertEnd (k : Kernel τ ε) (l : ListId ε) (x : Item τ) : Kernel τ ε :=
  { k with lists := k.lists.vListInsertEnd l x }

def insert (k : Kernel τ ε) (l : ListId ε) (x : Item τ) : Kernel τ ε :=
  { k with lists := k.lists.vListInsert l x }

def remove (k : Kernel τ ε) (x : Item τ) : Kernel τ ε × ℕ :=
  ({ k with lists := (k.lists.uxListRemove x).1 },(k.lists.uxListRemove x).2)

def setValue (k : Kernel τ ε) (x : Item τ) (v : ℕ) : Kernel τ ε :=
  { k with lists := k.lists.listSetListItemValue x v }

def setPriority (k : Kernel τ ε) (t : τ) (p : ℕ) : Kernel τ ε :=
  { k with tcb := Function.update k.tcb t { k.tcb t with priority := p } }

/-- `uxListRemove` of a ready task, and its bit if it was the last one. -/
def removeReady (k : Kernel τ ε) (t : τ) : Kernel τ ε :=
  let r := k.remove (.state t)
  if r.2 = 0 then r.1.portResetReadyPriority (r.1.priority t) else r.1

/-- `uxListRemove` of a task, and its bit if the list of its priority is empty now. -/
def removeState (k : Kernel τ ε) (t : τ) : Kernel τ ε :=
  let r := k.remove (.state t)
  if r.2 = 0 then r.1.taskResetReadyPriority (r.1.priority t) else r.1

def prvAddTaskToReadyList (k : Kernel τ ε) (t : τ) : Kernel τ ε :=
  (k.recordReadyPriority (k.priority t)).insertEnd (.ready (k.priority t)) (.state t)

def prvResetNextTaskUnblockTime (k : Kernel τ ε) : Kernel τ ε :=
  match k.lists.listGetHeadEntry (.delayed k.delayedTaskList) with
  | none => { k with nextTaskUnblockTime := portMaxDelay }
  | some x => { k with nextTaskUnblockTime := k.lists.value x }

def switchDelayedLists (k : Kernel τ ε) : Kernel τ ε :=
  prvResetNextTaskUnblockTime { k with
    delayedTaskList := !k.delayedTaskList
    numOfOverflows := wrap 32 ((k.numOfOverflows : ℤ)+1) }

def removeItems (k : Kernel τ ε) (t : τ) : Kernel τ ε :=
  let k := (k.remove (.state t)).1
  if k.lists.container (.event t) ≠ none then (k.remove (.event t)).1 else k

def owner : Item τ → τ
  | .state t => t
  | .event t => t

/-- The loop of `xTaskIncrementTick`, and whether a task of at least the priority of the
running one has been unblocked. -/
def unblockLoop : ℕ → Kernel τ ε → Bool → Kernel τ ε × Bool
  | 0, k, switch => (k,switch)
  | fuel+1, k, switch =>
    match k.lists.listGetHeadEntry (.delayed k.delayedTaskList) with
    | none => ({ k with nextTaskUnblockTime := portMaxDelay },switch)
    | some x =>
      if k.tickCount < k.lists.value x then ({ k with nextTaskUnblockTime := k.lists.value x },switch)
      else
        let k' := (k.removeItems (owner x)).prvAddTaskToReadyList (owner x)
        unblockLoop fuel k' (switch || decide (k.priority k.current ≤ k.priority (owner x)))

def countTick (k : Kernel τ ε) : Kernel τ ε :=
  let k := { k with tickCount := wrap 32 ((k.tickCount : ℤ)+1) }
  if k.tickCount = 0 then k.switchDelayedLists else k

def xTaskIncrementTick (k : Kernel τ ε) : Kernel τ ε × Bool :=
  if k.suspended = 0 then
    let k := k.countTick
    let r := if k.nextTaskUnblockTime ≤ k.tickCount then
        unblockLoop ((k.lists.list (.delayed k.delayedTaskList)).items.length+1) k false
      else (k,false)
    let others := decide (1 < (r.1.lists.list (.ready (r.1.priority r.1.current))).items.length)
    (r.1,r.2 || others || r.1.yieldPending)
  else
    ({ k with pendedTicks := wrap 32 ((k.pendedTicks : ℤ)+1) },k.yieldPending)

def vTaskSuspendAll (k : Kernel τ ε) : Kernel τ ε :=
  { k with suspended := wrap 32 ((k.suspended : ℤ)+1) }

/-- The first loop of `xTaskResumeAll`, and whether it has moved a task. -/
def readyLoop : ℕ → Kernel τ ε → Bool → Kernel τ ε × Bool
  | 0, k, moved => (k,moved)
  | fuel+1, k, moved =>
    match k.lists.listGetHeadEntry .pendingReady with
    | none => (k,moved)
    | some x =>
      let t := owner x
      let k := (((k.remove (.event t)).1.remove (.state t)).1).prvAddTaskToReadyList t
      readyLoop fuel (if k.priority k.current ≤ k.priority t then { k with yieldPending := true } else k) true

def tickLoop : ℕ → Kernel τ ε → Kernel τ ε
  | 0, k => k
  | n+1, k =>
    let r := k.xTaskIncrementTick
    tickLoop n (if r.2 then { r.1 with yieldPending := true } else r.1)

/-- The kernel, and whether a yield has been made. -/
def xTaskResumeAll (k : Kernel τ ε) : Kernel τ ε × Bool :=
  let k := { k with suspended := wrap 32 ((k.suspended : ℤ)-1) }
  if k.suspended = 0 ∧ 0 < k.numberOfTasks then
    let r := readyLoop (k.lists.list .pendingReady).items.length k false
    let k := if r.2 then r.1.prvResetNextTaskUnblockTime else r.1
    let k := if 0 < k.pendedTicks then { tickLoop k.pendedTicks k with pendedTicks := 0 } else k
    (k,k.yieldPending)
  else (k,false)

/-- `INCLUDE_vTaskSuspend` is 0: a wait without an end is a wait for a time, too. -/
def prvAddCurrentTaskToDelayedList (k : Kernel τ ε) (ticksToWait : ℕ) : Kernel τ ε :=
  let tickCount := k.tickCount
  let t := k.current
  let k := k.removeReady t
  let timeToWake := wrap 32 ((tickCount : ℤ)+ticksToWait)
  let k := k.setValue (.state t) timeToWake
  if timeToWake < tickCount then k.insert (.delayed (!k.delayedTaskList)) (.state t)
  else
    let k := k.insert (.delayed k.delayedTaskList) (.state t)
    if timeToWake < k.nextTaskUnblockTime then { k with nextTaskUnblockTime := timeToWake } else k

def vTaskPlaceOnEventList (k : Kernel τ ε) (e : ε) (ticksToWait : ℕ) : Kernel τ ε :=
  (k.insert (.events e) (.event k.current)).prvAddCurrentTaskToDelayedList ticksToWait

/-- The kernel, and whether the task that has been removed has a higher priority than the
running one. -/
def xTaskRemoveFromEventList (k : Kernel τ ε) (e : ε) : Kernel τ ε × Bool :=
  match k.lists.listGetHeadEntry (.events e) with
  | none => (k,false)
  | some x =>
    let t := owner x
    let k := (k.remove (.event t)).1
    let k := if k.suspended = 0 then (k.remove (.state t)).1.prvAddTaskToReadyList t
      else k.insertEnd .pendingReady (.event t)
    if k.priority k.current < k.priority t then ({ k with yieldPending := true },true) else (k,false)

def ucPortCountLeadingZeros (bitmap : ℕ) : ℕ := if bitmap = 0 then 32 else 31-Nat.log2 bitmap

def selectHighestPriorityTask (k : Kernel τ ε) : Kernel τ ε :=
  let top := 31-ucPortCountLeadingZeros k.topReadyPriority
  let r := k.lists.listGetNextEntry (.ready top)
  { k with lists := r.1,current := (r.2.map owner).getD k.current }

def vTaskSwitchContext (k : Kernel τ ε) : Kernel τ ε :=
  if k.suspended ≠ 0 then { k with yieldPending := true }
  else { k with yieldPending := false }.selectHighestPriorityTask

def prvInitialiseNewTask (k : Kernel τ ε) (t : τ) (p : ℕ) : Kernel τ ε :=
  let p := if configMaxPriorities ≤ p then configMaxPriorities-1 else p
  setValue { k with
    tcb := Function.update k.tcb t ⟨p,p,0⟩
    lists := (k.lists.vListInitialiseItem (.state t)).vListInitialiseItem (.event t) }
    (.event t) (configMaxPriorities-p)

def prvAddNewTaskToReadyList (k : Kernel τ ε) (t : τ) : Kernel τ ε × Bool :=
  let k := { k with
    numberOfTasks := wrap 32 ((k.numberOfTasks : ℤ)+1)
    current := if k.numberOfTasks = 0 then t
      else if k.running = false ∧ k.priority k.current ≤ k.priority t then t
      else k.current }
  let k := k.prvAddTaskToReadyList t
  (k,k.running && decide (k.priority k.current < k.priority t))

def xTaskCreate (k : Kernel τ ε) (t : τ) (p : ℕ) : Kernel τ ε × Bool :=
  (k.prvInitialiseNewTask t p).prvAddNewTaskToReadyList t

/-- The idle task and the timer task are created last. -/
def vTaskStartScheduler (k : Kernel τ ε) (idle timer : τ) : Kernel τ ε :=
  { ((k.xTaskCreate idle 0).1.xTaskCreate timer 3).1 with
    nextTaskUnblockTime := portMaxDelay
    running := true
    tickCount := 0 }

def vTaskDelete (k : Kernel τ ε) (t : τ) : Kernel τ ε × Bool :=
  let k := k.removeState t
  let k := if k.lists.container (.event t) ≠ none then (k.remove (.event t)).1 else k
  if t = k.current then (k.insertEnd .waitingTermination (.state t),true)
  else
    (prvResetNextTaskUnblockTime { k with numberOfTasks := wrap 32 ((k.numberOfTasks : ℤ)-1) },false)

/-- One pass of `prvCheckTasksWaitingTermination`. -/
def prvCheckTasksWaitingTermination (k : Kernel τ ε) : Kernel τ ε :=
  match k.lists.listGetHeadEntry .waitingTermination with
  | none => k
  | some x => { (k.remove x).1 with numberOfTasks := wrap 32 ((k.numberOfTasks : ℤ)-1) }

def pvTaskIncrementMutexHeldCount (k : Kernel τ ε) : Kernel τ ε :=
  let held := wrap 32 (((k.tcb k.current).mutexesHeld : ℤ)+1)
  { k with tcb := Function.update k.tcb k.current { k.tcb k.current with mutexesHeld := held } }

def resetEventItemValue (k : Kernel τ ε) (t : τ) (p : ℕ) : Kernel τ ε :=
  if k.lists.value (.event t) &&& valueInUse = 0 then k.setValue (.event t) (configMaxPriorities-p) else k

def xTaskPriorityInherit (k : Kernel τ ε) (holder : τ) : Kernel τ ε × Bool :=
  let p := k.priority k.current
  if k.priority holder < p then
    let k := k.resetEventItemValue holder p
    if k.lists.container (.state holder) = some (.ready (k.priority holder)) then
      (((k.removeState holder).setPriority holder p).prvAddTaskToReadyList holder,true)
    else (k.setPriority holder p,true)
  else (k,decide ((k.tcb holder).basePriority < p))

def xTaskPriorityDisinherit (k : Kernel τ ε) (t : τ) : Kernel τ ε × Bool :=
  let held := wrap 32 (((k.tcb t).mutexesHeld : ℤ)-1)
  let k := { k with tcb := Function.update k.tcb t { k.tcb t with mutexesHeld := held } }
  if k.priority t ≠ (k.tcb t).basePriority then
    if held = 0 then
      let k := (k.removeState t).setPriority t (k.tcb t).basePriority
      ((k.setValue (.event t) (configMaxPriorities-k.priority t)).prvAddTaskToReadyList t,true)
    else (k,false)
  else (k,false)

/-- `xQueueGenericSend` to a mutex. The yield that the lower priority requires is made only
if no task waits for the mutex. -/
def giveMutex (k : Kernel τ ε) (e : ε) : Kernel τ ε × Bool :=
  let r := k.xTaskPriorityDisinherit k.current
  if r.1.isEmpty (.events e) then r else r.1.xTaskRemoveFromEventList e

/-- The bit that is reset is that of the new priority. -/
def vTaskPriorityDisinheritAfterTimeout (k : Kernel τ ε) (holder : τ) (highestWaiting : ℕ) : Kernel τ ε :=
  let p := if (k.tcb holder).basePriority < highestWaiting then highestWaiting
    else (k.tcb holder).basePriority
  if k.priority holder ≠ p then
    if (k.tcb holder).mutexesHeld = 1 then
      let onEntry := k.priority holder
      let k := (k.setPriority holder p).resetEventItemValue holder p
      if k.lists.container (.state holder) = some (.ready onEntry) then
        (k.removeState holder).prvAddTaskToReadyList holder
      else k
    else k
  else k

end Kernel

end Scheduler
end EmbeddedShell
