import Mathlib.Data.Finset.Card
import Mathlib.Data.List.Nodup
import Mathlib.Data.List.Rotate
import EmbeddedShell.Execution
import EmbeddedShell.SchedulerSteps

/-!
# Runs of the scheduler

Tasks, interrupts and the tick come in any order. A context switch that has been asked
for is owed until the switch is made. In every state that is reached the bit map is exact,
the running task is the right one unless a switch is owed, and a task that waits for a
time is not due yet.
-/

namespace EmbeddedShell
namespace Scheduler

open TaskLists

/-- `ticks` counts the tick interrupts, and `due` says at which of them a wait ends. A
switch is missed that a call for a mutex makes necessary and does not ask for. -/
structure System (τ ε : Type*) where
  kernel : Kernel τ ε
  owed : Bool
  missed : Bool
  ticks : ℕ
  due : τ → ℕ
  idle : τ

inductive Input (τ ε : Type*) where
  | create (t : τ) (priority : ℕ)
  | start (idle timer : τ)
  | tick
  | yield
  | switchContext
  | suspendAll
  | resumeAll
  | delay (ticks : ℕ)
  | placeOnEventList (e : ε) (ticks : ℕ)
  | removeFromEventList (e : ε)
  | delete (t : τ)
  | checkTermination
  | takeMutex
  | inherit (holder : τ)
  | giveMutex (e : ε)
  | disinheritAfterTimeout (holder : τ) (highestWaiting : ℕ)

variable {τ ε : Type*}

/-- The tick that the tick count stands for; ticks of a suspended scheduler are pended. -/
def System.now (s : System τ ε) : ℕ := s.ticks-s.kernel.pendedTicks

variable [DecidableEq τ] [DecidableEq ε]

/-- The task that a call has put to sleep has a switch to make. -/
def step : Execution.Machine (System τ ε) (Input τ ε) τ := fun s x =>
  let k := s.kernel
  match x with
  | .create t p =>
    let r := k.xTaskCreate t p
    ({ s with kernel := r.1,owed := s.owed || r.2 },[])
  | .start idle timer => ({ s with kernel := k.vTaskStartScheduler idle timer,idle := idle },[])
  | .tick =>
    let r := k.xTaskIncrementTick
    ({ s with kernel := r.1,owed := s.owed || r.2,ticks := s.ticks+1 },[])
  | .yield => ({ s with owed := true },[])
  | .switchContext =>
    let k := k.vTaskSwitchContext
    ({ s with kernel := k,owed := false,missed := false },if k.suspended = 0 then [k.current] else [])
  | .suspendAll => ({ s with kernel := k.vTaskSuspendAll },[])
  | .resumeAll =>
    let r := k.xTaskResumeAll
    ({ s with kernel := r.1,owed := s.owed || r.2 },[])
  | .delay n => ({ s with
      kernel := k.prvAddCurrentTaskToDelayedList n
      owed := true
      due := Function.update s.due k.current (s.now+n) },[])
  | .placeOnEventList e n => ({ s with
      kernel := k.vTaskPlaceOnEventList e n
      owed := true
      due := Function.update s.due k.current (s.now+n) },[])
  | .removeFromEventList e =>
    let r := k.xTaskRemoveFromEventList e
    ({ s with kernel := r.1,owed := s.owed || r.2 },[])
  | .delete t =>
    let r := k.vTaskDelete t
    ({ s with kernel := r.1,owed := s.owed || r.2 },[])
  | .checkTermination => ({ s with kernel := k.prvCheckTasksWaitingTermination },[])
  | .takeMutex => ({ s with kernel := k.pvTaskIncrementMutexHeldCount },[])
  | .inherit holder => ({ s with kernel := (k.xTaskPriorityInherit holder).1 },[])
  | .giveMutex e =>
    let r := k.giveMutex e
    ({ s with
      kernel := r.1
      owed := s.owed || r.2
      missed := s.missed || ((k.xTaskPriorityDisinherit k.current).2 && !r.2) },[])
  | .disinheritAfterTimeout holder n =>
    let k := k.vTaskPriorityDisinheritAfterTimeout holder n
    ({ s with kernel := k,missed := s.missed || decide (k.priority k.current < k.priority holder) },[])

/-- The running task is in its ready list, as a task that calls the kernel is. -/
def Kernel.runs (k : Kernel τ ε) : Prop := k.states k.current = some (.ready (k.priority k.current))

instance (k : Kernel τ ε) : Decidable k.runs := inferInstanceAs (Decidable (_ = _))

/-- What the callers see to, counters that do not wrap, and a wait for a mutex in vain that
leaves no bit over an empty ready list. -/
def Proper (s : System τ ε) : Input τ ε → Prop
  | .create t _ => s.kernel.states t = none ∧ s.kernel.numberOfTasks < 2^32-1
  | .start idle timer => s.kernel.running = false ∧ s.kernel.states idle = none ∧ s.kernel.states timer = none ∧
      idle ≠ timer ∧ s.kernel.numberOfTasks < 2^32-2
  | .tick => s.kernel.running = true ∧ s.kernel.pendedTicks < 2^32-1
  | .suspendAll => s.kernel.running = true ∧ s.kernel.suspended < 2^32-1
  | .resumeAll => s.kernel.running = true ∧ 0 < s.kernel.suspended
  | .delay n => s.kernel.running = true ∧ 0 < n ∧ n < 2^32 ∧ s.kernel.runs ∧ s.kernel.current ≠ s.idle
  | .placeOnEventList _ n => s.kernel.running = true ∧ 0 < n ∧ n < 2^32 ∧ s.kernel.runs ∧ s.kernel.current ≠ s.idle
  | .delete t => s.kernel.running = true ∧ t ≠ s.idle ∧ s.kernel.states t ≠ none ∧
      s.kernel.states t ≠ some .waitingTermination
  | .giveMutex _ => s.kernel.running = true ∧ s.kernel.runs
  | .disinheritAfterTimeout holder n => s.kernel.running = true ∧ holder ≠ s.kernel.current ∧
      n < configMaxPriorities ∧ (keptPriority s.kernel holder n = s.kernel.priority holder ∨
        (s.kernel.tcb holder).mutexesHeld ≠ 1 ∨
        (s.kernel.lists.list (.ready (s.kernel.priority holder))).items ≠ [.state holder])
  | _ => s.kernel.running = true

instance decidableProper (s : System τ ε) : (x : Input τ ε) → Decidable (Proper s x)
  | .create .. | .start .. | .tick | .suspendAll | .resumeAll | .delay _ | .placeOnEventList .. | .delete _
  | .giveMutex _ | .disinheritAfterTimeout .. => inferInstanceAs (Decidable (_ ∧ _))
  | .yield | .switchContext | .removeFromEventList _ | .checkTermination | .takeMutex | .inherit _ =>
    inferInstanceAs (Decidable (_ = _))

/-- `main` before it creates the first task. -/
def initial (t : τ) : System τ ε where
  kernel := {
    lists := emptyLists fun _ => 0
    tcb := fun _ => ⟨0,0,0⟩
    current := t
    delayedTaskList := false
    tickCount := 0
    nextTaskUnblockTime := 0
    topReadyPriority := 0
    suspended := 0
    pendedTicks := 0
    yieldPending := false
    numOfOverflows := 0
    numberOfTasks := 0
    running := false }
  owed := false
  missed := false
  ticks := 0
  due := fun _ => 0
  idle := t

/-- The running task is ready, and no ready task has a higher priority. -/
structure Kernel.Quiet (k : Kernel τ ε) : Prop where
  highest : ∀ t p, k.states t = some (.ready p) → p ≤ k.priority k.current
  runs : 0 < k.numberOfTasks → k.runs

/-- `uxCurrentNumberOfTasks` is the number of tasks. -/
def Kernel.Tallied (k : Kernel τ ε) : Prop :=
  ∃ ts : Finset τ, (∀ t, t ∈ ts ↔ k.states t ≠ none) ∧ ts.card = k.numberOfTasks

structure Consistent (s : System τ ε) : Prop where
  placed : Placed s.kernel
  timed : Timed 1 s.kernel s.now s.due
  pended_le : s.kernel.pendedTicks ≤ s.ticks
  bounded : s.kernel.suspended < 2^32 ∧ s.kernel.numberOfTasks < 2^32
  resumed : s.kernel.suspended = 0 → s.kernel.pendedTicks = 0 ∧ ∀ t, s.kernel.events t ≠ some .pendingReady
  quiet : s.owed = false → s.missed = false → s.kernel.yieldPending = false → s.kernel.Quiet
  pending : s.kernel.yieldPending = true → s.owed = true ∨ s.kernel.suspended ≠ 0
  idle_ready : s.kernel.running = true → ∃ p, s.kernel.states s.idle = some (.ready p)
  tallied : s.kernel.Tallied
  before : s.kernel.running = false → s.ticks = 0 ∧ ∀ t b, s.kernel.states t ≠ some (.delayed b)

section Steps

variable {s : System τ ε} {k' : Kernel τ ε} {t : τ} {p : ℕ} {reason : τ → Prop} {v : Option (ListId ε)}

omit [DecidableEq τ] [DecidableEq ε] in
theorem Kernel.Tallied.congr {k : Kernel τ ε} (h : k.Tallied) (hs : ∀ t, k'.states t ≠ none ↔ k.states t ≠ none)
    (hn : k'.numberOfTasks = k.numberOfTasks) : k'.Tallied := by
  obtain ⟨ts,hts,hcard⟩ := h
  exact ⟨ts,fun t => (hts t).trans (hs t).symm,hcard.trans hn.symm⟩

omit [DecidableEq ε] in
theorem Kernel.Tallied.insert {k : Kernel τ ε} (h : k.Tallied) {l : ListId ε} (ht : k.states t = none)
    (hs : k'.states = Function.update k.states t (some l)) (hn : k'.numberOfTasks = k.numberOfTasks+1) :
    k'.Tallied := by
  obtain ⟨ts,hts,hcard⟩ := h
  refine ⟨Insert.insert t ts,fun u => ?_,?_⟩
  · rw [Finset.mem_insert,hts,hs]
    by_cases hut : u = t
    · simp [hut]
    · simp [hut]
  · rw [Finset.card_insert_of_notMem (fun hm => (hts t).mp hm ht),hcard,hn]

omit [DecidableEq ε] in
theorem Kernel.Tallied.erase {k : Kernel τ ε} (h : k.Tallied) (hlt : k.numberOfTasks < 2^32) (ht : k.states t ≠ none)
    (hs : k'.states = Function.update k.states t none)
    (hn : k'.numberOfTasks = wrap 32 ((k.numberOfTasks : ℤ)-1)) : k'.Tallied ∧ k'.numberOfTasks < 2^32 := by
  obtain ⟨ts,hts,hcard⟩ := h
  have hmem := (hts t).mpr ht
  have hpos : 0 < ts.card := Finset.card_pos.mpr ⟨t,hmem⟩
  have hminus : wrap 32 ((k.numberOfTasks : ℤ)-1) = k.numberOfTasks-1 := by
    rw [show ((k.numberOfTasks : ℤ)-1) = ((k.numberOfTasks-1 : ℕ) : ℤ) by omega,wrap_natCast]
    exact Nat.mod_eq_of_lt (by omega)
  refine ⟨⟨ts.erase t,fun u => ?_,?_⟩,by omega⟩
  · rw [Finset.mem_erase,hts,hs]
    by_cases hut : u = t
    · simp [hut]
    · simp [hut]
  · rw [Finset.card_erase_of_mem hmem,hcard,hn,hminus]

omit [DecidableEq τ] [DecidableEq ε] in
theorem Kernel.Tallied.pos {k : Kernel τ ε} (h : k.Tallied) (ht : k.states t ≠ none) : 0 < k.numberOfTasks := by
  obtain ⟨ts,hts,hcard⟩ := h
  rw [← hcard]
  exact Finset.card_pos.mpr ⟨t,(hts t).mpr ht⟩

omit [DecidableEq τ] [DecidableEq ε] in
theorem moved_of_lists {k : Kernel τ ε} (hl : k'.lists = k.lists) (ht : k'.tcb = k.tcb) (hc : k'.current = k.current)
    (hn : k'.numberOfTasks = k.numberOfTasks) (hr : k'.running = k.running) : Moved k k' fun _ => False :=
  ⟨ht,hc,hn,hr,fun u => Or.inl (by rw [Kernel.states,hl]; rfl)⟩

omit [DecidableEq τ] [DecidableEq ε] in
theorem Moved.idle {k : Kernel τ ε} (h : Moved k k' reason) (ht : ∃ p, k.states t = some (.ready p)) :
    ∃ p, k'.states t = some (.ready p) := by
  rcases h.tasks t with hs | ⟨-,-,hs⟩
  · rw [hs]
    exact ht
  · exact ⟨_,hs⟩

omit [DecidableEq τ] [DecidableEq ε] in
theorem Moved.tallied {k : Kernel τ ε} (h : Moved k k' reason) (ht : k.Tallied) : k'.Tallied := by
  refine ht.congr (fun t => ?_) h.numberOfTasks
  rcases h.tasks t with hs | ⟨⟨b,hd⟩,-,hs⟩
  · rw [hs]
  · rw [hs,hd]
    simp

omit [DecidableEq τ] [DecidableEq ε] in
theorem Moved.priority {k : Kernel τ ε} (h : Moved k k' reason) : k'.priority = k.priority :=
  funext fun u => by rw [Kernel.priority,h.tcb]; rfl

omit [DecidableEq τ] [DecidableEq ε] in
/-- What has become ready has no higher priority than the running task. -/
theorem Moved.quiet {k : Kernel τ ε} (h : Moved k k' reason) (hq : k.Quiet)
    (hlow : ∀ t p, k'.states t = some (.ready p) → k.states t = some (.ready p) ∨ p ≤ k.priority k.current) :
    k'.Quiet := by
  refine ⟨fun t p ht => ?_,fun hn => ?_⟩
  · rw [h.priority,h.current]
    exact (hlow t p ht).elim (hq.highest t p) id
  · have hruns := hq.runs (h.numberOfTasks ▸ hn)
    rw [Kernel.runs] at hruns
    rw [Kernel.runs,h.current,h.priority]
    rcases h.tasks k.current with hs | ⟨⟨b,hd⟩,-,-⟩
    · rw [hs]
      exact hruns
    · cases hruns.symm.trans hd

omit [DecidableEq τ] [DecidableEq ε] in
theorem Roused.pending {k : Kernel τ ε} {quiet : Prop} (h : Roused k k' reason quiet) (ht : k'.events t = some .pendingReady) :
    k.events t = some .pendingReady := by
  rcases h.tasks t with ⟨-,he⟩ | ⟨-,-,-,he,-⟩
  · rwa [he] at ht
  · rw [he] at ht
    cases ht

omit [DecidableEq τ] [DecidableEq ε] in
theorem Roused.low {k : Kernel τ ε} {quiet : Prop} (h : Roused k k' reason quiet) (hq : quiet)
    (ht : k'.states t = some (.ready p)) : k.states t = some (.ready p) ∨ p ≤ k.priority k.current := by
  rcases h.tasks t with ⟨hs,-⟩ | ⟨-,-,hs,-,hlow⟩
  · exact Or.inl (hs ▸ ht)
  · rw [hs] at ht
    cases ht
    exact Or.inr (hlow hq).le

omit [DecidableEq ε] in
/-- A new task is the running one if nothing runs yet and none before has a higher priority. -/
theorem Created.quiet {k : Kernel τ ε} (hc : Created k k' t p) (ht : k.states t = none) (hq : k.Quiet)
    (htally : k.Tallied) (hresult : (k.running && decide (k'.priority k'.current < p)) = false) : k'.Quiet := by
  have hpt : k'.priority t = p := by rw [hc.priority,Function.update_self]
  have hst : k'.states t = some (.ready p) := by rw [hc.states,Function.update_self]
  have hcurrent : k'.current = t ∧ (∀ u q, u ≠ t → k.states u = some (.ready q) → q ≤ p) ∨
      k'.current = k.current ∧ k.runs ∧ k.current ≠ t ∧ p ≤ k.priority k.current := by
    by_cases hzero : k.numberOfTasks = 0
    · refine Or.inl ⟨by rw [hc.current,if_pos hzero],fun u q _ hu => ?_⟩
      have := htally.pos (t := u) (by rw [hu]; simp)
      omega
    · have hruns := hq.runs (Nat.pos_of_ne_zero hzero)
      have hne : k.current ≠ t := by
        rintro he
        rw [Kernel.runs,he,ht] at hruns
        cases hruns
      have hpc : k'.priority k.current = k.priority k.current := by rw [hc.priority,Function.update_of_ne hne]
      have hnew := hc.current
      rw [if_neg hzero,hpc] at hnew
      by_cases htake : k.running = false ∧ k.priority k.current ≤ p
      · rw [if_pos htake] at hnew
        exact Or.inl ⟨hnew,fun u q _ hu => (hq.highest u q hu).trans htake.2⟩
      · rw [if_neg htake] at hnew
        refine Or.inr ⟨hnew,hruns,hne,?_⟩
        rw [hnew,hpc] at hresult
        cases hrun : k.running with
        | true =>
          rw [hrun,Bool.true_and,decide_eq_false_iff_not] at hresult
          exact not_lt.mp hresult
        | false => exact (not_le.mp fun hle => htake ⟨hrun,hle⟩).le
  rcases hcurrent with ⟨hnew,hlow⟩ | ⟨hnew,hruns,hne,hle⟩
  · refine ⟨fun u q hu => ?_,fun _ => ?_⟩
    · rw [hnew,hpt]
      rw [hc.states] at hu
      by_cases hut : u = t
      · rw [hut,Function.update_self] at hu
        cases hu
        exact le_rfl
      · rw [Function.update_of_ne hut] at hu
        exact hlow u q hut hu
    · rw [Kernel.runs,hnew,hpt]
      exact hst
  · have hpc : k'.priority k.current = k.priority k.current := by rw [hc.priority,Function.update_of_ne hne]
    refine ⟨fun u q hu => ?_,fun _ => ?_⟩
    · rw [hnew,hpc]
      rw [hc.states] at hu
      by_cases hut : u = t
      · rw [hut,Function.update_self] at hu
        cases hu
        exact hle
      · rw [Function.update_of_ne hut] at hu
        exact hq.highest u q hu
    · rw [Kernel.runs] at hruns ⊢
      rw [hnew,hpc,hc.states,Function.update_of_ne hne]
      exact hruns

theorem consistent_create (c : Consistent s) (hx : Proper s (.create t p)) :
    Consistent (step s (.create t p)).1 := by
  obtain ⟨ht,hn⟩ := hx
  obtain ⟨hp,htimed,hc,hr⟩ := create_spec c.placed c.timed ht hn p
  have htally := c.tallied.insert ht hc.states hc.numberOfTasks
  refine ⟨hp,?_,?_,⟨?_,?_⟩,?_,?_,fun hyield => ?_,?_,htally,?_⟩
  · show Timed 1 _ (s.ticks-(s.kernel.xTaskCreate t p).1.pendedTicks) s.due
    rw [hc.pendedTicks]
    exact htimed
  · exact hc.pendedTicks.le.trans c.pended_le
  · exact hc.suspended.trans_lt c.bounded.1
  · show (s.kernel.xTaskCreate t p).1.numberOfTasks < 2^32
    rw [hc.numberOfTasks]
    omega
  · intro hs
    show (s.kernel.xTaskCreate t p).1.pendedTicks = 0 ∧ ∀ u, (s.kernel.xTaskCreate t p).1.events u ≠ _
    rw [hc.pendedTicks,hc.events]
    exact c.resumed (hc.suspended ▸ hs)
  · intro howed hmissed hyield
    obtain ⟨howed,hresult⟩ := Bool.or_eq_false_iff.mp howed
    exact hc.quiet ht (c.quiet howed hmissed (hc.yieldPending ▸ hyield)) c.tallied (hr ▸ hresult)
  · refine (c.pending (hc.yieldPending ▸ hyield)).imp (fun howed => ?_) fun hne => ?_
    · exact Bool.or_eq_true_iff.mpr (Or.inl howed)
    · exact hc.suspended ▸ hne
  · intro hrun
    obtain ⟨q,hq⟩ := c.idle_ready (hc.running ▸ hrun)
    refine ⟨q,?_⟩
    show (s.kernel.xTaskCreate t p).1.states s.idle = _
    rw [hc.states,Function.update_of_ne (fun he => by rw [he,ht] at hq; cases hq)]
    exact hq
  · intro hrun
    obtain ⟨hticks,hnone⟩ := c.before (hc.running ▸ hrun)
    refine ⟨hticks,fun u b hu => ?_⟩
    change (s.kernel.xTaskCreate t p).1.states u = _ at hu
    rw [hc.states] at hu
    by_cases hut : u = t
    · rw [hut,Function.update_self] at hu
      cases hu
    · rw [Function.update_of_ne hut] at hu
      exact hnone u b hu

theorem consistent_start {idle timer : τ} (c : Consistent s) (hx : Proper s (.start idle timer)) :
    Consistent (step s (.start idle timer)).1 := by
  obtain ⟨hrun,hidle,htimer,hne,hn⟩ := hx
  have hx₁ : Proper s (.create idle 0) := ⟨hidle,by omega⟩
  have c₁ := consistent_create c hx₁
  obtain ⟨-,-,hc₁,-⟩ := create_spec c.placed c.timed hidle hx₁.2 0
  set s₁ := (step s (.create idle 0)).1 with hs₁
  have hx₂ : Proper s₁ (.create timer 3) := by
    refine ⟨?_,?_⟩
    · show (s.kernel.xTaskCreate idle 0).1.states timer = none
      rw [hc₁.states,Function.update_of_ne (Ne.symm hne)]
      exact htimer
    · show (s.kernel.xTaskCreate idle 0).1.numberOfTasks < _
      rw [hc₁.numberOfTasks]
      omega
  have c₂ := consistent_create c₁ hx₂
  obtain ⟨-,-,hc₂,hr₂⟩ := create_spec c₁.placed c₁.timed hx₂.1 hx₂.2 3
  set s₂ := (step s₁ (.create timer 3)).1 with hs₂
  have hrun₁ : s₁.kernel.running = false := hc₁.running.trans hrun
  have hrun₂ : s₂.kernel.running = false := hc₂.running.trans hrun₁
  have howed₁ : s₁.owed = s.owed := by
    show (s.owed || (s.kernel.xTaskCreate idle 0).2) = s.owed
    obtain ⟨-,-,-,hr⟩ := create_spec c.placed c.timed hidle hx₁.2 0
    rw [hr,hrun,Bool.false_and,Bool.or_false]
  have howed₂ : s₂.owed = s.owed := by
    show (s₁.owed || (s₁.kernel.xTaskCreate timer 3).2) = s.owed
    rw [hr₂,hrun₁,Bool.false_and,Bool.or_false,howed₁]
  obtain ⟨hticks,hnone⟩ := c₂.before hrun₂
  have hstep : (step s (.start idle timer)).1 = { s₂ with
      kernel := { s₂.kernel with nextTaskUnblockTime := portMaxDelay,running := true,tickCount := 0 }
      owed := s.owed
      idle := idle } := rfl
  have hpended := c₂.pended_le
  rw [hstep]
  refine ⟨c₂.placed.congr rfl rfl rfl,⟨?_,c₂.timed.sorted,fun u hu => absurd hu (hnone u _),
    fun u hu => absurd hu (hnone u _),fun u hu => absurd hu (hnone u _)⟩,hpended,c₂.bounded,c₂.resumed,?_,
    fun hyield => ?_,?_,c₂.tallied,nofun⟩
  · simp only [System.now,hticks,Nat.zero_sub,Nat.zero_mod]
  · intro howed hmissed hyield
    obtain ⟨hhigh,hruns⟩ := c₂.quiet (howed₂.trans howed) hmissed hyield
    exact ⟨hhigh,hruns⟩
  · exact (c₂.pending hyield).imp (fun howed => howed₂.symm.trans howed) id
  · intro _
    refine ⟨newPriority 0,?_⟩
    show (s₁.kernel.xTaskCreate timer 3).1.states idle = _
    rw [hc₂.states,Function.update_of_ne hne]
    show (s.kernel.xTaskCreate idle 0).1.states idle = _
    rw [hc₁.states,Function.update_self]

omit [DecidableEq τ] [DecidableEq ε] in
theorem Consistent.moved {s' : System τ ε} (c : Consistent s) (hrun : s.kernel.running = true)
    (hm : Moved s.kernel s'.kernel reason) (hidle : s'.idle = s.idle) (hp : Placed s'.kernel)
    (ht : Timed 1 s'.kernel s'.now s'.due) (hpended : s'.kernel.pendedTicks ≤ s'.ticks)
    (hbounded : s'.kernel.suspended < 2^32)
    (hresumed : s'.kernel.suspended = 0 → s'.kernel.pendedTicks = 0 ∧ ∀ t, s'.kernel.events t ≠ some .pendingReady)
    (hquiet : s'.owed = false → s'.missed = false → s'.kernel.yieldPending = false → s'.kernel.Quiet)
    (hpending : s'.kernel.yieldPending = true → s'.owed = true ∨ s'.kernel.suspended ≠ 0) : Consistent s' := by
  refine ⟨hp,ht,hpended,⟨hbounded,?_⟩,hresumed,hquiet,hpending,fun _ => ?_,hm.tallied c.tallied,fun hno => ?_⟩
  · rw [hm.numberOfTasks]
    exact c.bounded.2
  · rw [hidle]
    exact hm.idle (c.idle_ready hrun)
  · rw [hm.running,hrun] at hno
    cases hno

theorem consistent_tick (c : Consistent s) (hx : Proper s .tick) : Consistent (step s (.tick : Input τ ε)).1 := by
  obtain ⟨hrun,hlt⟩ := hx
  have hle := c.pended_le
  by_cases hs : s.kernel.suspended = 0
  · obtain ⟨hp,ht,hpended,hyield,hquiet,hroused⟩ := tick_spec c.placed c.timed hs
    have hzero := (c.resumed hs).1
    refine c.moved hrun hroused.moved rfl hp ?_ ?_ ?_ ?_ ?_ fun hy => ?_
    · have hnow : s.ticks+1-s.kernel.xTaskIncrementTick.1.pendedTicks = s.now+1 := by
        rw [hpended,System.now]
        omega
      show Timed 1 _ (s.ticks+1-s.kernel.xTaskIncrementTick.1.pendedTicks) s.due
      rw [hnow]
      exact ht
    · show s.kernel.xTaskIncrementTick.1.pendedTicks ≤ s.ticks+1
      omega
    · exact hroused.suspended.trans_lt c.bounded.1
    · exact fun _ => ⟨hpended.trans hzero,fun t hpend => (c.resumed hs).2 t (hroused.pending hpend)⟩
    · intro howed hmissed _
      obtain ⟨howed,hresult⟩ := Bool.or_eq_false_iff.mp howed
      exact hroused.moved.quiet (c.quiet howed hmissed (hquiet hresult)) fun t p htp => hroused.low hresult htp
    · refine Or.inl (Bool.or_eq_true_iff.mpr (Or.inl ?_))
      exact (c.pending (hyield ▸ hy)).resolve_right (not_not.mpr hs)
  · have hwrap : wrap 32 ((s.kernel.pendedTicks : ℤ)+1) = s.kernel.pendedTicks+1 := by
      rw [wrap_tick (by omega),if_neg (by omega)]
    have hcode : s.kernel.xTaskIncrementTick =
        ({ s.kernel with pendedTicks := s.kernel.pendedTicks+1 },s.kernel.yieldPending) := by
      rw [Kernel.xTaskIncrementTick,if_neg hs,hwrap]
    have hstep : (step s (.tick : Input τ ε)).1 = { s with
        kernel := { s.kernel with pendedTicks := s.kernel.pendedTicks+1 }
        owed := s.owed || s.kernel.yieldPending
        ticks := s.ticks+1 } := by
      simp only [step,hcode]
    rw [hstep]
    refine c.moved hrun (moved_of_lists rfl rfl rfl rfl rfl) rfl
      (c.placed.congr rfl rfl rfl) ?_ ?_ c.bounded.1 (fun h0 => absurd h0 hs) ?_ fun _ => Or.inr hs
    · have hnow : s.ticks+1-(s.kernel.pendedTicks+1) = s.now := by
        rw [System.now]
        omega
      have ht := c.timed
      simp only [System.now,hnow]
      exact ⟨ht.1,ht.2,ht.3,ht.4,ht.5⟩
    · dsimp only
      omega
    · intro howed hmissed hyield
      obtain ⟨howed,-⟩ := Bool.or_eq_false_iff.mp howed
      obtain ⟨hhigh,hruns⟩ := c.quiet howed hmissed hyield
      exact ⟨hhigh,hruns⟩

theorem consistent_switch (c : Consistent s) (hx : Proper s .switchContext) :
    Consistent (step s (.switchContext : Input τ ε)).1 := by
  by_cases hs : s.kernel.suspended = 0
  · obtain ⟨p,hidle⟩ := c.idle_ready hx
    obtain ⟨hp,ht,hstates,hevents,htcb,hsus,hpended,hn,hrun,hyield,hready,hhigh⟩ := switch_spec c.placed c.timed hs hidle
    have hpriority : s.kernel.vTaskSwitchContext.priority = s.kernel.priority :=
      funext fun u => by rw [Kernel.priority,htcb]; rfl
    refine ⟨hp,?_,?_,⟨?_,?_⟩,?_,fun _ _ _ => ⟨fun t q htq => ?_,fun _ => ?_⟩,fun hy => ?_,fun _ => ?_,?_,
      fun hno => ?_⟩
    · show Timed 1 _ (s.ticks-s.kernel.vTaskSwitchContext.pendedTicks) s.due
      rw [hpended]
      exact ht
    · exact hpended.trans_le c.pended_le
    · exact hsus.trans_lt c.bounded.1
    · exact hn.trans_lt c.bounded.2
    · intro _
      show s.kernel.vTaskSwitchContext.pendedTicks = 0 ∧ ∀ t, s.kernel.vTaskSwitchContext.events t ≠ _
      rw [hpended,hevents]
      exact c.resumed hs
    · change s.kernel.vTaskSwitchContext.states t = _ at htq
      rw [hstates] at htq
      show q ≤ s.kernel.vTaskSwitchContext.priority _
      rw [hpriority]
      exact hhigh t q htq
    · show s.kernel.vTaskSwitchContext.states _ = some (.ready (s.kernel.vTaskSwitchContext.priority _))
      rw [hstates,hpriority]
      exact hready
    · cases hyield.symm.trans hy
    · show ∃ p, s.kernel.vTaskSwitchContext.states s.idle = _
      rw [hstates]
      exact ⟨p,hidle⟩
    · exact c.tallied.congr (fun t => by
        show s.kernel.vTaskSwitchContext.states t ≠ none ↔ _
        rw [hstates]) hn
    · cases hno.symm.trans (hrun.trans hx)
  · have hcode : s.kernel.vTaskSwitchContext = { s.kernel with yieldPending := true } := by
      rw [Kernel.vTaskSwitchContext,if_pos hs]
    have hstep : (step s (.switchContext : Input τ ε)).1 = { s with
        kernel := { s.kernel with yieldPending := true }
        owed := false
        missed := false } := by
      simp only [step,hcode]
    rw [hstep]
    have ht := c.timed
    exact c.moved hx (moved_of_lists rfl rfl rfl rfl rfl) rfl (c.placed.congr rfl rfl rfl)
      ⟨ht.1,ht.2,ht.3,ht.4,ht.5⟩ c.pended_le c.bounded.1 (fun h0 => absurd h0 hs)
      (fun _ _ hno => Bool.noConfusion hno) fun _ => Or.inr hs

theorem consistent_suspendAll (c : Consistent s) (hx : Proper s .suspendAll) :
    Consistent (step s (.suspendAll : Input τ ε)).1 := by
  obtain ⟨hrun,hlt⟩ := hx
  have hwrap : wrap 32 ((s.kernel.suspended : ℤ)+1) = s.kernel.suspended+1 := by
    rw [wrap_tick (by omega),if_neg (by omega)]
  have hstep : (step s (.suspendAll : Input τ ε)).1 = { s with
      kernel := { s.kernel with suspended := s.kernel.suspended+1 } } := by
    simp only [step,Kernel.vTaskSuspendAll,hwrap]
  rw [hstep]
  have ht := c.timed
  refine c.moved hrun (moved_of_lists rfl rfl rfl rfl rfl) rfl (c.placed.congr rfl rfl rfl)
    ⟨ht.1,ht.2,ht.3,ht.4,ht.5⟩ c.pended_le ?_ (fun h0 => ?_) (fun howed hmissed hyield => ?_)
    fun _ => Or.inr (Nat.succ_ne_zero _)
  · dsimp only
    omega
  · cases h0
  · obtain ⟨hhigh,hruns⟩ := c.quiet howed hmissed hyield
    exact ⟨hhigh,hruns⟩

theorem consistent_resumeAll (c : Consistent s) (hx : Proper s .resumeAll) :
    Consistent (step s (.resumeAll : Input τ ε)).1 := by
  obtain ⟨hrun,hpos⟩ := hx
  have hbounded := c.bounded.1
  by_cases hs : s.kernel.suspended = 1
  · obtain ⟨p,hidle⟩ := c.idle_ready hrun
    have hn := c.tallied.pos (t := s.idle) (by rw [hidle]; simp)
    obtain ⟨hp,ht,hpended,hresult,hyield,hnone,hroused⟩ := resume_spec c.placed c.timed hs hn
    have hm : Moved s.kernel s.kernel.xTaskResumeAll.1
        (fun t => s.kernel.events t = some .pendingReady ∨ s.due t ≤ s.now+s.kernel.pendedTicks) := by
      obtain ⟨h₁,h₂,h₃,h₄,h₅⟩ := hroused.moved
      exact ⟨h₁,h₂,h₃,h₄,h₅⟩
    refine c.moved hrun hm rfl hp ?_ ?_ ?_ ?_ ?_ fun hy => ?_
    · have hnow : s.ticks-s.kernel.xTaskResumeAll.1.pendedTicks = s.now+s.kernel.pendedTicks := by
        have := c.pended_le
        rw [hpended,System.now]
        omega
      show Timed 1 _ (s.ticks-s.kernel.xTaskResumeAll.1.pendedTicks) s.due
      rw [hnow]
      exact ht
    · exact hpended.trans_le (Nat.zero_le _)
    · exact hroused.suspended.trans_lt (by norm_num)
    · exact fun _ => ⟨hpended,hnone⟩
    · intro howed hmissed hnot
      obtain ⟨howed,-⟩ := Bool.or_eq_false_iff.mp howed
      have hbefore : s.kernel.yieldPending = false := by
        cases hy : s.kernel.yieldPending with
        | false => rfl
        | true => cases (hyield hy).symm.trans hnot
      exact hm.quiet (c.quiet howed hmissed hbefore) fun t q htq => hroused.low hnot htq
    · exact Or.inl (Bool.or_eq_true_iff.mpr (Or.inr (hresult.trans hy)))
  · have hwrap : wrap 32 ((s.kernel.suspended : ℤ)-1) = s.kernel.suspended-1 := by
      rw [show ((s.kernel.suspended : ℤ)-1) = ((s.kernel.suspended-1 : ℕ) : ℤ) by omega,wrap_natCast]
      exact Nat.mod_eq_of_lt (by omega)
    have hcode : s.kernel.xTaskResumeAll = ({ s.kernel with suspended := s.kernel.suspended-1 },false) := by
      simp only [Kernel.xTaskResumeAll,hwrap]
      rw [if_neg (fun hc => by omega)]
    have hstep : (step s (.resumeAll : Input τ ε)).1 = { s with
        kernel := { s.kernel with suspended := s.kernel.suspended-1 }
        owed := s.owed || false } := by
      simp only [step,hcode]
    rw [hstep,Bool.or_false]
    have ht := c.timed
    refine c.moved hrun (moved_of_lists rfl rfl rfl rfl rfl) rfl
      (c.placed.congr rfl rfl rfl) ⟨ht.1,ht.2,ht.3,ht.4,ht.5⟩ c.pended_le ?_ (fun h0 => ?_)
      (fun howed hmissed hyield => ?_) fun _ => Or.inr (Nat.sub_ne_zero_of_lt (by omega))
    · dsimp only
      omega
    · dsimp only at h0
      omega
    · obtain ⟨hhigh,hruns⟩ := c.quiet howed hmissed hyield
      exact ⟨hhigh,hruns⟩

omit [DecidableEq ε] in
theorem Consistent.asleep (c : Consistent s) (hrun : s.kernel.running = true)
    (hruns : s.kernel.runs) (hidle : s.kernel.current ≠ s.idle) {due : τ → ℕ} (hp : Placed k') (ht : Timed 1 k' s.now due)
    (hf : Frame s.kernel k') (hs : ∃ b, k'.states = Function.update s.kernel.states s.kernel.current (some (.delayed b)))
    (he : ∀ t, k'.events t = some .pendingReady → s.kernel.events t = some .pendingReady) :
    Consistent { s with kernel := k',owed := true,due := due } := by
  obtain ⟨b,hs⟩ := hs
  rw [Kernel.runs] at hruns
  refine ⟨hp,?_,hf.pendedTicks.trans_le c.pended_le,⟨?_,?_⟩,fun h0 => ⟨?_,fun t hpend => ?_⟩,nofun,
    fun _ => Or.inl rfl,fun _ => ?_,?_,fun hno => ?_⟩
  · simp only [System.now,hf.pendedTicks]
    exact ht
  · exact hf.suspended.trans_lt c.bounded.1
  · exact hf.numberOfTasks.trans_lt c.bounded.2
  · exact hf.pendedTicks.trans (c.resumed (hf.suspended ▸ h0)).1
  · exact (c.resumed (hf.suspended ▸ h0)).2 t (he t hpend)
  · obtain ⟨p,hready⟩ := c.idle_ready hrun
    refine ⟨p,?_⟩
    dsimp only
    rw [hs,Function.update_of_ne hidle.symm]
    exact hready
  · refine c.tallied.congr (fun t => ?_) hf.numberOfTasks
    dsimp only
    rw [hs]
    by_cases htc : t = s.kernel.current
    · rw [htc,Function.update_self,hruns]
      simp
    · rw [Function.update_of_ne htc]
  · cases hno.symm.trans (hf.running.trans hrun)

theorem consistent_delay {n : ℕ} (c : Consistent s) (hx : Proper s (.delay n)) :
    Consistent (step s (.delay n : Input τ ε)).1 := by
  obtain ⟨hrun,hn,hn',hruns,hidle⟩ := hx
  obtain ⟨hp,ht,hf,-,hs,he⟩ := delay_spec c.placed.toListed (fun u _ => c.placed.waiting u) c.timed hruns hn hn'
  exact c.asleep hrun hruns hidle hp ht hf hs fun t hpend => by rwa [he] at hpend

theorem consistent_place {e : ε} {n : ℕ} (c : Consistent s) (hx : Proper s (.placeOnEventList e n)) :
    Consistent (step s (.placeOnEventList e n)).1 := by
  obtain ⟨hrun,hn,hn',hruns,hidle⟩ := hx
  obtain ⟨hp,ht,hf,-,hs,he⟩ := place_spec c.placed c.timed hruns e hn hn'
  refine c.asleep hrun hruns hidle hp ht hf hs fun t hpend => ?_
  rw [he] at hpend
  by_cases htc : t = s.kernel.current
  · rw [htc,Function.update_self] at hpend
    cases hpend
  · rwa [Function.update_of_ne htc] at hpend

theorem consistent_removeFromEventList {e : ε} (c : Consistent s) (hx : Proper s (.removeFromEventList e)) :
    Consistent (step s (.removeFromEventList e)).1 := by
  obtain ⟨hp,ht,hpended,hsus,hyield,hm,hlow,hpending⟩ := removeFromEventList_spec c.placed c.timed e
  refine c.moved hx hm rfl hp ?_ (hpended.trans_le c.pended_le) (hsus.trans_lt c.bounded.1) (fun h0 => ?_) ?_
    fun hy => ?_
  · show Timed 1 _ (s.ticks-(s.kernel.xTaskRemoveFromEventList e).1.pendedTicks) s.due
    rw [hpended]
    exact ht
  · have h0' : s.kernel.suspended = 0 := hsus.symm.trans h0
    exact ⟨hpended.trans (c.resumed h0').1,fun t hpend => (c.resumed h0').2 t (hpending h0' t hpend)⟩
  · intro howed hmissed hno
    obtain ⟨howed,hresult⟩ := Bool.or_eq_false_iff.mp howed
    change (s.kernel.xTaskRemoveFromEventList e).1.yieldPending = false at hno
    rw [hyield,hresult,Bool.or_false] at hno
    exact hm.quiet (c.quiet howed hmissed hno) (hlow hresult)
  · change (s.kernel.xTaskRemoveFromEventList e).1.yieldPending = true at hy
    rw [hyield,Bool.or_eq_true_iff] at hy
    rcases hy with hy | hy
    · refine (c.pending hy).imp (fun howed => Bool.or_eq_true_iff.mpr (Or.inl howed)) fun hne => ?_
      exact hsus ▸ hne
    · exact Or.inl (Bool.or_eq_true_iff.mpr (Or.inr hy))

omit [DecidableEq ε] in
theorem Consistent.retired {owed : Bool} (c : Consistent s) (hrun : s.kernel.running = true)
    (hr : Retired s.kernel k' t v) (hidle : t ≠ s.idle) (hp : Placed k') (ht : Timed 1 k' s.now s.due)
    (hv : ∀ p, v ≠ some (.ready p)) (htally : k'.Tallied ∧ k'.numberOfTasks < 2^32) (howed : s.owed = true → owed = true)
    (hcurrent : owed = false → t ≠ s.kernel.current ∨ ¬s.kernel.runs) :
    Consistent { s with kernel := k',owed := owed } := by
  have hpriority : k'.priority = s.kernel.priority := funext fun u => by rw [Kernel.priority,hr.tcb]; rfl
  have hnone : s.kernel.states s.idle ≠ none := by
    obtain ⟨p,hready⟩ := c.idle_ready hrun
    rw [hready]
    simp
  refine ⟨hp,?_,hr.pendedTicks.trans_le c.pended_le,⟨hr.suspended.trans_lt c.bounded.1,htally.2⟩,fun h0 => ⟨?_,
    fun u hpend => ?_⟩,fun h₁ hmissed h₂ => ?_,fun hy => ?_,fun _ => ?_,htally.1,fun hno => ?_⟩
  · simp only [System.now,hr.pendedTicks]
    exact ht
  · exact hr.pendedTicks.trans (c.resumed (hr.suspended ▸ h0)).1
  · dsimp only at hpend
    rw [hr.events] at hpend
    by_cases hut : u = t
    · rw [hut,Function.update_self] at hpend
      cases hpend
    · rw [Function.update_of_ne hut] at hpend
      exact (c.resumed (hr.suspended ▸ h0)).2 u hpend
  · obtain ⟨hhigh,hruns⟩ := c.quiet (Bool.eq_false_of_not_eq_true fun ho => by rw [howed ho] at h₁; cases h₁)
      hmissed (hr.yieldPending ▸ h₂)
    have hnow := hruns (c.tallied.pos hnone)
    have hother : t ≠ s.kernel.current := (hcurrent h₁).elim id fun hno => absurd hnow hno
    refine ⟨fun u q hu => ?_,fun _ => ?_⟩
    · dsimp only at hu ⊢
      rw [hpriority,hr.current]
      rw [hr.states] at hu
      by_cases hut : u = t
      · rw [hut,Function.update_self] at hu
        exact absurd hu (hv q)
      · rw [Function.update_of_ne hut] at hu
        exact hhigh u q hu
    · rw [Kernel.runs] at hnow ⊢
      dsimp only
      rw [hr.current,hpriority,hr.states,Function.update_of_ne hother.symm]
      exact hnow
  · exact (c.pending (hr.yieldPending ▸ hy)).imp howed fun hne => hr.suspended ▸ hne
  · obtain ⟨p,hready⟩ := c.idle_ready hrun
    refine ⟨p,?_⟩
    dsimp only
    rw [hr.states,Function.update_of_ne hidle.symm]
    exact hready
  · cases hno.symm.trans (hr.running.trans hrun)

theorem consistent_delete (c : Consistent s) (hx : Proper s (.delete t)) :
    Consistent (step s (.delete t : Input τ ε)).1 := by
  obtain ⟨hrun,hidle,hsome,hnot⟩ := hx
  by_cases htc : t = s.kernel.current
  · subst htc
    obtain ⟨hp,ht,hr,hn,hresult⟩ := delete_self c.placed c.timed hsome
    have hstep : (step s (.delete s.kernel.current : Input τ ε)).1 = { s with
        kernel := (s.kernel.vTaskDelete s.kernel.current).1
        owed := true } := by
      simp only [step,hresult,Bool.or_true]
    rw [hstep]
    refine c.retired hrun hr hidle hp ht (by simp) ⟨?_,hn.trans_lt c.bounded.2⟩ (fun _ => rfl) nofun
    refine c.tallied.congr (fun u => ?_) hn
    rw [hr.states]
    by_cases huc : u = s.kernel.current
    · rw [huc,Function.update_self]
      exact ⟨fun _ => hsome,fun _ => by simp⟩
    · rw [Function.update_of_ne huc]
  · obtain ⟨hp,ht,hr,hn,hresult⟩ := delete_other c.placed c.timed hsome htc
    have hstep : (step s (.delete t : Input τ ε)).1 = { s with
        kernel := (s.kernel.vTaskDelete t).1
        owed := s.owed } := by
      simp only [step,hresult,Bool.or_false]
    rw [hstep]
    exact c.retired hrun hr hidle hp ht (by simp) (c.tallied.erase c.bounded.2 hsome hr.states hn) id
      fun _ => Or.inl htc

theorem consistent_checkTermination (c : Consistent s) (hx : Proper s .checkTermination) :
    Consistent (step s (.checkTermination : Input τ ε)).1 := by
  rcases terminate_spec c.placed c.timed with ⟨hcode,-⟩ | ⟨t,hwait,hp,ht,hr,hn⟩
  · have hstep : (step s (.checkTermination : Input τ ε)).1 = s := by
      simp only [step,hcode]
    rw [hstep]
    exact c
  · have hidle : t ≠ s.idle := by
      rintro rfl
      obtain ⟨p,hready⟩ := c.idle_ready hx
      cases hready.symm.trans hwait
    have hsome : s.kernel.states t ≠ none := by rw [hwait]; simp
    have hgone : t ≠ s.kernel.current ∨ ¬s.kernel.runs := by
      refine or_iff_not_imp_left.mpr fun he hruns => ?_
      rw [not_not] at he
      rw [Kernel.runs,← he,hwait] at hruns
      cases hruns
    exact c.retired hx hr hidle hp ht (by simp) (c.tallied.erase c.bounded.2 hsome hr.states hn) id fun _ => hgone

omit [DecidableEq ε] in
theorem Ranked.quiet {k : Kernel τ ε} (hr : Ranked k k' t p) (hp : Placed k) (hq : k.Quiet)
    (hlow : p = k.priority t ∨ (t ≠ k.current ∧ p ≤ max (k.priority t) (k.priority k.current))) : k'.Quiet := by
  have hready : ∀ u q, k'.states u = some (.ready q) → k.states u = some (.ready q) ∨
      (u = t ∧ q = p ∧ k.states t = some (.ready (k.priority t))) := by
    intro u q hu
    rcases hr.states u with hs | ⟨rfl,⟨r,hrr⟩,hs⟩
    · exact Or.inl (hs ▸ hu)
    · rw [hs] at hu
      cases hu
      exact Or.inr ⟨rfl,rfl,hp.ready_priority u r hrr ▸ hrr⟩
  rcases hlow with hlow | ⟨hne,hlow⟩
  · have hpriority : k'.priority = k.priority := by rw [hr.priority,hlow,Function.update_eq_self]
    refine ⟨fun u q hu => ?_,fun hn => ?_⟩
    · rw [hpriority,hr.frame.current]
      rcases hready u q hu with hu | ⟨rfl,rfl,hu⟩
      · exact hq.highest u q hu
      · rw [hlow]
        exact hq.highest u _ hu
    · have hruns := hq.runs (hr.frame.numberOfTasks ▸ hn)
      rw [Kernel.runs] at hruns ⊢
      rw [hr.frame.current,hpriority]
      rcases hr.states k.current with hs | ⟨he,-,hs⟩
      · rw [hs]
        exact hruns
      · rw [he,hs,hlow]
  · have hcurrent : k'.priority k.current = k.priority k.current := by
      rw [hr.priority,Function.update_of_ne hne.symm]
    refine ⟨fun u q hu => ?_,fun hn => ?_⟩
    · rw [hr.frame.current,hcurrent]
      rcases hready u q hu with hu | ⟨rfl,rfl,hu⟩
      · exact hq.highest u q hu
      · have := hq.highest u _ hu
        omega
    · have hruns := hq.runs (hr.frame.numberOfTasks ▸ hn)
      rw [Kernel.runs] at hruns ⊢
      rw [hr.frame.current,hcurrent]
      rcases hr.states k.current with hs | ⟨he,-,-⟩
      · rw [hs]
        exact hruns
      · exact absurd he.symm hne

omit [DecidableEq ε] in
theorem Consistent.ranked {missed : Bool} (c : Consistent s) (hrun : s.kernel.running = true)
    (hr : Ranked s.kernel k' t p) (hp : Placed k') (ht : Timed 1 k' s.now s.due)
    (hmissed : s.missed = true → missed = true) (hlow : missed = false → p = s.kernel.priority t ∨
      (t ≠ s.kernel.current ∧ p ≤ max (s.kernel.priority t) (s.kernel.priority s.kernel.current))) :
    Consistent { s with kernel := k',missed := missed } := by
  have hf := hr.frame
  refine ⟨hp,?_,hf.pendedTicks.trans_le c.pended_le,⟨hf.suspended.trans_lt c.bounded.1,
    hf.numberOfTasks.trans_lt c.bounded.2⟩,fun h0 => ⟨?_,fun u hpend => ?_⟩,fun howed h₁ h₂ => ?_,fun hy => ?_,
    fun _ => ?_,?_,fun hno => ?_⟩
  · simp only [System.now,hf.pendedTicks]
    exact ht
  · exact hf.pendedTicks.trans (c.resumed (hf.suspended ▸ h0)).1
  · dsimp only at hpend
    rw [hr.events] at hpend
    exact (c.resumed (hf.suspended ▸ h0)).2 u hpend
  · have hbefore := Bool.eq_false_of_not_eq_true fun hm => by rw [hmissed hm] at h₁; cases h₁
    exact hr.quiet c.placed (c.quiet howed hbefore (hf.yieldPending ▸ h₂)) (hlow h₁)
  · exact (c.pending (hf.yieldPending ▸ hy)).imp id fun hne => hf.suspended ▸ hne
  · obtain ⟨q,hready⟩ := c.idle_ready hrun
    rcases hr.states s.idle with hs | ⟨he,-,hs⟩
    · exact ⟨q,hs.trans hready⟩
    · exact ⟨p,he ▸ hs⟩
  · refine c.tallied.congr (fun u => ?_) hf.numberOfTasks
    rcases hr.states u with hs | ⟨rfl,⟨q,hq⟩,hs⟩
    · dsimp only
      rw [hs]
    · dsimp only
      rw [hs,hq]
      simp
  · cases hno.symm.trans (hf.running.trans hrun)

theorem consistent_takeMutex (c : Consistent s) (hx : Proper s .takeMutex) :
    Consistent (step s (.takeMutex : Input τ ε)).1 := by
  obtain ⟨hp,ht,hr⟩ := held_spec c.placed c.timed s.kernel.current
    (wrap 32 (((s.kernel.tcb s.kernel.current).mutexesHeld : ℤ)+1))
  exact c.ranked hx hr hp ht id fun _ => Or.inl rfl

theorem consistent_inherit (c : Consistent s) (hx : Proper s (.inherit t)) :
    Consistent (step s (.inherit t : Input τ ε)).1 := by
  obtain ⟨hp,ht,hr⟩ := inherit_spec c.placed c.timed t
  refine c.ranked hx hr hp ht id fun _ => ?_
  by_cases htc : t = s.kernel.current
  · exact Or.inl (by rw [← htc,max_self])
  · exact Or.inr ⟨htc,le_rfl⟩

omit [DecidableEq τ] [DecidableEq ε] in
/-- A switch that is owed need not count as missed. -/
theorem Consistent.flags {owed missed : Bool} (c : Consistent s) (howed : s.owed = true → owed = true)
    (h : owed = false → missed = false → s.missed = false) : Consistent { s with owed := owed,missed := missed } := by
  refine ⟨c.placed,c.timed,c.pended_le,c.bounded,c.resumed,fun h₁ h₂ => c.quiet ?_ (h h₁ h₂),
    fun hy => (c.pending hy).imp howed id,c.idle_ready,c.tallied,c.before⟩
  exact Bool.eq_false_of_not_eq_true fun ho => by rw [show owed = true from howed ho] at h₁; cases h₁

theorem giveMutex_cases (k : Kernel τ ε) (e : ε) :
    k.giveMutex e = k.xTaskPriorityDisinherit k.current ∨
      k.giveMutex e = (k.xTaskPriorityDisinherit k.current).1.xTaskRemoveFromEventList e := by
  rw [Kernel.giveMutex]
  split
  · exact Or.inl rfl
  · exact Or.inr rfl

/-- The yield of the lower priority is lost if a task is woken that is no reason for one. -/
theorem consistent_giveMutex {e : ε} (c : Consistent s) (hx : Proper s (.giveMutex e)) :
    Consistent (step s (.giveMutex e)).1 := by
  obtain ⟨hrun,hruns⟩ := hx
  obtain ⟨hp,ht,p,hr,hsame⟩ := disinherit_spec c.placed c.timed hruns
  set r := s.kernel.xTaskPriorityDisinherit s.kernel.current with hr₁
  have c₁ : Consistent { s with kernel := r.1,missed := s.missed || r.2 } :=
    c.ranked hrun hr hp ht (fun hm => Bool.or_eq_true_iff.mpr (Or.inl hm))
      fun hm => Or.inl (hsame (Bool.or_eq_false_iff.mp hm).2)
  rcases giveMutex_cases s.kernel e with hcode | hcode
  · have hstep : (step s (.giveMutex e)).1 = { s with
        kernel := r.1,owed := s.owed || r.2,missed := s.missed || (r.2 && !r.2) } := by
      simp only [step,hcode,← hr₁]
    rw [hstep]
    refine c₁.flags (fun ho => Bool.or_eq_true_iff.mpr (Or.inl ho)) fun ho hm => ?_
    exact Bool.or_eq_false_iff.mpr ⟨(Bool.or_eq_false_iff.mp hm).1,(Bool.or_eq_false_iff.mp ho).2⟩
  · set r₂ := r.1.xTaskRemoveFromEventList e with hr₂
    have c₂ : Consistent { s with kernel := r₂.1,owed := s.owed || r₂.2,missed := s.missed || r.2 } :=
      consistent_removeFromEventList c₁ (hr.frame.running.trans hrun)
    have hstep : (step s (.giveMutex e)).1 = { s with
        kernel := r₂.1,owed := s.owed || r₂.2,missed := s.missed || (r.2 && !r₂.2) } := by
      simp only [step,hcode,← hr₁]
    rw [hstep]
    refine c₂.flags id fun ho hm => ?_
    obtain ⟨hbefore,hlost⟩ := Bool.or_eq_false_iff.mp hm
    rw [(Bool.or_eq_false_iff.mp ho).2,Bool.not_false,Bool.and_true] at hlost
    exact Bool.or_eq_false_iff.mpr ⟨hbefore,hlost⟩

omit [DecidableEq τ] [DecidableEq ε] in
theorem Consistent.others_of_timeout {n : ℕ} (c : Consistent s) (hx : Proper s (.disinheritAfterTimeout t n))
    (hchange : keptPriority s.kernel t n ≠ s.kernel.priority t) (hheld : (s.kernel.tcb t).mutexesHeld = 1) (q : ℕ)
    (hq : s.kernel.states t = some (.ready q)) : ∃ u, u ≠ t ∧ s.kernel.states u = some (.ready q) := by
  obtain ⟨-,-,-,hx⟩ := hx
  have hmore := (hx.resolve_left hchange).resolve_left (not_not.mpr hheld)
  rw [← c.placed.ready_priority t q hq] at hmore
  have hw := c.placed.wellFormed
  have hmem := (hw.mem_iff (.state t) _).mpr hq
  obtain ⟨y,hy,hyt⟩ := (((hw.nodup _).ne_singleton_iff _).mp hmore).resolve_left (List.ne_nil_of_mem hmem)
  have hready := (hw.mem_iff _ _).mp hy
  obtain ⟨u,rfl⟩ := c.placed.owner_ready hready
  exact ⟨u,by simpa using hyt,hready⟩

theorem consistent_disinheritAfterTimeout {n : ℕ} (c : Consistent s) (hx : Proper s (.disinheritAfterTimeout t n)) :
    Consistent (step s (.disinheritAfterTimeout t n : Input τ ε)).1 := by
  obtain ⟨hp,ht,p,hr⟩ := afterTimeout_spec c.placed c.timed hx.2.2.1 (c.others_of_timeout hx)
  refine c.ranked hx.1 hr hp ht (fun hm => Bool.or_eq_true_iff.mpr (Or.inl hm)) fun hm => ?_
  have hlow := decide_eq_false_iff_not.mp (Bool.or_eq_false_iff.mp hm).2
  rw [hr.frame.current,hr.priority,Function.update_self,Function.update_of_ne (Ne.symm hx.2.1)] at hlow
  exact Or.inr ⟨hx.2.1,(not_lt.mp hlow).trans (le_max_right ..)⟩

theorem consistent_step (x : Input τ ε) (c : Consistent s) (hx : Proper s x) : Consistent (step s x).1 := by
  cases x with
  | create t p => exact consistent_create c hx
  | start idle timer => exact consistent_start c hx
  | tick => exact consistent_tick c hx
  | yield =>
    exact ⟨c.placed,c.timed,c.pended_le,c.bounded,c.resumed,nofun,fun _ => Or.inl rfl,c.idle_ready,c.tallied,c.before⟩
  | switchContext => exact consistent_switch c hx
  | suspendAll => exact consistent_suspendAll c hx
  | resumeAll => exact consistent_resumeAll c hx
  | delay n => exact consistent_delay c hx
  | placeOnEventList e n => exact consistent_place c hx
  | removeFromEventList e => exact consistent_removeFromEventList c hx
  | delete t => exact consistent_delete c hx
  | checkTermination => exact consistent_checkTermination c hx
  | takeMutex => exact consistent_takeMutex c hx
  | inherit holder => exact consistent_inherit c hx
  | giveMutex e => exact consistent_giveMutex c hx
  | disinheritAfterTimeout holder n => exact consistent_disinheritAfterTimeout c hx

omit [DecidableEq τ] [DecidableEq ε] in
theorem consistent_initial (t : τ) : Consistent (initial t : System τ ε) := by
  refine ⟨⟨⟨⟨?_,fun _ => List.nodup_nil,fun _ => le_rfl,rfl⟩,nofun,nofun,nofun,
      fun _ => ⟨show 0 < configMaxPriorities by decide,le_rfl⟩,?_⟩,?_⟩,
    ⟨rfl,fun _ => List.Pairwise.nil,nofun,nofun,nofun⟩,le_rfl,
    ⟨show 0 < 2^32 by decide,show 0 < 2^32 by decide⟩,fun _ => ⟨rfl,nofun⟩,
    fun _ _ _ => ⟨nofun,nofun⟩,nofun,nofun,⟨∅,fun u => ?_,rfl⟩,fun _ => ⟨rfl,nofun⟩⟩
  · intro x l
    exact ⟨nofun,nofun⟩
  · intro q
    exact ⟨fun hq => by simp [initial] at hq,nofun⟩
  · intro u hu
    exact absurd rfl hu
  · exact ⟨nofun,fun hu => absurd rfl hu⟩

end Steps

def Reachable (s : System τ ε) : Prop :=
  ∃ t xs, Execution.Along step Proper (initial t) xs ∧ s = Execution.run step (initial t) xs

section Results

variable {s : System τ ε} {t : τ} {x : Input τ ε}

theorem Reachable.consistent (h : Reachable s) : Consistent s := by
  obtain ⟨t,xs,hx,rfl⟩ := h
  exact Execution.run_invariant (fun _ x c hx => consistent_step x c hx) (consistent_initial t) hx

theorem Reachable.step (h : Reachable s) (hx : Proper s x) : Reachable (Scheduler.step s x).1 := by
  obtain ⟨t,xs,hxs,rfl⟩ := h
  refine ⟨t,xs++[x],(Execution.along_append ..).mpr ⟨hxs,hx,trivial⟩,?_⟩
  rw [Execution.run_append]
  rfl

/-- Task 2 waits for two ticks, the timer task for an event; one tick has come. -/
def sleepers : List (Input ℕ ℕ) :=
  [.create 2 5,.start 0 1,.delay 2,.switchContext,.placeOnEventList 7 9,.switchContext,.tick]

/-- As long as no switch is owed, no ready task has a higher priority than the running one. -/
theorem running_task_is_highest (h : Reachable s) (hrun : s.kernel.running = true) (hs : s.kernel.suspended = 0)
    (howed : s.owed = false) (hmissed : s.missed = false) :
    s.kernel.runs ∧ ∀ t p, s.kernel.states t = some (.ready p) → p ≤ s.kernel.priority s.kernel.current := by
  have c := h.consistent
  obtain ⟨p,hidle⟩ := c.idle_ready hrun
  have hyield : s.kernel.yieldPending = false := Bool.eq_false_of_not_eq_true fun hy =>
    (c.pending hy).elim (fun ho => by cases ho.symm.trans howed) fun hne => hne hs
  obtain ⟨hhigh,hruns⟩ := c.quiet howed hmissed hyield
  exact ⟨hruns (c.tallied.pos (t := s.idle) (by rw [hidle]; simp)),hhigh⟩

theorem running_task_is_highest_sleepers : ∃ s : System ℕ ℕ, s = Execution.run step (initial 2) sleepers ∧
    s.kernel.current = 0 ∧ s.kernel.runs ∧
    ∀ t p, s.kernel.states t = some (.ready p) → p ≤ s.kernel.priority s.kernel.current := by
  have h : Reachable (Execution.run step (initial 2) sleepers) := ⟨2,_,by decide,rfl⟩
  exact ⟨_,rfl,by decide,running_task_is_highest h (by decide) (by decide) (by decide) (by decide)⟩

/-- Task 2 gives back a mutex that has raised its priority, and task 4 that waits for it has
no higher one: nothing asks for a switch to task 5. -/
def missedSwitch : List (Input ℕ ℕ) :=
  [.create 2 1,.start 0 1,.placeOnEventList 7 9,.switchContext,.takeMutex,.create 4 1,.yield,.switchContext,
    .placeOnEventList 8 9,.switchContext,.create 3 6,.switchContext,.inherit 2,.placeOnEventList 8 9,.switchContext,
    .delete 3,.create 5 5,.giveMutex 8]

example : Execution.Along step Proper (initial 2) missedSwitch ∧
    (Execution.run step (initial 2) missedSwitch).owed = false ∧
    (Execution.run step (initial 2) missedSwitch).kernel.current = 2 ∧
    (Execution.run step (initial 2) missedSwitch).kernel.priority 2 = 1 ∧
    (Execution.run step (initial 2) missedSwitch).kernel.states 5 = some (.ready 5) := by decide +kernel

/-- What may end the wait of a task: its time, its event or its end. -/
def EndsWait (s : System τ ε) (t : τ) : Input τ ε → Prop
  | .tick => s.due t = s.now+1
  | .resumeAll => s.kernel.events t = some .pendingReady ∨ s.due t ≤ s.ticks
  | .removeFromEventList e | .giveMutex e => s.kernel.events t = some (.events e)
  | .delete u => u = t
  | _ => False

omit [DecidableEq τ] [DecidableEq ε] in
theorem Moved.waits {k k' : Kernel τ ε} {reason : τ → Prop} (h : Moved k k' reason)
    (ht : ∃ b, k.states t = some (.delayed b)) : (∃ b, k'.states t = some (.delayed b)) ∨ reason t := by
  rcases h.tasks t with hs | ⟨-,hr,-⟩
  · exact Or.inl (hs ▸ ht)
  · exact Or.inr hr

omit [DecidableEq ε] in
theorem Retired.waits {k k' : Kernel τ ε} {u : τ} {v : Option (ListId ε)} (h : Retired k k' u v)
    (ht : ∃ b, k.states t = some (.delayed b)) : (∃ b, k'.states t = some (.delayed b)) ∨ u = t := by
  by_cases hut : u = t
  · exact Or.inr hut
  · rw [h.states,Function.update_of_ne (Ne.symm hut)]
    exact Or.inl ht

omit [DecidableEq ε] in
theorem Ranked.waits {k k' : Kernel τ ε} {u : τ} {p : ℕ} (h : Ranked k k' u p)
    (ht : ∃ b, k.states t = some (.delayed b)) : ∃ b, k'.states t = some (.delayed b) := by
  rcases h.states t with hs | ⟨rfl,⟨q,hq⟩,-⟩
  · rw [hs]
    exact ht
  · obtain ⟨b,hb⟩ := ht
    cases hq.symm.trans hb

omit [DecidableEq ε] in
theorem Created.waits {k k' : Kernel τ ε} {u : τ} {p : ℕ} (h : Created k k' u p) (hu : k.states u = none)
    (ht : ∃ b, k.states t = some (.delayed b)) : ∃ b, k'.states t = some (.delayed b) := by
  have hut : t ≠ u := by
    rintro rfl
    obtain ⟨b,hb⟩ := ht
    cases hu.symm.trans hb
  rw [h.states,Function.update_of_ne hut]
  exact ht

theorem Consistent.waits (c : Consistent s) (hx : Proper s x) (ht : ∃ b, s.kernel.states t = some (.delayed b)) :
    ((∃ b, (Scheduler.step s x).1.kernel.states t = some (.delayed b)) ∧ (Scheduler.step s x).1.due t = s.due t) ∨
      EndsWait s t x := by
  have hasleep : ∀ {k' : Kernel τ ε}, s.kernel.runs →
      (∃ b, k'.states = Function.update s.kernel.states s.kernel.current (some (.delayed b))) → ∀ n,
      (∃ b, k'.states t = some (.delayed b)) ∧ Function.update s.due s.kernel.current n t = s.due t := by
    rintro k' hruns ⟨b,hs⟩ n
    have htc : t ≠ s.kernel.current := by
      rintro rfl
      obtain ⟨b',hb'⟩ := ht
      rw [Kernel.runs,hb'] at hruns
      cases hruns
    rw [hs,Function.update_of_ne htc,Function.update_of_ne htc]
    exact ⟨ht,rfl⟩
  cases x with
  | create u p =>
    obtain ⟨-,-,hc,-⟩ := create_spec c.placed c.timed hx.1 hx.2 p
    exact Or.inl ⟨hc.waits hx.1 ht,rfl⟩
  | start idle timer =>
    obtain ⟨b,hb⟩ := ht
    exact absurd hb ((c.before hx.1).2 t b)
  | tick =>
    by_cases hs : s.kernel.suspended = 0
    · obtain ⟨-,-,-,-,-,hroused⟩ := tick_spec c.placed c.timed hs
      exact (hroused.moved.waits ht).imp (fun hw => ⟨hw,rfl⟩) id
    · refine Or.inl ⟨?_,rfl⟩
      show ∃ b, s.kernel.xTaskIncrementTick.1.states t = _
      rw [Kernel.xTaskIncrementTick,if_neg hs]
      exact ht
  | yield => exact Or.inl ⟨ht,rfl⟩
  | switchContext =>
    refine Or.inl ⟨?_,rfl⟩
    show ∃ b, s.kernel.vTaskSwitchContext.states t = _
    by_cases hs : s.kernel.suspended = 0
    · obtain ⟨p,hidle⟩ := c.idle_ready hx
      obtain ⟨-,-,hstates,-⟩ := switch_spec c.placed c.timed hs hidle
      rw [hstates]
      exact ht
    · rw [Kernel.vTaskSwitchContext,if_pos hs]
      exact ht
  | suspendAll => exact Or.inl ⟨ht,rfl⟩
  | resumeAll =>
    by_cases hs : s.kernel.suspended = 1
    · obtain ⟨p,hidle⟩ := c.idle_ready hx.1
      have hn := c.tallied.pos (t := s.idle) (by rw [hidle]; simp)
      obtain ⟨-,-,-,-,-,-,hroused⟩ := resume_spec c.placed c.timed hs hn
      refine (hroused.moved.waits ht).imp (fun hw => ⟨hw,rfl⟩) fun hreason => hreason.imp id fun hdue => ?_
      have hle := c.pended_le
      rw [System.now] at hdue
      omega
    · refine Or.inl ⟨?_,rfl⟩
      show ∃ b, s.kernel.xTaskResumeAll.1.states t = _
      have hwrap : wrap 32 ((s.kernel.suspended : ℤ)-1) ≠ 0 := by
        have hpos := hx.2
        have hbounded := c.bounded.1
        rw [show ((s.kernel.suspended : ℤ)-1) = ((s.kernel.suspended-1 : ℕ) : ℤ) by omega,wrap_natCast]
        omega
      simp only [Kernel.xTaskResumeAll]
      rw [if_neg (fun hc => hwrap hc.1)]
      exact ht
  | delay n =>
    obtain ⟨-,hn,hn',hruns,-⟩ := hx
    obtain ⟨-,-,-,-,hs,-⟩ := delay_spec c.placed.toListed (fun u _ => c.placed.waiting u) c.timed hruns hn hn'
    exact Or.inl (hasleep hruns hs _)
  | placeOnEventList e n =>
    obtain ⟨-,hn,hn',hruns,-⟩ := hx
    obtain ⟨-,-,-,-,hs,-⟩ := place_spec c.placed c.timed hruns e hn hn'
    exact Or.inl (hasleep hruns hs _)
  | removeFromEventList e =>
    obtain ⟨-,-,-,-,-,hm,-⟩ := removeFromEventList_spec c.placed c.timed e
    exact (hm.waits ht).imp (fun hw => ⟨hw,rfl⟩) id
  | delete u =>
    by_cases huc : u = s.kernel.current
    · subst huc
      obtain ⟨-,-,hr,-⟩ := delete_self c.placed c.timed hx.2.2.1
      exact (hr.waits ht).imp (fun hw => ⟨hw,rfl⟩) id
    · obtain ⟨-,-,hr,-⟩ := delete_other c.placed c.timed hx.2.2.1 huc
      exact (hr.waits ht).imp (fun hw => ⟨hw,rfl⟩) id
  | checkTermination =>
    refine Or.inl ⟨?_,rfl⟩
    show ∃ b, s.kernel.prvCheckTasksWaitingTermination.states t = _
    rcases terminate_spec c.placed c.timed with ⟨hcode,-⟩ | ⟨u,hwait,-,-,hr,-⟩
    · rw [hcode]
      exact ht
    · refine (hr.waits ht).resolve_right ?_
      rintro rfl
      obtain ⟨b,hb⟩ := ht
      cases hwait.symm.trans hb
  | takeMutex =>
    obtain ⟨-,-,hr⟩ := held_spec c.placed c.timed s.kernel.current
      (wrap 32 (((s.kernel.tcb s.kernel.current).mutexesHeld : ℤ)+1))
    exact Or.inl ⟨hr.waits ht,rfl⟩
  | inherit holder =>
    obtain ⟨-,-,hr⟩ := inherit_spec c.placed c.timed holder
    exact Or.inl ⟨hr.waits ht,rfl⟩
  | giveMutex e =>
    obtain ⟨hp,htimed,p,hr,-⟩ := disinherit_spec c.placed c.timed hx.2
    have hwaits := hr.waits ht
    show ((∃ b, (s.kernel.giveMutex e).1.states t = some (.delayed b)) ∧ _) ∨ s.kernel.events t = some (.events e)
    rcases giveMutex_cases s.kernel e with hcode | hcode
    · rw [hcode]
      exact Or.inl ⟨hwaits,rfl⟩
    · obtain ⟨-,-,-,-,-,hm,-⟩ := removeFromEventList_spec hp htimed e
      rw [hcode,← hr.events]
      exact (hm.waits hwaits).imp (fun hw => ⟨hw,rfl⟩) id
  | disinheritAfterTimeout holder n =>
    obtain ⟨-,-,p,hr⟩ := afterTimeout_spec c.placed c.timed hx.2.2.1 (c.others_of_timeout hx)
    exact Or.inl ⟨hr.waits ht,rfl⟩

/-- A task waits for less than one round of the tick count, and only its event, its end or
the tick at which it is due ends the wait. -/
theorem waits_end_on_time (h : Reachable s) (hx : Proper s x) (ht : ∃ b, s.kernel.states t = some (.delayed b)) :
    s.now < s.due t ∧ s.due t < s.now+2^32 ∧
      (((∃ b, (Scheduler.step s x).1.kernel.states t = some (.delayed b)) ∧
          (Scheduler.step s x).1.due t = s.due t ∧ (Scheduler.step s x).1.now < s.due t) ∨ EndsWait s t x) := by
  obtain ⟨b,hb⟩ := ht
  have hbounds := h.consistent.timed.lt_due hb
  refine ⟨hbounds.1,hbounds.2,(h.consistent.waits hx ⟨b,hb⟩).imp (fun ⟨⟨b',hb'⟩,hdue⟩ => ?_) id⟩
  have hnext := ((h.step hx).consistent.timed.lt_due hb').1
  exact ⟨⟨b',hb'⟩,hdue,hdue ▸ hnext⟩

theorem waits_end_on_time_sleepers : ∃ s : System ℕ ℕ, s = Execution.run step (initial 2) sleepers ∧
    s.now < s.due 2 ∧ s.due 2 < s.now+2^32 ∧
    (((∃ b, (Scheduler.step s .tick).1.kernel.states 2 = some (.delayed b)) ∧
      (Scheduler.step s .tick).1.due 2 = s.due 2 ∧ (Scheduler.step s .tick).1.now < s.due 2) ∨ EndsWait s 2 .tick) := by
  have h : Reachable (Execution.run step (initial 2) sleepers) := ⟨2,_,by decide,rfl⟩
  exact ⟨_,rfl,waits_end_on_time h (by decide) ⟨false,by decide⟩⟩

/-- When a wait for a mutex times out, the bit map stays exact exactly if the holder is not
the only ready task of its priority. -/
theorem timeout_bit_map_iff (h : Reachable s) {n q : ℕ} (hn : n ≤ s.kernel.priority t)
    (hheld : (s.kernel.tcb t).mutexesHeld = 1) (ht : s.kernel.states t = some (.ready q))
    (hchange : keptPriority s.kernel t n ≠ q) :
    Bits (s.kernel.vTaskPriorityDisinheritAfterTimeout t n).topReadyPriority
        (s.kernel.vTaskPriorityDisinheritAfterTimeout t n).states ↔
      ∃ u, u ≠ t ∧ s.kernel.states u = some (.ready q) :=
  afterTimeout_bits_iff h.consistent.placed h.consistent.timed hn hheld ht hchange

/-- Task 3 waits one tick for the mutex that task 2 holds. -/
def mutexWait : List (Input ℕ ℕ) :=
  [.create 2 1,.start 0 1,.delay 9,.switchContext,.takeMutex,.create 3 5,.switchContext,.inherit 2,
    .placeOnEventList 7 1,.switchContext,.tick,.switchContext]

theorem timeout_bit_map_iff_wait : ∃ s : System ℕ ℕ, s = Execution.run step (initial 2) mutexWait ∧
    s.kernel.current = 3 ∧ (Bits (s.kernel.vTaskPriorityDisinheritAfterTimeout 2 0).topReadyPriority
        (s.kernel.vTaskPriorityDisinheritAfterTimeout 2 0).states ↔
      ∃ u, u ≠ 2 ∧ s.kernel.states u = some (.ready 5)) := by
  have h : Reachable (Execution.run step (initial 2) mutexWait) := ⟨2,_,by decide,rfl⟩
  exact ⟨_,rfl,by decide,timeout_bit_map_iff h (by decide) (by decide) (by decide) (by decide)⟩

end Results

section Turns

variable {α : Type*} {l : TaskList α}

theorem advance_rotate (hne : l.items ≠ []) (hle : l.index ≤ l.items.length) :
    l.advance.current = (l.items.rotate l.index).head? ∧
      l.items.rotate l.advance.index = (l.items.rotate l.index).rotate 1 ∧ l.advance.index ≤ l.items.length := by
  have hpos := List.length_pos_iff.mpr hne
  rw [List.rotate_rotate]
  by_cases hlt : l.index < l.items.length
  · have hindex : l.advance.index = l.index+1 := by rw [TaskList.advance,if_pos hlt]
    have hcurrent : l.advance.current = l.items[l.index]? := by
      rw [TaskList.current,hindex,if_neg (Nat.succ_ne_zero _)]
      rfl
    exact ⟨hcurrent.trans (List.head?_rotate hlt).symm,by rw [hindex],by omega⟩
  · have heq : l.index = l.items.length := by omega
    have hindex : l.advance.index = 1 := by rw [TaskList.advance,if_neg hlt]
    have hcurrent : l.advance.current = l.items[0]? := by
      rw [TaskList.current,hindex,if_neg (Nat.succ_ne_zero _)]
      rfl
    refine ⟨?_,?_,by omega⟩
    · rw [hcurrent,heq,List.rotate_length,List.head?_eq_getElem?]
    · rw [hindex,heq,← List.rotate_rotate,List.rotate_length]

variable {s : System τ ε} {p : ℕ}

/-- Switches that nothing comes between choose the tasks of a list in turn. -/
theorem trace_switches {items : List (Item τ)} {n : ℕ} (hs : s.kernel.suspended = 0)
    (htop : 31-Kernel.ucPortCountLeadingZeros s.kernel.topReadyPriority = p)
    (hitems : (s.kernel.lists.list (.ready p)).items = items)
    (hle : (s.kernel.lists.list (.ready p)).index ≤ items.length) (hn : n ≤ items.length) :
    Execution.trace step s (List.replicate n .switchContext) =
      ((items.rotate (s.kernel.lists.list (.ready p)).index).take n).map Kernel.owner := by
  induction n generalizing s with
  | zero => rfl
  | succ n ih =>
    have hne : items ≠ [] := List.length_pos_iff.mp (by omega)
    have hstep := advance_rotate (l := s.kernel.lists.list (.ready p)) (by rw [hitems]; exact hne)
      (by rw [hitems]; exact hle)
    rw [hitems] at hstep
    obtain ⟨hcurrent,hrotate,hle'⟩ := hstep
    cases hr : items.rotate (s.kernel.lists.list (.ready p)).index with
    | nil => exact absurd (List.rotate_eq_nil_iff.mp hr) hne
    | cons x xs =>
      rw [hr,List.head?_cons] at hcurrent
      rw [hr] at hrotate
      set s' : System τ ε := { s with
        kernel := { s.kernel with
          lists := (s.kernel.lists.listGetNextEntry (.ready p)).1
          yieldPending := false
          current := Kernel.owner x }
        owed := false
        missed := false } with hs'
      have hcode : step s (.switchContext : Input τ ε) = (s',[Kernel.owner x]) := by
        have hswitch : s.kernel.vTaskSwitchContext = s'.kernel := by
          rw [Kernel.vTaskSwitchContext,if_neg (not_not.mpr hs),Kernel.selectHighestPriorityTask]
          show ({ s.kernel with
            lists := (s.kernel.lists.listGetNextEntry
              (.ready (31-Kernel.ucPortCountLeadingZeros s.kernel.topReadyPriority))).1
            yieldPending := false
            current := ((s.kernel.lists.list
              (.ready (31-Kernel.ucPortCountLeadingZeros s.kernel.topReadyPriority))).advance.current.map
                Kernel.owner).getD s.kernel.current } : Kernel τ ε) = _
          rw [htop,hcurrent]
          rfl
        simp only [step,hswitch]
        rw [if_pos (show s'.kernel.suspended = 0 from hs)]
      have hlist : s'.kernel.lists.list (.ready p) = (s.kernel.lists.list (.ready p)).advance := by
        simp [hs',Lists.listGetNextEntry]
      have hlen : items.length = xs.length+1 := by
        rw [← List.length_rotate items (s.kernel.lists.list (.ready p)).index,hr,List.length_cons]
      rw [List.replicate_succ,Execution.trace_cons,hcode]
      have htail := ih (s := s') hs htop (by rw [hlist]; exact hitems) (by rw [hlist]; exact hle') (by omega)
      rw [hlist,hrotate,List.rotate_cons_succ,List.rotate_zero,List.take_append_of_le_length (by omega)] at htail
      rw [htail]
      rfl

/-- As many switches as there are tasks of the highest priority run each of them once. -/
theorem ready_tasks_take_turns (h : Reachable s) (hs : s.kernel.suspended = 0)
    (hp : (s.kernel.lists.list (.ready p)).items ≠ [])
    (htop : ∀ q < configMaxPriorities, p < q → (s.kernel.lists.list (.ready q)).items = []) :
    (Execution.trace step s
        (List.replicate (s.kernel.lists.list (.ready p)).items.length .switchContext)).Nodup ∧
      ∀ t, t ∈ Execution.trace step s
          (List.replicate (s.kernel.lists.list (.ready p)).items.length .switchContext) ↔
        s.kernel.states t = some (.ready p) := by
  have c := h.consistent
  have hw := c.placed.wellFormed
  obtain ⟨x,hx⟩ := List.exists_mem_of_ne_nil _ hp
  obtain ⟨u,rfl⟩ := c.placed.owner_ready ((hw.mem_iff _ _).mp hx)
  have hu : s.kernel.states u = some (.ready p) := (hw.mem_iff _ _).mp hx
  obtain ⟨⟨v,hv⟩,hmax⟩ := c.placed.top hu
  have hpriority : 31-Kernel.ucPortCountLeadingZeros s.kernel.topReadyPriority = p := by
    refine le_antisymm (not_lt.mp fun hlt => ?_) (hmax u p hu)
    have hmem := (hw.mem_iff (.state v) _).mpr hv
    have hlow := (c.placed.priority_lt v).1
    rw [← c.placed.ready_priority v _ hv] at hlow
    rw [htop _ hlow hlt] at hmem
    cases hmem
  rw [trace_switches hs hpriority rfl (hw.index_le _) le_rfl,
    List.take_of_length_le (List.length_rotate ..).le]
  constructor
  · refine List.Nodup.map_on ?_ (List.nodup_rotate.mpr (hw.nodup _))
    intro y hy z hz he
    obtain ⟨t,rfl⟩ := c.placed.owner_ready ((hw.mem_iff _ _).mp (List.mem_rotate.mp hy))
    obtain ⟨t',rfl⟩ := c.placed.owner_ready ((hw.mem_iff _ _).mp (List.mem_rotate.mp hz))
    exact congrArg Item.state he
  · intro t
    rw [List.mem_map]
    constructor
    · rintro ⟨y,hy,rfl⟩
      have hready := (hw.mem_iff _ _).mp (List.mem_rotate.mp hy)
      obtain ⟨t,rfl⟩ := c.placed.owner_ready hready
      exact hready
    · intro ht
      exact ⟨.state t,List.mem_rotate.mpr ((hw.mem_iff _ _).mpr ht),rfl⟩

theorem ready_tasks_take_turns_two : ∃ s : System ℕ ℕ,
    s = Execution.run step (initial 2) (sleepers++[.tick,.switchContext,.create 3 5]) ∧
    (Execution.trace step s [.switchContext,.switchContext]).Nodup ∧
      ∀ t, t ∈ Execution.trace step s [.switchContext,.switchContext] ↔ s.kernel.states t = some (.ready 5) := by
  have h : Reachable (Execution.run step (initial 2) (sleepers++[.tick,.switchContext,.create 3 5])) :=
    ⟨2,_,by decide,rfl⟩
  exact ⟨_,rfl,ready_tasks_take_turns (p := 5) h (by decide) (by decide) (by decide)⟩

end Turns

end Scheduler
end EmbeddedShell
