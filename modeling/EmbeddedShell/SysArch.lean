import EmbeddedShell.FreeRtos

/-!
# Waiting in the system layer of lwIP

The waits of `sys_arch.c`. Without a timeout they pass `portMAX_DELAY` to the kernel
and do not try again, and `sys_mutex_lock` does not even look at the answer. Their
results are the elapsed time or, in the same type, the code for a timeout. With a
timeout, the milliseconds are converted to ticks in 32-bit arithmetic.
-/

namespace EmbeddedShell
namespace SysArch

open FreeRtos

variable {α : Type}

/-- A call: the tick count that it reads first, and the passes of its wait. -/
structure Call (α : Type) where
  t0 : ℕ
  passes : List (Pass α)

def ticksFor (timeoutMs : ℕ) : ℕ := if timeoutMs = 0 then portMaxDelay else pdMsToTicks timeoutMs

def elapsedMs (t0 now : ℕ) : ℕ :=
  wrap 32 ((wrap 32 ((tickCount now : ℤ) - tickCount t0) * portTickPeriodMs : ℕ) : ℤ)

def sysArchTimeout : ℕ := 0xffffffff

/-- The result code and the item, once the call returns. -/
def result (t0 : ℕ) : Outcome α → Option (ℕ × Option α)
  | .taken item leave => some (elapsedMs t0 leave,some item)
  | .empty => some (sysArchTimeout,none)
  | .waiting => none

/-- `sys_arch_mbox_fetch`; a message is a pointer. -/
def sysArchMboxFetch (c : Call ℕ) (timeoutMs : ℕ) : Option (ℕ × Option ℕ) :=
  result c.t0 (xQueueReceive c.passes (ticksFor timeoutMs))

/-- `sys_arch_sem_wait`, with the count that it took. -/
def sysArchSemWait (c : Call Unit) (timeoutMs : ℕ) : Option (ℕ × Option Unit) :=
  result c.t0 (xQueueSemaphoreTake c.passes (ticksFor timeoutMs))

/-- `sys_mutex_lock`: whether the mutex is held when it returns. -/
def sysMutexLock (c : Call Unit) : Option Bool :=
  match xQueueSemaphoreTake c.passes portMaxDelay with
  | .taken _ _ => some true
  | .empty => some false
  | .waiting => none

def Call.entry (c : Call α) : ℕ := (c.passes.head?.map Pass.enter).getD c.t0

def Call.Ordered (c : Call α) : Prop := FreeRtos.Ordered c.t0 c.passes
def Call.Attended (c : Call α) : Prop := FreeRtos.Attended c.entry c.passes

def Call.InTime (c : Call α) : Prop := FreeRtos.InTime (c.entry + portMaxDelay) c.passes

/-- The elapsed ticks, in 32 bits, are not the timeout code when the first item has
been taken. -/
def Call.OnClock (c : Call α) : Prop :=
  ∀ item leave, firstItem c.passes = .taken item leave → (leave-c.t0) % 2^32 ≠ sysArchTimeout

/-- A result code other than the timeout, and an item. -/
def Delivers (r : Option (ℕ × Option α)) : Prop :=
  ∀ code item, r = some (code,item) → item ≠ none ∧ code ≠ sysArchTimeout

def Holds (r : Option Bool) : Prop := ∀ held, r = some held → held = true

theorem elapsedMs_eq {t0 now : ℕ} (h : t0 ≤ now) : elapsedMs t0 now = (now-t0) % 2^32 := by
  simp only [elapsedMs,portTickPeriodMs,configTickRateHz,wrap,tickCount]
  omega

theorem takeLoop_entry (c : Call α) (w : ℕ) : takeLoop c.passes none w =
    takeLoop c.passes (some (vTaskInternalSetTimeOutState c.entry)) w := by
  rcases c with ⟨t0,_ | ⟨p,ps⟩⟩
  · rfl
  · rfl

theorem Call.Ordered.entry {c : Call α} (h : c.Ordered) : FreeRtos.Ordered c.entry c.passes := by
  rcases c with ⟨t0,_ | ⟨p,ps⟩⟩
  · trivial
  · exact ⟨le_rfl,h.2⟩

theorem take_of_inTime {c : Call α} (ho : c.Ordered) (h : c.InTime) :
    takeLoop c.passes none portMaxDelay = firstItem c.passes := by
  rw [takeLoop_entry]
  exact takeLoop_of_inTime ho.entry (by decide) le_rfl h

theorem take_of_not_inTime {c : Call α} (ho : c.Ordered) (ha : c.Attended) (h : ¬ c.InTime) :
    takeLoop c.passes none portMaxDelay = .empty := by
  rw [takeLoop_entry]
  exact takeLoop_of_not_inTime ho.entry ha (by decide) le_rfl h

theorem firstItem_ne_empty (ps : List (Pass α)) : firstItem ps ≠ .empty := by
  induction ps with
  | nil => simp [firstItem]
  | cons p ps ih =>
    cases hp : p.item with
    | some item => simp [firstItem,hp]
    | none => simpa [firstItem,hp] using ih

theorem delivers_of_inTime {c : Call α} (ho : c.Ordered) (h : c.InTime)
    (hclock : c.OnClock) : Delivers (result c.t0 (takeLoop c.passes none portMaxDelay)) := by
  rw [take_of_inTime ho h]
  intro code item hr
  cases hf : firstItem c.passes with
  | taken x leave =>
    rw [hf,result,Option.some.injEq,Prod.mk.injEq] at hr
    obtain ⟨rfl,rfl⟩ := hr
    rw [elapsedMs_eq (firstItem_leave ho hf)]
    exact ⟨by simp,hclock x leave hf⟩
  | empty => exact absurd hf (firstItem_ne_empty _)
  | waiting => simp [hf,result] at hr

theorem delivers_iff {c : Call α} (ho : c.Ordered) (ha : c.Attended) :
    Delivers (result c.t0 (takeLoop c.passes none portMaxDelay)) ↔ c.InTime ∧ c.OnClock := by
  constructor
  · intro hd
    have hin : c.InTime := by
      by_contra hnot
      rw [take_of_not_inTime ho ha hnot] at hd
      exact absurd rfl (hd sysArchTimeout none rfl).1
    rw [take_of_inTime ho hin] at hd
    refine ⟨hin,fun item leave hf => ?_⟩
    rw [← elapsedMs_eq (firstItem_leave ho hf)]
    rw [hf] at hd
    exact (hd _ _ rfl).2
  · rintro ⟨hin,hclock⟩
    exact delivers_of_inTime ho hin hclock

theorem holds_iff_ne_empty (c : Call Unit) :
    Holds (sysMutexLock c) ↔ takeLoop c.passes none portMaxDelay ≠ .empty := by
  rw [sysMutexLock,xQueueSemaphoreTake]
  cases takeLoop c.passes none portMaxDelay with
  | taken item leave => simp [Holds]
  | empty => simp [Holds]
  | waiting => simp [Holds]

theorem takes_of_inTime {c : Call α} (ho : c.Ordered) (h : c.InTime) :
    takeLoop c.passes none portMaxDelay ≠ .empty := by
  rw [take_of_inTime ho h]
  exact firstItem_ne_empty _

def idleCall (α : Type) (s w : ℕ) : Call α :=
  ⟨s,[⟨s,none,s,false,s⟩,⟨s+w,none,s+w,true,s+w⟩]⟩

theorem idleCall_ordered (s w : ℕ) : (idleCall α s w).Ordered := by
  simp [Call.Ordered,idleCall,FreeRtos.Ordered]

theorem idleCall_onClock (s w : ℕ) : (idleCall α s w).OnClock := by
  intro item leave h
  simp [idleCall,firstItem] at h

theorem take_idleCall (s : ℕ) {w : ℕ} (hw : w ≤ portMaxDelay) :
    takeLoop (idleCall α s w).passes none w = .empty := by
  have hmax : portMaxDelay < 2^32 := by decide
  rcases Nat.eq_zero_or_pos w with rfl | hpos
  · rfl
  · rw [takeLoop_entry]
    refine takeLoop_of_not_inTime (idleCall_ordered s w).entry ?_ hpos hw ?_
    · have hentry : (idleCall α s w).entry = s := rfl
      rw [hentry]
      exact ⟨by simp,by simp; omega,trivial⟩
    · simp [Call.entry,idleCall,FreeRtos.InTime,hpos]

def lateCall (α : Type) (s : ℕ) : Call α :=
  ⟨s,[⟨s,none,s,false,s⟩,⟨s+portMaxDelay,none,s+portMaxDelay,true,s+portMaxDelay⟩]⟩

theorem lateCall_ordered (s : ℕ) : (lateCall α s).Ordered := idleCall_ordered s portMaxDelay

theorem take_lateCall (s : ℕ) : takeLoop (lateCall α s).passes none portMaxDelay = .empty :=
  take_idleCall s le_rfl

theorem lateCall_postedAt {s post : ℕ} (h : s+portMaxDelay < post) : PostedAt post (lateCall α s).passes := by
  simp only [PostedAt,lateCall,List.mem_cons,List.not_mem_nil,or_false,forall_eq_or_imp,forall_eq]
  simp
  omega

/-- Whatever the schedule, an item that arrives within the longest delay is taken;
for every later arrival there is a schedule that gives up before. -/
theorem takes_posted_iff (s post : ℕ) :
    (∀ c : Call α, c.Ordered → c.entry = s → PostedAt post c.passes →
      takeLoop c.passes none portMaxDelay ≠ .empty) ↔ post ≤ s+portMaxDelay := by
  constructor
  · intro h
    by_contra hlate
    exact h (lateCall α s) (lateCall_ordered s) rfl (lateCall_postedAt (not_le.mp hlate)) (take_lateCall s)
  · rintro hle c ho rfl hpost
    exact takes_of_inTime ho (inTime_of_postedAt hpost ho hle)

theorem delivers_posted_iff (s post : ℕ) :
    (∀ c : Call α, c.Ordered → c.OnClock → c.entry = s → PostedAt post c.passes →
      Delivers (result c.t0 (takeLoop c.passes none portMaxDelay))) ↔ post ≤ s+portMaxDelay := by
  constructor
  · intro h
    by_contra hlate
    have hd := h (lateCall α s) (lateCall_ordered s) (idleCall_onClock s _) rfl (lateCall_postedAt (not_le.mp hlate))
    rw [take_lateCall] at hd
    exact (hd _ _ rfl).1 rfl
  · rintro hle c ho hclock rfl hpost
    exact delivers_of_inTime ho (inTime_of_postedAt hpost ho hle) hclock

/-- The waits without a timeout do what lwIP expects of them while their items come
in time and the elapsed time is not the timeout code, and, for a task that is not
kept from its checks, only then. In terms of one arrival: up to `2^32-1` ticks after
the wait has begun it is always waited for, and a later one may be missed. -/
theorem untimed_wait_iff {fetch : Call ℕ} {wait : Call Unit} (hf : fetch.Ordered)
    (hw : wait.Ordered) (s post : ℕ) :
    ((fetch.InTime → fetch.OnClock → Delivers (sysArchMboxFetch fetch 0)) ∧
      (fetch.Attended → (Delivers (sysArchMboxFetch fetch 0) ↔ fetch.InTime ∧ fetch.OnClock))) ∧
    ((wait.InTime → wait.OnClock → Delivers (sysArchSemWait wait 0)) ∧
      (wait.Attended → (Delivers (sysArchSemWait wait 0) ↔ wait.InTime ∧ wait.OnClock))) ∧
    ((wait.InTime → Holds (sysMutexLock wait)) ∧
      (wait.Attended → (Holds (sysMutexLock wait) ↔ wait.InTime))) ∧
    ((∀ c : Call ℕ, c.Ordered → c.OnClock → c.entry = s → PostedAt post c.passes →
      Delivers (sysArchMboxFetch c 0)) ↔ post ≤ s+portMaxDelay) ∧
    ((∀ c : Call Unit, c.Ordered → c.OnClock → c.entry = s → PostedAt post c.passes →
      Delivers (sysArchSemWait c 0)) ↔ post ≤ s+portMaxDelay) ∧
    ((∀ c : Call Unit, c.Ordered → c.entry = s → PostedAt post c.passes → Holds (sysMutexLock c)) ↔
      post ≤ s+portMaxDelay) := by
  refine ⟨⟨delivers_of_inTime hf,delivers_iff hf⟩,⟨delivers_of_inTime hw,delivers_iff hw⟩,?_,
    delivers_posted_iff s post,delivers_posted_iff s post,?_⟩
  · rw [holds_iff_ne_empty]
    refine ⟨takes_of_inTime hw,fun ha => ⟨fun h => ?_,takes_of_inTime hw⟩⟩
    by_contra hnot
    exact h (take_of_not_inTime hw ha hnot)
  · simp only [holds_iff_ne_empty]
    exact takes_posted_iff s post

def overflowCall : Call ℕ :=
  ⟨4294967290,[⟨4294967290,none,4294967290,false,4294967290⟩,
    ⟨4294967310,some 0x20001000,4294967310,false,4294967310⟩]⟩

theorem untimed_wait_overflow :
    Delivers (sysArchMboxFetch overflowCall 0) ∧
    sysArchMboxFetch overflowCall 0 = some (20,some 0x20001000) := by
  refine ⟨(untimed_wait_iff ?_ (lateCall_ordered 0) 0 0).1.1 ?_ ?_,by decide⟩
  · simp [Call.Ordered,overflowCall,FreeRtos.Ordered]
  · simp [Call.InTime,Call.entry,overflowCall,FreeRtos.InTime,portMaxDelay]
  · intro item leave h
    obtain ⟨-,rfl⟩ : (536875008 : ℕ) = item ∧ 4294967310 = leave := by
      simpa [overflowCall,firstItem] using h
    decide

/-- Nothing is posted for `2^32-1` ticks: the mailbox returns NULL, the semaphore
returns without a count, and the mutex is not held. A message that is taken at that
very tick is returned with the timeout code. -/
theorem untimed_wait_gives_up :
    (lateCall ℕ 0).Ordered ∧
    sysArchMboxFetch (lateCall ℕ 0) 0 = some (0xffffffff,none) ∧
    sysArchSemWait (lateCall Unit 0) 0 = some (0xffffffff,none) ∧
    sysMutexLock (lateCall Unit 0) = some false ∧
    sysArchMboxFetch ⟨0,[⟨0,none,0,false,0⟩,
      ⟨0xffffffff,some 0x20001000,0xffffffff,false,0xffffffff⟩]⟩ 0 =
      some (0xffffffff,some 0x20001000) ∧
    ¬ Delivers (sysArchMboxFetch (lateCall ℕ 0) 0) ∧
    ¬ Delivers (sysArchSemWait (lateCall Unit 0) 0) ∧
    ¬ Holds (sysMutexLock (lateCall Unit 0)) := by
  have hfetch : sysArchMboxFetch (lateCall ℕ 0) 0 = some (0xffffffff,none) := by decide
  have hwait : sysArchSemWait (lateCall Unit 0) 0 = some (0xffffffff,none) := by decide
  have hlock : sysMutexLock (lateCall Unit 0) = some false := by decide
  refine ⟨lateCall_ordered 0,hfetch,hwait,hlock,by decide,?_,?_,?_⟩
  · exact fun h => (h _ _ hfetch).1 rfl
  · exact fun h => (h _ _ hwait).1 rfl
  · exact fun h => absurd (h _ hlock) (by decide)

/-- The code for a timeout is returned only if every look finds the queue empty, up to
one that is made when the timeout has passed. -/
def Patient (timeoutMs : ℕ) (c : Call α) (r : Option (ℕ × Option α)) : Prop :=
  ∀ item, r = some (sysArchTimeout,item) → EmptyFor c.entry timeoutMs c.passes

theorem pdMsToTicks_eq {ms : ℕ} (h : ms ≤ 4294967) : pdMsToTicks ms = ms := by
  simp only [pdMsToTicks,configTickRateHz,wrap]
  omega

theorem pdMsToTicks_le (ms : ℕ) : pdMsToTicks ms ≤ 4294967 := by
  simp only [pdMsToTicks,configTickRateHz,wrap]
  omega

theorem firstItem_of_taken {ps : List (Pass α)} {timeOut : Option TimeOut} {w leave : ℕ} {item : α}
    (h : takeLoop ps timeOut w = .taken item leave) : firstItem ps = .taken item leave := by
  induction ps generalizing timeOut w with
  | nil => simp [takeLoop] at h
  | cons p ps ih =>
    cases hitem : p.item with
    | some x => simpa [takeLoop,firstItem,hitem] using h
    | none =>
      simp only [takeLoop,hitem] at h
      split at h
      · simp at h
      · split at h
        · simp at h
        · simpa [firstItem,hitem] using ih h

theorem take_of_timeout {c : Call α} {w : ℕ} {item : Option α} (ho : c.Ordered) (hclock : c.OnClock)
    (h : result c.t0 (takeLoop c.passes none w) = some (sysArchTimeout,item)) :
    takeLoop c.passes none w = .empty := by
  cases ht : takeLoop c.passes none w with
  | empty => rfl
  | waiting => simp [ht,result] at h
  | taken x leave =>
    have hf := firstItem_of_taken ht
    rw [ht,result,Option.some.injEq,Prod.mk.injEq,elapsedMs_eq (firstItem_leave ho hf)] at h
    exact absurd h.1 (hclock x leave hf)

theorem patient_of_le {timeoutMs : ℕ} {c : Call α} (hne : timeoutMs ≠ 0) (hle : timeoutMs ≤ 4294967)
    (ho : c.Ordered) (hclock : c.OnClock) :
    Patient timeoutMs c (result c.t0 (takeLoop c.passes none (ticksFor timeoutMs))) := by
  intro item h
  have hempty := take_of_timeout ho hclock h
  rw [ticksFor,if_neg hne,pdMsToTicks_eq hle,takeLoop_entry] at hempty
  exact emptyFor_of_empty ho.entry (by omega) (hle.trans (by decide)) hempty

theorem not_patient_idleCall (s : ℕ) {w timeoutMs : ℕ} (hw : w ≤ portMaxDelay) (h : w < timeoutMs) :
    ¬ Patient timeoutMs (idleCall α s w)
      (result s (takeLoop (idleCall α s w).passes none w)) := by
  rw [take_idleCall s hw]
  intro hp
  obtain ⟨pre,p,post,hps,-,hlate,-⟩ := hp none rfl
  have hmem : p ∈ (idleCall α s w).passes := by simp [hps]
  have hentry : (idleCall α s w).entry = s := rfl
  have hcheck : p.check ≤ s+w := by
    simp only [idleCall,List.mem_cons,List.not_mem_nil,or_false] at hmem
    rcases hmem with rfl | rfl
    · exact Nat.le_add_right s w
    · exact le_rfl
  omega

/-- Whatever the schedule, a wait is not cut short, unless the conversion overflows. -/
theorem patient_iff {timeoutMs : ℕ} (hne : timeoutMs ≠ 0) (s : ℕ) :
    (∀ c : Call α, c.Ordered → c.t0 = s → c.OnClock →
      Patient timeoutMs c (result c.t0 (takeLoop c.passes none (ticksFor timeoutMs)))) ↔
    timeoutMs ≤ 4294967 := by
  constructor
  · intro h
    by_contra hlarge
    have hle : ticksFor timeoutMs ≤ 4294967 := by
      rw [ticksFor,if_neg hne]
      exact pdMsToTicks_le timeoutMs
    have hshort : ticksFor timeoutMs < timeoutMs := by omega
    exact not_patient_idleCall s (hle.trans (by decide)) hshort
      (h _ (idleCall_ordered _ _) rfl (idleCall_onClock _ _))
  · rintro hle c ho rfl hclock
    exact patient_of_le hne hle ho hclock

def aliasCall (s : ℕ) (item : α) : Call α := ⟨s,[⟨s,some item,s,false,s+0xffffffff⟩]⟩

theorem aliasCall_ordered (s : ℕ) (item : α) : (aliasCall s item).Ordered := by
  simp [Call.Ordered,aliasCall,FreeRtos.Ordered]

theorem not_patient_aliasCall (s timeoutMs w : ℕ) (item : α) :
    ¬ Patient timeoutMs (aliasCall s item)
      (result s (takeLoop (aliasCall s item).passes none w)) := by
  have hresult : result s (takeLoop (aliasCall s item).passes none w) =
      some (sysArchTimeout,some item) := by
    have helapsed : elapsedMs s (s+0xffffffff) = sysArchTimeout := by
      rw [elapsedMs_eq (Nat.le_add_right _ _),Nat.add_sub_cancel_left]
      rfl
    simp [aliasCall,takeLoop,result,helapsed]
  rw [hresult]
  intro hp
  obtain ⟨pre,p,post,hps,hnone,-⟩ := hp _ rfl
  have hmem : p ∈ (aliasCall s item).passes := by simp [hps]
  have hitem : p.item = none := hnone p (by simp)
  simp only [aliasCall,List.mem_singleton] at hmem
  simp [hmem] at hitem

/-- A wait of up to 4294967 ms is never cut short, whatever its entry time and its
schedule, unless the elapsed time aliases the timeout code: in terms of one arrival,
it came after the deadline. Every longer wait is cut short by a schedule without the
alias, and every wait by one with it. -/
theorem timed_wait_iff {timeoutMs : ℕ} (hne : timeoutMs ≠ 0) (s : ℕ) :
    ((∀ c : Call ℕ, c.Ordered → c.t0 = s → c.OnClock →
        Patient timeoutMs c (sysArchMboxFetch c timeoutMs)) ↔ timeoutMs ≤ 4294967) ∧
    ((∀ c : Call Unit, c.Ordered → c.t0 = s → c.OnClock →
        Patient timeoutMs c (sysArchSemWait c timeoutMs)) ↔ timeoutMs ≤ 4294967) ∧
    (timeoutMs ≤ 4294967 → ∀ post : ℕ,
      (∀ c : Call ℕ, c.Ordered → c.OnClock → PostedAt post c.passes → ∀ item,
        sysArchMboxFetch c timeoutMs = some (sysArchTimeout,item) → c.entry+timeoutMs < post) ∧
      (∀ c : Call Unit, c.Ordered → c.OnClock → PostedAt post c.passes → ∀ item,
        sysArchSemWait c timeoutMs = some (sysArchTimeout,item) → c.entry+timeoutMs < post)) ∧
    (∃ c : Call ℕ, c.Ordered ∧ c.t0 = s ∧ ¬ Patient timeoutMs c (sysArchMboxFetch c timeoutMs)) ∧
    (∃ c : Call Unit, c.Ordered ∧ c.t0 = s ∧ ¬ Patient timeoutMs c (sysArchSemWait c timeoutMs)) := by
  refine ⟨patient_iff hne s,patient_iff hne s,fun hle post => ⟨?_,?_⟩,?_,?_⟩
  · intro c ho hclock hpost item h
    exact (patient_of_le hne hle ho hclock item h).lt_post ho hpost
  · intro c ho hclock hpost item h
    exact (patient_of_le hne hle ho hclock item h).lt_post ho hpost
  · exact ⟨aliasCall s 0,aliasCall_ordered s 0,rfl,not_patient_aliasCall s _ _ 0⟩
  · exact ⟨aliasCall s (),aliasCall_ordered s (),rfl,not_patient_aliasCall s _ _ ()⟩

/-- The longest wait that is not cut short, across an overflow of the tick count. -/
theorem timed_wait_longest :
    sysArchMboxFetch (idleCall ℕ 4294967290 4294967) 4294967 = some (sysArchTimeout,none) ∧
    EmptyFor 4294967290 4294967 (idleCall ℕ 4294967290 4294967).passes := by
  have hfetch : sysArchMboxFetch (idleCall ℕ 4294967290 4294967) 4294967 =
      some (sysArchTimeout,none) := by decide
  refine ⟨hfetch,?_⟩
  exact (timed_wait_iff (by decide) 4294967290).1.mpr le_rfl (idleCall ℕ 4294967290 4294967)
    (idleCall_ordered _ _) rfl (idleCall_onClock _ _) none hfetch

/-- 4294968 ms are converted to no ticks at all: both waits return the timeout code in
the very tick in which they begin. -/
theorem timed_wait_cut_short :
    pdMsToTicks 4294968 = 0 ∧
    (idleCall ℕ 0 0).Ordered ∧ (idleCall ℕ 0 0).OnClock ∧
    sysArchMboxFetch (idleCall ℕ 0 0) 4294968 = some (0xffffffff,none) ∧
    ¬ Patient 4294968 (idleCall ℕ 0 0) (sysArchMboxFetch (idleCall ℕ 0 0) 4294968) ∧
    (idleCall Unit 0 0).Ordered ∧ (idleCall Unit 0 0).OnClock ∧
    sysArchSemWait (idleCall Unit 0 0) 4294968 = some (0xffffffff,none) ∧
    ¬ Patient 4294968 (idleCall Unit 0 0) (sysArchSemWait (idleCall Unit 0 0) 4294968) := by
  refine ⟨by decide,idleCall_ordered 0 0,idleCall_onClock 0 0,by decide,?_,
    idleCall_ordered 0 0,idleCall_onClock 0 0,by decide,?_⟩
  · exact not_patient_idleCall 0 (by decide) (by decide)
  · exact not_patient_idleCall 0 (by decide) (by decide)

end SysArch
end EmbeddedShell
