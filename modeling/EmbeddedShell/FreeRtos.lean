import Mathlib.Data.List.Basic
import EmbeddedShell.Memory

/-!
# Blocking on a queue

The kernel counts ticks in 32 bits and counts the overflows in 32 more; here the time
is the number of ticks since boot, and the two counters are its digits. A task that waits
for a queue runs in passes: it looks for an item in a critical section, then checks
its time-out, and is blocked or looks again. A pass records when this happens and
what the task finds, whatever other tasks and interrupts do in between.
`includeVTaskSuspend` is off, so the longest delay is a delay like any other.
-/

namespace EmbeddedShell
namespace FreeRtos

def portMaxDelay : ℕ := 0xffffffff

/-- `INCLUDE_vTaskSuspend`: left undefined by `FreeRTOSConfig.h`, and 0 by default. -/
def includeVTaskSuspend : Bool := false

def configTickRateHz : ℕ := 1000
def portTickPeriodMs : ℕ := 1000/configTickRateHz

def pdMsToTicks (ms : ℕ) : ℕ := wrap 32 ((ms*configTickRateHz : ℕ) : ℤ) / 1000

def tickCount (now : ℕ) : ℕ := now % 2^32
def numOfOverflows (now : ℕ) : ℕ := now / 2^32 % 2^32

structure TimeOut where
  overflowCount : ℕ
  timeOnEntering : ℕ
  deriving DecidableEq

def vTaskInternalSetTimeOutState (now : ℕ) : TimeOut := ⟨numOfOverflows now,tickCount now⟩

/-- `xTaskCheckForTimeOut`: whether the time has expired, and the updated arguments. -/
def xTaskCheckForTimeOut (now : ℕ) (timeOut : TimeOut) (ticksToWait : ℕ) : Bool × TimeOut × ℕ :=
  let elapsed := wrap 32 ((tickCount now : ℤ) - timeOut.timeOnEntering)
  if includeVTaskSuspend ∧ ticksToWait = portMaxDelay then (false,timeOut,ticksToWait)
  else if numOfOverflows now ≠ timeOut.overflowCount ∧ timeOut.timeOnEntering ≤ tickCount now then
    (true,timeOut,ticksToWait)
  else if elapsed < ticksToWait then
    (false,vTaskInternalSetTimeOutState now,wrap 32 ((ticksToWait : ℤ) - elapsed))
  else (true,timeOut,0)

/-- One pass of the loop: the time of the critical section and the item that it
finds, the time of the check, whether the queue is empty when the task looks again
after a time-out, and the time that is read when the item has been taken. -/
structure Pass (α : Type) where
  enter : ℕ
  item : Option α
  check : ℕ
  stillEmpty : Bool
  leave : ℕ

inductive Outcome (α : Type)
  | taken (item : α) (leave : ℕ)
  | empty
  | waiting
  deriving DecidableEq

variable {α : Type}

/-- The loop of `xQueueReceive` and `xQueueSemaphoreTake`; `timeOut` is `none`
until the entry time has been set. -/
def takeLoop : List (Pass α) → Option TimeOut → ℕ → Outcome α
  | [], _, _ => .waiting
  | p::ps, timeOut, ticksToWait =>
    match p.item with
    | some item => .taken item p.leave
    | none =>
      if ticksToWait = 0 then .empty
      else
        let r := xTaskCheckForTimeOut p.check
          (timeOut.getD (vTaskInternalSetTimeOutState p.enter)) ticksToWait
        if r.1 = true ∧ p.stillEmpty = true then .empty else takeLoop ps (some r.2.1) r.2.2

def xQueueReceive (passes : List (Pass α)) (ticksToWait : ℕ) : Outcome α :=
  takeLoop passes none ticksToWait

def xQueueSemaphoreTake (passes : List (Pass Unit)) (ticksToWait : ℕ) : Outcome Unit :=
  takeLoop passes none ticksToWait

def Ordered : ℕ → List (Pass α) → Prop
  | _, [] => True
  | now, p::ps => now ≤ p.enter ∧ p.enter ≤ p.check ∧ p.enter ≤ p.leave ∧ Ordered p.check ps

/-- The task is never kept from its next check for `2^32` ticks. -/
def Attended : ℕ → List (Pass α) → Prop
  | _, [] => True
  | last, p::ps => p.check < last + 2^32 ∧ Attended p.check ps

/-- Until an item is found, no check comes at the deadline or later, unless the item
is there when the task looks again, and is still there in the next pass. -/
def InTime (deadline : ℕ) : List (Pass α) → Prop
  | [] => True
  | p::ps => p.item = none →
    if p.check < deadline then InTime deadline ps
    else p.stillEmpty = false ∧ ∀ q, ps.head? = some q → q.item ≠ none

def firstItem : List (Pass α) → Outcome α
  | [] => .waiting
  | p::ps =>
    match p.item with
    | some item => .taken item p.leave
    | none => firstItem ps

theorem firstItem_leave {ps : List (Pass α)} {now leave : ℕ} {item : α} (ho : Ordered now ps)
    (h : firstItem ps = .taken item leave) : now ≤ leave := by
  induction ps generalizing now with
  | nil => simp [firstItem] at h
  | cons p ps ih =>
    obtain ⟨henter,hcheck,hleave,hrest⟩ := ho
    cases hitem : p.item with
    | some x =>
      obtain ⟨-,rfl⟩ : x = item ∧ p.leave = leave := by simpa [firstItem,hitem] using h
      exact henter.trans hleave
    | none =>
      have hlater := ih hrest (by simpa [firstItem,hitem] using h)
      omega

theorem elapsed_eq {start now : ℕ} (hs : start ≤ now) (hn : now < start+2^32) :
    wrap 32 ((tickCount now : ℤ) - tickCount start) = now-start := by
  simp only [wrap,tickCount]
  omega

theorem not_passed {start now : ℕ} (hs : start ≤ now) (hn : now < start+2^32) :
    ¬ (numOfOverflows now ≠ numOfOverflows start ∧ tickCount start ≤ tickCount now) := by
  simp only [numOfOverflows,tickCount]
  omega

theorem checkForTimeOut_eq {start now w : ℕ} (hs : start ≤ now) (hn : now < start+2^32)
    (hw : w ≤ portMaxDelay) :
    xTaskCheckForTimeOut now (vTaskInternalSetTimeOutState start) w =
      if now < start+w then (false,vTaskInternalSetTimeOutState now,w-(now-start))
      else (true,vTaskInternalSetTimeOutState start,0) := by
  have hmax : portMaxDelay < 2^32 := by decide
  have hsuspend : ¬ (includeVTaskSuspend = true ∧ w = portMaxDelay) := by simp [includeVTaskSuspend]
  simp only [xTaskCheckForTimeOut,vTaskInternalSetTimeOutState,elapsed_eq hs hn]
  rw [if_neg hsuspend,if_neg (not_passed hs hn)]
  by_cases h : now < start+w
  · rw [if_pos h,if_pos (by omega),wrap_sub (by omega) (by omega)]
  · rw [if_neg h,if_neg (by omega)]

theorem takeLoop_before {p : Pass α} (ps : List (Pass α)) {last w : ℕ} (hitem : p.item = none)
    (hl : last ≤ p.check) (hlt : p.check < last+w) (hmax : w ≤ portMaxDelay) :
    ∃ v, 0 < v ∧ v ≤ portMaxDelay ∧ last+w = p.check+v ∧
      takeLoop (p::ps) (some (vTaskInternalSetTimeOutState last)) w =
        takeLoop ps (some (vTaskInternalSetTimeOutState p.check)) v := by
  have hm : portMaxDelay < 2^32 := by decide
  have hw : w ≠ 0 := by omega
  refine ⟨w-(p.check-last),by omega,(Nat.sub_le _ _).trans hmax,by omega,?_⟩
  simp only [takeLoop,hitem,Option.getD_some,if_neg hw]
  rw [checkForTimeOut_eq hl (by omega) hmax,if_pos hlt]
  simp

theorem takeLoop_of_inTime {ps : List (Pass α)} {last w : ℕ} (ho : Ordered last ps)
    (hw : 0 < w) (hmax : w ≤ portMaxDelay) (h : InTime (last+w) ps) :
    takeLoop ps (some (vTaskInternalSetTimeOutState last)) w = firstItem ps := by
  induction ps generalizing last w with
  | nil => rfl
  | cons p ps ih =>
    obtain ⟨henter,hcheck,-,hrest⟩ := ho
    cases hitem : p.item with
    | some item => simp [takeLoop,firstItem,hitem]
    | none =>
      have hin := h hitem
      have hfirst : firstItem (p::ps) = firstItem ps := by simp [firstItem,hitem]
      rw [hfirst]
      by_cases hlt : p.check < last+w
      · obtain ⟨v,hv,hvmax,hdeadline,hstep⟩ := takeLoop_before ps hitem (by omega) hlt hmax
        rw [if_pos hlt,hdeadline] at hin
        rw [hstep]
        exact ih hrest hv hvmax hin
      · rw [if_neg hlt] at hin
        simp only [takeLoop,hitem,Option.getD_some,if_neg hw.ne']
        rw [if_neg (by simp [hin.1])]
        cases ps with
        | nil => rfl
        | cons q qs =>
          cases hq : q.item with
          | none => exact absurd hq (hin.2 q rfl)
          | some item => simp [takeLoop,firstItem,hq]

theorem takeLoop_of_not_inTime {ps : List (Pass α)} {last w : ℕ} (ho : Ordered last ps)
    (ha : Attended last ps) (hw : 0 < w) (hmax : w ≤ portMaxDelay) (h : ¬ InTime (last+w) ps) :
    takeLoop ps (some (vTaskInternalSetTimeOutState last)) w = .empty := by
  induction ps generalizing last w with
  | nil => exact absurd trivial h
  | cons p ps ih =>
    obtain ⟨henter,hcheck,-,hrest⟩ := ho
    obtain ⟨hgap,hattended⟩ := ha
    cases hitem : p.item with
    | some item => exact absurd (fun hn => by simp [hitem] at hn) h
    | none =>
      simp only [InTime,hitem,forall_const] at h
      by_cases hlt : p.check < last+w
      · obtain ⟨v,hv,hvmax,hdeadline,hstep⟩ := takeLoop_before ps hitem (by omega) hlt hmax
        rw [if_pos hlt,hdeadline] at h
        rw [hstep]
        exact ih hrest hattended hv hvmax h
      · simp only [takeLoop,hitem,Option.getD_some,if_neg hw.ne']
        rw [checkForTimeOut_eq (by omega) hgap hmax]
        rw [if_neg hlt] at h ⊢
        cases hempty : p.stillEmpty with
        | true => simp
        | false =>
          rw [if_neg (by simp)]
          cases ps with
          | nil => simp [hempty] at h
          | cons q qs =>
            have hq : q.item = none := by simpa [hempty] using h
            simp [takeLoop,hq]

/-- One item is put into the queue at time `post` and stays there; the task is the
only one that takes from the queue. -/
def PostedAt (post : ℕ) (ps : List (Pass α)) : Prop :=
  ∀ p ∈ ps, (p.item ≠ none ↔ post ≤ p.enter) ∧ (p.stillEmpty = true → p.check < post)

theorem inTime_of_postedAt {post deadline now : ℕ} {ps : List (Pass α)} (h : PostedAt post ps)
    (ho : Ordered now ps) (hd : post ≤ deadline) : InTime deadline ps := by
  induction ps generalizing now with
  | nil => trivial
  | cons p ps ih =>
    obtain ⟨-,hcheck,-,hrest⟩ := ho
    have hp := h p (by simp)
    have hps : PostedAt post ps := fun q hq => h q (by simp [hq])
    intro hitem
    split
    · exact ih hps hrest
    · refine ⟨?_,?_⟩
      · by_contra hempty
        have hlt := hp.2 (by simpa using hempty)
        omega
      · intro q hq
        cases ps with
        | nil => simp at hq
        | cons q' qs =>
          obtain rfl : q' = q := by simpa using hq
          have hle := hrest.1
          exact ((hps q' (by simp)).1).mpr (by omega)

/-- Every look finds the queue empty, up to one that is made `t` ticks after `start`
or later: the check of a pass, or the next pass behind it. -/
def EmptyFor (start t : ℕ) (ps : List (Pass α)) : Prop :=
  ∃ pre p post, ps = pre ++ p::post ∧ (∀ q ∈ pre ++ [p], q.item = none) ∧ start+t ≤ p.check ∧
    (p.stillEmpty = true ∨ ∃ q, post.head? = some q ∧ q.item = none)

/-- However late the check comes, it never reports a time-out too early, and what is
left to wait never ends before the time that was asked for. -/
theorem checkForTimeOut_late {start now w : ℕ} (hs : start ≤ now) (hw : w ≤ portMaxDelay) :
    (xTaskCheckForTimeOut now (vTaskInternalSetTimeOutState start) w).1 = true ∧ start+w ≤ now ∨
    ∃ v, 0 < v ∧ v ≤ portMaxDelay ∧ start+w ≤ now+v ∧
      xTaskCheckForTimeOut now (vTaskInternalSetTimeOutState start) w =
        (false,vTaskInternalSetTimeOutState now,v) := by
  have hmax : portMaxDelay < 2^32 := by decide
  have hsuspend : ¬ (includeVTaskSuspend = true ∧ w = portMaxDelay) := by simp [includeVTaskSuspend]
  have helapsed : wrap 32 ((tickCount now : ℤ) - tickCount start) ≤ now-start := by
    simp only [wrap,tickCount]
    omega
  simp only [xTaskCheckForTimeOut,if_neg hsuspend]
  by_cases hpassed : numOfOverflows now ≠ (vTaskInternalSetTimeOutState start).overflowCount ∧
      (vTaskInternalSetTimeOutState start).timeOnEntering ≤ tickCount now
  · rw [if_pos hpassed]
    refine Or.inl ⟨rfl,?_⟩
    by_contra hearly
    exact not_passed hs (by omega) hpassed
  · rw [if_neg hpassed]
    by_cases hlt : wrap 32 ((tickCount now : ℤ) - tickCount start) < w
    · have hv : wrap 32 ((w : ℤ) - wrap 32 ((tickCount now : ℤ) - tickCount start)) =
          w - wrap 32 ((tickCount now : ℤ) - tickCount start) := wrap_sub hlt.le (by omega)
      refine Or.inr ⟨w - wrap 32 ((tickCount now : ℤ) - tickCount start),by omega,
        (Nat.sub_le _ _).trans hw,by omega,?_⟩
      simp only [vTaskInternalSetTimeOutState,hlt,if_true,hv]
    · refine Or.inl ⟨?_,by omega⟩
      simp only [vTaskInternalSetTimeOutState,hlt,if_false]

theorem head_of_empty {ps : List (Pass α)} {timeOut : Option TimeOut} {w : ℕ}
    (h : takeLoop ps timeOut w = .empty) : ∃ q, ps.head? = some q ∧ q.item = none := by
  cases ps with
  | nil => simp [takeLoop] at h
  | cons q qs =>
    cases hq : q.item with
    | some item => simp [takeLoop,hq] at h
    | none => exact ⟨q,rfl,hq⟩

theorem emptyFor_of_empty {ps : List (Pass α)} {last w : ℕ} (ho : Ordered last ps) (hw : 0 < w)
    (hmax : w ≤ portMaxDelay)
    (h : takeLoop ps (some (vTaskInternalSetTimeOutState last)) w = .empty) : EmptyFor last w ps := by
  induction ps generalizing last w with
  | nil => simp [takeLoop] at h
  | cons p ps ih =>
    obtain ⟨henter,hcheck,-,hrest⟩ := ho
    cases hitem : p.item with
    | some item => simp [takeLoop,hitem] at h
    | none =>
      simp only [takeLoop,hitem,Option.getD_some,if_neg hw.ne'] at h
      rcases checkForTimeOut_late (henter.trans hcheck) hmax with ⟨htime,hle⟩ | ⟨v,hv,hvmax,hle,hr⟩
      · refine ⟨[],p,ps,rfl,by simp [hitem],hle,?_⟩
        cases hempty : p.stillEmpty with
        | true => exact Or.inl rfl
        | false =>
          rw [if_neg (by simp [hempty])] at h
          exact Or.inr (head_of_empty h)
      · simp only [hr,Bool.false_eq_true,false_and,if_false] at h
        obtain ⟨pre,q,post,rfl,hnone,hlate,hlook⟩ := ih hrest hv hvmax h
        refine ⟨p::pre,q,post,rfl,?_,hle.trans hlate,hlook⟩
        rw [List.cons_append,List.forall_mem_cons]
        exact ⟨hitem,hnone⟩

theorem Ordered.of_append {now : ℕ} {pre ps : List (Pass α)} (h : Ordered now (pre++ps)) :
    ∃ later, Ordered later ps := by
  induction pre generalizing now with
  | nil => exact ⟨now,h⟩
  | cons p pre ih => exact ih h.2.2.2

theorem EmptyFor.lt_post {start t now post : ℕ} {ps : List (Pass α)} (h : EmptyFor start t ps)
    (ho : Ordered now ps) (hp : PostedAt post ps) : start+t < post := by
  obtain ⟨pre,p,rest,rfl,-,hlate,hlook⟩ := h
  rcases hlook with hempty | ⟨q,hq,hnone⟩
  · have hlt := (hp p (by simp)).2 hempty
    omega
  · obtain ⟨qs,rfl⟩ : ∃ qs, rest = q::qs := by
      cases rest with
      | nil => simp at hq
      | cons q' qs => exact ⟨qs,by rw [Option.some.inj hq]⟩
    obtain ⟨later,hord⟩ := ho.of_append
    have hle : p.check ≤ q.enter := hord.2.2.2.1
    have hnot : ¬ post ≤ q.enter := fun hle' => ((hp q (by simp)).1.mpr hle') hnone
    omega

end FreeRtos
end EmbeddedShell
