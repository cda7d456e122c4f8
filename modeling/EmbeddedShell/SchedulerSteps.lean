import EmbeddedShell.SchedulerTicks

/-!
# The calls of the scheduler

What each call of the kernel does to the lists, to the bit map and to the clock: the
running task waits, a task is woken by its event, the next task is chosen, tasks are
created and deleted, and priorities are inherited and given back.
-/

namespace EmbeddedShell
namespace Scheduler

open TaskLists

variable {τ ε : Type*} [DecidableEq τ] [DecidableEq ε] {k k' : Kernel τ ε} {now : ℕ} {due : τ → ℕ} {t : τ}

/-- Some tasks that waited have become ready for a reason; every other task is where it was. -/
structure Moved (k k' : Kernel τ ε) (reason : τ → Prop) : Prop where
  tcb : k'.tcb = k.tcb
  current : k'.current = k.current
  numberOfTasks : k'.numberOfTasks = k.numberOfTasks
  running : k'.running = k.running
  tasks : ∀ t, k'.states t = k.states t ∨
    ((∃ b, k.states t = some (.delayed b)) ∧ reason t ∧ k'.states t = some (.ready (k.priority t)))

omit [DecidableEq τ] [DecidableEq ε] in
theorem Roused.moved {reason : τ → Prop} {quiet : Prop} (h : Roused k k' reason quiet) : Moved k k' reason :=
  ⟨h.tcb,h.current,h.numberOfTasks,h.running,
    fun t => (h.tasks t).imp And.left fun ⟨hd,hr,hs,_⟩ => ⟨hd,hr,hs⟩⟩

omit [DecidableEq τ] [DecidableEq ε] in
theorem Moved.imp {reason reason' : τ → Prop} (h : Moved k k' reason) (hr : ∀ t, reason t → reason' t) :
    Moved k k' reason' :=
  ⟨h.tcb,h.current,h.numberOfTasks,h.running,fun t => (h.tasks t).imp id fun ⟨hd,ht,hs⟩ => ⟨hd,hr t ht,hs⟩⟩

section Waits

variable {k₁ : Kernel τ ε} {b : Bool} {w n : ℕ}

/-- The state item of a task that has left its list, in a list of waiting tasks. -/
def Kernel.await (k : Kernel τ ε) (t : τ) (b : Bool) (w : ℕ) : Kernel τ ε :=
  (k.setValue (.state t) w).insert (.delayed b) (.state t)

theorem await_states (hleft : Left k k₁ t) (b : Bool) (w : ℕ) :
    (k₁.await t b w).states = Function.update k.states t (some (.delayed b)) := by
  rw [Kernel.await,states_insert_state]
  funext u
  by_cases hut : u = t
  · rw [hut,Function.update_self,Function.update_self]
  · rw [Function.update_of_ne hut,Function.update_of_ne hut]
    simp [Kernel.states,Kernel.setValue,Lists.listSetListItemValue,hleft.lists,hut]

theorem await_events (hleft : Left k k₁ t) (b : Bool) (w : ℕ) : (k₁.await t b w).events = k.events := by
  rw [Kernel.await,events_insert_state]
  funext u
  simp [Kernel.events,Kernel.setValue,Lists.listSetListItemValue,hleft.lists]

theorem await_value (hleft : Left k k₁ t) (b : Bool) (w : ℕ) :
    (k₁.await t b w).lists.value = Function.update k.lists.value (.state t) w := by
  rw [← Lists.remove_value k.lists (.state t),← hleft.lists]
  rfl

theorem await_frame (hleft : Left k k₁ t) (b : Bool) (w : ℕ) : Frame k (k₁.await t b w) :=
  hleft.frame.trans ⟨rfl,rfl,rfl,rfl,rfl,rfl,rfl,rfl⟩

theorem await_placed (hl : Listed k) (hwaiting : ∀ u, u ≠ t → k.events u ≠ none → ∃ b, k.states u = some (.delayed b))
    (ht : k.states t ≠ none) (hleft : Left k k₁ t) (b : Bool) (w : ℕ) : Placed (k₁.await t b w) := by
  have hstates := await_states hleft b w
  have hevents := await_events hleft b w
  have htcb : (k₁.await t b w).tcb = k.tcb := hleft.tcb
  refine hl.move (t := t) ?_ hwaiting ?_ ?_ ?_ ?_ ?_ ?_
  · refine Lists.WellFormed.put ?_ ?_ _
    · have hw := hl.wellFormed.remove ht
      rw [← hleft.lists] at hw
      exact ⟨hw.mem_iff,hw.nodup,hw.index_le,hw.sound⟩
    · simp [Kernel.setValue,Lists.listSetListItemValue,hleft.lists]
  · intro u hut
    rw [hstates,hevents,htcb,Function.update_of_ne hut]
    exact ⟨rfl,rfl,rfl⟩
  · intro l hu
    rw [hstates,Function.update_self] at hu
    cases hu
    rfl
  · intro l hu
    rw [hevents] at hu
    refine ⟨hl.event_list t l hu,b,?_⟩
    rw [hstates,Function.update_self]
  · intro p hu
    rw [hstates,Function.update_self] at hu
    cases hu
  · rw [Kernel.priority,htcb]
    exact hl.priority_lt t
  · rw [hstates]
    exact hleft.bits _ (by simp)

theorem await_sorted (hl : Listed k) {p : ℕ} (ht : k.states t = some (.ready p)) (hleft : Left k k₁ t)
    (b : Bool) (w : ℕ) (hs : ∀ b, k.lists.Sorted (.delayed b)) (b' : Bool) :
    (k₁.await t b w).lists.Sorted (.delayed b') := by
  have hbefore : (k₁.setValue (.state t) w).lists.Sorted (.delayed b') := by
    have hsub : ((k₁.setValue (.state t) w).lists.list (.delayed b')).items.Sublist
        (k.lists.list (.delayed b')).items := by
      show (k₁.lists.list (.delayed b')).items.Sublist _
      rw [hleft.lists]
      exact Lists.remove_sublist ..
    refine List.Pairwise.sublist hsub (List.Pairwise.imp_of_mem ?_ (hs b'))
    have hvalue : ∀ x ∈ (k.lists.list (.delayed b')).items,
        (k₁.setValue (.state t) w).lists.value x = k.lists.value x := by
      intro x hx
      have hxt : x ≠ .state t := by
        rintro rfl
        cases ht.symm.trans ((hl.wellFormed.mem_iff _ _).mp hx)
      rw [← Lists.remove_value k.lists (.state t),← hleft.lists]
      exact Function.update_of_ne hxt ..
    intro x y hx hy hxy
    rwa [hvalue x hx,hvalue y hy]
  by_cases hb : b' = b
  · rw [hb] at hbefore ⊢
    exact hbefore.insert _
  · rw [Lists.Sorted,Kernel.await]
    have hother : ((k₁.setValue (.state t) w).insert (.delayed b) (.state t)).lists.list (.delayed b') =
        (k₁.setValue (.state t) w).lists.list (.delayed b') := Lists.put_items_of_ne _ _ _ _ (by simpa using hb)
    rw [hother]
    exact hbefore

theorem await_timed (hl : Listed k) (h : Timed 1 k now due) {p : ℕ} (ht : k.states t = some (.ready p))
    (hleft : Left k k₁ t) {m : ℕ} (hbehind : b = !k.delayedTaskList → w+2^32 = k.tickCount+n ∧ w < k.tickCount)
    (hahead : b = k.delayedTaskList → k.tickCount < w ∧ w < 2^32 ∧ w = k.tickCount+n ∧ m ≤ w)
    (hm : m ≤ k.nextTaskUnblockTime) :
    Timed 1 { k₁.await t b w with nextTaskUnblockTime := m } now (Function.update due t (now+n)) := by
  have hle := Nat.mod_le now (2^32)
  have htick := h.tick_eq
  have hstates := await_states hleft b w
  have hvalue := await_value hleft b w
  have hf := await_frame hleft b w
  have hself : Function.update due t (now+n) t = now+n := Function.update_self ..
  have hother : ∀ u, u ≠ t → Function.update due t (now+n) u = due u := fun u hu => Function.update_of_ne hu ..
  have hvt : (k₁.await t b w).lists.value (.state t) = w := by
    rw [hvalue,Function.update_self]
  have hvu : ∀ u, u ≠ t → (k₁.await t b w).lists.value (.state u) =
      k.lists.value (.state u) := fun u hu => by
    rw [hvalue,Function.update_of_ne (by simpa using hu)]
  have hsu : ∀ u, u ≠ t → (k₁.await t b w).states u = k.states u :=
    fun u hu => by rw [hstates,Function.update_of_ne hu]
  have hst : (k₁.await t b w).states t = some (.delayed b) := by
    rw [hstates,Function.update_self]
  refine ⟨hf.tickCount.trans h.tick_eq,await_sorted hl ht hleft b w h.sorted,?_,?_,?_⟩
  · intro u hu
    dsimp only at hu ⊢
    rw [hf.delayedTaskList] at hu
    rw [hf.tickCount]
    change (k₁.await t b w).states u = _ at hu
    by_cases huc : u = t
    · rw [huc,hst] at hu
      simp only [Option.some.injEq,ListId.delayed.injEq] at hu
      rw [huc,hvt,hself]
      have := hahead hu
      omega
    · rw [hsu u huc] at hu
      rw [hvu u huc,hother u huc]
      exact h.ahead u hu
  · intro u hu
    dsimp only at hu ⊢
    rw [hf.delayedTaskList] at hu
    rw [hf.tickCount]
    change (k₁.await t b w).states u = _ at hu
    by_cases huc : u = t
    · rw [huc,hst] at hu
      simp only [Option.some.injEq,ListId.delayed.injEq] at hu
      rw [huc,hvt,hself]
      have := hbehind hu
      omega
    · rw [hsu u huc] at hu
      rw [hvu u huc,hother u huc]
      exact h.behind u hu
  · intro u hu
    dsimp only at hu ⊢
    rw [hf.delayedTaskList] at hu
    change (k₁.await t b w).states u = _ at hu
    by_cases huc : u = t
    · rw [huc,hst] at hu
      simp only [Option.some.injEq,ListId.delayed.injEq] at hu
      rw [huc,hvt]
      exact (hahead hu).2.2.2
    · rw [hsu u huc] at hu
      rw [hvu u huc]
      exact hm.trans (h.unblock u hu)

/-- The wake time that is kept, and the list that it belongs to. -/
theorem wake_cases {T n : ℕ} (hT : T < 2^32) (hn : 0 < n) (hn' : n < 2^32) :
    (wrap 32 ((T : ℤ)+n) < T ∧ wrap 32 ((T : ℤ)+n)+2^32 = T+n) ∨
      (T < wrap 32 ((T : ℤ)+n) ∧ wrap 32 ((T : ℤ)+n) < 2^32 ∧ wrap 32 ((T : ℤ)+n) = T+n) := by
  rw [show ((T : ℤ)+n) = ((T+n : ℕ) : ℤ) by push_cast; rfl,wrap_natCast]
  omega

theorem delay_spec (hl : Listed k)
    (hwaiting : ∀ u, u ≠ k.current → k.events u ≠ none → ∃ b, k.states u = some (.delayed b))
    (h : Timed 1 k now due) {p : ℕ} (ht : k.states k.current = some (.ready p)) (hn : 0 < n) (hn' : n < 2^32) :
    Placed (k.prvAddCurrentTaskToDelayedList n) ∧
      Timed 1 (k.prvAddCurrentTaskToDelayedList n) now (Function.update due k.current (now+n)) ∧
      Frame k (k.prvAddCurrentTaskToDelayedList n) ∧ (k.prvAddCurrentTaskToDelayedList n).tcb = k.tcb ∧
      (∃ b, (k.prvAddCurrentTaskToDelayedList n).states = Function.update k.states k.current (some (.delayed b))) ∧
      (k.prvAddCurrentTaskToDelayedList n).events = k.events := by
  have hleft := hl.removeReady ht
  have htick := h.tick_eq
  have hmod := Nat.mod_lt now (show 0 < 2^32 by decide)
  have hwake := wake_cases (n := n) (show k.tickCount < 2^32 by omega) hn hn'
  set w := wrap 32 ((k.tickCount : ℤ)+n) with hw
  have hcode : k.prvAddCurrentTaskToDelayedList n = if w < k.tickCount then
      (k.removeReady k.current).await k.current (!k.delayedTaskList) w
    else if w < k.nextTaskUnblockTime then
      { (k.removeReady k.current).await k.current k.delayedTaskList w with nextTaskUnblockTime := w }
    else (k.removeReady k.current).await k.current k.delayedTaskList w := by
    rw [Kernel.prvAddCurrentTaskToDelayedList]
    dsimp only
    rw [← hw,(show ((k.removeReady k.current).setValue (.state k.current) w).delayedTaskList = k.delayedTaskList
      from hleft.frame.delayedTaskList)]
    have hunblock : ((k.removeReady k.current).await k.current k.delayedTaskList w).nextTaskUnblockTime =
      k.nextTaskUnblockTime := hleft.unblock
    rw [Kernel.await] at hunblock
    rw [hunblock]
    rfl
  have hsame : ∀ b, { (k.removeReady k.current).await k.current b w with
      nextTaskUnblockTime := k.nextTaskUnblockTime } = (k.removeReady k.current).await k.current b w := by
    intro b
    rw [← hleft.unblock]
    rfl
  have hplaced : ∀ b m, Placed { (k.removeReady k.current).await k.current b w with nextTaskUnblockTime := m } :=
    fun b m => (await_placed hl hwaiting (by rw [ht]; simp) hleft b w).congr rfl rfl rfl
  have hrest : ∀ b m, Frame k { (k.removeReady k.current).await k.current b w with nextTaskUnblockTime := m } ∧
      ((k.removeReady k.current).await k.current b w).tcb = k.tcb := fun b m =>
    ⟨(await_frame hleft b w).trans ⟨rfl,rfl,rfl,rfl,rfl,rfl,rfl,rfl⟩,hleft.tcb⟩
  obtain ⟨b,m,hcode',hbehind,hahead,hm⟩ : ∃ b m, k.prvAddCurrentTaskToDelayedList n =
      { (k.removeReady k.current).await k.current b w with nextTaskUnblockTime := m } ∧
      (b = !k.delayedTaskList → w+2^32 = k.tickCount+n ∧ w < k.tickCount) ∧
      (b = k.delayedTaskList → k.tickCount < w ∧ w < 2^32 ∧ w = k.tickCount+n ∧ m ≤ w) ∧
      m ≤ k.nextTaskUnblockTime := by
    rw [hcode]
    rcases hwake with ⟨hlt,heq⟩ | ⟨hlt,hw32,heq⟩
    · refine ⟨!k.delayedTaskList,k.nextTaskUnblockTime,?_,fun _ => ⟨heq,hlt⟩,fun hb => ?_,le_rfl⟩
      · rw [if_pos hlt,hsame]
      · cases hk : k.delayedTaskList <;> simp [hk] at hb
    · have hchoice : k.delayedTaskList ≠ !k.delayedTaskList := by cases k.delayedTaskList <;> decide
      rw [if_neg (by omega)]
      by_cases hsoon : w < k.nextTaskUnblockTime
      · exact ⟨k.delayedTaskList,w,by rw [if_pos hsoon],fun hb => absurd hb hchoice,
          fun _ => ⟨hlt,hw32,heq,le_rfl⟩,hsoon.le⟩
      · exact ⟨k.delayedTaskList,k.nextTaskUnblockTime,by rw [if_neg hsoon,hsame],fun hb => absurd hb hchoice,
          fun _ => ⟨hlt,hw32,heq,not_lt.mp hsoon⟩,le_rfl⟩
  rw [hcode']
  exact ⟨hplaced b m,await_timed hl h ht hleft hbehind hahead hm,(hrest b m).1,(hrest b m).2,
    ⟨b,await_states hleft b w⟩,await_events hleft b w⟩

theorem place_spec (hp : Placed k) (h : Timed 1 k now due) {p : ℕ} (ht : k.states k.current = some (.ready p))
    (e : ε) (hn : 0 < n) (hn' : n < 2^32) :
    Placed (k.vTaskPlaceOnEventList e n) ∧
      Timed 1 (k.vTaskPlaceOnEventList e n) now (Function.update due k.current (now+n)) ∧
      Frame k (k.vTaskPlaceOnEventList e n) ∧ (k.vTaskPlaceOnEventList e n).tcb = k.tcb ∧
      (∃ b, (k.vTaskPlaceOnEventList e n).states = Function.update k.states k.current (some (.delayed b))) ∧
      (k.vTaskPlaceOnEventList e n).events = Function.update k.events k.current (some (.events e)) := by
  have hnone : k.events k.current = none := by
    by_contra hne
    obtain ⟨b,hb⟩ := hp.waiting _ hne
    cases ht.symm.trans hb
  set k₀ := k.insert (.events e) (.event k.current) with hk₀
  have hstates : k₀.states = k.states := states_insert_event ..
  have hevents : k₀.events = Function.update k.events k.current (some (.events e)) := events_insert_event ..
  have hl₀ : Listed k₀ := by
    refine ⟨Lists.WellFormed.put hp.wellFormed hnone _,?_,?_,?_,hp.priority_lt,?_⟩
    · rw [hstates]
      exact hp.state_list
    · intro u l hu
      rw [hevents] at hu
      by_cases huc : u = k.current
      · rw [huc,Function.update_self] at hu
        cases hu
        rfl
      · rw [Function.update_of_ne huc] at hu
        exact hp.event_list u l hu
    · rw [hstates]
      exact hp.ready_priority
    · rw [hstates]
      exact hp.bits
  have hwaiting : ∀ u, u ≠ k₀.current → k₀.events u ≠ none → ∃ b, k₀.states u = some (.delayed b) := by
    intro u hu he
    change u ≠ k.current at hu
    rw [hevents,Function.update_of_ne hu] at he
    rw [hstates]
    exact hp.waiting u he
  have h₀ : Timed 1 k₀ now due := by
    refine h.transfer hp.toListed rfl rfl rfl (fun u => rfl) (fun u b hu => ?_) fun b => ?_
    · rwa [hstates] at hu
    · rw [show k₀.lists.list (.delayed b) = k.lists.list (.delayed b) from Lists.put_items_of_ne _ _ _ _ (by simp)]
  obtain ⟨hplaced,htimed,hframe,htcb,hdelayed,hsame⟩ :=
    delay_spec hl₀ hwaiting h₀ (p := p) (by rw [hstates]; exact ht) hn hn'
  rw [hstates] at hdelayed
  exact ⟨hplaced,htimed,⟨hframe.1,hframe.2,hframe.3,hframe.4,hframe.5,hframe.6,hframe.7,hframe.8⟩,htcb,hdelayed,
    hsame.trans hevents⟩

end Waits

section Events

omit [DecidableEq τ] [DecidableEq ε] in
theorem Placed.head_event (h : Placed k) {e : ε} {x : Item τ} (hx : k.lists.listGetHeadEntry (.events e) = some x) :
    x = .event (Kernel.owner x) ∧ k.events (Kernel.owner x) = some (.events e) ∧
      ∃ b, k.states (Kernel.owner x) = some (.delayed b) := by
  have hc := head_container h.wellFormed hx
  cases x with
  | state u => cases h.state_list u _ hc
  | event u => exact ⟨rfl,hc,h.waiting u fun he => by cases he.symm.trans hc⟩

def Kernel.removed (k : Kernel τ ε) (t : τ) : Kernel τ ε :=
  if k.suspended = 0 then ((k.remove (.event t)).1.remove (.state t)).1.prvAddTaskToReadyList t
  else (k.remove (.event t)).1.insertEnd .pendingReady (.event t)

theorem removeFromEventList_cases (hp : Placed k) (e : ε) :
    (k.xTaskRemoveFromEventList e = (k,false) ∧ ∀ t, k.events t ≠ some (.events e)) ∨
    ∃ t, k.events t = some (.events e) ∧ (∃ b, k.states t = some (.delayed b)) ∧
      k.xTaskRemoveFromEventList e = if k.priority k.current < k.priority t then
        ({ k.removed t with yieldPending := true },true) else (k.removed t,false) := by
  rw [Kernel.xTaskRemoveFromEventList]
  cases hx : k.lists.listGetHeadEntry (.events e) with
  | none => exact Or.inl ⟨rfl,fun t => head_none hp.wellFormed hx (.event t)⟩
  | some x =>
    obtain ⟨-,he,hd⟩ := hp.head_event hx
    refine Or.inr ⟨Kernel.owner x,he,hd,?_⟩
    dsimp only
    by_cases hs : k.suspended = 0
    · rw [Kernel.removed,if_pos hs,if_pos (show (k.remove (.event (Kernel.owner x))).1.suspended = 0 from hs)]
      rfl
    · rw [Kernel.removed,if_neg hs,if_neg (show (k.remove (.event (Kernel.owner x))).1.suspended ≠ 0 from hs)]
      rfl

/-- The task is ready, or it is kept for `xTaskResumeAll`. -/
theorem removed_spec (hp : Placed k) (h : Timed 1 k now due) (he : k.events t ≠ none)
    (hd : ∃ b, k.states t = some (.delayed b)) :
    Placed (k.removed t) ∧ Timed 1 (k.removed t) now due ∧ Frame k (k.removed t) ∧
      Moved k (k.removed t) (fun u => u = t) ∧
      (k.suspended = 0 → ∀ u, (k.removed t).events u = some .pendingReady → k.events u = some .pendingReady) := by
  by_cases hs : k.suspended = 0
  · have hwoken : Woken k (k.removed t) t := by
      rw [Kernel.removed,if_pos hs]
      obtain ⟨b,hb⟩ := hd
      exact (removed_removeEvent hp.wellFormed he (by rw [hb]; simp)).woken
    have hroused : Roused k (k.removed t) (fun u => u = t) False := hwoken.roused hd rfl False.elim
    refine ⟨hwoken.placed hp hd,hwoken.timed hp.toListed h,hwoken.frame,hroused.moved,fun _ u hu => ?_⟩
    rw [hwoken.events] at hu
    by_cases hut : u = t
    · rw [hut,Function.update_self] at hu
      cases hu
    · rwa [Function.update_of_ne hut] at hu
  · have hcode : k.removed t = (k.remove (.event t)).1.insertEnd .pendingReady (.event t) := by
      rw [Kernel.removed,if_neg hs]
    have hstates : (k.removed t).states = k.states := by
      rw [hcode,states_insertEnd_event,states_remove_event]
    have hevents : (k.removed t).events = Function.update k.events t (some .pendingReady) := by
      rw [hcode,events_insertEnd_event,events_remove_event,Function.update_idem]
    have hframe : Frame k (k.removed t) := by
      rw [hcode]
      exact ⟨rfl,rfl,rfl,rfl,rfl,rfl,rfl,rfl⟩
    have htcb : (k.removed t).tcb = k.tcb := by rw [hcode]; rfl
    have hlist : ∀ b, ((k.removed t).lists.list (.delayed b)).items.Sublist (k.lists.list (.delayed b)).items := by
      intro b
      have hput : ((k.remove (.event t)).1.insertEnd .pendingReady (.event t)).lists.list (.delayed b) =
          (k.remove (.event t)).1.lists.list (.delayed b) := Lists.put_items_of_ne _ _ _ _ (by simp)
      rw [hcode,hput]
      exact Lists.remove_sublist ..
    have hplaced : Placed (k.removed t) := by
      refine hp.move (t := t) ?_ (fun u _ => hp.waiting u) ?_ ?_ ?_ ?_ ?_ ?_
      · rw [hcode]
        exact Lists.WellFormed.put (hp.wellFormed.remove he) (by simp) _
      · intro u hut
        rw [hstates,hevents,htcb,Function.update_of_ne hut]
        exact ⟨rfl,rfl,rfl⟩
      · rw [hstates]
        exact hp.state_list t
      · intro l hl
        rw [hevents,Function.update_self] at hl
        cases hl
        exact ⟨rfl,by rw [hstates]; exact hd⟩
      · rw [hstates,Kernel.priority,htcb]
        exact hp.ready_priority t
      · rw [Kernel.priority,htcb]
        exact hp.priority_lt t
      · rw [hstates,hcode]
        exact hp.bits
    refine ⟨hplaced,?_,hframe,⟨htcb,hframe.current,hframe.numberOfTasks,hframe.running,fun u => Or.inl ?_⟩,
      fun h0 => absurd h0 hs⟩
    · refine h.transfer hp.toListed hframe.tickCount hframe.delayedTaskList (by rw [hcode]; rfl) (fun u => ?_)
        (fun u b hu => by rwa [hstates] at hu) hlist
      rw [hcode]
      show (k.lists.uxListRemove (.event t)).1.value _ = _
      rw [Lists.remove_value]
    · rw [hstates]

theorem removeFromEventList_spec (hp : Placed k) (h : Timed 1 k now due) (e : ε) :
    Placed (k.xTaskRemoveFromEventList e).1 ∧ Timed 1 (k.xTaskRemoveFromEventList e).1 now due ∧
      (k.xTaskRemoveFromEventList e).1.pendedTicks = k.pendedTicks ∧
      (k.xTaskRemoveFromEventList e).1.suspended = k.suspended ∧
      (k.xTaskRemoveFromEventList e).1.yieldPending = (k.yieldPending || (k.xTaskRemoveFromEventList e).2) ∧
      Moved k (k.xTaskRemoveFromEventList e).1 (fun t => k.events t = some (.events e)) ∧
      ((k.xTaskRemoveFromEventList e).2 = false → ∀ t p, (k.xTaskRemoveFromEventList e).1.states t = some (.ready p) →
        k.states t = some (.ready p) ∨ p ≤ k.priority k.current) ∧
      (k.suspended = 0 → ∀ t, (k.xTaskRemoveFromEventList e).1.events t = some .pendingReady →
        k.events t = some .pendingReady) := by
  rcases removeFromEventList_cases hp e with ⟨hcode,-⟩ | ⟨t,he,hd,hcode⟩
  · rw [hcode]
    exact ⟨hp,h,rfl,rfl,(Bool.or_false _).symm,⟨rfl,rfl,rfl,rfl,fun _ => Or.inl rfl⟩,fun _ t p ht => Or.inl ht,
      fun _ t ht => ht⟩
  · obtain ⟨hp₁,h₁,hframe,hmoved,hpending⟩ := removed_spec hp h (by rw [he]; simp) hd
    have hreason : ∀ u, u = t → k.events u = some (.events e) := fun u hu => by rw [hu]; exact he
    rw [hcode]
    split_ifs with hlow
    · exact ⟨hp₁.congr rfl rfl rfl,⟨h₁.1,h₁.2,h₁.3,h₁.4,h₁.5⟩,hframe.pendedTicks,hframe.suspended,
        (Bool.or_true _).symm,⟨hmoved.1,hmoved.2,hmoved.3,hmoved.4,(hmoved.imp hreason).tasks⟩,nofun,hpending⟩
    · refine ⟨hp₁,h₁,hframe.pendedTicks,hframe.suspended,hframe.yieldPending.trans (Bool.or_false _).symm,
        hmoved.imp hreason,?_,hpending⟩
      intro _ u p hu
      rcases hmoved.tasks u with hs | ⟨-,rfl,hs⟩
      · exact Or.inl (hs ▸ hu)
      · rw [hs] at hu
        cases hu
        exact Or.inr (not_lt.mp hlow)

end Events

section Switches

theorem clz_top {n : ℕ} (hn : n ≠ 0) (hlt : n < 2^32) : 31-Kernel.ucPortCountLeadingZeros n = Nat.log2 n := by
  have hlog := (Nat.log2_lt hn).mpr hlt
  rw [Kernel.ucPortCountLeadingZeros,if_neg hn]
  omega

omit [DecidableEq τ] [DecidableEq ε] in
theorem Listed.top (hl : Listed k) {p : ℕ} (ht : k.states t = some (.ready p)) :
    (∃ u, k.states u = some (.ready (31-Kernel.ucPortCountLeadingZeros k.topReadyPriority))) ∧
      ∀ u q, k.states u = some (.ready q) → q ≤ 31-Kernel.ucPortCountLeadingZeros k.topReadyPriority := by
  have hbit := (hl.bits p).mpr ⟨t,ht⟩
  have hne : k.topReadyPriority ≠ 0 := by
    intro h0
    rw [h0,Nat.zero_testBit] at hbit
    cases hbit
  have hlt : k.topReadyPriority < 2^32 := by
    refine Nat.lt_pow_two_of_testBit _ fun i hi => ?_
    cases hb : k.topReadyPriority.testBit i with
    | false => rfl
    | true =>
      obtain ⟨u,hu⟩ := (hl.bits i).mp hb
      have := hl.ready_lt i u hu
      omega
  rw [clz_top hne hlt]
  refine ⟨(hl.bits _).mp (Nat.testBit_log2 hne),fun u q hu => ?_⟩
  exact (Nat.le_log2 hne).mpr (Nat.ge_two_pow_of_testBit ((hl.bits q).mpr ⟨u,hu⟩))

theorem advance_current {α : Type*} {l : TaskList α} (hne : l.items ≠ []) (hle : l.index ≤ l.items.length) :
    ∃ x ∈ l.items, l.advance.current = some x := by
  have hpos := List.length_pos_iff.mpr hne
  have hindex : l.advance.index ≠ 0 ∧ l.advance.index-1 < l.items.length := by
    simp only [TaskList.advance]
    split <;> omega
  refine ⟨l.items[l.advance.index-1],List.getElem_mem _,?_⟩
  rw [TaskList.current,if_neg hindex.1]
  exact List.getElem?_eq_getElem hindex.2

omit [DecidableEq τ] in
/-- The task that is chosen is ready, and none that is ready has a higher priority. -/
theorem switch_spec (hp : Placed k) (h : Timed 1 k now due) (hs : k.suspended = 0) {p : ℕ}
    (ht : k.states t = some (.ready p)) :
    Placed k.vTaskSwitchContext ∧ Timed 1 k.vTaskSwitchContext now due ∧
      k.vTaskSwitchContext.states = k.states ∧ k.vTaskSwitchContext.events = k.events ∧
      k.vTaskSwitchContext.tcb = k.tcb ∧ k.vTaskSwitchContext.suspended = k.suspended ∧
      k.vTaskSwitchContext.pendedTicks = k.pendedTicks ∧ k.vTaskSwitchContext.numberOfTasks = k.numberOfTasks ∧
      k.vTaskSwitchContext.running = k.running ∧ k.vTaskSwitchContext.yieldPending = false ∧
      k.states k.vTaskSwitchContext.current = some (.ready (k.priority k.vTaskSwitchContext.current)) ∧
      ∀ u q, k.states u = some (.ready q) → q ≤ k.priority k.vTaskSwitchContext.current := by
  obtain ⟨⟨u,hu⟩,htop⟩ := hp.top ht
  set top := 31-Kernel.ucPortCountLeadingZeros k.topReadyPriority with htop'
  have hmem := (hp.wellFormed.mem_iff (.state u) (.ready top)).mpr hu
  have hne : (k.lists.list (.ready top)).items ≠ [] := List.ne_nil_of_mem hmem
  obtain ⟨x,hx,hcurrent⟩ := advance_current hne (hp.wellFormed.index_le _)
  have hready := (hp.wellFormed.mem_iff _ _).mp hx
  obtain ⟨v,rfl⟩ := hp.owner_ready hready
  have hcode : k.vTaskSwitchContext = { k with
      lists := (k.lists.listGetNextEntry (.ready top)).1
      yieldPending := false
      current := v } := by
    rw [Kernel.vTaskSwitchContext,if_neg (not_not.mpr hs),Kernel.selectHighestPriorityTask]
    show ({ k with
      lists := (k.lists.listGetNextEntry (.ready top)).1
      yieldPending := false
      current := ((k.lists.list (.ready top)).advance.current.map Kernel.owner).getD k.current } : Kernel τ ε) = _
    rw [hcurrent]
    rfl
  have hpriority := hp.ready_priority v top hready
  have hlist : ∀ b, (k.lists.listGetNextEntry (.ready top)).1.list (.delayed b) = k.lists.list (.delayed b) :=
    fun b => by simp [Lists.listGetNextEntry]
  rw [hcode]
  refine ⟨⟨⟨hp.wellFormed.next hne,hp.state_list,hp.event_list,hp.ready_priority,hp.priority_lt,hp.bits⟩,hp.waiting⟩,
    ?_,rfl,rfl,rfl,rfl,rfl,rfl,rfl,rfl,?_,fun w q hw => ?_⟩
  · refine h.transfer hp.toListed rfl rfl rfl (fun _ => rfl) (fun _ _ hu => hu) fun b => ?_
    rw [hlist b]
  · dsimp only
    rw [← hpriority]
    exact hready
  · dsimp only
    rw [← hpriority]
    exact htop w q hw

end Switches

section Tasks

/-- A task leaves its lists and is at most in the list of those that wait for their end. -/
structure Retired (k k' : Kernel τ ε) (t : τ) (v : Option (ListId ε)) : Prop where
  tcb : k'.tcb = k.tcb
  current : k'.current = k.current
  suspended : k'.suspended = k.suspended
  pendedTicks : k'.pendedTicks = k.pendedTicks
  yieldPending : k'.yieldPending = k.yieldPending
  running : k'.running = k.running
  delayedTaskList : k'.delayedTaskList = k.delayedTaskList
  tickCount : k'.tickCount = k.tickCount
  states : k'.states = Function.update k.states t v
  events : k'.events = Function.update k.events t none
  value : k'.lists.value = k.lists.value
  lists : ∀ b, (k'.lists.list (.delayed b)).items.Sublist (k.lists.list (.delayed b)).items

variable {v : Option (ListId ε)}

omit [DecidableEq ε] in
theorem Retired.placed (h : Retired k k' t v) (hp : Placed k) (hw : k'.lists.WellFormed)
    (hv : v = none ∨ v = some .waitingTermination) (hbits : Bits k'.topReadyPriority (Function.update k.states t v)) :
    Placed k' := by
  refine hp.move (t := t) hw (fun u _ => hp.waiting u) ?_ ?_ ?_ ?_ ?_ ?_
  · intro u hut
    rw [h.states,h.events,h.tcb,Function.update_of_ne hut,Function.update_of_ne hut]
    exact ⟨rfl,rfl,rfl⟩
  · intro l hl
    rw [h.states,Function.update_self] at hl
    rcases hv with rfl | rfl
    · cases hl
    · cases hl
      rfl
  · intro l hl
    rw [h.events,Function.update_self] at hl
    cases hl
  · intro p hp
    rw [h.states,Function.update_self] at hp
    rcases hv with rfl | rfl <;> cases hp
  · rw [Kernel.priority,h.tcb]
    exact hp.priority_lt t
  · rw [h.states]
    exact hbits

omit [DecidableEq ε] in
theorem Retired.timed (h : Retired k k' t v) (hp : Placed k) (ht : Timed 1 k now due)
    (hv : v = none ∨ v = some .waitingTermination) (hunblock : k'.nextTaskUnblockTime = k.nextTaskUnblockTime) :
    Timed 1 k' now due := by
  refine ht.transfer hp.toListed h.tickCount h.delayedTaskList hunblock (fun u => by rw [h.value]) ?_ h.lists
  intro u b hu
  rw [h.states] at hu
  by_cases hut : u = t
  · rw [hut,Function.update_self] at hu
    rcases hv with rfl | rfl <;> cases hu
  · rwa [Function.update_of_ne hut] at hu

def Kernel.withdraw (k : Kernel τ ε) (t : τ) : Kernel τ ε := (k.removeState t).leaveEvent t

theorem withdraw_spec (hp : Placed k) (ht : k.states t ≠ none) :
    Retired k (k.withdraw t) t none ∧ (k.withdraw t).lists.WellFormed ∧
      (∀ v : Option (ListId ε), (∀ q, v ≠ some (.ready q)) →
        Bits (k.withdraw t).topReadyPriority (Function.update k.states t v)) ∧
      (k.withdraw t).nextTaskUnblockTime = k.nextTaskUnblockTime ∧
      (k.withdraw t).numberOfTasks = k.numberOfTasks := by
  have hleft := hp.removeState ht
  obtain ⟨hf,htcb,hunblock,htop,hvalue,hs,he,hl⟩ := leaveEvent_kept (k.removeState t) t
  have hframe := hleft.frame.trans hf
  have hw : (k.removeState t).lists.WellFormed := by
    rw [hleft.lists]
    exact hp.wellFormed.remove ht
  have hstates : (k.removeState t).states = Function.update k.states t none := funext fun u => by
    rw [Kernel.states,hleft.lists]
    exact congrFun (states_remove_state k t) u
  have hevents : (k.removeState t).events = k.events := funext fun u => by
    rw [Kernel.events,hleft.lists]
    exact congrFun (events_remove_state k t) u
  refine ⟨⟨htcb.trans hleft.tcb,hframe.current,hframe.suspended,hframe.pendedTicks,hframe.yieldPending,
    hframe.running,hframe.delayedTaskList,hframe.tickCount,hs.trans hstates,?_,?_,fun b => ?_⟩,
    leaveEvent_wellFormed hw t,?_,hunblock.trans hleft.unblock,hframe.numberOfTasks⟩
  · rw [Kernel.withdraw,he,hevents]
  · rw [Kernel.withdraw,hvalue,hleft.lists,Lists.remove_value]
  · refine (hl _).trans ?_
    rw [hleft.lists]
    exact Lists.remove_sublist ..
  · rw [Kernel.withdraw,htop]
    exact hleft.bits

theorem vTaskDelete_eq (hp : Placed k) (ht : k.states t ≠ none) : k.vTaskDelete t =
    if t = k.current then ((k.withdraw t).insertEnd .waitingTermination (.state t),true)
    else (Kernel.prvResetNextTaskUnblockTime { k.withdraw t with
      numberOfTasks := wrap 32 ((k.numberOfTasks : ℤ)-1) },false) := by
  obtain ⟨hr,-,-,-,hn⟩ := withdraw_spec hp ht
  have hcode : k.vTaskDelete t = if t = (k.withdraw t).current then
        ((k.withdraw t).insertEnd .waitingTermination (.state t),true)
      else (Kernel.prvResetNextTaskUnblockTime { k.withdraw t with
        numberOfTasks := wrap 32 (((k.withdraw t).numberOfTasks : ℤ)-1) },false) := rfl
  rw [hcode,hr.current,hn]

/-- The running task waits for the idle task to free what it has used. -/
theorem delete_self (hp : Placed k) (h : Timed 1 k now due) (ht : k.states k.current ≠ none) :
    Placed (k.vTaskDelete k.current).1 ∧ Timed 1 (k.vTaskDelete k.current).1 now due ∧
      Retired k (k.vTaskDelete k.current).1 k.current (some .waitingTermination) ∧
      (k.vTaskDelete k.current).1.numberOfTasks = k.numberOfTasks ∧ (k.vTaskDelete k.current).2 = true := by
  obtain ⟨hr,hw,hbits,hunblock,hn⟩ := withdraw_spec hp ht
  rw [vTaskDelete_eq hp ht,if_pos rfl]
  have hnone : (k.withdraw k.current).lists.container (.state k.current) = none := by
    show (k.withdraw k.current).states k.current = none
    rw [hr.states,Function.update_self]
  have hretired : Retired k ((k.withdraw k.current).insertEnd .waitingTermination (.state k.current)) k.current
      (some .waitingTermination) := by
    refine ⟨hr.tcb,hr.current,hr.suspended,hr.pendedTicks,hr.yieldPending,hr.running,hr.delayedTaskList,hr.tickCount,
      ?_,?_,hr.value,fun b => ?_⟩
    · rw [states_insertEnd_state,hr.states,Function.update_idem]
    · rw [events_insertEnd_state,hr.events]
    · have hput : ((k.withdraw k.current).insertEnd .waitingTermination (.state k.current)).lists.list (.delayed b) =
          (k.withdraw k.current).lists.list (.delayed b) := Lists.put_items_of_ne _ _ _ _ (by simp)
      rw [hput]
      exact hr.lists b
  exact ⟨hretired.placed hp (hw.put hnone _) (Or.inr rfl) (hbits _ (by simp)),
    hretired.timed hp h (Or.inr rfl) hunblock,hretired,hn,rfl⟩

theorem delete_other (hp : Placed k) (h : Timed 1 k now due) (ht : k.states t ≠ none) (htc : t ≠ k.current) :
    Placed (k.vTaskDelete t).1 ∧ Timed 1 (k.vTaskDelete t).1 now due ∧ Retired k (k.vTaskDelete t).1 t none ∧
      (k.vTaskDelete t).1.numberOfTasks = wrap 32 ((k.numberOfTasks : ℤ)-1) ∧ (k.vTaskDelete t).2 = false := by
  obtain ⟨hr,hw,hbits,hunblock,-⟩ := withdraw_spec hp ht
  have hp₁ := hr.placed hp hw (Or.inl rfl) (hbits _ (by simp))
  have h₁ := hr.timed hp h (Or.inl rfl) hunblock
  set k₁ : Kernel τ ε := { k.withdraw t with numberOfTasks := wrap 32 ((k.numberOfTasks : ℤ)-1) } with hk₁
  have hp₂ : Placed k₁ := hp₁.congr rfl rfl rfl
  have h₂ : Timed 1 k₁ now due := ⟨h₁.1,h₁.2,h₁.3,h₁.4,h₁.5⟩
  obtain ⟨hf,hl,htcb,htop⟩ := reset_frame k₁
  rw [vTaskDelete_eq hp ht,if_neg htc,← hk₁]
  refine ⟨hp₂.congr hl htcb htop,hp₂.reset_timed h₂,?_,hf.numberOfTasks,rfl⟩
  refine ⟨htcb.trans hr.tcb,hf.current.trans hr.current,hf.suspended.trans hr.suspended,
    hf.pendedTicks.trans hr.pendedTicks,hf.yieldPending.trans hr.yieldPending,hf.running.trans hr.running,
    hf.delayedTaskList.trans hr.delayedTaskList,hf.tickCount.trans hr.tickCount,?_,?_,?_,fun b => ?_⟩
  · rw [← hr.states]
    funext u
    rw [Kernel.states,hl]
    rfl
  · rw [← hr.events]
    funext u
    rw [Kernel.events,hl]
    rfl
  · rw [hl]
    exact hr.value
  · rw [hl]
    exact hr.lists b

/-- The idle task frees what a task has used that has deleted itself. -/
theorem terminate_spec (hp : Placed k) (h : Timed 1 k now due) :
    (k.prvCheckTasksWaitingTermination = k ∧ ∀ t, k.states t ≠ some .waitingTermination) ∨
    ∃ t, k.states t = some .waitingTermination ∧ Placed k.prvCheckTasksWaitingTermination ∧
      Timed 1 k.prvCheckTasksWaitingTermination now due ∧
      Retired k k.prvCheckTasksWaitingTermination t none ∧
      k.prvCheckTasksWaitingTermination.numberOfTasks = wrap 32 ((k.numberOfTasks : ℤ)-1) := by
  rw [Kernel.prvCheckTasksWaitingTermination]
  cases hx : k.lists.listGetHeadEntry .waitingTermination with
  | none => exact Or.inl ⟨rfl,fun t => head_none hp.wellFormed hx (.state t)⟩
  | some x =>
    have hc := head_container hp.wellFormed hx
    cases x with
    | event u => cases hp.event_list u _ hc
    | state t =>
      have hnone : k.events t = none := by
        by_contra hne
        obtain ⟨b,hb⟩ := hp.waiting t hne
        cases hb.symm.trans hc
      have hretired : Retired k { (k.remove (.state t)).1 with
          numberOfTasks := wrap 32 ((k.numberOfTasks : ℤ)-1) } t none := by
        refine ⟨rfl,rfl,rfl,rfl,rfl,rfl,rfl,rfl,states_remove_state k t,?_,Lists.remove_value ..,
          fun b => Lists.remove_sublist ..⟩
        rw [← hnone,Function.update_eq_self]
        exact events_remove_state k t
      have hw := hp.wellFormed.remove (x := .state t) (by rw [hc]; simp)
      refine Or.inr ⟨t,hc,hretired.placed hp hw (Or.inl rfl) ?_,
        hretired.timed hp h (Or.inl rfl) rfl,hretired,rfl⟩
      exact hp.bits.elsewhere (fun q hq => by cases hq.symm.trans hc) (by simp)

omit [DecidableEq τ] [DecidableEq ε] in
theorem Placed.events_none (hp : Placed k) (ht : ∀ b, k.states t ≠ some (.delayed b)) : k.events t = none := by
  by_contra hne
  obtain ⟨b,hb⟩ := hp.waiting t hne
  exact ht b hb

theorem enlist_spec (hp : Placed k) (h : Timed 1 k now due) (ht : k.states t = none) :
    Placed (k.prvAddTaskToReadyList t) ∧ Timed 1 (k.prvAddTaskToReadyList t) now due ∧
      (k.prvAddTaskToReadyList t).states = Function.update k.states t (some (.ready (k.priority t))) ∧
      (k.prvAddTaskToReadyList t).events = k.events := by
  have hstates : (k.prvAddTaskToReadyList t).states = Function.update k.states t (some (.ready (k.priority t))) :=
    states_insertEnd_state ..
  have hevents : (k.prvAddTaskToReadyList t).events = k.events := events_insertEnd_state ..
  have hnone := hp.events_none (t := t) (by rw [ht]; simp)
  have hpriority : (k.prvAddTaskToReadyList t).priority t = k.priority t := rfl
  refine ⟨hp.move (t := t) (hp.wellFormed.put ht _) (fun u _ => hp.waiting u) ?_ ?_ ?_ ?_ (hp.priority_lt t) ?_,
    ?_,hstates,hevents⟩
  · intro u hut
    rw [hstates,hevents,Function.update_of_ne hut]
    exact ⟨rfl,rfl,rfl⟩
  · intro l hl
    rw [hstates,Function.update_self] at hl
    cases hl
    rfl
  · intro l hl
    rw [hevents,hnone] at hl
    cases hl
  · intro p hp
    rw [hstates,Function.update_self] at hp
    cases hp
    exact hpriority.symm
  · rw [hstates]
    exact hp.bits.enter (by rw [ht]; simp) _
  · refine h.transfer hp.toListed rfl rfl rfl (fun u => rfl) (fun u b hu => ?_) fun b => ?_
    · rw [hstates] at hu
      by_cases hut : u = t
      · rw [hut,Function.update_self] at hu
        cases hu
      · rwa [Function.update_of_ne hut] at hu
    · rw [add_list _ _ (by simp)]

theorem Left.placed {k₁ : Kernel τ ε} (hleft : Left k k₁ t) (hp : Placed k) (h : Timed 1 k now due)
    (ht : k.states t ≠ none) (hnone : k.events t = none) : Placed k₁ ∧ Timed 1 k₁ now due ∧ k₁.states = Function.update k.states t none ∧
      k₁.events = k.events := by
  have hstates : k₁.states = Function.update k.states t none := by
    rw [← states_remove_state]
    funext u
    rw [Kernel.states,hleft.lists]
    rfl
  have hevents : k₁.events = k.events := by
    rw [← events_remove_state k t]
    funext u
    rw [Kernel.events,hleft.lists]
    rfl
  have hretired : Retired k k₁ t none := by
    refine ⟨hleft.tcb,hleft.frame.current,hleft.frame.suspended,hleft.frame.pendedTicks,hleft.frame.yieldPending,
      hleft.frame.running,hleft.frame.delayedTaskList,hleft.frame.tickCount,hstates,?_,?_,fun b => ?_⟩
    · rw [hevents,← hnone,Function.update_eq_self]
    · rw [hleft.lists,Lists.remove_value]
    · rw [hleft.lists]
      exact Lists.remove_sublist ..
  refine ⟨hretired.placed hp ?_ (Or.inl rfl) (hleft.bits _ (by simp)),
    hretired.timed hp h (Or.inl rfl) hleft.unblock,hstates,hevents⟩
  rw [hleft.lists]
  exact hp.wellFormed.remove ht

omit [DecidableEq ε] in
theorem rank_spec (hp : Placed k) (h : Timed 1 k now due) (hs : ∀ q, k.states t ≠ some (.ready q)) {p : ℕ}
    (hlt : p < configMaxPriorities) (hbase : (k.tcb t).basePriority ≤ p) :
    Placed (k.setPriority t p) ∧ Timed 1 (k.setPriority t p) now due := by
  refine ⟨hp.move (t := t) hp.wellFormed (fun u _ => hp.waiting u) ?_ (hp.state_list t) ?_ ?_ ?_ hp.bits,
    ⟨h.1,h.2,h.3,h.4,h.5⟩⟩
  · intro u hut
    exact ⟨rfl,rfl,Function.update_of_ne hut ..⟩
  · intro l hl
    exact ⟨hp.event_list t l hl,hp.waiting t (by intro he; cases he.symm.trans hl)⟩
  · intro q hq
    exact absurd hq (hs q)
  · simp only [Kernel.setPriority,Kernel.priority,Function.update_self]
    exact ⟨hlt,hbase⟩

omit [DecidableEq ε] in
/-- Nothing depends on the values of the event items but the order of their lists. -/
theorem setValue_spec (hp : Placed k) (h : Timed 1 k now due) (t : τ) (n : ℕ) :
    Placed (k.setValue (.event t) n) ∧ Timed 1 (k.setValue (.event t) n) now due := by
  refine ⟨⟨⟨⟨hp.wellFormed.mem_iff,hp.wellFormed.nodup,hp.wellFormed.index_le,hp.wellFormed.sound⟩,hp.state_list,
    hp.event_list,hp.ready_priority,hp.priority_lt,hp.bits⟩,hp.waiting⟩,?_⟩
  refine h.transfer hp.toListed rfl rfl rfl (fun u => ?_) (fun _ _ hu => hu) fun b => List.Sublist.refl _
  simp [Kernel.setValue,Lists.listSetListItemValue]

def newPriority (p : ℕ) : ℕ := if configMaxPriorities ≤ p then configMaxPriorities-1 else p

theorem newPriority_lt (p : ℕ) : newPriority p < configMaxPriorities := by
  rw [newPriority,configMaxPriorities]
  split <;> omega

structure Created (k k' : Kernel τ ε) (t : τ) (p : ℕ) : Prop where
  states : k'.states = Function.update k.states t (some (.ready p))
  events : k'.events = k.events
  priority : k'.priority = Function.update k.priority t p
  suspended : k'.suspended = k.suspended
  pendedTicks : k'.pendedTicks = k.pendedTicks
  yieldPending : k'.yieldPending = k.yieldPending
  running : k'.running = k.running
  numberOfTasks : k'.numberOfTasks = k.numberOfTasks+1
  current : k'.current = if k.numberOfTasks = 0 then t
    else if k.running = false ∧ k'.priority k.current ≤ p then t else k.current

theorem create_spec (hp : Placed k) (h : Timed 1 k now due) (ht : k.states t = none)
    (hn : k.numberOfTasks < 2^32-1) (p : ℕ) :
    Placed (k.xTaskCreate t p).1 ∧ Timed 1 (k.xTaskCreate t p).1 now due ∧
      Created k (k.xTaskCreate t p).1 t (newPriority p) ∧
      (k.xTaskCreate t p).2 = (k.running &&
        decide ((k.xTaskCreate t p).1.priority (k.xTaskCreate t p).1.current < newPriority p)) := by
  have hnone := hp.events_none (t := t) (by rw [ht]; simp)
  set k₀ := k.prvInitialiseNewTask t p with hk₀
  have hcontainer : k₀.lists.container = k.lists.container := by
    show Function.update (Function.update k.lists.container (.state t) none) (.event t) none = _
    have hstate : Function.update k.lists.container (.state t) none = k.lists.container := by
      conv_lhs => rw [← show k.lists.container (.state t) = none from ht]
      exact Function.update_eq_self ..
    rw [hstate]
    conv_lhs => rw [← show k.lists.container (.event t) = none from hnone]
    exact Function.update_eq_self ..
  have hstates : k₀.states = k.states := funext fun u => by rw [Kernel.states,hcontainer]; rfl
  have hevents : k₀.events = k.events := funext fun u => by rw [Kernel.events,hcontainer]; rfl
  have htcb : k₀.tcb = Function.update k.tcb t ⟨newPriority p,newPriority p,0⟩ := rfl
  have hpriority : k₀.priority = Function.update k.priority t (newPriority p) := by
    funext u
    rw [Kernel.priority,htcb]
    by_cases hut : u = t
    · rw [hut,Function.update_self,Function.update_self]
    · rw [Function.update_of_ne hut,Function.update_of_ne hut]
      rfl
  have hp₀ : Placed k₀ := by
    refine hp.move (t := t) ⟨fun x l => ?_,hp.wellFormed.nodup,hp.wellFormed.index_le,hp.wellFormed.sound⟩
      (fun u _ => hp.waiting u) ?_ ?_ ?_ ?_ ?_ ?_
    · rw [hcontainer]
      exact hp.wellFormed.mem_iff x l
    · intro u hut
      rw [hstates,hevents,htcb,Function.update_of_ne hut]
      exact ⟨rfl,rfl,rfl⟩
    · rw [hstates]
      exact hp.state_list t
    · intro l hl
      rw [hevents,hnone] at hl
      cases hl
    · intro q hq
      rw [hstates,ht] at hq
      cases hq
    · rw [hpriority,htcb,Function.update_self,Function.update_self]
      exact ⟨newPriority_lt p,le_rfl⟩
    · rw [hstates]
      exact hp.bits
  have h₀ : Timed 1 k₀ now due := by
    refine h.transfer hp.toListed rfl rfl rfl (fun u => ?_) (fun u b hu => by rwa [hstates] at hu)
      fun b => List.Sublist.refl _
    simp [hk₀,Kernel.prvInitialiseNewTask,Kernel.setValue,Lists.listSetListItemValue,Lists.vListInitialiseItem]
  set k₁ : Kernel τ ε := { k₀ with
    numberOfTasks := wrap 32 ((k₀.numberOfTasks : ℤ)+1)
    current := if k₀.numberOfTasks = 0 then t
      else if k₀.running = false ∧ k₀.priority k₀.current ≤ k₀.priority t then t else k₀.current } with hk₁
  have hp₁ : Placed k₁ := hp₀.congr rfl rfl rfl
  have h₁ : Timed 1 k₁ now due := ⟨h₀.1,h₀.2,h₀.3,h₀.4,h₀.5⟩
  obtain ⟨hp₂,h₂,hs₂,he₂⟩ := enlist_spec hp₁ h₁ (t := t) (by rw [← ht,← hstates]; rfl)
  have hpt : k₁.priority t = newPriority p := by
    show k₀.priority t = _
    rw [hpriority,Function.update_self]
  have hcode : k.xTaskCreate t p = (k₁.prvAddTaskToReadyList t,k₁.running &&
      decide (k₁.priority k₁.current < newPriority p)) := by
    rw [← hpt]
    rfl
  rw [hcode]
  refine ⟨hp₂,h₂,⟨?_,he₂.trans hevents,hpriority,rfl,rfl,rfl,rfl,?_,?_⟩,rfl⟩
  · rw [hs₂,hpt,← hstates]
    rfl
  · show wrap 32 ((k.numberOfTasks : ℤ)+1) = k.numberOfTasks+1
    rw [wrap_tick (by omega),if_neg (by omega)]
  · show (if k.numberOfTasks = 0 then t
      else if k.running = false ∧ k₀.priority k.current ≤ k₀.priority t then t else k.current) = _
    rw [show k₀.priority t = newPriority p from hpt]
    rfl

end Tasks

section Priorities

/-- A task has a new priority, and its place follows if it is ready. -/
structure Ranked (k k' : Kernel τ ε) (t : τ) (p : ℕ) : Prop where
  frame : Frame k k'
  priority : k'.priority = Function.update k.priority t p
  states : ∀ u, k'.states u = k.states u ∨
    (u = t ∧ (∃ q, k.states t = some (.ready q)) ∧ k'.states t = some (.ready p))
  events : k'.events = k.events

variable {p : ℕ}

omit [DecidableEq ε] in
theorem Ranked.same (k : Kernel τ ε) (t : τ) : Ranked k k t (k.priority t) :=
  ⟨⟨rfl,rfl,rfl,rfl,rfl,rfl,rfl,rfl⟩,(Function.update_eq_self ..).symm,fun _ => Or.inl rfl,rfl⟩

omit [DecidableEq ε] in
theorem setPriority_priority (k : Kernel τ ε) (t : τ) (p : ℕ) :
    (k.setPriority t p).priority = Function.update k.priority t p := by
  funext u
  by_cases hut : u = t
  · simp [Kernel.priority,Kernel.setPriority,hut]
  · simp [Kernel.priority,Kernel.setPriority,hut]

omit [DecidableEq ε] in
theorem resetEventItemValue_cases (k : Kernel τ ε) (t : τ) (p : ℕ) :
    k.resetEventItemValue t p = k ∨ ∃ n, k.resetEventItemValue t p = k.setValue (.event t) n := by
  rw [Kernel.resetEventItemValue]
  split_ifs
  · exact Or.inr ⟨_,rfl⟩
  · exact Or.inl rfl

omit [DecidableEq ε] in
/-- Everything but the values of the event items is kept. -/
theorem resetEventItemValue_kept (k : Kernel τ ε) (t : τ) (p : ℕ) :
    Frame k (k.resetEventItemValue t p) ∧ (k.resetEventItemValue t p).tcb = k.tcb ∧
      (k.resetEventItemValue t p).lists.container = k.lists.container ∧
      (k.resetEventItemValue t p).lists.list = k.lists.list ∧
      (k.resetEventItemValue t p).lists.faulted = k.lists.faulted ∧
      (k.resetEventItemValue t p).topReadyPriority = k.topReadyPriority ∧
      (k.resetEventItemValue t p).nextTaskUnblockTime = k.nextTaskUnblockTime ∧
      ∀ u, (k.resetEventItemValue t p).lists.value (.state u) = k.lists.value (.state u) := by
  rcases resetEventItemValue_cases k t p with he | ⟨n,he⟩
  · rw [he]
    exact ⟨⟨rfl,rfl,rfl,rfl,rfl,rfl,rfl,rfl⟩,rfl,rfl,rfl,rfl,rfl,rfl,fun _ => rfl⟩
  · rw [he]
    refine ⟨⟨rfl,rfl,rfl,rfl,rfl,rfl,rfl,rfl⟩,rfl,rfl,rfl,rfl,rfl,rfl,fun u => ?_⟩
    simp [Kernel.setValue,Lists.listSetListItemValue]

omit [DecidableEq ε] in
theorem resetEventItemValue_spec (hp : Placed k) (h : Timed 1 k now due) (t : τ) (p : ℕ) :
    Placed (k.resetEventItemValue t p) ∧ Timed 1 (k.resetEventItemValue t p) now due := by
  rcases resetEventItemValue_cases k t p with he | ⟨n,he⟩
  · rw [he]
    exact ⟨hp,h⟩
  · rw [he]
    exact setValue_spec hp h t n

theorem requeue_spec (hp : Placed k) (h : Timed 1 k now due) {q : ℕ} (ht : k.states t = some (.ready q))
    (hlt : p < configMaxPriorities) (hbase : (k.tcb t).basePriority ≤ p) :
    Placed (((k.removeState t).setPriority t p).prvAddTaskToReadyList t) ∧
      Timed 1 (((k.removeState t).setPriority t p).prvAddTaskToReadyList t) now due ∧
      Ranked k (((k.removeState t).setPriority t p).prvAddTaskToReadyList t) t p := by
  have hsome : k.states t ≠ none := by rw [ht]; simp
  have hleft := hp.removeState hsome
  have hnone := hp.events_none (t := t) (by rw [ht]; simp)
  obtain ⟨hp₁,h₁,hs₁,he₁⟩ := hleft.placed hp h hsome hnone
  have hgone : (k.removeState t).states t = none := by rw [hs₁,Function.update_self]
  obtain ⟨hp₂,h₂⟩ := rank_spec hp₁ h₁ (t := t) (by rw [hgone]; simp) hlt (by rw [hleft.tcb]; exact hbase)
  obtain ⟨hp₃,h₃,hs₃,he₃⟩ := enlist_spec hp₂ h₂ (t := t) hgone
  have hpriority : ((k.removeState t).setPriority t p).priority = Function.update k.priority t p := by
    rw [setPriority_priority]
    congr 1
    funext u
    rw [Kernel.priority,hleft.tcb]
    rfl
  refine ⟨hp₃,h₃,⟨?_,hpriority,fun u => ?_,he₃.trans he₁⟩⟩
  · exact hleft.frame.trans ⟨rfl,rfl,rfl,rfl,rfl,rfl,rfl,rfl⟩
  · have hstates : ((k.removeState t).setPriority t p).states = Function.update k.states t none := hs₁
    rw [hs₃,hstates,hpriority,Function.update_self,Function.update_idem]
    by_cases hut : u = t
    · exact Or.inr ⟨hut,⟨q,ht⟩,Function.update_self ..⟩
    · exact Or.inl (Function.update_of_ne hut ..)

/-- The holder of a mutex gets the priority of the running task if that one is higher. -/
theorem inherit_spec (hp : Placed k) (h : Timed 1 k now due) (t : τ) :
    Placed (k.xTaskPriorityInherit t).1 ∧ Timed 1 (k.xTaskPriorityInherit t).1 now due ∧
      Ranked k (k.xTaskPriorityInherit t).1 t (max (k.priority t) (k.priority k.current)) := by
  by_cases hlt : k.priority t < k.priority k.current
  · obtain ⟨hf,htcb,hcontainer,-⟩ := resetEventItemValue_kept k t (k.priority k.current)
    obtain ⟨hp₁,h₁⟩ := resetEventItemValue_spec hp h t (k.priority k.current)
    set k₁ := k.resetEventItemValue t (k.priority k.current) with hk₁
    have hstates : k₁.states = k.states := funext fun u => by rw [Kernel.states,hcontainer]; rfl
    have hevents : k₁.events = k.events := funext fun u => by rw [Kernel.events,hcontainer]; rfl
    have hpriority : k₁.priority = k.priority := funext fun u => by rw [Kernel.priority,htcb]; rfl
    have hmax : max (k.priority t) (k.priority k.current) = k.priority k.current := max_eq_right hlt.le
    have hbase : (k₁.tcb t).basePriority ≤ k.priority k.current := by
      rw [htcb]
      exact (hp.priority_lt t).2.trans hlt.le
    have hcode : k.xTaskPriorityInherit t = if k₁.states t = some (.ready (k.priority t)) then
        (((k₁.removeState t).setPriority t (k.priority k.current)).prvAddTaskToReadyList t,true)
        else (k₁.setPriority t (k.priority k.current),true) := by
      rw [Kernel.xTaskPriorityInherit]
      dsimp only
      rw [if_pos hlt,← hk₁,hpriority]
      rfl
    rw [hcode,hmax]
    split_ifs with hready
    · obtain ⟨hp₂,h₂,hr⟩ := requeue_spec hp₁ h₁ hready (hp.priority_lt _).1 hbase
      refine ⟨hp₂,h₂,⟨hf.trans hr.frame,?_,?_,hr.events.trans hevents⟩⟩
      · rw [hr.priority,hpriority]
      · rw [← hstates]
        exact hr.states
    · have hnot : ∀ q, k₁.states t ≠ some (.ready q) := by
        intro q hq
        have := hp₁.ready_priority t q hq
        rw [hpriority] at this
        exact hready (this ▸ hq)
      obtain ⟨hp₂,h₂⟩ := rank_spec hp₁ h₁ hnot (hp.priority_lt k.current).1 hbase
      refine ⟨hp₂,h₂,⟨hf.trans ⟨rfl,rfl,rfl,rfl,rfl,rfl,rfl,rfl⟩,?_,fun u => Or.inl ?_,?_⟩⟩
      · rw [setPriority_priority,hpriority]
      · rw [← hstates]
        rfl
      · rw [← hevents]
        rfl
  · have hmax : max (k.priority t) (k.priority k.current) = k.priority t := max_eq_left (not_lt.mp hlt)
    have hcode : (k.xTaskPriorityInherit t).1 = k := by
      rw [Kernel.xTaskPriorityInherit]
      dsimp only
      rw [if_neg hlt]
    rw [hcode,hmax]
    exact ⟨hp,h,Ranked.same ..⟩

omit [DecidableEq ε] in
/-- The number of mutexes that a task holds is nothing that the lists depend on. -/
theorem held_spec (hp : Placed k) (h : Timed 1 k now due) (t : τ) (n : ℕ) :
    Placed { k with tcb := Function.update k.tcb t { k.tcb t with mutexesHeld := n } } ∧
      Timed 1 { k with tcb := Function.update k.tcb t { k.tcb t with mutexesHeld := n } } now due ∧
      Ranked k { k with tcb := Function.update k.tcb t { k.tcb t with mutexesHeld := n } } t (k.priority t) := by
  set k₁ : Kernel τ ε := { k with tcb := Function.update k.tcb t { k.tcb t with mutexesHeld := n } } with hk₁
  have htcb : ∀ u, (k₁.tcb u).priority = (k.tcb u).priority ∧ (k₁.tcb u).basePriority = (k.tcb u).basePriority := by
    intro u
    by_cases hut : u = t
    · rw [hut]
      simp [hk₁]
    · simp [hk₁,hut]
  have hpriority : k₁.priority = k.priority := funext fun u => (htcb u).1
  refine ⟨⟨⟨hp.wellFormed,hp.state_list,hp.event_list,?_,fun u => ?_,hp.bits⟩,hp.waiting⟩,
    ⟨h.1,h.2,h.3,h.4,h.5⟩,⟨⟨rfl,rfl,rfl,rfl,rfl,rfl,rfl,rfl⟩,?_,fun u => Or.inl rfl,rfl⟩⟩
  · rw [hpriority]
    exact hp.ready_priority
  · rw [hpriority,(htcb u).2]
    exact hp.priority_lt u
  · rw [hpriority,Function.update_eq_self]

/-- A task that gives its last mutex back has its own priority again. -/
theorem disinherit_spec (hp : Placed k) (h : Timed 1 k now due) {q : ℕ} (ht : k.states t = some (.ready q)) :
    Placed (k.xTaskPriorityDisinherit t).1 ∧ Timed 1 (k.xTaskPriorityDisinherit t).1 now due ∧
      ∃ p, Ranked k (k.xTaskPriorityDisinherit t).1 t p ∧
        ((k.xTaskPriorityDisinherit t).2 = false → p = k.priority t) := by
  set held := wrap 32 (((k.tcb t).mutexesHeld : ℤ)-1) with hheld
  obtain ⟨hp₁,h₁,hr₁⟩ := held_spec hp h t held
  set k₁ : Kernel τ ε := { k with tcb := Function.update k.tcb t { k.tcb t with mutexesHeld := held } } with hk₁
  have hbase : (k₁.tcb t).basePriority = (k.tcb t).basePriority := by simp [hk₁]
  have hpriority : k₁.priority = k.priority := by rw [hr₁.priority,Function.update_eq_self]
  set k₂ := ((k₁.removeState t).setPriority t (k.tcb t).basePriority) with hk₂
  have hcode : k.xTaskPriorityDisinherit t = if k.priority t ≠ (k.tcb t).basePriority ∧ held = 0 then
      ((k₂.setValue (.event t) (configMaxPriorities-k₂.priority t)).prvAddTaskToReadyList t,true)
      else (k₁,false) := by
    have hunfold : k.xTaskPriorityDisinherit t = if k₁.priority t ≠ (k₁.tcb t).basePriority then
        if held = 0 then
          let k₂ := (k₁.removeState t).setPriority t (k₁.tcb t).basePriority
          ((k₂.setValue (.event t) (configMaxPriorities-k₂.priority t)).prvAddTaskToReadyList t,true)
        else (k₁,false)
      else (k₁,false) := rfl
    rw [hunfold,hpriority,hbase]
    by_cases hne : k.priority t ≠ (k.tcb t).basePriority
    · by_cases hzero : held = 0
      · rw [if_pos hne,if_pos hzero,if_pos ⟨hne,hzero⟩]
      · rw [if_pos hne,if_neg hzero,if_neg (fun hc => hzero hc.2)]
    · rw [if_neg hne,if_neg (fun hc => hne hc.1)]
  rw [hcode]
  split_ifs with hgive
  · have hready : k₁.states t = some (.ready q) := ht
    have hlow : (k.tcb t).basePriority < configMaxPriorities := (hp.priority_lt t).2.trans_lt (hp.priority_lt t).1
    obtain ⟨hp₃,h₃,hr₃⟩ := requeue_spec hp₁ h₁ hready hlow hbase.le
    obtain ⟨hp₄,h₄⟩ := setValue_spec hp₃ h₃ t (configMaxPriorities-k₂.priority t)
    refine ⟨hp₄,h₄,(k.tcb t).basePriority,?_,nofun⟩
    have hr₄ := hr₃
    rw [← hk₂] at hr₄
    refine ⟨hr₁.frame.trans (hr₄.frame.trans ⟨rfl,rfl,rfl,rfl,rfl,rfl,rfl,rfl⟩),?_,hr₄.states,hr₄.events⟩
    rw [← hpriority]
    exact hr₄.priority
  · exact ⟨hp₁,h₁,k.priority t,hr₁,fun _ => rfl⟩

/-- The priority that the holder of a mutex keeps when a task no longer waits for it. -/
def keptPriority (k : Kernel τ ε) (t : τ) (highestWaiting : ℕ) : ℕ :=
  if (k.tcb t).basePriority < highestWaiting then highestWaiting else (k.tcb t).basePriority

/-- A ready task whose priority has been changed in its place moves to its list. -/
theorem rerank_spec {k₁ : Kernel τ ε} (hp : Placed k) (h : Timed 1 k now due) {q : ℕ}
    (ht : k.states t = some (.ready q)) (hother : ∃ u, u ≠ t ∧ k.states u = some (.ready q))
    (hframe : Frame k k₁) (hcontainer : k₁.lists.container = k.lists.container) (hlist : k₁.lists.list = k.lists.list)
    (hsound : k₁.lists.faulted = k.lists.faulted)
    (hvalue : ∀ u, k₁.lists.value (.state u) = k.lists.value (.state u))
    (htop : k₁.topReadyPriority = k.topReadyPriority) (hunblock : k₁.nextTaskUnblockTime = k.nextTaskUnblockTime)
    (htcb : ∀ u, u ≠ t → k₁.tcb u = k.tcb u) (hlt : k₁.priority t < configMaxPriorities)
    (hbase : (k₁.tcb t).basePriority ≤ k₁.priority t) :
    Placed ((k₁.removeState t).prvAddTaskToReadyList t) ∧
      Timed 1 ((k₁.removeState t).prvAddTaskToReadyList t) now due ∧
      Ranked k ((k₁.removeState t).prvAddTaskToReadyList t) t (k₁.priority t) := by
  have hw : k₁.lists.WellFormed :=
    ⟨fun x l => by rw [hcontainer,hlist]; exact hp.wellFormed.mem_iff x l,by rw [hlist]; exact hp.wellFormed.nodup,
      by rw [hlist]; exact hp.wellFormed.index_le,hsound.trans hp.wellFormed.sound⟩
  have hs₁ : k₁.states = k.states := funext fun u => by rw [Kernel.states,hcontainer]; rfl
  have he₁ : k₁.events = k.events := funext fun u => by rw [Kernel.events,hcontainer]; rfl
  have hnone := hp.events_none (t := t) (by rw [ht]; simp)
  have hcode : k₁.removeState t = (k₁.remove (.state t)).1 := by
    rcases removeState_cases k₁ t with ⟨hzero,-,-⟩ | ⟨-,hcode⟩
    · obtain ⟨u,hut,hu⟩ := hother
      rw [← hs₁] at hu ht
      exact absurd hu ((hw.remove_count ht).mp hzero (.state u) (by simpa using hut))
    · exact hcode
  rw [hcode]
  set k₂ := (k₁.remove (.state t)).1.prvAddTaskToReadyList t with hk₂
  have hstates : k₂.states = Function.update k.states t (some (.ready (k₁.priority t))) := by
    rw [hk₂,Kernel.prvAddTaskToReadyList,states_insertEnd_state]
    show Function.update (k₁.remove (.state t)).1.states t _ = _
    rw [states_remove_state,Function.update_idem,hs₁]
    rfl
  have hevents : k₂.events = k.events := by
    rw [hk₂,Kernel.prvAddTaskToReadyList,events_insertEnd_state]
    show (k₁.remove (.state t)).1.events = _
    rw [events_remove_state,he₁]
  have hpriority : k₂.priority = k₁.priority := rfl
  have hsome : k₁.states t ≠ none := by rw [hs₁,ht]; simp
  refine ⟨hp.move (t := t) ((hw.remove hsome).put (by simp) _)
    (fun u _ => hp.waiting u) ?_ ?_ ?_ ?_ ⟨hlt,hbase⟩ ?_,?_,⟨?_,?_,fun u => ?_,hevents⟩⟩
  · intro u hut
    rw [hstates,hevents,Function.update_of_ne hut]
    exact ⟨rfl,rfl,htcb u hut⟩
  · intro l hl
    rw [hstates,Function.update_self] at hl
    cases hl
    rfl
  · intro l hl
    rw [hevents,hnone] at hl
    cases hl
  · intro r hr
    rw [hstates,Function.update_self] at hr
    cases hr
    rfl
  · have hbits := (hp.bits.leave_others (v := none) ht hother (by simp)).enter (t := t) (by simp) (k₁.priority t)
    rw [Function.update_idem,← htop] at hbits
    rw [hstates]
    exact hbits
  · refine h.transfer hp.toListed hframe.tickCount hframe.delayedTaskList hunblock (fun u => ?_) (fun u b hu => ?_)
      fun b => ?_
    · rw [← hvalue u,← Lists.remove_value k₁.lists (.state t)]
      rfl
    · rw [hstates] at hu
      by_cases hut : u = t
      · rw [hut,Function.update_self] at hu
        cases hu
      · rwa [Function.update_of_ne hut] at hu
    · rw [hk₂,add_list _ _ (by simp),← hlist]
      exact Lists.remove_sublist ..
  · exact hframe.trans ⟨rfl,rfl,rfl,rfl,rfl,rfl,rfl,rfl⟩
  · rw [hpriority]
    funext u
    by_cases hut : u = t
    · rw [hut,Function.update_self]
    · rw [Function.update_of_ne hut,Kernel.priority,htcb u hut]
      rfl
  · rw [hstates]
    by_cases hut : u = t
    · exact Or.inr ⟨hut,⟨q,ht⟩,Function.update_self ..⟩
    · exact Or.inl (Function.update_of_ne hut ..)

def Kernel.lowered (k : Kernel τ ε) (t : τ) (n : ℕ) : Kernel τ ε :=
  (k.setPriority t (keptPriority k t n)).resetEventItemValue t (keptPriority k t n)

theorem afterTimeout_eq (k : Kernel τ ε) (t : τ) (n : ℕ) : k.vTaskPriorityDisinheritAfterTimeout t n =
    if k.priority t ≠ keptPriority k t n ∧ (k.tcb t).mutexesHeld = 1 then
      if (k.lowered t n).states t = some (.ready (k.priority t)) then
        ((k.lowered t n).removeState t).prvAddTaskToReadyList t
      else k.lowered t n
    else k := by
  have hunfold : k.vTaskPriorityDisinheritAfterTimeout t n = if k.priority t ≠ keptPriority k t n then
      if (k.tcb t).mutexesHeld = 1 then
        if (k.lowered t n).states t = some (.ready (k.priority t)) then
          ((k.lowered t n).removeState t).prvAddTaskToReadyList t
        else k.lowered t n
      else k
    else k := rfl
  rw [hunfold]
  by_cases hne : k.priority t ≠ keptPriority k t n
  · by_cases hone : (k.tcb t).mutexesHeld = 1
    · rw [if_pos hne,if_pos hone,if_pos (And.intro hne hone)]
    · rw [if_pos hne,if_neg hone,if_neg (fun hc => hone hc.2)]
  · rw [if_neg hne,if_neg (fun hc => hne hc.1)]

omit [DecidableEq ε] in
theorem lowered_kept (k : Kernel τ ε) (t : τ) (n : ℕ) :
    Frame k (k.lowered t n) ∧ (k.lowered t n).lists.container = k.lists.container ∧
      (k.lowered t n).lists.list = k.lists.list ∧ (k.lowered t n).lists.faulted = k.lists.faulted ∧
      (∀ u, (k.lowered t n).lists.value (.state u) = k.lists.value (.state u)) ∧
      (k.lowered t n).topReadyPriority = k.topReadyPriority ∧
      (k.lowered t n).nextTaskUnblockTime = k.nextTaskUnblockTime ∧ (∀ u, u ≠ t → (k.lowered t n).tcb u = k.tcb u) ∧
      (k.lowered t n).priority = Function.update k.priority t (keptPriority k t n) ∧
      ((k.lowered t n).tcb t).basePriority = (k.tcb t).basePriority := by
  obtain ⟨hf,htcb,hcontainer,hlist,hsound,htop,hunblock,hvalue⟩ :=
    resetEventItemValue_kept (k.setPriority t (keptPriority k t n)) t (keptPriority k t n)
  refine ⟨⟨hf.1,hf.2,hf.3,hf.4,hf.5,hf.6,hf.7,hf.8⟩,hcontainer,hlist,hsound,hvalue,htop,hunblock,fun u hut => ?_,?_,?_⟩
  · rw [Kernel.lowered,htcb]
    exact Function.update_of_ne hut ..
  · rw [← setPriority_priority]
    funext u
    rw [Kernel.priority,Kernel.lowered,htcb]
    rfl
  · rw [Kernel.lowered,htcb]
    simp [Kernel.setPriority]

omit [DecidableEq τ] [DecidableEq ε] in
theorem keptPriority_bounds (hp : Placed k) {n : ℕ} (hn : n < configMaxPriorities) :
    (k.tcb t).basePriority ≤ keptPriority k t n ∧ keptPriority k t n < configMaxPriorities := by
  have := hp.priority_lt t
  rw [keptPriority]
  split_ifs <;> omega

/-- If another task has the priority of the holder, nothing is lost with the bit that is not reset. -/
theorem afterTimeout_spec (hp : Placed k) (h : Timed 1 k now due) {n : ℕ} (hn : n < configMaxPriorities)
    (hother : keptPriority k t n ≠ k.priority t → (k.tcb t).mutexesHeld = 1 → ∀ q, k.states t = some (.ready q) →
      ∃ u, u ≠ t ∧ k.states u = some (.ready q)) :
    Placed (k.vTaskPriorityDisinheritAfterTimeout t n) ∧ Timed 1 (k.vTaskPriorityDisinheritAfterTimeout t n) now due ∧
      ∃ p, Ranked k (k.vTaskPriorityDisinheritAfterTimeout t n) t p := by
  obtain ⟨hbase,hlt⟩ := keptPriority_bounds (t := t) hp hn
  obtain ⟨hframe,hcontainer,hlist,hsound,hvalue,htop,hunblock,htcb,hpriority,hbase₁⟩ := lowered_kept k t n
  have hpt : (k.lowered t n).priority t = keptPriority k t n := by rw [hpriority,Function.update_self]
  have hs₁ : (k.lowered t n).states = k.states := funext fun u => by rw [Kernel.states,hcontainer]; rfl
  rw [afterTimeout_eq]
  split_ifs with hchange hready
  · rw [hs₁] at hready
    obtain ⟨hp₂,h₂,hr⟩ := rerank_spec hp h hready (hother (Ne.symm hchange.1) hchange.2 _ hready) hframe hcontainer
      hlist hsound hvalue htop hunblock htcb (by rw [hpt]; exact hlt) (by rw [hpt,hbase₁]; exact hbase)
    exact ⟨hp₂,h₂,_,hr⟩
  · have hnot : ∀ q, k.states t ≠ some (.ready q) := by
      intro q hq
      rw [hs₁] at hready
      exact hready (hp.ready_priority t q hq ▸ hq)
    obtain ⟨hp₁,h₁⟩ := rank_spec hp h hnot hlt hbase
    obtain ⟨hp₂,h₂⟩ := resetEventItemValue_spec hp₁ h₁ t (keptPriority k t n)
    refine ⟨hp₂,h₂,_,hframe,hpriority,fun u => Or.inl (congrFun hs₁ u),?_⟩
    funext u
    rw [Kernel.events,hcontainer]
    rfl
  · exact ⟨hp,h,k.priority t,Ranked.same ..⟩

theorem removeState_kept (k : Kernel τ ε) (t : τ) :
    (k.removeState t).states = Function.update k.states t none ∧ (k.removeState t).priority = k.priority := by
  rw [← states_remove_state]
  rcases removeState_cases k t with ⟨-,-,hcode⟩ | ⟨-,hcode⟩
  · rw [hcode]
    exact ⟨rfl,rfl⟩
  · rw [hcode]
    exact ⟨rfl,rfl⟩

theorem testBit_removeState (hp : Placed k) {k₁ : Kernel τ ε} (htop : k₁.topReadyPriority = k.topReadyPriority)
    (hlt : k₁.priority t < configMaxPriorities) {q : ℕ} (hq : q ≠ k₁.priority t) (hu : k.states t = some (.ready q)) :
    ((k₁.removeState t).prvAddTaskToReadyList t).topReadyPriority.testBit q = true := by
  have hbit : k₁.topReadyPriority.testBit q = true := by
    rw [htop]
    exact (hp.bits q).mpr ⟨t,hu⟩
  have hremoved : (k₁.removeState t).topReadyPriority.testBit q = true := by
    simp only [configMaxPriorities] at hlt
    rcases removeState_cases k₁ t with ⟨-,-,hcode⟩ | ⟨-,hcode⟩
    · rw [hcode]
      exact (testBit_reset (by omega) _ _).mpr ⟨hbit,hp.ready_lt q t hu,hq⟩
    · rw [hcode]
      exact hbit
  exact (testBit_record ..).mpr (Or.inl hremoved)

/-- The bit map stays exact exactly if the holder is not the only task of its priority. -/
theorem afterTimeout_bits_iff (hp : Placed k) (h : Timed 1 k now due) {n q : ℕ} (hn : n ≤ k.priority t)
    (hheld : (k.tcb t).mutexesHeld = 1) (ht : k.states t = some (.ready q)) (hchange : keptPriority k t n ≠ q) :
    Bits (k.vTaskPriorityDisinheritAfterTimeout t n).topReadyPriority
        (k.vTaskPriorityDisinheritAfterTimeout t n).states ↔
      ∃ u, u ≠ t ∧ k.states u = some (.ready q) := by
  have hpriority := hp.ready_priority t q ht
  have hlt := hn.trans_lt (hp.priority_lt t).1
  constructor
  · intro hbits
    obtain ⟨-,hbound⟩ := keptPriority_bounds (t := t) hp hlt
    obtain ⟨-,hcontainer,-,-,-,htop,-,-,hnew,-⟩ := lowered_kept k t n
    have hpt : (k.lowered t n).priority t = keptPriority k t n := by rw [hnew,Function.update_self]
    have hs₁ : (k.lowered t n).states = k.states := funext fun u => by rw [Kernel.states,hcontainer]; rfl
    have hcode : k.vTaskPriorityDisinheritAfterTimeout t n =
        ((k.lowered t n).removeState t).prvAddTaskToReadyList t := by
      rw [afterTimeout_eq,if_pos ⟨by omega,hheld⟩,if_pos (by rw [hs₁,← hpriority]; exact ht)]
    have hbit := testBit_removeState hp htop (by rw [hpt]; exact hbound)
      (q := q) (by rw [hpt]; exact hchange.symm) ht
    rw [hcode] at hbits
    obtain ⟨u,hu⟩ := (hbits q).mp hbit
    obtain ⟨hremoved,hkept⟩ := removeState_kept (k.lowered t n) t
    rw [Kernel.prvAddTaskToReadyList,states_insertEnd_state] at hu
    change Function.update ((k.lowered t n).removeState t).states t _ u = _ at hu
    rw [hremoved,hs₁,hkept,hpt,Function.update_idem] at hu
    by_cases hut : u = t
    · rw [hut,Function.update_self] at hu
      cases hu
      exact absurd rfl hchange
    · rw [Function.update_of_ne hut] at hu
      exact ⟨u,hut,hu⟩
  · intro hother
    obtain ⟨hplaced,-⟩ := afterTimeout_spec hp h hlt fun _ _ r hr => by
      cases ht.symm.trans hr
      exact hother
    exact hplaced.bits

end Priorities

end Scheduler
end EmbeddedShell
