import EmbeddedShell.SchedulerInvariant

/-!
# The clock of the scheduler

A clock that never wraps says when each waiting task is due. The wake times that the
kernel keeps are the same times modulo the width of the tick count: those of the current
list lie ahead of the tick count, those of the overflow list behind it. A tick makes
exactly the tasks ready that are due.
-/

namespace EmbeddedShell
namespace Scheduler

open TaskLists

variable {τ ε : Type*}

/-- The lists of waiting tasks at the time `now`; `slack` is 1 unless a tick is being
counted. -/
structure Timed (slack : ℕ) (k : Kernel τ ε) (now : ℕ) (due : τ → ℕ) : Prop where
  tick_eq : k.tickCount = now%2^32
  sorted : ∀ b, k.lists.Sorted (.delayed b)
  ahead : ∀ t, k.states t = some (.delayed k.delayedTaskList) →
    k.tickCount+slack ≤ k.lists.value (.state t) ∧ k.lists.value (.state t) < 2^32 ∧
      due t = now-k.tickCount+k.lists.value (.state t)
  behind : ∀ t, k.states t = some (.delayed (!k.delayedTaskList)) →
    k.lists.value (.state t) < k.tickCount ∧
      due t = now-k.tickCount+2^32+k.lists.value (.state t)
  unblock : ∀ t, k.states t = some (.delayed k.delayedTaskList) →
    k.nextTaskUnblockTime ≤ k.lists.value (.state t)

section Timed

variable {k k' : Kernel τ ε} {slack now : ℕ} {due : τ → ℕ} {t : τ}

/-- No task that waits is due, and none waits longer than the tick count can say. -/
theorem Timed.lt_due (h : Timed 1 k now due) {b : Bool} (ht : k.states t = some (.delayed b)) :
    now < due t ∧ due t < now+2^32 := by
  have htick := h.tick_eq
  have hmod := Nat.mod_le now (2^32)
  have hlt := Nat.mod_lt now (show 0 < 2^32 by decide)
  by_cases hb : b = k.delayedTaskList
  · rw [hb] at ht
    have := h.ahead t ht
    omega
  · rw [show b = !k.delayedTaskList by cases b <;> cases hk : k.delayedTaskList <;> simp_all] at ht
    have := h.behind t ht
    omega

theorem wrap_tick {n : ℕ} (h : n < 2^32) :
    wrap 32 ((n : ℤ)+1) = if n = 2^32-1 then 0 else n+1 := by
  rw [show ((n : ℤ)+1) = ((n+1 : ℕ) : ℤ) by push_cast; rfl,wrap_natCast]
  split_ifs with hn
  · rw [hn]
    decide
  · exact Nat.mod_eq_of_lt (by omega)

/-- The clock depends on the tasks that wait for a time and on nothing else. -/
theorem Timed.transfer (h : Timed slack k now due) (hl : Listed k) (htick : k'.tickCount = k.tickCount)
    (hchoice : k'.delayedTaskList = k.delayedTaskList) (hunblock : k'.nextTaskUnblockTime = k.nextTaskUnblockTime)
    (hvalue : ∀ u, k'.lists.value (.state u) = k.lists.value (.state u))
    (hstates : ∀ u b, k'.states u = some (.delayed b) → k.states u = some (.delayed b))
    (hlist : ∀ b, (k'.lists.list (.delayed b)).items.Sublist (k.lists.list (.delayed b)).items) :
    Timed slack k' now due := by
  refine ⟨by rw [htick]; exact h.tick_eq,?_,?_,?_,?_⟩
  · intro b
    have hstate : ∀ x ∈ (k.lists.list (.delayed b)).items, k'.lists.value x = k.lists.value x := by
      intro x hx
      cases x with
      | state u => exact hvalue u
      | event u => cases hl.event_list u _ ((hl.wellFormed.mem_iff _ _).mp hx)
    refine List.Pairwise.sublist (hlist b) (List.Pairwise.imp_of_mem ?_ (h.sorted b))
    intro x y hx hy hxy
    rwa [hstate x hx,hstate y hy]
  · intro u hu
    rw [hchoice] at hu
    rw [htick,hvalue]
    exact h.ahead u (hstates u _ hu)
  · intro u hu
    rw [hchoice] at hu
    rw [htick,hvalue]
    exact h.behind u (hstates u _ hu)
  · intro u hu
    rw [hchoice] at hu
    rw [hunblock,hvalue]
    exact h.unblock u (hstates u _ hu)

theorem head_least (hw : k.lists.WellFormed) {b : Bool} (hs : k.lists.Sorted (.delayed b)) {x : Item τ}
    (hx : k.lists.listGetHeadEntry (.delayed b) = some x) (ht : k.states t = some (.delayed b)) :
    k.lists.value x ≤ k.lists.value (.state t) := by
  have hmem := (hw.mem_iff _ _).mpr ht
  rw [Lists.listGetHeadEntry] at hx
  rw [Lists.Sorted] at hs
  cases hitems : (k.lists.list (.delayed b)).items with
  | nil =>
    rw [hitems] at hmem
    cases hmem
  | cons y ys =>
    rw [hitems] at hmem hx hs
    rw [List.head?_cons,Option.some.injEq] at hx
    rcases List.mem_cons.mp hmem with he | hmem
    · rw [← hx,he]
    · rw [← hx]
      exact List.rel_of_pairwise_cons hs hmem

theorem head_none (hw : k.lists.WellFormed) {l : ListId ε} (hx : k.lists.listGetHeadEntry l = none)
    (x : Item τ) : k.lists.container x ≠ some l := by
  intro hc
  have hmem := (hw.mem_iff _ _).mpr hc
  rw [Lists.listGetHeadEntry,List.head?_eq_none_iff] at hx
  rw [hx] at hmem
  cases hmem

theorem head_container (hw : k.lists.WellFormed) {l : ListId ε} {x : Item τ}
    (hx : k.lists.listGetHeadEntry l = some x) : k.lists.container x = some l :=
  (hw.mem_iff _ _).mp (List.mem_of_head? hx)

theorem Placed.head_delayed (h : Placed k) {b : Bool} {x : Item τ}
    (hx : k.lists.listGetHeadEntry (.delayed b) = some x) :
    x = .state (Kernel.owner x) ∧ k.states (Kernel.owner x) = some (.delayed b) := by
  have hc := head_container h.wellFormed hx
  cases x with
  | state u => exact ⟨rfl,hc⟩
  | event u => cases h.event_list u _ hc

/-- What was put off until the head of the list is looked at. -/
theorem Placed.unblock_reset (h : Placed k) (hs : k.lists.Sorted (.delayed k.delayedTaskList))
    (ht : k.states t = some (.delayed k.delayedTaskList)) :
    k.prvResetNextTaskUnblockTime.nextTaskUnblockTime ≤ k.lists.value (.state t) := by
  rw [Kernel.prvResetNextTaskUnblockTime]
  cases hx : k.lists.listGetHeadEntry (.delayed k.delayedTaskList) with
  | none => exact absurd ht (head_none h.wellFormed hx (.state t))
  | some x => exact head_least h.wellFormed hs hx ht

theorem reset_frame (k : Kernel τ ε) : Frame k k.prvResetNextTaskUnblockTime ∧
    k.prvResetNextTaskUnblockTime.lists = k.lists ∧ k.prvResetNextTaskUnblockTime.tcb = k.tcb ∧
    k.prvResetNextTaskUnblockTime.topReadyPriority = k.topReadyPriority := by
  rw [Kernel.prvResetNextTaskUnblockTime]
  split <;> exact ⟨⟨rfl,rfl,rfl,rfl,rfl,rfl,rfl,rfl⟩,rfl,rfl,rfl⟩

/-- Everything but the clock and the choice of the lists is kept. -/
structure Counted (k k' : Kernel τ ε) : Prop where
  lists : k'.lists = k.lists
  tcb : k'.tcb = k.tcb
  top : k'.topReadyPriority = k.topReadyPriority
  current : k'.current = k.current
  suspended : k'.suspended = k.suspended
  pendedTicks : k'.pendedTicks = k.pendedTicks
  yieldPending : k'.yieldPending = k.yieldPending
  numberOfTasks : k'.numberOfTasks = k.numberOfTasks
  running : k'.running = k.running

theorem countTick_counted (k : Kernel τ ε) : Counted k k.countTick := by
  simp only [Kernel.countTick]
  split
  · rw [Kernel.switchDelayedLists]
    obtain ⟨hf,hl,ht,hp⟩ := reset_frame { k with
      tickCount := wrap 32 ((k.tickCount : ℤ)+1)
      delayedTaskList := !k.delayedTaskList
      numOfOverflows := wrap 32 ((k.numOfOverflows : ℤ)+1) }
    exact ⟨hl,ht,hp,hf.current,hf.suspended,hf.pendedTicks,hf.yieldPending,hf.numberOfTasks,hf.running⟩
  · exact ⟨rfl,rfl,rfl,rfl,rfl,rfl,rfl,rfl,rfl⟩

theorem countTick_timed_next (h : Timed 1 k now due) (hlt : k.tickCount ≠ 2^32-1) :
    Timed 0 k.countTick (now+1) due := by
  have htick := h.tick_eq
  have hmod := Nat.mod_lt now (show 0 < 2^32 by decide)
  have hle := Nat.mod_le now (2^32)
  have hnow : (now+1)%2^32 = now%2^32+1 := by omega
  have hwrap := wrap_tick (show k.tickCount < 2^32 by omega)
  rw [if_neg hlt] at hwrap
  have hcode : k.countTick = { k with tickCount := k.tickCount+1 } := by
    simp only [Kernel.countTick,hwrap]
    rw [if_neg (Nat.succ_ne_zero _)]
  rw [hcode]
  refine ⟨by dsimp only; omega,h.sorted,?_,?_,h.unblock⟩
  · intro t ht
    have := h.ahead t ht
    dsimp only
    omega
  · intro t ht
    have := h.behind t ht
    dsimp only
    omega

/-- The tick at which the tick count wraps and the lists change places. -/
theorem countTick_timed_wrap (h : Timed 1 k now due) (hp : Placed k) (hlt : k.tickCount = 2^32-1) :
    Timed 0 k.countTick (now+1) due := by
  have htick := h.tick_eq
  have hle := Nat.mod_le now (2^32)
  have hnow : (now+1)%2^32 = 0 := by omega
  have hwrap := wrap_tick (show k.tickCount < 2^32 by omega)
  rw [if_pos hlt] at hwrap
  set k₁ : Kernel τ ε := { k with
    tickCount := 0
    delayedTaskList := !k.delayedTaskList
    numOfOverflows := wrap 32 ((k.numOfOverflows : ℤ)+1) } with hk₁
  have hcode : k.countTick = k₁.prvResetNextTaskUnblockTime := by
    simp only [Kernel.countTick,hwrap,if_true,Kernel.switchDelayedLists,hk₁]
  have hp₁ : Placed k₁ := hp.congr rfl rfl rfl
  obtain ⟨hf,hl,-,-⟩ := reset_frame k₁
  have hstates : k₁.prvResetNextTaskUnblockTime.states = k.states := by
    funext u
    rw [Kernel.states,hl]
    rfl
  have hvalue : k₁.prvResetNextTaskUnblockTime.lists.value = k.lists.value := by rw [hl]
  rw [hcode]
  refine ⟨?_,?_,?_,?_,?_⟩
  · rw [hf.tickCount,hnow]
  · intro b
    rw [hl]
    exact h.sorted b
  · intro t ht
    rw [hstates,hf.delayedTaskList] at ht
    have := h.behind t ht
    rw [hf.tickCount,hvalue]
    dsimp only [k₁]
    omega
  · intro t ht
    rw [hstates,hf.delayedTaskList] at ht
    have := h.ahead t (by simpa [k₁] using ht)
    omega
  · intro t ht
    rw [hstates,hf.delayedTaskList] at ht
    rw [hl]
    exact hp₁.unblock_reset (h.sorted _) ht

theorem countTick_timed (h : Timed 1 k now due) (hp : Placed k) : Timed 0 k.countTick (now+1) due := by
  by_cases hlt : k.tickCount = 2^32-1
  · exact countTick_timed_wrap h hp hlt
  · exact countTick_timed_next h hlt

end Timed

/-- Tasks of the current list that are due have become ready; `switch` says whether one of
them has at least the priority of the running task. -/
structure Expired (k k' : Kernel τ ε) (now : ℕ) (due : τ → ℕ) (switch switch' : Bool) : Prop where
  frame : Frame k k'
  tcb : k'.tcb = k.tcb
  value : k'.lists.value = k.lists.value
  tasks : ∀ t, (k'.states t = k.states t ∧ k'.events t = k.events t) ∨
    ((∃ b, k.states t = some (.delayed b)) ∧ due t = now ∧ k'.states t = some (.ready (k.priority t)) ∧
      k'.events t = none ∧ (switch' = false → k.priority t < k.priority k.current))
  switch : switch = true → switch' = true

section Expire

variable {k k' k'' : Kernel τ ε} {now : ℕ} {due : τ → ℕ} {b b' b'' : Bool}

theorem Expired.priority (h : Expired k k' now due b b') (t : τ) : k'.priority t = k.priority t := by
  rw [Kernel.priority,h.tcb]
  rfl

theorem Expired.trans (h : Expired k k' now due b b') (h' : Expired k' k'' now due b' b'') :
    Expired k k'' now due b b'' := by
  refine ⟨h.frame.trans h'.frame,h'.tcb.trans h.tcb,h'.value.trans h.value,?_,fun hb => h'.switch (h.switch hb)⟩
  intro t
  rcases h.tasks t with ⟨hs,he⟩ | ⟨hd,hdue,hs,he,hlow⟩
  · rcases h'.tasks t with ⟨hs',he'⟩ | ⟨hd',hdue',hs',he',hlow'⟩
    · exact Or.inl ⟨hs'.trans hs,he'.trans he⟩
    · rw [hs] at hd'
      rw [h.priority] at hs' hlow'
      rw [h.frame.current,h.priority] at hlow'
      exact Or.inr ⟨hd',hdue',hs',he',hlow'⟩
  · have hkeep : b'' = false → b' = false := fun hb => by
      cases hb' : b' with
      | false => rfl
      | true => rw [h'.switch hb'] at hb; cases hb
    rcases h'.tasks t with ⟨hs',he'⟩ | ⟨⟨b₀,hd'⟩,-⟩
    · exact Or.inr ⟨hd,hdue,hs'.trans hs,he'.trans he,fun hb => hlow (hkeep hb)⟩
    · rw [hs] at hd'
      cases hd'

variable [DecidableEq τ] [DecidableEq ε]

omit [DecidableEq ε] in
theorem Woken.timed {slack : ℕ} {t : τ} (hw : Woken k k' t) (hl : Listed k) (h : Timed slack k now due) :
    Timed slack k' now due := by
  refine h.transfer hl hw.frame.tickCount hw.frame.delayedTaskList hw.unblock (fun u => by rw [hw.value]) ?_
    fun b => hw.others (.delayed b) (by simp)
  intro u b hu
  rw [hw.states] at hu
  by_cases hut : u = t
  · rw [hut,Function.update_self] at hu
    cases hu
  · rwa [Function.update_of_ne hut] at hu

/-- The loop wakes what is due, and everything else lies ahead afterwards. -/
theorem unblockLoop_spec {fuel : ℕ} (hp : Placed k) (h : Timed 0 k now due)
    (hfuel : (k.lists.list (.delayed k.delayedTaskList)).items.length < fuel) (switch : Bool) :
    Placed (Kernel.unblockLoop fuel k switch).1 ∧ Timed 1 (Kernel.unblockLoop fuel k switch).1 now due ∧
      Expired k (Kernel.unblockLoop fuel k switch).1 now due switch (Kernel.unblockLoop fuel k switch).2 := by
  induction fuel generalizing k switch with
  | zero => cases hfuel
  | succ fuel ih =>
    have hstop : ∀ n, (∀ t, k.states t = some (.delayed k.delayedTaskList) →
        k.tickCount+1 ≤ k.lists.value (.state t) ∧ n ≤ k.lists.value (.state t)) →
        Placed { k with nextTaskUnblockTime := n } ∧
        Timed 1 { k with nextTaskUnblockTime := n } now due ∧
        Expired k { k with nextTaskUnblockTime := n } now due switch switch := by
      intro n hn
      refine ⟨hp.congr rfl rfl rfl,⟨h.tick_eq,h.sorted,fun t ht => ?_,h.behind,fun t ht => (hn t ht).2⟩,
        ⟨⟨rfl,rfl,rfl,rfl,rfl,rfl,rfl,rfl⟩,rfl,rfl,fun t => Or.inl ⟨rfl,rfl⟩,id⟩⟩
      exact ⟨(hn t ht).1,(h.ahead t ht).2⟩
    rw [Kernel.unblockLoop]
    cases hx : k.lists.listGetHeadEntry (.delayed k.delayedTaskList) with
    | none =>
      refine hstop _ fun t ht => ?_
      exact absurd ht (head_none hp.wellFormed hx (.state t))
    | some x =>
      obtain ⟨hitem,hd⟩ := hp.head_delayed hx
      dsimp only
      split_ifs with hlt
      · refine hstop _ fun t ht => ?_
        have hleast := head_least hp.wellFormed (h.sorted _) hx ht
        omega
      · set t := Kernel.owner x with ht
        set k₁ := (k.removeItems t).prvAddTaskToReadyList t with hk₁
        have hwoken : Woken k k₁ t := (removed_removeItems hp.wellFormed (by rw [hd]; simp)).woken
        have hp₁ := hwoken.placed hp ⟨_,hd⟩
        have h₁ := hwoken.timed hp.toListed h
        have hahead := h.ahead t hd
        have hvalue : k.lists.value x = k.lists.value (.state t) := by rw [hitem]
        have hdue : due t = now := by
          have htick := h.tick_eq
          have hle := Nat.mod_le now (2^32)
          omega
        have hshort : (k₁.lists.list (.delayed k₁.delayedTaskList)).items.length < fuel := by
          have hmem := (hp.wellFormed.mem_iff _ _).mpr hd
          have hsub := hwoken.others (.delayed k.delayedTaskList) (by simp)
          rw [hwoken.frame.delayedTaskList]
          refine Nat.lt_of_lt_of_le (Nat.lt_of_le_of_ne hsub.length_le fun he => ?_) (Nat.lt_succ_iff.mp hfuel)
          rw [← hsub.eq_of_length he,hwoken.wellFormed.mem_iff] at hmem
          have := hmem.symm.trans (congrFun hwoken.states t)
          rw [Function.update_self] at this
          cases this
        obtain ⟨hplaced,htimed,hexpired⟩ := ih hp₁ h₁ hshort
          (switch || decide (k.priority k.current ≤ k.priority t))
        refine ⟨hplaced,htimed,Expired.trans ?_ hexpired⟩
        refine ⟨hwoken.frame,hwoken.tcb,hwoken.value,fun u => ?_,fun hb => by simp [hb]⟩
        by_cases hut : u = t
        · right
          rw [hut]
          refine ⟨⟨_,hd⟩,hdue,?_,?_,?_⟩
          · rw [hwoken.states,Function.update_self]
          · rw [hwoken.events,Function.update_self]
          · intro hb
            simpa using (Bool.or_eq_false_iff.mp hb).2
        · left
          rw [hwoken.states,hwoken.events,Function.update_of_ne hut,Function.update_of_ne hut]
          exact ⟨rfl,rfl⟩

end Expire

/-- Tasks that waited have become ready for a reason; if `quiet`, all of them have a lower
priority than the running task. -/
structure Roused (k k' : Kernel τ ε) (reason : τ → Prop) (quiet : Prop) : Prop where
  tcb : k'.tcb = k.tcb
  current : k'.current = k.current
  suspended : k'.suspended = k.suspended
  numberOfTasks : k'.numberOfTasks = k.numberOfTasks
  running : k'.running = k.running
  tasks : ∀ t, (k'.states t = k.states t ∧ k'.events t = k.events t) ∨
    ((∃ b, k.states t = some (.delayed b)) ∧ reason t ∧ k'.states t = some (.ready (k.priority t)) ∧
      k'.events t = none ∧ (quiet → k.priority t < k.priority k.current))

section Roused

variable {k k' k'' : Kernel τ ε} {reason reason' : τ → Prop} {quiet quiet' : Prop} {now : ℕ} {due : τ → ℕ}

theorem Roused.priority (h : Roused k k' reason quiet) (t : τ) : k'.priority t = k.priority t := by
  rw [Kernel.priority,h.tcb]
  rfl

theorem Roused.trans {quiet'' : Prop} (h : Roused k k' reason quiet) (h' : Roused k' k'' reason' quiet')
    (hq : quiet'' → quiet) (hq' : quiet'' → quiet') :
    Roused k k'' (fun t => reason t ∨ reason' t) quiet'' := by
  refine ⟨h'.tcb.trans h.tcb,h'.current.trans h.current,h'.suspended.trans h.suspended,
    h'.numberOfTasks.trans h.numberOfTasks,h'.running.trans h.running,fun t => ?_⟩
  rcases h.tasks t with ⟨hs,he⟩ | ⟨hd,hr,hs,he,hlow⟩
  · rcases h'.tasks t with ⟨hs',he'⟩ | ⟨hd',hr',hs',he',hlow'⟩
    · exact Or.inl ⟨hs'.trans hs,he'.trans he⟩
    · rw [hs] at hd'
      rw [h.priority] at hs' hlow'
      rw [h.current,h.priority] at hlow'
      exact Or.inr ⟨hd',Or.inr hr',hs',he',fun hq => hlow' (hq' hq)⟩
  · rcases h'.tasks t with ⟨hs',he'⟩ | ⟨⟨b₀,hd'⟩,-⟩
    · exact Or.inr ⟨hd,Or.inl hr,hs'.trans hs,he'.trans he,fun h => hlow (hq h)⟩
    · rw [hs] at hd'
      cases hd'

theorem Roused.weaken (h : Roused k k' reason quiet) (hr : ∀ t, reason t → reason' t) (hq : quiet' → quiet) :
    Roused k k' reason' quiet' := by
  refine ⟨h.tcb,h.current,h.suspended,h.numberOfTasks,h.running,fun t => ?_⟩
  exact (h.tasks t).imp id fun ⟨hd,hreason,hs,he,hlow⟩ => ⟨hd,hr t hreason,hs,he,fun h => hlow (hq h)⟩

theorem Roused.yield (h : Roused k k' reason quiet) :
    Roused k { k' with yieldPending := true } reason False := by
  refine ⟨h.tcb,h.current,h.suspended,h.numberOfTasks,h.running,fun t => ?_⟩
  exact (h.tasks t).imp id fun ⟨hd,hreason,hs,he,_⟩ => ⟨hd,hreason,hs,he,False.elim⟩

theorem Roused.refl (k : Kernel τ ε) (reason : τ → Prop) (quiet : Prop) : Roused k k reason quiet :=
  ⟨rfl,rfl,rfl,rfl,rfl,fun _ => Or.inl ⟨rfl,rfl⟩⟩

variable [DecidableEq τ] [DecidableEq ε]

theorem tick_spec (hp : Placed k) (h : Timed 1 k now due) (hs : k.suspended = 0) :
    Placed k.xTaskIncrementTick.1 ∧ Timed 1 k.xTaskIncrementTick.1 (now+1) due ∧
      k.xTaskIncrementTick.1.pendedTicks = k.pendedTicks ∧
      k.xTaskIncrementTick.1.yieldPending = k.yieldPending ∧
      (k.xTaskIncrementTick.2 = false → k.yieldPending = false) ∧
      Roused k k.xTaskIncrementTick.1 (fun t => due t = now+1) (k.xTaskIncrementTick.2 = false) := by
  have hcounted := countTick_counted k
  have hp₁ : Placed k.countTick := hp.congr hcounted.lists hcounted.tcb hcounted.top
  have h₁ := countTick_timed h hp
  set r := if k.countTick.nextTaskUnblockTime ≤ k.countTick.tickCount then
      Kernel.unblockLoop ((k.countTick.lists.list (.delayed k.countTick.delayedTaskList)).items.length+1)
        k.countTick false
    else (k.countTick,false) with hr
  have hcode : k.xTaskIncrementTick = (r.1,r.2 ||
      decide (1 < (r.1.lists.list (.ready (r.1.priority r.1.current))).items.length) || r.1.yieldPending) := by
    rw [Kernel.xTaskIncrementTick,if_pos hs]
  have hspec : Placed r.1 ∧ Timed 1 r.1 (now+1) due ∧ Expired k.countTick r.1 (now+1) due false r.2 := by
    rw [hr]
    split_ifs with hdue
    · exact unblockLoop_spec hp₁ h₁ (Nat.lt_succ_self _) false
    · refine ⟨hp₁,⟨h₁.tick_eq,h₁.sorted,fun t ht => ?_,h₁.behind,h₁.unblock⟩,
        ⟨⟨rfl,rfl,rfl,rfl,rfl,rfl,rfl,rfl⟩,rfl,rfl,fun t => Or.inl ⟨rfl,rfl⟩,id⟩⟩
      have hahead := h₁.ahead t ht
      have hunblock := h₁.unblock t ht
      dsimp only at hahead hunblock ⊢
      exact ⟨by omega,hahead.2⟩
  obtain ⟨hplaced,htimed,hexpired⟩ := hspec
  have hstates : k.countTick.states = k.states := funext fun u => by rw [Kernel.states,hcounted.lists]; rfl
  have hevents : k.countTick.events = k.events := funext fun u => by rw [Kernel.events,hcounted.lists]; rfl
  have hpriority : k.countTick.priority = k.priority :=
    funext fun u => by rw [Kernel.priority,hcounted.tcb]; rfl
  have hyield := hexpired.frame.yieldPending.trans hcounted.yieldPending
  rw [hcode]
  refine ⟨hplaced,htimed,hexpired.frame.pendedTicks.trans hcounted.pendedTicks,hyield,?_,?_⟩
  · intro hb
    rw [← hyield]
    exact (Bool.or_eq_false_iff.mp hb).2
  · refine ⟨hexpired.tcb.trans hcounted.tcb,hexpired.frame.current.trans hcounted.current,
      hexpired.frame.suspended.trans hcounted.suspended,
      hexpired.frame.numberOfTasks.trans hcounted.numberOfTasks,
      hexpired.frame.running.trans hcounted.running,fun t => ?_⟩
    have ht := hexpired.tasks t
    rw [hstates,hevents,hpriority,hcounted.current] at ht
    refine ht.imp id ?_
    rintro ⟨hd,hdue,hs,he,hlow⟩
    refine ⟨hd,hdue,hs,he,fun hb => hlow ?_⟩
    simp only [Bool.or_eq_false_iff] at hb
    exact hb.1.1

theorem tickLoop_spec {n : ℕ} (hp : Placed k) (h : Timed 1 k now due) (hs : k.suspended = 0) :
    Placed (Kernel.tickLoop n k) ∧ Timed 1 (Kernel.tickLoop n k) (now+n) due ∧
      (k.yieldPending = true → (Kernel.tickLoop n k).yieldPending = true) ∧
      Roused k (Kernel.tickLoop n k) (fun t => due t ≤ now+n)
        ((Kernel.tickLoop n k).yieldPending = false) := by
  induction n generalizing k now with
  | zero => exact ⟨hp,h,id,Roused.refl ..⟩
  | succ n ih =>
    obtain ⟨hp₁,h₁,-,hyield,hquiet,hroused⟩ := tick_spec hp h hs
    set r := k.xTaskIncrementTick with hr
    set k₁ : Kernel τ ε := if r.2 then { r.1 with yieldPending := true } else r.1 with hk₁
    have hsame : k₁.lists = r.1.lists ∧ k₁.tcb = r.1.tcb ∧ k₁.topReadyPriority = r.1.topReadyPriority ∧
        k₁.suspended = r.1.suspended ∧ Timed 1 k₁ (now+1) due ∧
        Roused k k₁ (fun t => due t = now+1) (r.2 = false) := by
      rw [hk₁]
      split_ifs
      · exact ⟨rfl,rfl,rfl,rfl,⟨h₁.1,h₁.2,h₁.3,h₁.4,h₁.5⟩,
          ⟨hroused.1,hroused.2,hroused.3,hroused.4,hroused.5,hroused.6⟩⟩
      · exact ⟨rfl,rfl,rfl,rfl,h₁,hroused⟩
    obtain ⟨hlists,htcb,htop,hsus,htimed,hroused₁⟩ := hsame
    obtain ⟨hp₂,h₂,hkeep,hroused₂⟩ := ih (hp₁.congr hlists htcb htop) htimed
      (hsus.trans (hroused.suspended.trans hs))
    have hyield₁ : r.2 = true → k₁.yieldPending = true := fun hb => by rw [hk₁,if_pos hb]
    have hloop : Kernel.tickLoop (n+1) k = Kernel.tickLoop n k₁ := rfl
    rw [hloop,show now+(n+1) = now+1+n by omega]
    refine ⟨hp₂,h₂,fun hy => hkeep ?_,?_⟩
    · cases hb : r.2 with
      | true => exact hyield₁ hb
      | false =>
        rw [hquiet hb] at hy
        cases hy
    · refine (hroused₁.trans hroused₂ (fun hq => ?_) id).weaken (fun t ht => ?_) id
      · cases hb : r.2 with
        | false => rfl
        | true =>
          rw [hkeep (hyield₁ hb)] at hq
          cases hq
      · rcases ht with ht | ht <;> omega

omit [DecidableEq τ] [DecidableEq ε] in
theorem Placed.head_pending (h : Placed k) {x : Item τ} (hx : k.lists.listGetHeadEntry .pendingReady = some x) :
    x = .event (Kernel.owner x) ∧ k.events (Kernel.owner x) = some .pendingReady ∧
      ∃ b, k.states (Kernel.owner x) = some (.delayed b) := by
  have hc := head_container h.wellFormed hx
  cases x with
  | state u => cases h.state_list u _ hc
  | event u => exact ⟨rfl,hc,h.waiting u fun he => by cases he.symm.trans hc⟩

omit [DecidableEq ε] in
theorem Woken.roused (hw : Woken k k' t) (hd : ∃ b, k.states t = some (.delayed b)) (hr : reason t)
    (hq : quiet → k.priority t < k.priority k.current) : Roused k k' reason quiet := by
  refine ⟨hw.tcb,hw.frame.current,hw.frame.suspended,hw.frame.numberOfTasks,hw.frame.running,fun u => ?_⟩
  rw [hw.states,hw.events]
  by_cases hut : u = t
  · rw [hut,Function.update_self,Function.update_self]
    exact Or.inr ⟨hd,hr,rfl,rfl,hq⟩
  · rw [Function.update_of_ne hut,Function.update_of_ne hut]
    exact Or.inl ⟨rfl,rfl⟩

theorem readyLoop_spec {fuel : ℕ} (hp : Placed k) (h : Timed 1 k now due)
    (hfuel : (k.lists.list .pendingReady).items.length ≤ fuel) (moved : Bool) :
    Placed (Kernel.readyLoop fuel k moved).1 ∧ Timed 1 (Kernel.readyLoop fuel k moved).1 now due ∧
      (Kernel.readyLoop fuel k moved).1.pendedTicks = k.pendedTicks ∧
      (k.yieldPending = true → (Kernel.readyLoop fuel k moved).1.yieldPending = true) ∧
      (∀ t, (Kernel.readyLoop fuel k moved).1.events t ≠ some .pendingReady) ∧
      Roused k (Kernel.readyLoop fuel k moved).1 (fun t => k.events t = some .pendingReady)
        ((Kernel.readyLoop fuel k moved).1.yieldPending = false) := by
  have hstop : k.lists.listGetHeadEntry .pendingReady = none → ∀ t, k.events t ≠ some .pendingReady :=
    fun hx t => head_none hp.wellFormed hx (.event t)
  induction fuel generalizing k moved with
  | zero =>
    refine ⟨hp,h,rfl,id,hstop ?_,Roused.refl ..⟩
    rw [Lists.listGetHeadEntry,List.length_eq_zero_iff.mp (Nat.le_zero.mp hfuel)]
    rfl
  | succ fuel ih =>
    rw [Kernel.readyLoop]
    cases hx : k.lists.listGetHeadEntry .pendingReady with
    | none => exact ⟨hp,h,rfl,id,hstop hx,Roused.refl ..⟩
    | some x =>
      obtain ⟨hitem,he,hd⟩ := hp.head_pending hx
      dsimp only
      set t := Kernel.owner x with ht
      set k₁ := ((k.remove (.event t)).1.remove (.state t)).1.prvAddTaskToReadyList t with hk₁
      have hwoken : Woken k k₁ t := by
        obtain ⟨b,hb⟩ := hd
        exact (removed_removeEvent hp.wellFormed (by rw [he]; simp) (by rw [hb]; simp)).woken
      have hp₁ := hwoken.placed hp hd
      have h₁ := hwoken.timed hp.toListed h
      set k₂ : Kernel τ ε := if k₁.priority k₁.current ≤ k₁.priority t then { k₁ with yieldPending := true }
        else k₁ with hk₂
      have hpriority : ∀ u, k₁.priority u = k.priority u := fun u => by rw [Kernel.priority,hwoken.tcb]; rfl
      have hsame : Placed k₂ ∧ Timed 1 k₂ now due ∧ k₂.lists = k₁.lists ∧ k₂.pendedTicks = k.pendedTicks ∧
          (k.yieldPending = true → k₂.yieldPending = true) ∧
          Roused k k₂ (fun u => k.events u = some .pendingReady) (k₂.yieldPending = false) := by
        rw [hk₂]
        split_ifs with hlow
        · have hroused : Roused k k₁ (fun u => k.events u = some .pendingReady) False :=
            hwoken.roused hd he False.elim
          refine ⟨hp₁.congr rfl rfl rfl,⟨h₁.1,h₁.2,h₁.3,h₁.4,h₁.5⟩,rfl,hwoken.frame.pendedTicks,fun _ => rfl,?_⟩
          exact hroused.yield
        · rw [hpriority,hpriority,hwoken.frame.current] at hlow
          refine ⟨hp₁,h₁,rfl,hwoken.frame.pendedTicks,fun hy => hwoken.frame.yieldPending.trans hy,?_⟩
          exact hwoken.roused hd he fun _ => not_le.mp hlow
      obtain ⟨hp₂,h₂,hlists,hpended,hyield,hroused⟩ := hsame
      have hshort : (k₂.lists.list .pendingReady).items.length ≤ fuel := by
        have hmem := (hp.wellFormed.mem_iff (.event t) .pendingReady).mpr he
        have hsub := hwoken.others .pendingReady (by simp)
        rw [hlists]
        refine Nat.lt_succ_iff.mp (Nat.lt_of_lt_of_le (Nat.lt_of_le_of_ne hsub.length_le fun hlen => ?_) hfuel)
        rw [← hsub.eq_of_length hlen,hwoken.wellFormed.mem_iff] at hmem
        have := hmem.symm.trans (congrFun hwoken.events t)
        rw [Function.update_self] at this
        cases this
      obtain ⟨hp₃,h₃,hpended₃,hyield₃,hnone,hroused₃⟩ := ih hp₂ h₂ hshort true
        fun hx u => head_none hp₂.wellFormed hx (.event u)
      refine ⟨hp₃,h₃,hpended₃.trans hpended,fun hy => hyield₃ (hyield hy),hnone,?_⟩
      refine (hroused.trans hroused₃ (fun hq => ?_) id).weaken (fun u hu => ?_) id
      · cases hy : k₂.yieldPending with
        | false => rfl
        | true => rw [hyield₃ hy] at hq; cases hq
      · refine hu.elim id fun hu => ?_
        rcases hroused.tasks u with ⟨-,hsame⟩ | ⟨-,hreason,-⟩
        · exact hsame ▸ hu
        · exact hreason

omit [DecidableEq τ] [DecidableEq ε] in
theorem Placed.reset_timed (hp : Placed k) (h : Timed 1 k now due) :
    Timed 1 k.prvResetNextTaskUnblockTime now due := by
  obtain ⟨hf,hl,-,-⟩ := reset_frame k
  have hstates : k.prvResetNextTaskUnblockTime.states = k.states := by
    funext u
    rw [Kernel.states,hl]
    rfl
  refine ⟨by rw [hf.tickCount]; exact h.tick_eq,fun b => by rw [hl]; exact h.sorted b,?_,?_,?_⟩
  · rw [hstates,hf.delayedTaskList,hf.tickCount,hl]
    exact h.ahead
  · rw [hstates,hf.delayedTaskList,hf.tickCount,hl]
    exact h.behind
  · intro t ht
    rw [hstates,hf.delayedTaskList] at ht
    rw [hl]
    exact hp.unblock_reset (h.sorted _) ht

/-- The scheduler goes on: what has been put off is made up for. -/
theorem resume_spec (hp : Placed k) (h : Timed 1 k now due) (hs : k.suspended = 1) (hn : 0 < k.numberOfTasks) :
    Placed k.xTaskResumeAll.1 ∧ Timed 1 k.xTaskResumeAll.1 (now+k.pendedTicks) due ∧
      k.xTaskResumeAll.1.pendedTicks = 0 ∧ k.xTaskResumeAll.2 = k.xTaskResumeAll.1.yieldPending ∧
      (k.yieldPending = true → k.xTaskResumeAll.1.yieldPending = true) ∧
      (∀ t, k.xTaskResumeAll.1.events t ≠ some .pendingReady) ∧
      Roused { k with suspended := 0 } k.xTaskResumeAll.1
        (fun t => k.events t = some .pendingReady ∨ due t ≤ now+k.pendedTicks)
        (k.xTaskResumeAll.1.yieldPending = false) := by
  set k₀ : Kernel τ ε := { k with suspended := 0 } with hk₀
  have hp₀ : Placed k₀ := hp.congr rfl rfl rfl
  have h₀ : Timed 1 k₀ now due := ⟨h.1,h.2,h.3,h.4,h.5⟩
  obtain ⟨hp₁,h₁,hpended₁,hyield₁,hnone₁,hroused₁⟩ := readyLoop_spec hp₀ h₀ le_rfl false
  set r := Kernel.readyLoop (k₀.lists.list .pendingReady).items.length k₀ false with hr
  set k₂ : Kernel τ ε := if r.2 then r.1.prvResetNextTaskUnblockTime else r.1 with hk₂
  obtain ⟨hp₂,h₂,hpended₂,hyield₂,hnone₂,hroused₂⟩ : Placed k₂ ∧ Timed 1 k₂ now due ∧
      k₂.pendedTicks = k.pendedTicks ∧ k₂.yieldPending = r.1.yieldPending ∧
      (∀ t, k₂.events t ≠ some .pendingReady) ∧
      Roused k₀ k₂ (fun t => k.events t = some .pendingReady) (k₂.yieldPending = false) := by
    rw [hk₂]
    split_ifs
    · obtain ⟨hf,hl,ht,htop⟩ := reset_frame r.1
      have hstates : ∀ u, r.1.prvResetNextTaskUnblockTime.states u = r.1.states u := fun u => by
        rw [Kernel.states,hl]
        rfl
      have hevents : ∀ u, r.1.prvResetNextTaskUnblockTime.events u = r.1.events u := fun u => by
        rw [Kernel.events,hl]
        rfl
      refine ⟨hp₁.congr hl ht htop,hp₁.reset_timed h₁,hf.pendedTicks.trans hpended₁,hf.yieldPending,
        fun t => by rw [hevents]; exact hnone₁ t,?_⟩
      refine ⟨ht.trans hroused₁.tcb,hf.current.trans hroused₁.current,hf.suspended.trans hroused₁.suspended,
        hf.numberOfTasks.trans hroused₁.numberOfTasks,hf.running.trans hroused₁.running,fun t => ?_⟩
      rw [hstates,hevents,hf.yieldPending]
      exact hroused₁.tasks t
    · exact ⟨hp₁,h₁,hpended₁,rfl,hnone₁,hroused₁⟩
  set k₃ : Kernel τ ε := if 0 < k₂.pendedTicks then { Kernel.tickLoop k₂.pendedTicks k₂ with pendedTicks := 0 }
    else k₂ with hk₃
  have hcode : k.xTaskResumeAll = (k₃,k₃.yieldPending) := by
    have hwrap : wrap 32 ((k.suspended : ℤ)-1) = 0 := by rw [hs]; decide
    simp only [Kernel.xTaskResumeAll,hwrap]
    rw [if_pos ⟨trivial,hn⟩]
  obtain ⟨hp₃,h₃,hyield₃,hroused₃⟩ := tickLoop_spec (n := k₂.pendedTicks) hp₂ h₂ hroused₂.suspended
  have hk₃' : Placed k₃ ∧ Timed 1 k₃ (now+k.pendedTicks) due ∧ k₃.pendedTicks = 0 ∧
      (k₂.yieldPending = true → k₃.yieldPending = true) ∧
      Roused k₂ k₃ (fun t => due t ≤ now+k.pendedTicks) (k₃.yieldPending = false) := by
    rw [← hpended₂,hk₃]
    split_ifs with hpos
    · exact ⟨hp₃.congr rfl rfl rfl,⟨h₃.1,h₃.2,h₃.3,h₃.4,h₃.5⟩,rfl,hyield₃,
        ⟨hroused₃.1,hroused₃.2,hroused₃.3,hroused₃.4,hroused₃.5,hroused₃.6⟩⟩
    · have hzero : k₂.pendedTicks = 0 := by omega
      refine ⟨hp₂,by rwa [hzero],hzero,id,Roused.refl ..⟩
  obtain ⟨hplaced,htimed,hpended,hyield,hroused⟩ := hk₃'
  rw [hcode]
  refine ⟨hplaced,htimed,hpended,rfl,fun hy => hyield (hyield₂.trans (hyield₁ hy)),fun t => ?_,?_⟩
  · rcases hroused.tasks t with ⟨-,he⟩ | ⟨-,-,-,he,-⟩
    · rw [he]
      exact hnone₂ t
    · rw [he]
      simp
  · refine hroused₂.trans hroused (fun hq => ?_) id
    cases hy : k₂.yieldPending with
    | false => rfl
    | true => rw [hyield hy] at hq; cases hq

end Roused

end Scheduler
end EmbeddedShell
