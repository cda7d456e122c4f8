import Mathlib.Data.Nat.Bitwise
import EmbeddedShell.Scheduler

/-!
# Where the tasks are

The bit map has the bit of a priority exactly if a task of it is ready, a task that waits
for an event also waits for a time, and every task is in the list of its priority if it is
ready. What one function does to the lists is said once, by the list that the items of a
task are in before and afterwards.
-/

namespace EmbeddedShell
namespace Scheduler

open TaskLists

variable {τ ε : Type*}

/-- The list of the state item of each task. -/
def Kernel.states (k : Kernel τ ε) (t : τ) : Option (ListId ε) := k.lists.container (.state t)

def Kernel.events (k : Kernel τ ε) (t : τ) : Option (ListId ε) := k.lists.container (.event t)

section Items

variable [DecidableEq τ] [DecidableEq ε] (k : Kernel τ ε) (t : τ) (l : ListId ε)

@[simp] theorem states_remove_state : (k.remove (.state t)).1.states = Function.update k.states t none := by
  funext u
  by_cases h : u = t
  · subst h
    simp [Kernel.states,Kernel.remove]
  · simp [Kernel.states,Kernel.remove,h]

@[simp] theorem states_remove_event : (k.remove (.event t)).1.states = k.states := by
  funext u
  simp [Kernel.states,Kernel.remove]

@[simp] theorem events_remove_event : (k.remove (.event t)).1.events = Function.update k.events t none := by
  funext u
  by_cases h : u = t
  · subst h
    simp [Kernel.events,Kernel.remove]
  · simp [Kernel.events,Kernel.remove,h]

@[simp] theorem events_remove_state : (k.remove (.state t)).1.events = k.events := by
  funext u
  simp [Kernel.events,Kernel.remove]

@[simp] theorem states_insertEnd_state :
    (k.insertEnd l (.state t)).states = Function.update k.states t (some l) := by
  funext u
  by_cases h : u = t
  · subst h
    simp [Kernel.states,Kernel.insertEnd]
  · simp [Kernel.states,Kernel.insertEnd,h]

@[simp] theorem states_insertEnd_event : (k.insertEnd l (.event t)).states = k.states := by
  funext u
  simp [Kernel.states,Kernel.insertEnd]

@[simp] theorem events_insertEnd_state : (k.insertEnd l (.state t)).events = k.events := by
  funext u
  simp [Kernel.events,Kernel.insertEnd]

@[simp] theorem events_insertEnd_event :
    (k.insertEnd l (.event t)).events = Function.update k.events t (some l) := by
  funext u
  by_cases h : u = t
  · subst h
    simp [Kernel.events,Kernel.insertEnd]
  · simp [Kernel.events,Kernel.insertEnd,h]

@[simp] theorem states_insert_state :
    (k.insert l (.state t)).states = Function.update k.states t (some l) := states_insertEnd_state k t l

@[simp] theorem states_insert_event : (k.insert l (.event t)).states = k.states :=
  states_insertEnd_event k t l

@[simp] theorem events_insert_state : (k.insert l (.state t)).events = k.events :=
  events_insertEnd_state k t l

@[simp] theorem events_insert_event :
    (k.insert l (.event t)).events = Function.update k.events t (some l) := events_insertEnd_event k t l

end Items

/-- The bit map has the bits of the lists that are in use. -/
def Bits (n : ℕ) (c : τ → Option (ListId ε)) : Prop :=
  ∀ p, n.testBit p = true ↔ ∃ t, c t = some (.ready p)

section Bits

variable [DecidableEq τ] {n p : ℕ} {c : τ → Option (ListId ε)} {t : τ} {v : Option (ListId ε)}

theorem testBit_record (n p q : ℕ) : (n ||| 2^p).testBit q = true ↔ n.testBit q = true ∨ p = q := by
  rw [Nat.testBit_or,Nat.testBit_two_pow,Bool.or_eq_true,decide_eq_true_eq]

theorem testBit_reset {p : ℕ} (hp : p < 32) (n q : ℕ) :
    (n &&& (2^32-1-2^p)).testBit q = true ↔ n.testBit q = true ∧ q < 32 ∧ q ≠ p := by
  have hlt : 2^p < 2^32 := Nat.pow_lt_pow_right (by decide) hp
  rw [Nat.testBit_and,show 2^32-1-2^p = 2^32-(2^p+1) by omega,Nat.testBit_two_pow_sub_succ hlt,
    Nat.testBit_two_pow]
  simp only [Bool.and_eq_true,decide_eq_true_eq,Bool.not_eq_true',decide_eq_false_iff_not]
  exact ⟨fun h => ⟨h.1,h.2.1,Ne.symm h.2.2⟩,fun h => ⟨h.1,h.2.1,Ne.symm h.2.2⟩⟩

theorem Bits.enter (h : Bits n c) (hc : ∀ q, c t ≠ some (.ready q)) (p : ℕ) :
    Bits (n ||| 2^p) (Function.update c t (some (.ready p))) := by
  intro q
  rw [testBit_record,h q]
  constructor
  · rintro (⟨u,hu⟩ | rfl)
    · have hut : u ≠ t := fun he => hc q (he ▸ hu)
      exact ⟨u,by rw [Function.update_of_ne hut,hu]⟩
    · exact ⟨t,Function.update_self ..⟩
  · rintro ⟨u,hu⟩
    by_cases hut : u = t
    · subst hut
      rw [Function.update_self] at hu
      cases hu
      exact Or.inr rfl
    · rw [Function.update_of_ne hut] at hu
      exact Or.inl ⟨u,hu⟩

/-- The last task of a priority is no longer ready. -/
theorem Bits.leave_last (h : Bits n c) (hlt : ∀ q u, c u = some (.ready q) → q < 32)
    (ht : c t = some (.ready p)) (halone : ∀ u, u ≠ t → c u ≠ some (.ready p))
    (hv : ∀ q, v ≠ some (.ready q)) : Bits (n &&& (2^32-1-2^p)) (Function.update c t v) := by
  intro q
  rw [testBit_reset (hlt p t ht),h q]
  constructor
  · rintro ⟨⟨u,hu⟩,-,hq⟩
    have hut : u ≠ t := by
      rintro rfl
      rw [ht] at hu
      cases hu
      exact hq rfl
    exact ⟨u,by rw [Function.update_of_ne hut,hu]⟩
  · rintro ⟨u,hu⟩
    by_cases hut : u = t
    · subst hut
      rw [Function.update_self] at hu
      exact absurd hu (hv q)
    · rw [Function.update_of_ne hut] at hu
      refine ⟨⟨u,hu⟩,hlt q u hu,?_⟩
      rintro rfl
      exact halone u hut hu

/-- A task of a priority is no longer ready, but another one is. -/
theorem Bits.leave_others (h : Bits n c) (ht : c t = some (.ready p))
    (hother : ∃ u, u ≠ t ∧ c u = some (.ready p)) (hv : ∀ q, v ≠ some (.ready q)) :
    Bits n (Function.update c t v) := by
  intro q
  rw [h q]
  constructor
  · rintro ⟨u,hu⟩
    by_cases hut : u = t
    · subst hut
      rw [ht] at hu
      cases hu
      obtain ⟨w,hwt,hw⟩ := hother
      exact ⟨w,by rw [Function.update_of_ne hwt,hw]⟩
    · exact ⟨u,by rw [Function.update_of_ne hut,hu]⟩
  · rintro ⟨u,hu⟩
    by_cases hut : u = t
    · subst hut
      rw [Function.update_self] at hu
      exact absurd hu (hv q)
    · exact ⟨u,by rwa [Function.update_of_ne hut] at hu⟩

/-- A task moves between lists of tasks that are not ready. -/
theorem Bits.elsewhere (h : Bits n c) (ht : ∀ q, c t ≠ some (.ready q)) (hv : ∀ q, v ≠ some (.ready q)) :
    Bits n (Function.update c t v) := by
  intro q
  rw [h q]
  constructor
  · rintro ⟨u,hu⟩
    have hut : u ≠ t := fun he => ht q (he ▸ hu)
    exact ⟨u,by rw [Function.update_of_ne hut,hu]⟩
  · rintro ⟨u,hu⟩
    by_cases hut : u = t
    · subst hut
      rw [Function.update_self] at hu
      exact absurd hu (hv q)
    · exact ⟨u,by rwa [Function.update_of_ne hut] at hu⟩

omit [DecidableEq τ] in
/-- The bit of a priority of which no task is ready may be reset. -/
theorem Bits.reset_unused (h : Bits n c) (hlt : ∀ q u, c u = some (.ready q) → q < 32) (hp : p < 32)
    (hnone : ∀ u, c u ≠ some (.ready p)) : Bits (n &&& (2^32-1-2^p)) c := by
  intro q
  rw [testBit_reset hp,h q]
  constructor
  · exact fun hq => hq.1
  · rintro ⟨u,hu⟩
    refine ⟨⟨u,hu⟩,hlt q u hu,?_⟩
    rintro rfl
    exact hnone u hu

end Bits

def ListId.forState : ListId ε → Bool
  | .ready _ => true
  | .delayed _ => true
  | .waitingTermination => true
  | _ => false

def ListId.forEvent : ListId ε → Bool
  | .pendingReady => true
  | .events _ => true
  | _ => false

/-- Where the items of the tasks may be, and what the bit map says about them. -/
structure Listed (k : Kernel τ ε) : Prop where
  wellFormed : k.lists.WellFormed
  state_list : ∀ t l, k.states t = some l → l.forState = true
  event_list : ∀ t l, k.events t = some l → l.forEvent = true
  ready_priority : ∀ t p, k.states t = some (.ready p) → p = k.priority t
  priority_lt : ∀ t, k.priority t < configMaxPriorities ∧ (k.tcb t).basePriority ≤ k.priority t
  bits : Bits k.topReadyPriority k.states

/-- A task that waits for an event waits for a time, too. -/
structure Placed (k : Kernel τ ε) : Prop extends Listed k where
  waiting : ∀ t, k.events t ≠ none → ∃ b, k.states t = some (.delayed b)

section Placed

variable {k k' : Kernel τ ε} {t : τ} {l : ListId ε}

/-- It is enough to look at the task that is moved. -/
theorem Listed.move [DecidableEq τ] (h : Listed k) (hw : k'.lists.WellFormed)
    (hwaiting : ∀ u, u ≠ t → k.events u ≠ none → ∃ b, k.states u = some (.delayed b))
    (hothers : ∀ u, u ≠ t → k'.states u = k.states u ∧ k'.events u = k.events u ∧ k'.tcb u = k.tcb u)
    (hstate : ∀ l, k'.states t = some l → l.forState = true)
    (hevent : ∀ l, k'.events t = some l → l.forEvent = true ∧ ∃ b, k'.states t = some (.delayed b))
    (hready : ∀ p, k'.states t = some (.ready p) → p = k'.priority t)
    (hpriority : k'.priority t < configMaxPriorities ∧ (k'.tcb t).basePriority ≤ k'.priority t)
    (hbits : Bits k'.topReadyPriority k'.states) : Placed k' := by
  refine ⟨⟨hw,?_,?_,?_,?_,hbits⟩,?_⟩
  · intro u l hu
    by_cases hut : u = t
    · exact hstate l (hut ▸ hu)
    · exact h.state_list u l ((hothers u hut).1 ▸ hu)
  · intro u l hu
    by_cases hut : u = t
    · exact (hevent l (hut ▸ hu)).1
    · exact h.event_list u l ((hothers u hut).2.1 ▸ hu)
  · intro u p hu
    by_cases hut : u = t
    · rw [hut] at hu ⊢
      exact hready p hu
    · rw [Kernel.priority,(hothers u hut).2.2]
      exact h.ready_priority u p ((hothers u hut).1 ▸ hu)
  · intro u
    by_cases hut : u = t
    · rw [hut]
      exact hpriority
    · rw [Kernel.priority,(hothers u hut).2.2]
      exact h.priority_lt u
  · intro u hu
    by_cases hut : u = t
    · rw [hut] at hu ⊢
      obtain ⟨l,hl⟩ := Option.ne_none_iff_exists'.mp hu
      exact (hevent l hl).2
    · rw [(hothers u hut).2.1] at hu
      rw [(hothers u hut).1]
      exact hwaiting u hut hu

theorem Placed.congr (h : Placed k) (hl : k'.lists = k.lists) (ht : k'.tcb = k.tcb)
    (hp : k'.topReadyPriority = k.topReadyPriority) : Placed k' := by
  have hs : k'.states = k.states := funext fun u => by rw [Kernel.states,hl]; rfl
  have he : k'.events = k.events := funext fun u => by rw [Kernel.events,hl]; rfl
  have hr : k'.priority = k.priority := funext fun u => by rw [Kernel.priority,ht]; rfl
  refine ⟨⟨by rw [hl]; exact h.wellFormed,?_,?_,?_,?_,?_⟩,?_⟩
  · rw [hs]
    exact h.state_list
  · rw [he]
    exact h.event_list
  · rw [hs,hr]
    exact h.ready_priority
  · rw [hr,ht]
    exact h.priority_lt
  · rw [hp,hs]
    exact h.bits
  · rw [he,hs]
    exact h.waiting

theorem Listed.ready_lt (h : Listed k) (q : ℕ) (u : τ) (hu : k.states u = some (.ready q)) : q < 32 := by
  have hlt := (h.priority_lt u).1
  rw [h.ready_priority u q hu]
  simp only [configMaxPriorities] at hlt
  omega

theorem Listed.owner_ready (h : Listed k) {x : Item τ} {p : ℕ} (hx : k.lists.container x = some (.ready p)) :
    ∃ u, x = .state u := by
  cases x with
  | state u => exact ⟨u,rfl⟩
  | event u => cases h.event_list u _ hx

end Placed

/-- Everything but the lists, the bit map and the tasks' own data is kept. -/
structure Frame (k k' : Kernel τ ε) : Prop where
  current : k'.current = k.current
  delayedTaskList : k'.delayedTaskList = k.delayedTaskList
  tickCount : k'.tickCount = k.tickCount
  suspended : k'.suspended = k.suspended
  pendedTicks : k'.pendedTicks = k.pendedTicks
  yieldPending : k'.yieldPending = k.yieldPending
  numberOfTasks : k'.numberOfTasks = k.numberOfTasks
  running : k'.running = k.running

section Moves

variable [DecidableEq τ] [DecidableEq ε] {k k' k'' : Kernel τ ε} {t : τ} {l : ListId ε} {x : Item τ}

omit [DecidableEq τ] [DecidableEq ε] in
theorem Frame.trans (h : Frame k k') (h' : Frame k' k'') : Frame k k'' :=
  ⟨h'.1.trans h.1,h'.2.trans h.2,h'.3.trans h.3,h'.4.trans h.4,h'.5.trans h.5,h'.6.trans h.6,
    h'.7.trans h.7,h'.8.trans h.8⟩

/-- The state item of a task leaves its list, and the bit map follows. -/
structure Left (k k' : Kernel τ ε) (t : τ) : Prop where
  frame : Frame k k'
  tcb : k'.tcb = k.tcb
  unblock : k'.nextTaskUnblockTime = k.nextTaskUnblockTime
  lists : k'.lists = (k.lists.uxListRemove (.state t)).1
  bits : ∀ v : Option (ListId ε), (∀ q, v ≠ some (.ready q)) →
    Bits k'.topReadyPriority (Function.update k.states t v)

theorem Listed.removeReady (h : Listed k) {p : ℕ} (ht : k.states t = some (.ready p)) :
    Left k (k.removeReady t) t := by
  have hp := h.ready_priority t p ht
  have hcount := h.wellFormed.remove_count ht
  by_cases hzero : (k.lists.uxListRemove (.state t)).2 = 0
  · have hcode : k.removeReady t = (k.remove (.state t)).1.portResetReadyPriority (k.priority t) := by
      rw [Kernel.removeReady]
      exact if_pos hzero
    rw [hcode]
    refine ⟨⟨rfl,rfl,rfl,rfl,rfl,rfl,rfl,rfl⟩,rfl,rfl,rfl,fun v hv => ?_⟩
    rw [← hp]
    refine h.bits.leave_last h.ready_lt ht (fun u hu he => ?_) hv
    exact hcount.mp hzero (.state u) (by simpa using hu) he
  · have hcode : k.removeReady t = (k.remove (.state t)).1 := by
      rw [Kernel.removeReady]
      exact if_neg hzero
    rw [hcode]
    refine ⟨⟨rfl,rfl,rfl,rfl,rfl,rfl,rfl,rfl⟩,rfl,rfl,rfl,fun v hv => ?_⟩
    refine h.bits.leave_others ht ?_ hv
    rw [hcount] at hzero
    push Not at hzero
    obtain ⟨y,hy,hin⟩ := hzero
    obtain ⟨u,rfl⟩ := h.owner_ready hin
    exact ⟨u,by simpa using hy,hin⟩

theorem removeState_cases (k : Kernel τ ε) (t : τ) :
    ((k.lists.uxListRemove (.state t)).2 = 0 ∧ (k.remove (.state t)).1.isEmpty (.ready (k.priority t)) = true ∧
      k.removeState t = (k.remove (.state t)).1.portResetReadyPriority (k.priority t)) ∨
    (((k.lists.uxListRemove (.state t)).2 ≠ 0 ∨
        (k.remove (.state t)).1.isEmpty (.ready (k.priority t)) = false) ∧
      k.removeState t = (k.remove (.state t)).1) := by
  by_cases hzero : (k.lists.uxListRemove (.state t)).2 = 0
  · have hcode : k.removeState t = (k.remove (.state t)).1.taskResetReadyPriority (k.priority t) := by
      rw [Kernel.removeState]
      exact if_pos hzero
    rw [hcode,Kernel.taskResetReadyPriority]
    cases hempty : (k.remove (.state t)).1.isEmpty (.ready (k.priority t)) with
    | true => exact Or.inl ⟨hzero,rfl,rfl⟩
    | false => exact Or.inr ⟨Or.inr rfl,rfl⟩
  · refine Or.inr ⟨Or.inl hzero,?_⟩
    rw [Kernel.removeState]
    exact if_neg hzero

theorem Listed.isEmpty_remove (h : Listed k) (ht : k.states t ≠ none) (p : ℕ) :
    (k.remove (.state t)).1.isEmpty (.ready p) = true ↔ ∀ u, u ≠ t → k.states u ≠ some (.ready p) := by
  have hw := h.wellFormed.remove ht
  have hcontainer : ∀ x, ((k.lists.uxListRemove (.state t)).1).container x =
      Function.update k.lists.container (.state t) none x := by simp
  rw [Kernel.isEmpty,List.isEmpty_iff,List.eq_nil_iff_forall_not_mem]
  simp only [Kernel.remove,hw.mem_iff,hcontainer]
  constructor
  · intro hnone u hu
    have := hnone (.state u)
    rwa [Function.update_of_ne (by simpa using hu)] at this
  · intro hnone x hx
    by_cases hxt : x = .state t
    · rw [hxt,Function.update_self] at hx
      cases hx
    · rw [Function.update_of_ne hxt] at hx
      obtain ⟨u,rfl⟩ := h.owner_ready hx
      exact hnone u (by simpa using hxt) hx

theorem Listed.removeState (h : Listed k) (ht : k.states t ≠ none) : Left k (k.removeState t) t := by
  have hlt := (h.priority_lt t).1
  simp only [configMaxPriorities] at hlt
  rcases removeState_cases k t with ⟨hzero,hempty,hcode⟩ | ⟨hkeep,hcode⟩
  · rw [h.isEmpty_remove ht] at hempty
    rw [hcode]
    refine ⟨⟨rfl,rfl,rfl,rfl,rfl,rfl,rfl,rfl⟩,rfl,rfl,rfl,fun v hv => ?_⟩
    by_cases hready : k.states t = some (.ready (k.priority t))
    · exact h.bits.leave_last h.ready_lt hready hempty hv
    · have hnot : ∀ q, k.states t ≠ some (.ready q) := by
        intro q hq
        rw [h.ready_priority t q hq] at hq
        exact hready hq
      have hlt' : ∀ q u, Function.update k.states t v u = some (.ready q) → q < 32 := by
        intro q u hu
        by_cases hut : u = t
        · subst hut
          rw [Function.update_self] at hu
          exact absurd hu (hv q)
        · rw [Function.update_of_ne hut] at hu
          exact h.ready_lt q u hu
      refine (h.bits.elsewhere hnot hv).reset_unused hlt' (by omega) fun u => ?_
      by_cases hut : u = t
      · subst hut
        rw [Function.update_self]
        exact hv _
      · rw [Function.update_of_ne hut]
        exact hempty u hut
  · rw [hcode]
    refine ⟨⟨rfl,rfl,rfl,rfl,rfl,rfl,rfl,rfl⟩,rfl,rfl,rfl,fun v hv => ?_⟩
    by_cases hready : k.states t = some (.ready (k.priority t))
    · refine h.bits.leave_others hready ?_ hv
      by_contra hnone
      push Not at hnone
      rcases hkeep with hcount | hfull
      · refine hcount ((h.wellFormed.remove_count hready).mpr fun y hy hin => ?_)
        obtain ⟨u,rfl⟩ := h.owner_ready hin
        exact hnone u (by simpa using hy) hin
      · rw [(h.isEmpty_remove ht _).mpr hnone] at hfull
        cases hfull
    · refine h.bits.elsewhere (fun q hq => ?_) hv
      rw [h.ready_priority t q hq] at hq
      exact hready hq

structure Woken (k k' : Kernel τ ε) (t : τ) : Prop where
  frame : Frame k k'
  tcb : k'.tcb = k.tcb
  unblock : k'.nextTaskUnblockTime = k.nextTaskUnblockTime
  value : k'.lists.value = k.lists.value
  states : k'.states = Function.update k.states t (some (.ready (k.priority t)))
  events : k'.events = Function.update k.events t none
  others : ∀ l : ListId ε, (∀ p, l ≠ .ready p) → (k'.lists.list l).items.Sublist (k.lists.list l).items
  top : k'.topReadyPriority = k.topReadyPriority ||| 2^k.priority t
  wellFormed : k'.lists.WellFormed

theorem add_list (k : Kernel τ ε) (t : τ) (hl : ∀ p, l ≠ .ready p) :
    (k.prvAddTaskToReadyList t).lists.list l = k.lists.list l :=
  Lists.put_items_of_ne _ _ _ _ (hl _)

structure Removed (k k' : Kernel τ ε) (t : τ) : Prop where
  frame : Frame k k'
  tcb : k'.tcb = k.tcb
  unblock : k'.nextTaskUnblockTime = k.nextTaskUnblockTime
  value : k'.lists.value = k.lists.value
  states : k'.states = Function.update k.states t none
  events : k'.events = Function.update k.events t none
  others : ∀ l : ListId ε, (k'.lists.list l).items.Sublist (k.lists.list l).items
  top : k'.topReadyPriority = k.topReadyPriority
  wellFormed : k'.lists.WellFormed

theorem Removed.woken (h : Removed k k' t) : Woken k (k'.prvAddTaskToReadyList t) t := by
  have hnone : k'.states t = none := by rw [h.states,Function.update_self]
  have hpriority : k'.priority t = k.priority t := by rw [Kernel.priority,h.tcb]; rfl
  refine ⟨h.frame.trans ⟨rfl,rfl,rfl,rfl,rfl,rfl,rfl,rfl⟩,h.tcb,h.unblock,h.value,?_,?_,fun l hl => ?_,?_,
    h.wellFormed.put hnone _⟩
  · rw [Kernel.prvAddTaskToReadyList,states_insertEnd_state,← hpriority]
    show Function.update k'.states t _ = _
    rw [h.states,Function.update_idem]
  · rw [Kernel.prvAddTaskToReadyList,events_insertEnd_state]
    exact h.events
  · rw [add_list _ _ hl]
    exact h.others l
  · rw [← hpriority,← h.top]
    rfl

/-- The event item leaves its list, if it is in one. -/
def Kernel.leaveEvent (k : Kernel τ ε) (t : τ) : Kernel τ ε :=
  if k.lists.container (.event t) ≠ none then (k.remove (.event t)).1 else k

theorem leaveEvent_kept (k : Kernel τ ε) (t : τ) :
    Frame k (k.leaveEvent t) ∧ (k.leaveEvent t).tcb = k.tcb ∧
      (k.leaveEvent t).nextTaskUnblockTime = k.nextTaskUnblockTime ∧
      (k.leaveEvent t).topReadyPriority = k.topReadyPriority ∧ (k.leaveEvent t).lists.value = k.lists.value ∧
      (k.leaveEvent t).states = k.states ∧ (k.leaveEvent t).events = Function.update k.events t none ∧
      ∀ l, ((k.leaveEvent t).lists.list l).items.Sublist (k.lists.list l).items := by
  rw [Kernel.leaveEvent]
  split
  · exact ⟨⟨rfl,rfl,rfl,rfl,rfl,rfl,rfl,rfl⟩,rfl,rfl,rfl,Lists.remove_value ..,states_remove_event ..,
      events_remove_event ..,fun l => Lists.remove_sublist ..⟩
  · rename_i hnone
    have he : k.events t = none := not_not.mp hnone
    exact ⟨⟨rfl,rfl,rfl,rfl,rfl,rfl,rfl,rfl⟩,rfl,rfl,rfl,rfl,rfl,by rw [← he,Function.update_eq_self],
      fun l => List.Sublist.refl _⟩

theorem leaveEvent_wellFormed (hw : k.lists.WellFormed) (t : τ) : (k.leaveEvent t).lists.WellFormed := by
  rw [Kernel.leaveEvent]
  split
  · rename_i he
    exact hw.remove he
  · exact hw

/-- A task that is in a list leaves it, and its event if it waits for one. -/
theorem removed_removeItems (hw : k.lists.WellFormed) (ht : k.states t ≠ none) : Removed k (k.removeItems t) t := by
  have hw₁ : (k.remove (.state t)).1.lists.WellFormed := hw.remove ht
  obtain ⟨hf,htcb,hunblock,htop,hvalue,hs,he,hl⟩ := leaveEvent_kept (k.remove (.state t)).1 t
  have hf₁ : Frame k (k.remove (.state t)).1 := ⟨rfl,rfl,rfl,rfl,rfl,rfl,rfl,rfl⟩
  refine ⟨hf₁.trans hf,htcb,hunblock,hvalue.trans (Lists.remove_value ..),hs.trans (states_remove_state ..),?_,
    fun l => (hl l).trans (Lists.remove_sublist ..),htop,leaveEvent_wellFormed hw₁ t⟩
  refine he.trans ?_
  rw [events_remove_state]

/-- In the other order, as `xTaskRemoveFromEventList` and `xTaskResumeAll` do it. -/
theorem removed_removeEvent (hw : k.lists.WellFormed) (he : k.events t ≠ none) (ht : k.states t ≠ none) :
    Removed k ((k.remove (.event t)).1.remove (.state t)).1 t := by
  have hw₁ : (k.remove (.event t)).1.lists.WellFormed := hw.remove he
  have ht₁ : (k.remove (.event t)).1.states t ≠ none := by rwa [states_remove_event]
  refine ⟨⟨rfl,rfl,rfl,rfl,rfl,rfl,rfl,rfl⟩,rfl,rfl,?_,?_,?_,?_,rfl,hw₁.remove ht₁⟩
  · exact (Lists.remove_value ..).trans (Lists.remove_value ..)
  · rw [states_remove_state,states_remove_event]
  · rw [events_remove_state,events_remove_event]
  · exact fun l => (Lists.remove_sublist ..).trans (Lists.remove_sublist ..)

omit [DecidableEq ε] in
theorem Woken.placed (hw : Woken k k' t) (h : Placed k) (hd : ∃ b, k.states t = some (.delayed b)) :
    Placed k' := by
  have hpriority : k'.priority t = k.priority t := by rw [Kernel.priority,hw.tcb]; rfl
  refine h.move (t := t) hw.wellFormed (fun u _ => h.waiting u) ?_ ?_ ?_ ?_ ?_ ?_
  · intro u hu
    rw [hw.states,hw.events,hw.tcb,Function.update_of_ne hu,Function.update_of_ne hu]
    exact ⟨rfl,rfl,rfl⟩
  · intro l hl
    rw [hw.states,Function.update_self] at hl
    cases hl
    rfl
  · intro l hl
    rw [hw.events,Function.update_self] at hl
    cases hl
  · intro p hp
    rw [hw.states,Function.update_self] at hp
    cases hp
    exact hpriority.symm
  · rw [hpriority,hw.tcb]
    exact h.priority_lt t
  · rw [hw.top,hw.states]
    obtain ⟨b,hb⟩ := hd
    exact h.bits.enter (fun q hq => by rw [hb] at hq; cases hq) _

end Moves

end Scheduler
end EmbeddedShell
