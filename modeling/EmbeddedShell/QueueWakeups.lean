import EmbeddedShell.QueueTasks

/-!
# No lost wake-up

A task that finds nothing in the queue locks it, looks again and goes on an event list;
an interrupt that uses the queue meanwhile only counts what it moved, and the counts are
paid back when the queue is unlocked. The invariant compares, for each side of the queue,
what is available there with the tasks that are on their way to it: as long as a task is
blocked, there is no more available than there are tasks on their way and wake-ups owed.
-/

namespace EmbeddedShell
namespace QueueTasks

open FreeRtos Memory Queue

variable {τ : Type}

inductive Side
  | receiver
  | sender
  deriving DecidableEq

def side : Operation → Side
  | .send _ _ => .sender
  | _ => .receiver

def waiting (q : Queue τ) : Side → List τ
  | .receiver => q.tasksWaitingToReceive
  | .sender => q.tasksWaitingToSend

/-- Items for a receiver, free places for a sender. -/
def available (q : Queue τ) : Side → ℕ
  | .receiver => q.messagesWaiting
  | .sender => q.length-q.messagesWaiting

/-- The lock that counts what has become available to a side. -/
def lock (q : Queue τ) : Side → ℤ
  | .receiver => q.txLock
  | .sender => q.rxLock

/-- From the event list on, until the task looks again. -/
def Stage.parked : Stage → Bool
  | .unlockTx .block | .unlockRx .block | .resume .block | .wait => true
  | _ => false

/-- The next thing that the task does is to look, once it is off the event list. -/
def Stage.ready (stage : Stage) : Bool := stage == .attempt || stage.parked

/-- The scheduler is suspended. -/
def Stage.exclusive : Stage → Bool
  | .check | .test | .place | .unlockTx _ | .unlockRx _ | .resume _ => true
  | _ => false

def Stage.holds : Stage → Side → Bool
  | .check, _ | .test, _ | .place, _ | .unlockTx _, _ | .unlockRx _, .sender => true
  | _, _ => false

/-- The task is in a call on side `d` and will look again. -/
def ready (s : System τ) (d : Side) (t : τ) : Bool :=
  match s.frames t with
  | none => false
  | some f => side f.operation == d && f.stage.ready

theorem ready_iff {s : System τ} {d : Side} {t : τ} : ready s d t = true ↔
    ∃ f, s.frames t = some f ∧ side f.operation = d ∧ f.stage.ready = true := by
  cases hf : s.frames t <;> simp [ready,hf]

section Invariant

variable [Fintype τ] [DecidableEq τ]

/-- The tasks that are about to look, none of them blocked. -/
def onWay (s : System τ) (d : Side) : Finset τ :=
  Finset.univ.filter fun t => ready s d t = true ∧ t ∉ waiting s.queue d

theorem mem_onWay {s : System τ} {d : Side} {t : τ} :
    t ∈ onWay s d ↔ ready s d t = true ∧ t ∉ waiting s.queue d := by simp [onWay]

structure Consistent (s : System τ) : Prop where
  sound : Sound s
  nodup : ∀ d, (waiting s.queue d).Nodup
  parked : ∀ d t, t ∈ waiting s.queue d →
    ∃ f, s.frames t = some f ∧ side f.operation = d ∧ f.stage.parked = true
  exclusive : ∀ t f, s.frames t = some f → f.stage.exclusive = true → s.suspended = some t
  held : ∀ d t f, s.frames t = some f → f.stage.holds d = true → 0 ≤ lock s.queue d
  owed : ∀ d, lock s.queue d ≠ queueUnlocked →
    ∃ t f, s.suspended = some t ∧ s.frames t = some f ∧ f.stage.holds d = true
  covered : ∀ d, waiting s.queue d ≠ [] ∨
      (∃ t f, s.frames t = some f ∧ side f.operation = d ∧ f.stage = .place) →
    available s.queue d ≤ (onWay s d).card + (lock s.queue d).toNat

/-- A set that has all tasks on their way and those taken off the event list. -/
theorem card_onWay_le {s s' : System τ} {d : Side} {woken : List τ} {T : Finset τ}
    (hw : waiting s.queue d = woken ++ waiting s'.queue d) (hn : (waiting s.queue d).Nodup)
    (hwoken : ∀ u ∈ woken, ready s d u = true)
    (hT : ∀ u, ready s d u = true → u ∉ waiting s'.queue d → u ∈ T) :
    (onWay s d).card + woken.length ≤ T.card := by
  rw [hw,List.nodup_append] at hn
  have hdisjoint : Disjoint (onWay s d) woken.toFinset := by
    rw [Finset.disjoint_left]
    intro u hu hmem
    have hout := (mem_onWay.mp hu).2
    rw [hw] at hout
    exact hout (List.mem_append_left _ (List.mem_toFinset.mp hmem))
  rw [← List.toFinset_card_of_nodup hn.1,← Finset.card_union_of_disjoint hdisjoint]
  apply Finset.card_le_card
  intro u hu
  rw [Finset.mem_union,mem_onWay,List.mem_toFinset] at hu
  rcases hu with ⟨hr,hout⟩ | hmem
  · refine hT u hr fun hin => hout ?_
    rw [hw]
    exact List.mem_append_right _ hin
  · exact hT u (hwoken u hmem) fun hin => hn.2.2 u hmem u hin rfl

theorem card_onWay_add {s s' : System τ} {d : Side} {woken : List τ} (hs : Consistent s)
    (hw : waiting s.queue d = woken ++ waiting s'.queue d)
    (hready : ∀ u, ready s d u = true → ready s' d u = true) :
    (onWay s d).card + woken.length ≤ (onWay s' d).card := by
  refine card_onWay_le hw (hs.nodup d) (fun u hu => ?_)
    fun u hr hout => mem_onWay.mpr ⟨hready u hr,hout⟩
  obtain ⟨f,hf,hd,hp⟩ := hs.parked d u (by rw [hw]; exact List.mem_append_left _ hu)
  exact ready_iff.mpr ⟨f,hf,hd,by simp [Stage.ready,hp]⟩

/-- The same when the task `t` is done with its call. -/
theorem card_onWay_leave {s s' : System τ} {d : Side} {woken : List τ} {t : τ} (hs : Consistent s)
    (hw : waiting s.queue d = woken ++ waiting s'.queue d)
    (hready : ∀ u, u ≠ t → ready s d u = true → ready s' d u = true) :
    (onWay s d).card + woken.length ≤ (onWay s' d).card + 1 := by
  refine le_trans (card_onWay_le hw (hs.nodup d) (fun u hu => ?_) fun u hr hout => ?_)
    (Finset.card_insert_le t _)
  · obtain ⟨f,hf,hd,hp⟩ := hs.parked d u (by rw [hw]; exact List.mem_append_left _ hu)
    exact ready_iff.mpr ⟨f,hf,hd,by simp [Stage.ready,hp]⟩
  · rw [Finset.mem_insert]
    exact (em (u = t)).imp id fun hut => mem_onWay.mpr ⟨hready u hut hr,hout⟩

end Invariant

section Effects

variable {q : Queue τ}

theorem copyFrom_rest (q : Queue τ) :
    q.prvCopyDataFromQueue.1 = { q with readFrom := q.prvCopyDataFromQueue.1.readFrom } := by
  simp only [prvCopyDataFromQueue]
  split <;> rfl

theorem copyTo_rest (q : Queue τ) (item : ℕ → UInt8) (position : Position) :
    ∃ memory writeTo readFrom messagesWaiting, q.prvCopyDataToQueue item position = { q with
      memory := memory
      writeTo := writeTo
      readFrom := readFrom
      messagesWaiting := messagesWaiting } := by
  simp only [prvCopyDataToQueue]
  split_ifs <;> exact ⟨_,_,_,_,rfl⟩

theorem copyTo_messagesWaiting (h : q.WellFormed) {item : ℕ → UInt8} {position : Position}
    (hp : Permitted q (.send item position))
    (hroom : q.messagesWaiting < q.length ∨ position = .overwrite) :
    q.messagesWaiting < q.length ∧
        (q.prvCopyDataToQueue item position).messagesWaiting = q.messagesWaiting+1 ∨
      q.length = 1 ∧ (q.prvCopyDataToQueue item position).messagesWaiting = 1 := by
  obtain ⟨-,ha⟩ := accept_copyTo h hp hroom
  cases position with
  | sendToBack | sendToFront =>
    have hlt : q.messagesWaiting < q.length := hroom.resolve_right (by decide)
    left
    simp only [accept,contents_length,if_pos hlt,Option.some.injEq] at ha
    exact ⟨hlt,by rw [← contents_length,← ha]; simp⟩
  | overwrite =>
    right
    simp only [accept,Option.some.injEq] at ha
    exact ⟨hp.1,by rw [← contents_length,← ha]; simp⟩

/-- The event list `l` becomes `l'`, what is available goes from `a` to `a'`, and `used`
tasks leave: nobody is left on the list who should have been woken. -/
def Serves (l l' : List τ) (a a' used : ℕ) : Prop :=
  ∃ woken, l = woken ++ l' ∧ (l' ≠ [] → a'+used ≤ a+woken.length ∨ a' = 0)

theorem serves_one {l : List τ} {a a' used : ℕ} (h : a'+used ≤ a+1) : Serves l l.tail a a' used := by
  cases l with
  | nil => exact ⟨[],rfl,fun hne => absurd rfl hne⟩
  | cons t l => exact ⟨[t],rfl,fun _ => Or.inl h⟩

theorem serves_none {l : List τ} {a a' used : ℕ} (h : a'+used ≤ a ∨ a' = 0) :
    Serves l l a a' used :=
  ⟨[],rfl,fun _ => h⟩

theorem critical_effect (h : q.WellFormed) {operation : Operation} (hp : Permitted q operation)
    {q' : Queue τ} {e : Event} (hc : critical q operation = some (q',e)) (d : Side) :
    lock q' d = lock q d ∧ Serves (waiting q d) (waiting q' d) (available q d) (available q' d)
      (if side operation = d then 1 else 0) := by
  have hle := h.messagesWaiting_le
  cases operation with
  | receive =>
    simp only [critical,Option.ite_none_right_eq_some,Option.some.injEq,Prod.mk.injEq] at hc
    obtain ⟨hsome,rfl,-⟩ := hc
    rw [copyFrom_rest]
    cases d with
    | receiver => exact ⟨rfl,serves_none (Or.inl (Nat.sub_add_cancel hsome).le)⟩
    | sender => exact ⟨rfl,serves_one (by simp only [side,available]; simp; omega)⟩
  | peek =>
    simp only [critical_peek,Option.ite_none_right_eq_some,Option.some.injEq,Prod.mk.injEq] at hc
    obtain ⟨hsome,rfl,-⟩ := hc
    cases d with
    | receiver => exact ⟨rfl,serves_one le_rfl⟩
    | sender => exact ⟨rfl,serves_none (Or.inl le_rfl)⟩
  | semaphoreTake =>
    simp only [critical,Option.ite_none_right_eq_some,Option.some.injEq,Prod.mk.injEq] at hc
    obtain ⟨hsome,rfl,-⟩ := hc
    cases d with
    | receiver => exact ⟨rfl,serves_none (Or.inl (Nat.sub_add_cancel hsome).le)⟩
    | sender => exact ⟨rfl,serves_one (by simp only [side,available]; simp; omega)⟩
  | send item position =>
    simp only [critical,Option.ite_none_right_eq_some,Option.some.injEq,Prod.mk.injEq] at hc
    obtain ⟨hroom,rfl,-⟩ := hc
    have hm := copyTo_messagesWaiting h hp hroom
    obtain ⟨memory,writeTo,readFrom,messagesWaiting,hq⟩ := copyTo_rest q item position
    rw [hq] at hm ⊢
    cases d with
    | receiver =>
      refine ⟨rfl,serves_one ?_⟩
      simp only [side,available,reduceCtorEq,if_false] at hm ⊢
      omega
    | sender =>
      refine ⟨rfl,serves_none ?_⟩
      simp only [side,available,if_true] at hm ⊢
      omega

theorem int8_succ {x : ℤ} (hx : 0 ≤ x) (hx' : x < 127) : int8 (x+1) = x+1 := by
  simp only [int8]
  omega

/-- An interrupt may only count what it moves while the count fits. -/
def Countable (q : Queue τ) : Input τ → Prop
  | .sendFromISR _ _ | .giveFromISR => q.txLock < 127
  | .receiveFromISR => q.rxLock < 127
  | _ => True

/-- What an interrupt moves: with the queue unlocked it wakes a task, with the queue
locked it counts. -/
def Interrupts (q q' : Queue τ) (d : Side) : Prop :=
  (lock q d = queueUnlocked ∧ lock q' d = queueUnlocked ∧
      Serves (waiting q d) (waiting q' d) (available q d) (available q' d) 0) ∨
    (lock q d ≠ queueUnlocked ∧ waiting q' d = waiting q d ∧
      (lock q' d = lock q d ∧ available q' d ≤ available q d ∨
        lock q' d = int8 (lock q d+1) ∧ lock q d < 127 ∧ available q' d ≤ available q d+1))

theorem interrupts_same (q : Queue τ) (d : Side) : Interrupts q q d := by
  by_cases hl : lock q d = queueUnlocked
  · exact Or.inl ⟨hl,hl,serves_none (Or.inl le_rfl)⟩
  · exact Or.inr ⟨hl,rfl,Or.inl ⟨rfl,le_rfl⟩⟩

theorem sendFromISR_effect (h : q.WellFormed) {item : ℕ → UInt8} {position : Position}
    (hp : Permitted q (.send item position)) (hl : q.txLock < 127) (d : Side) :
    Interrupts q (xQueueGenericSendFromISR q item position).1 d := by
  simp only [xQueueGenericSendFromISR]
  split
  · rename_i hroom
    have hm := copyTo_messagesWaiting h hp hroom
    obtain ⟨memory,writeTo,readFrom,messagesWaiting,hq⟩ := copyTo_rest q item position
    rw [hq] at hm ⊢
    cases d with
    | receiver =>
      by_cases hu : q.txLock = queueUnlocked
      · rw [if_pos hu]
        refine Or.inl ⟨hu,hu,serves_one ?_⟩
        simp only [available] at hm ⊢
        omega
      · rw [if_neg hu]
        refine Or.inr ⟨hu,rfl,Or.inr ⟨rfl,hl,?_⟩⟩
        simp only [available] at hm ⊢
        omega
    | sender =>
      have hav : q.length-messagesWaiting ≤ q.length-q.messagesWaiting := by
        dsimp only at hm
        omega
      by_cases hr : q.rxLock = queueUnlocked
      · refine Or.inl ⟨hr,by split <;> exact hr,?_⟩
        split <;> exact serves_none (Or.inl hav)
      · refine Or.inr ⟨hr,by split <;> rfl,Or.inl ⟨by split <;> rfl,?_⟩⟩
        split <;> exact hav
  · exact interrupts_same q d

theorem receiveFromISR_effect (h : q.WellFormed) (hl : q.rxLock < 127) (d : Side) :
    Interrupts q (xQueueReceiveFromISR q).1 d := by
  have hle := h.messagesWaiting_le
  simp only [xQueueReceiveFromISR]
  split
  · rename_i hsome
    rw [copyFrom_rest]
    cases d with
    | sender =>
      have hav : q.length-(q.messagesWaiting-1) ≤ q.length-q.messagesWaiting+1 := by omega
      by_cases hu : q.rxLock = queueUnlocked
      · rw [if_pos hu]
        exact Or.inl ⟨hu,hu,serves_one hav⟩
      · rw [if_neg hu]
        exact Or.inr ⟨hu,rfl,Or.inr ⟨rfl,hl,hav⟩⟩
    | receiver =>
      have hav : q.messagesWaiting-1 ≤ q.messagesWaiting := Nat.sub_le _ _
      by_cases hr : q.txLock = queueUnlocked
      · refine Or.inl ⟨hr,by split <;> exact hr,?_⟩
        split <;> exact serves_none (Or.inl hav)
      · refine Or.inr ⟨hr,by split <;> rfl,Or.inl ⟨by split <;> rfl,?_⟩⟩
        split <;> exact hav
  · exact interrupts_same q d

theorem peekFromISR_effect (q : Queue τ) (d : Side) : Interrupts q (xQueuePeekFromISR q).1 d := by
  simp only [xQueuePeekFromISR]
  split
  · rw [copyFrom_restored]
    exact interrupts_same q d
  · exact interrupts_same q d

theorem available_of_critical {q : Queue τ} {operation : Operation}
    (hc : critical q operation = none) : available q (side operation) = 0 := by
  cases operation with
  | receive | peek | semaphoreTake => simpa [critical,side,available] using hc
  | send item position =>
    simp only [critical,ite_eq_right_iff,reduceCtorEq,imp_false,not_or] at hc
    simp only [side,available]
    omega

theorem available_of_isUnavailable {q : Queue τ} {operation : Operation}
    (h : isUnavailable q operation = true) : available q (side operation) = 0 := by
  cases operation <;> simp_all [isUnavailable,side,available]

theorem unlockLoop_eq (n : ℕ) (ts : List τ) : unlockLoop n ts = ts.drop n := by
  induction n generalizing ts with
  | zero => rfl
  | succ n ih => cases ts <;> simp [unlockLoop,ih]

theorem lockQueue_lock (q : Queue τ) (d : Side) : lock (prvLockQueue q) d =
    if lock q d = queueUnlocked then queueLockedUnmodified else lock q d := by
  cases d <;> rfl

theorem placed_waiting (priority : τ → ℕ) (q : Queue τ) (t : τ) (operation : Operation) (d : Side) :
    waiting (placeOnEventList priority q t operation) d =
      if side operation = d then
        (waiting q d).orderedInsert (fun a b => priority b < priority a) t
      else waiting q d := by
  cases operation <;> cases d <;> rfl

theorem serves_same (q : Queue τ) {operation : Operation} (hz : available q (side operation) = 0)
    (p : Prop) [Decidable p] (d : Side) : Serves (waiting q d) (waiting q d) (available q d)
      (available q d) (if side operation = d ∧ p then 1 else 0) := by
  apply serves_none
  by_cases hd : side operation = d
  · exact Or.inr (by rw [← hd,hz])
  · exact Or.inl (by simp [hd])

end Effects

section Steps

variable [Fintype τ] [DecidableEq τ] {s s' : System τ} {t : τ} {f : Frame}

theorem Stage.exclusive_of_holds {stage : Stage} {d : Side} (h : stage.holds d = true) :
    stage.exclusive = true := by
  cases stage <;> cases d <;> simp_all [Stage.holds,Stage.exclusive]

theorem Consistent.unlocked (hs : Consistent s) (hrun : runnable s t = true)
    (hf : s.frames t = some f) {d : Side} (hd : f.stage.holds d = false) :
    lock s.queue d = queueUnlocked := by
  by_contra hl
  obtain ⟨u,g,hu,hg,hh⟩ := hs.owed d hl
  have hut : u = t := by simpa [runnable,hu] using hrun
  rw [hut,hf] at hg
  rw [Option.some.inj hg,hh] at hd
  cases hd

theorem Consistent.alone (hs : Consistent s) (hrun : runnable s t = true) {u : τ} {g : Frame}
    (hu : u ≠ t) (hg : s.frames u = some g) : g.stage.exclusive = false := by
  by_contra he
  have hsus := hs.exclusive u g hg (by simpa using he)
  exact hu (by simpa [runnable,hsus] using hrun)

theorem Consistent.notMem_waiting (hs : Consistent s) (hf : s.frames t = some f)
    (hp : f.stage.parked = false) (d : Side) : t ∉ waiting s.queue d := by
  intro hd
  obtain ⟨g,hg,-,hparked⟩ := hs.parked d t hd
  rw [hf,Option.some.injEq] at hg
  rw [hg,hparked] at hp
  cases hp

omit [Fintype τ] [DecidableEq τ] in
theorem ne_of_ready {u : τ} {d : Side} (hf : s.frames t = some f) (hr : f.stage.ready = false)
    (hu : ready s d u = true) : u ≠ t := by
  rintro rfl
  obtain ⟨g,hg,-,hready⟩ := ready_iff.mp hu
  rw [hf,Option.some.injEq] at hg
  rw [hg,hready] at hr
  cases hr

/-- It is enough to look at the task that takes the step. -/
theorem Consistent.of_step (hs : Consistent s) (hrun : runnable s t = true) (hsound : Sound s')
    (hothers : ∀ u, u ≠ t → s'.frames u = s.frames u)
    (hnodup : ∀ d, (waiting s'.queue d).Nodup)
    (hsub : ∀ d u, u ≠ t → u ∈ waiting s'.queue d → u ∈ waiting s.queue d)
    (hparked : ∀ d, t ∈ waiting s'.queue d →
      ∃ f, s'.frames t = some f ∧ side f.operation = d ∧ f.stage.parked = true)
    (hexclusive : ∀ f, s'.frames t = some f → f.stage.exclusive = true → s'.suspended = some t)
    (hheld : ∀ d f, s'.frames t = some f → f.stage.holds d = true → 0 ≤ lock s'.queue d)
    (howed : ∀ d, lock s'.queue d ≠ queueUnlocked →
      ∃ f, s'.suspended = some t ∧ s'.frames t = some f ∧ f.stage.holds d = true)
    (hcovered : ∀ d, waiting s'.queue d ≠ [] ∨
        (∃ f, s'.frames t = some f ∧ side f.operation = d ∧ f.stage = .place) →
      available s'.queue d ≤ (onWay s' d).card + (lock s'.queue d).toNat) : Consistent s' where
  sound := hsound
  nodup := hnodup
  parked d u hu := by
    by_cases hut : u = t
    · rw [hut] at hu ⊢
      exact hparked d hu
    · rw [hothers u hut]
      exact hs.parked d u (hsub d u hut hu)
  exclusive u g hg he := by
    by_cases hut : u = t
    · rw [hut] at hg ⊢
      exact hexclusive g hg he
    · rw [hothers u hut] at hg
      rw [hs.alone hrun hut hg] at he
      cases he
  held d u g hg hh := by
    by_cases hut : u = t
    · rw [hut] at hg
      exact hheld d g hg hh
    · rw [hothers u hut] at hg
      have he := Stage.exclusive_of_holds hh
      rw [hs.alone hrun hut hg] at he
      cases he
  owed d hl := by
    obtain ⟨g,hsus,hg,hh⟩ := howed d hl
    exact ⟨t,g,hsus,hg,hh⟩
  covered d hd := by
    refine hcovered d (hd.imp id ?_)
    rintro ⟨u,g,hg,hside,hplace⟩
    by_cases hut : u = t
    · rw [hut] at hg
      exact ⟨g,hg,hside,hplace⟩
    · rw [hothers u hut] at hg
      have he := hs.alone hrun hut hg
      rw [hplace] at he
      cases he

omit [Fintype τ] [DecidableEq τ] in
theorem ready_congr {d : Side} {u : τ} (h : s'.frames u = s.frames u) :
    ready s' d u = ready s d u := by
  simp [ready,h]

theorem Consistent.of_goto (hs : Consistent s) (hrun : runnable s t = true)
    (hf : s.frames t = some f) (f' : Frame) (hop : f'.operation = f.operation)
    (hsound : Sound s') (hothers : ∀ u, u ≠ t → s'.frames u = s.frames u)
    (hf' : s'.frames t = some f') (hq : s'.queue = s.queue)
    (hparked : f.stage.parked = true → f'.stage.parked = true ∨ blocked s.queue t = false)
    (hsuspended : (f'.stage.exclusive = true → s'.suspended = some t))
    (hholds : ∀ d, f'.stage.holds d = f.stage.holds d)
    (hready : f.stage.ready = true → f'.stage.ready = true ∨ available s.queue (side f.operation) = 0)
    (hplace : f'.stage = .place → available s.queue (side f.operation) = 0) : Consistent s' := by
  refine hs.of_step hrun hsound hothers ?_ ?_ ?_ ?_ ?_ ?_ ?_
  · intro d
    rw [hq]
    exact hs.nodup d
  · intro d u _ hu
    rwa [hq] at hu
  · intro d hd
    rw [hq] at hd
    obtain ⟨g,hg,hside,hp⟩ := hs.parked d t hd
    rw [hf,Option.some.injEq] at hg
    subst hg
    refine ⟨f',hf',by rw [hop,hside],(hparked hp).resolve_right ?_⟩
    cases d <;> simp_all [blocked,waiting]
  · intro g hg he
    rw [hf',Option.some.injEq] at hg
    subst hg
    exact hsuspended he
  · intro d g hg hh
    rw [hf',Option.some.injEq] at hg
    subst hg
    rw [hq]
    exact hs.held d t f hf (by rw [← hholds d,hh])
  · intro d hl
    rw [hq] at hl
    obtain ⟨u,g,hu,hg,hh⟩ := hs.owed d hl
    have hut : u = t := by simpa [runnable,hu] using hrun
    rw [hut,hf,Option.some.injEq] at hg
    subst hg
    have hh' : f'.stage.holds d = true := by rw [hholds d,hh]
    exact ⟨f',hsuspended (Stage.exclusive_of_holds hh'),hf',hh'⟩
  · intro d hd
    rw [hq] at hd ⊢
    by_cases hzero : available s.queue d = 0
    · omega
    · have hkeep : ∀ u, ready s d u = true → ready s' d u = true := by
        intro u hu
        by_cases hut : u = t
        · rw [hut] at hu ⊢
          obtain ⟨g,hg,hside,hr⟩ := ready_iff.mp hu
          rw [hf,Option.some.injEq] at hg
          subst hg
          refine ready_iff.mpr ⟨f',hf',by rw [hop,hside],(hready hr).resolve_right ?_⟩
          rwa [hside]
        · rwa [ready_congr (hothers u hut)]
      have hcard : (onWay s d).card + ([] : List τ).length ≤ (onWay s' d).card :=
        card_onWay_add hs (by rw [hq]; rfl) hkeep
      have hcov : available s.queue d ≤ (onWay s d).card + (lock s.queue d).toNat := by
        refine hs.covered d (hd.imp id ?_)
        rintro ⟨g,hg,hside,hpl⟩
        rw [hf',Option.some.injEq] at hg
        subst hg
        rw [hop] at hside
        rw [hside] at hplace
        exact absurd (hplace hpl) hzero
      simp only [List.length_nil] at hcard
      omega

theorem Consistent.of_again (hs : Consistent s) (hrun : runnable s t = true)
    (hf : s.frames t = some f) (suspended : Option τ)
    (hsound : Sound (({ s with suspended := suspended } : System τ).goto t
      { f with stage := .attempt }))
    (hparked : f.stage.parked = true → blocked s.queue t = false)
    (hholds : ∀ d, f.stage.holds d = false) :
    Consistent (({ s with suspended := suspended } : System τ).goto t { f with stage := .attempt }) := by
  refine hs.of_goto hrun hf { f with stage := .attempt } rfl hsound (fun u hu => by simp [hu])
    (by simp) rfl (fun hp => Or.inr (hparked hp)) (by simp [Stage.exclusive]) ?_ (by simp [Stage.ready])
    (by simp)
  intro d
  rw [hholds d]
  cases d <;> rfl

/-- The task is done with its call, successfully or because there is nothing for it. -/
theorem Consistent.of_leave (hs : Consistent s) (hrun : runnable s t = true)
    (hf : s.frames t = some f) (hparked : f.stage.parked = false)
    (hholds : ∀ d, f.stage.holds d = false) (hsound : Sound s')
    (hothers : ∀ u, u ≠ t → s'.frames u = s.frames u)
    (hstage : ∀ f', s'.frames t = some f' → f'.stage = .suspend)
    (hlock : ∀ d, lock s'.queue d = lock s.queue d)
    (hserves : ∀ d, Serves (waiting s.queue d) (waiting s'.queue d) (available s.queue d)
      (available s'.queue d) (if side f.operation = d ∧ f.stage.ready = true then 1 else 0)) :
    Consistent s' := by
  have hout := hs.notMem_waiting hf hparked
  have hsub : ∀ d u, u ∈ waiting s'.queue d → u ∈ waiting s.queue d := by
    intro d u hu
    obtain ⟨woken,hw,-⟩ := hserves d
    rw [hw]
    exact List.mem_append_right _ hu
  refine hs.of_step hrun hsound hothers ?_ (fun d u _ => hsub d u) ?_ ?_ ?_ ?_ ?_
  · intro d
    obtain ⟨woken,hw,-⟩ := hserves d
    have hn := hs.nodup d
    rw [hw] at hn
    exact hn.of_append_right
  · intro d hd
    exact absurd (hsub d t hd) (hout d)
  · intro g hg he
    rw [hstage g hg] at he
    cases he
  · intro d g hg hh
    rw [hstage g hg] at hh
    cases d <;> cases hh
  · intro d hl
    exact absurd ((hlock d).trans (hs.unlocked hrun hf (hholds d))) hl
  · intro d hd
    have hne : waiting s'.queue d ≠ [] := hd.resolve_right fun ⟨g,hg,_,hplace⟩ => by
      rw [hstage g hg] at hplace
      cases hplace
    obtain ⟨woken,hw,hserved⟩ := hserves d
    have hcov := hs.covered d (Or.inl (by rw [hw]; simp [hne]))
    have hkeep : ∀ u, u ≠ t → ready s d u = true → ready s' d u = true := by
      intro u hut hu
      rwa [ready_congr (hothers u hut)]
    rw [hlock d]
    by_cases hside : side f.operation = d ∧ f.stage.ready = true
    · have hcard := card_onWay_leave hs hw hkeep
      rw [if_pos hside] at hserved
      rcases hserved hne with h | h <;> omega
    · have hall : ∀ u, ready s d u = true → ready s' d u = true := by
        intro u hu
        refine hkeep u ?_ hu
        rintro rfl
        obtain ⟨g,hg,hd',hr⟩ := ready_iff.mp hu
        rw [hf,Option.some.injEq] at hg
        subst hg
        exact hside ⟨hd',hr⟩
      have hcard := card_onWay_add hs hw hall
      rw [if_neg hside] at hserved
      rcases hserved hne with h | h <;> omega

theorem Consistent.of_interrupt (hs : Consistent s) {q : Queue τ}
    (hsound : Sound { s with queue := q }) (hi : ∀ d, Interrupts s.queue q d) :
    Consistent { s with queue := q } := by
  have hwoken : ∀ d, ∃ woken, waiting s.queue d = woken ++ waiting q d := by
    intro d
    rcases hi d with ⟨-,-,woken,hw,-⟩ | ⟨-,hw,-⟩
    · exact ⟨woken,hw⟩
    · exact ⟨[],hw.symm⟩
  have hsub : ∀ d u, u ∈ waiting q d → u ∈ waiting s.queue d := by
    intro d u hu
    obtain ⟨woken,hw⟩ := hwoken d
    rw [hw]
    exact List.mem_append_right _ hu
  have hheld : ∀ d u g, s.frames u = some g → g.stage.holds d = true → 0 ≤ lock q d := by
    intro d u g hg hh
    have hl := hs.held d u g hg hh
    rcases hi d with ⟨hu,-⟩ | ⟨-,-,⟨he,-⟩ | ⟨he,hlt,-⟩⟩
    · rw [hu] at hl
      exact absurd hl (by decide)
    · rwa [he]
    · rw [he,int8_succ hl hlt]
      omega
  refine ⟨hsound,?_,?_,hs.exclusive,hheld,?_,?_⟩
  · intro d
    obtain ⟨woken,hw⟩ := hwoken d
    have hn := hs.nodup d
    rw [hw] at hn
    exact hn.of_append_right
  · intro d u hu
    exact hs.parked d u (hsub d u hu)
  · intro d hl
    apply hs.owed d
    rcases hi d with ⟨-,hu,-⟩ | ⟨hne,-⟩
    · exact absurd hu hl
    · exact hne
  · intro d hd
    rcases hi d with ⟨hu,hu',woken,hw,hserved⟩ | ⟨hne,hw,hmoved⟩
    · have hnil : waiting q d ≠ [] := hd.resolve_right fun ⟨u,g,hg,_,hplace⟩ => by
        have hl := hs.held d u g hg (by rw [hplace]; cases d <;> rfl)
        rw [hu] at hl
        exact absurd hl (by decide)
      have hcov := hs.covered d (Or.inl (by rw [hw]; simp [hnil]))
      have hcard : (onWay s d).card + woken.length ≤
          (onWay ({ s with queue := q } : System τ) d).card :=
        card_onWay_add hs hw fun _ h => h
      show available q d ≤ _ + (lock q d).toNat
      rw [hu] at hcov
      rw [hu']
      rcases hserved hnil with h | h <;> omega
    · have hcov := hs.covered d (by
        rw [← hw]
        exact hd)
      have hcard : (onWay s d).card + ([] : List τ).length ≤
          (onWay ({ s with queue := q } : System τ) d).card :=
        card_onWay_add hs hw.symm fun _ h => h
      obtain ⟨u,g,-,hg,hh⟩ := hs.owed d hne
      have hl := hs.held d u g hg hh
      show available q d ≤ _ + (lock q d).toNat
      simp only [List.length_nil] at hcard
      rcases hmoved with ⟨he,hav⟩ | ⟨he,hlt,hav⟩
      · rw [he]
        omega
      · rw [he,int8_succ hl hlt]
        omega

/-- Unlocking the queue for side `d` pays back the wake-ups that are owed to it. -/
theorem Consistent.of_unlock (hs : Consistent s) (hrun : runnable s t = true)
    (hf : s.frames t = some f) {q : Queue τ} {stage : Stage} {d : Side}
    (hsound : Sound (({ s with queue := q } : System τ).goto t { f with stage := stage }))
    (hsuspended : s.suspended = some t)
    (hnotPlace : stage ≠ .place)
    (hparked : f.stage.parked = true → stage.parked = true)
    (hready : f.stage.ready = true → stage.ready = true)
    (hholds : f.stage.holds d = true ∧ stage.holds d = false)
    (hkeep : ∀ e, e ≠ d → stage.holds e = f.stage.holds e ∧ waiting q e = waiting s.queue e ∧
      lock q e = lock s.queue e)
    (hd : waiting q d = (waiting s.queue d).drop (lock s.queue d).toNat ∧ lock q d = queueUnlocked)
    (hav : ∀ e, available q e = available s.queue e) :
    Consistent (({ s with queue := q } : System τ).goto t { f with stage := stage }) := by
  set s' := ({ s with queue := q } : System τ).goto t { f with stage := stage } with hs'
  have hothers : ∀ u, u ≠ t → s'.frames u = s.frames u := by
    intro u hu
    simp [hs',hu]
  have hf' : s'.frames t = some { f with stage := stage } := by simp [hs']
  have hsplit : ∀ e, ∃ woken, waiting s.queue e = woken ++ waiting q e ∧
      (waiting q e ≠ [] → (lock s.queue e).toNat ≤ woken.length + (lock q e).toNat) := by
    intro e
    by_cases he : e = d
    · rw [he]
      refine ⟨(waiting s.queue d).take (lock s.queue d).toNat,?_,fun hne => ?_⟩
      · rw [hd.1,List.take_append_drop]
      · rw [hd.1,ne_eq,List.drop_eq_nil_iff,not_le] at hne
        rw [List.length_take]
        omega
    · exact ⟨[],(hkeep e he).2.1.symm,fun _ => by rw [(hkeep e he).2.2]; simp⟩
  have hsub : ∀ e u, u ∈ waiting q e → u ∈ waiting s.queue e := by
    intro e u hu
    obtain ⟨woken,hw,-⟩ := hsplit e
    rw [hw]
    exact List.mem_append_right _ hu
  refine hs.of_step hrun hsound hothers ?_ (fun e u _ => hsub e u) ?_ ?_ ?_ ?_ ?_
  · intro e
    obtain ⟨woken,hw,-⟩ := hsplit e
    have hn := hs.nodup e
    rw [hw] at hn
    exact hn.of_append_right
  · intro e he
    obtain ⟨g,hg,hside,hp⟩ := hs.parked e t (hsub e t he)
    rw [hf,Option.some.injEq] at hg
    subst hg
    exact ⟨_,hf',hside,hparked hp⟩
  · intro g _ _
    exact hsuspended
  · intro e g hg hh
    rw [hf',Option.some.injEq] at hg
    subst hg
    have he : e ≠ d := by
      rintro rfl
      exact absurd hh (by simp [hholds.2])
    obtain ⟨hsame,-,hl⟩ := hkeep e he
    show 0 ≤ lock q e
    rw [hl]
    exact hs.held e t f hf (by rw [← hsame]; exact hh)
  · intro e hl
    have he : e ≠ d := by
      rintro rfl
      exact hl hd.2
    obtain ⟨hsame,-,heq⟩ := hkeep e he
    have hl' : lock s.queue e ≠ queueUnlocked := by
      rw [← heq]
      exact hl
    have hh : f.stage.holds e = true := by
      by_contra hh
      exact hl' (hs.unlocked hrun hf (by simpa using hh))
    exact ⟨_,hsuspended,hf',by rw [← hh]; exact hsame⟩
  · intro e he
    have hne : waiting q e ≠ [] := he.resolve_right fun ⟨g,hg,_,hplace⟩ => by
      rw [hf',Option.some.injEq] at hg
      subst hg
      exact hnotPlace hplace
    obtain ⟨woken,hw,hpaid⟩ := hsplit e
    have hcov := hs.covered e (Or.inl (by rw [hw]; simp [hne]))
    have hcard : (onWay s e).card + woken.length ≤ (onWay s' e).card := by
      refine card_onWay_add hs hw fun u hu => ?_
      by_cases hut : u = t
      · rw [hut] at hu ⊢
        obtain ⟨g,hg,hside,hr⟩ := ready_iff.mp hu
        rw [hf,Option.some.injEq] at hg
        subst hg
        exact ready_iff.mpr ⟨_,hf',hside,hready hr⟩
      · rwa [ready_congr (hothers u hut)]
    have := hpaid hne
    show available q e ≤ _ + (lock q e).toNat
    rw [hav e]
    omega

theorem Consistent.of_lock (hs : Consistent s) (hrun : runnable s t = true)
    (hf : s.frames t = some f) (hstage : f.stage = .suspend)
    (hsound : Sound (({ s with queue := prvLockQueue s.queue,suspended := some t } :
      System τ).goto t { f with stage := .check })) :
    Consistent (({ s with queue := prvLockQueue s.queue,suspended := some t } :
      System τ).goto t { f with stage := .check }) := by
  have hfree : ∀ d, lock s.queue d = queueUnlocked := fun d =>
    hs.unlocked hrun hf (by rw [hstage]; cases d <;> rfl)
  have hlocked : ∀ d, lock (prvLockQueue s.queue) d = 0 := by
    intro d
    rw [lockQueue_lock,if_pos (hfree d)]
    rfl
  have hlists : ∀ d, waiting (prvLockQueue s.queue) d = waiting s.queue d := by
    intro d
    cases d <;> rfl
  have hav : ∀ d, available (prvLockQueue s.queue) d = available s.queue d := by
    intro d
    cases d <;> rfl
  refine hs.of_step hrun hsound (fun u hu => by simp [hu]) ?_ ?_ ?_ (fun _ _ _ => rfl) ?_ ?_ ?_
  · intro d
    simp only [goto_queue,hlists]
    exact hs.nodup d
  · intro d u _ hu
    simpa only [goto_queue,hlists] using hu
  · intro d hd
    simp only [goto_queue,hlists] at hd
    exact absurd hd (hs.notMem_waiting hf (by rw [hstage]; rfl) d)
  · intro d g _ _
    simp only [goto_queue,hlocked]
    exact le_rfl
  · intro d _
    exact ⟨{ f with stage := .check },rfl,by simp,by cases d <;> rfl⟩
  · intro d hd
    simp only [goto_queue,goto_frames,hlists,hav,hlocked,if_true,Option.some.injEq] at hd ⊢
    have hne : waiting s.queue d ≠ [] := hd.resolve_right (by rintro ⟨g,rfl,-,hplace⟩; cases hplace)
    have hcov := hs.covered d (Or.inl hne)
    have hcard : (onWay s d).card + ([] : List τ).length ≤
        (onWay (({ s with queue := prvLockQueue s.queue,suspended := some t } :
          System τ).goto t { f with stage := .check }) d).card := by
      refine card_onWay_add hs (by simp only [goto_queue,hlists]; rfl) fun u hu => ?_
      have hut : u ≠ t := ne_of_ready hf (by rw [hstage]; rfl) hu
      rwa [ready_congr (show _ = s.frames u by simp [hut])]
    rw [hfree d] at hcov
    simp only [List.length_nil,queueUnlocked] at hcard hcov
    omega

/-- Going on the event list: what came since the last look is owed. -/
theorem Consistent.of_place (priority : τ → ℕ) (hs : Consistent s) (hrun : runnable s t = true)
    (hf : s.frames t = some f) (hstage : f.stage = .place)
    (hsound : Sound (({ s with queue := placeOnEventList priority s.queue t f.operation } :
      System τ).goto t { f with stage := .unlockTx .block })) :
    Consistent (({ s with queue := placeOnEventList priority s.queue t f.operation } :
      System τ).goto t { f with stage := .unlockTx .block }) := by
  have hout := hs.notMem_waiting hf (by rw [hstage]; rfl)
  have hlock : ∀ d, lock (placeOnEventList priority s.queue t f.operation) d = lock s.queue d := by
    intro d
    cases f.operation <;> cases d <;> rfl
  have hav : ∀ d, available (placeOnEventList priority s.queue t f.operation) d =
      available s.queue d := by
    intro d
    cases f.operation <;> cases d <;> rfl
  have hsuspended := hs.exclusive t f hf (by rw [hstage]; rfl)
  have hheld : ∀ d, f.stage.holds d = true := by
    intro d
    rw [hstage]
    cases d <;> rfl
  refine hs.of_step hrun hsound (fun u hu => by simp [hu]) ?_ ?_ ?_ (fun _ _ _ => hsuspended) ?_ ?_ ?_
  · intro d
    simp only [goto_queue,placed_waiting]
    split
    · exact (List.perm_orderedInsert _ _ _).nodup_iff.mpr
        (List.nodup_cons.mpr ⟨hout d,hs.nodup d⟩)
    · exact hs.nodup d
  · intro d u hut hu
    simp only [goto_queue,placed_waiting] at hu
    split at hu
    · exact (List.mem_orderedInsert _ |>.mp hu).resolve_left hut
    · exact hu
  · intro d hd
    simp only [goto_queue,placed_waiting] at hd
    split at hd
    · rename_i hside
      exact ⟨{ f with stage := .unlockTx .block },by simp,hside,rfl⟩
    · exact absurd hd (hout d)
  · intro d g _ _
    simp only [goto_queue,hlock]
    exact hs.held d t f hf (hheld d)
  · intro d _
    exact ⟨{ f with stage := .unlockTx .block },hsuspended,by simp,by cases d <;> rfl⟩
  · intro d hd
    simp only [goto_queue,goto_frames,hav,hlock,if_true,Option.some.injEq] at hd ⊢
    have hne : waiting (placeOnEventList priority s.queue t f.operation) d ≠ [] :=
      hd.resolve_right (by rintro ⟨g,rfl,-,hplace⟩; cases hplace)
    have hcov : available s.queue d ≤ (onWay s d).card + (lock s.queue d).toNat := by
      apply hs.covered d
      rw [placed_waiting] at hne
      split at hne
      · rename_i hside
        exact Or.inr ⟨t,f,hf,hside,hstage⟩
      · exact Or.inl hne
    have hcard : (onWay s d).card ≤ (onWay (({ s with
        queue := placeOnEventList priority s.queue t f.operation } :
          System τ).goto t { f with stage := .unlockTx .block }) d).card := by
      apply Finset.card_le_card
      intro u hu
      rw [mem_onWay] at hu ⊢
      have hut : u ≠ t := ne_of_ready hf (by rw [hstage]; rfl) hu.1
      refine ⟨by rw [ready_congr (show _ = s.frames u by simp [hut])]; exact hu.1,fun hin => hu.2 ?_⟩
      simp only [goto_queue,placed_waiting] at hin
      split at hin
      · exact (List.mem_orderedInsert _ |>.mp hin).resolve_left hut
      · exact hin
    omega

theorem attempt_consistent (hs : Consistent s) (hrun : runnable s t = true)
    (hf : s.frames t = some f) (hstage : f.stage = .attempt) (now : ℕ)
    (hsound : Sound (attempt s t f now).1) : Consistent (attempt s t f now).1 := by
  have hparked : f.stage.parked = false := by rw [hstage]; rfl
  have hholds : ∀ d, f.stage.holds d = false := by
    intro d
    rw [hstage]
    cases d <;> rfl
  simp only [attempt] at hsound ⊢
  cases hc : critical s.queue f.operation with
  | some r =>
    simp only [hc] at hsound ⊢
    have heffect := critical_effect hs.sound.wellFormed (hs.sound.permitted t f hf) hc
    refine hs.of_leave hrun hf hparked hholds hsound (fun u hu => by simp [hu]) (by simp)
      (fun d => (heffect d).1) fun d => ?_
    simpa [hstage,Stage.ready] using (heffect d).2
  | none =>
    have hz := available_of_critical hc
    by_cases hticks : f.ticksToWait = 0
    · simp only [hc,if_pos hticks] at hsound ⊢
      exact hs.of_leave hrun hf hparked hholds hsound (fun u hu => by simp [hu]) (by simp)
        (fun d => rfl) (serves_same s.queue hz _)
    · simp only [hc,if_neg hticks] at hsound ⊢
      exact hs.of_leave hrun hf hparked hholds hsound (fun u hu => by simp [hu]) (by simp)
        (fun d => rfl) (serves_same s.queue hz _)

theorem advance_consistent (priority : τ → ℕ) (hs : Consistent s) (hrun : runnable s t = true)
    (hf : s.frames t = some f) (now : ℕ) : Consistent (advance priority s t f now).1 := by
  have hsound := (advance_replays priority hs.sound now hf).sound
  have hsus : f.stage.exclusive = true → s.suspended = some t := hs.exclusive t f hf
  cases hstage : f.stage with
  | attempt =>
    simp only [advance,hstage] at hsound ⊢
    exact attempt_consistent hs hrun hf hstage now hsound
  | suspend =>
    simp only [advance,hstage] at hsound ⊢
    exact hs.of_lock hrun hf hstage hsound
  | check =>
    simp only [advance,hstage] at hsound hsus ⊢
    refine hs.of_goto hrun hf (check f now) rfl hsound (fun u hu => by simp [hu]) (by simp) rfl ?_
      (fun _ => hsus rfl) ?_ ?_ ?_
    · simp [hstage,Stage.parked]
    · intro d
      rw [hstage]
      simp only [check]
      split <;> cases d <;> rfl
    · simp [hstage,Stage.ready,Stage.parked]
    · simp only [check]
      split <;> simp
  | test =>
    simp only [advance,hstage] at hsound hsus ⊢
    refine hs.of_goto hrun hf { f with
        stage := if isUnavailable s.queue f.operation then .place else .unlockTx .again }
      rfl hsound (fun u hu => by simp [hu]) (by simp) rfl ?_ (fun _ => hsus rfl) ?_ ?_ ?_
    · simp [hstage,Stage.parked]
    · intro d
      rw [hstage]
      dsimp only
      split <;> cases d <;> rfl
    · simp [hstage,Stage.ready,Stage.parked]
    · intro hplace
      dsimp only at hplace
      split at hplace
      · rename_i hu
        exact available_of_isUnavailable hu
      · cases hplace
  | place =>
    simp only [advance,hstage] at hsound ⊢
    exact hs.of_place priority hrun hf hstage hsound
  | unlockTx after =>
    simp only [advance,hstage] at hsound hsus ⊢
    refine hs.of_unlock (d := .receiver) hrun hf hsound (hsus rfl) (by simp) ?_ ?_ ?_ ?_ ?_ ?_
    · rw [hstage]
      cases after <;> simp [Stage.parked]
    · rw [hstage]
      cases after <;> simp [Stage.ready,Stage.parked]
    · rw [hstage]
      exact ⟨rfl,rfl⟩
    · intro e he
      cases e with
      | receiver => exact absurd rfl he
      | sender => exact ⟨by rw [hstage]; rfl,rfl,rfl⟩
    · exact ⟨unlockLoop_eq _ _,rfl⟩
    · intro e
      cases e <;> rfl
  | unlockRx after =>
    simp only [advance,hstage] at hsound hsus ⊢
    refine hs.of_unlock (d := .sender) hrun hf hsound (hsus rfl) (by simp) ?_ ?_ ?_ ?_ ?_ ?_
    · rw [hstage]
      cases after <;> simp [Stage.parked]
    · rw [hstage]
      cases after <;> simp [Stage.ready,Stage.parked]
    · rw [hstage]
      exact ⟨rfl,rfl⟩
    · intro e he
      cases e with
      | sender => exact absurd rfl he
      | receiver => exact ⟨by rw [hstage]; rfl,rfl,rfl⟩
    · exact ⟨unlockLoop_eq _ _,rfl⟩
    · intro e
      cases e <;> rfl
  | resume after =>
    simp only [advance,hstage] at hsound ⊢
    cases after with
    | block =>
      refine hs.of_goto hrun hf { f with stage := .wait } rfl hsound (fun u hu => by simp [resume,hu])
        (by simp [resume]) rfl (by simp [Stage.parked]) (by simp [Stage.exclusive]) ?_
        (by simp [Stage.ready,Stage.parked]) (by simp)
      intro d
      rw [hstage]
      cases d <;> rfl
    | again => exact hs.of_again hrun hf none hsound (by simp [hstage,Stage.parked]) (by simp [hstage,Stage.holds])
    | leave =>
      have hparked : f.stage.parked = false := by rw [hstage]; rfl
      have hready : f.stage.ready = false := by rw [hstage]; rfl
      have hholds : ∀ d, f.stage.holds d = false := by
        intro d
        rw [hstage]
        cases d <;> rfl
      simp only [resume] at hsound ⊢
      split at hsound
      · exact hs.of_leave hrun hf hparked hholds hsound (fun u hu => by simp [hu]) (by simp)
          (fun d => rfl) fun d => serves_none (Or.inl (by simp [hready]))
      · refine hs.of_goto hrun hf { f with stage := .retest } rfl hsound (fun u hu => by simp [hu])
          (by simp) rfl (by simp [hparked]) (by simp [Stage.exclusive]) ?_ (by simp [hready]) (by simp)
        intro d
        rw [hholds d]
        cases d <;> rfl
  | wait =>
    by_cases hb : blocked s.queue t = true
    · simp only [advance,hstage,if_pos hb]
      exact hs
    · simp only [advance,hstage,if_neg hb] at hsound ⊢
      exact hs.of_again hrun hf s.suspended hsound (fun _ => by simpa using hb)
        (by simp [hstage,Stage.holds])
  | retest =>
    by_cases hz : s.queue.messagesWaiting = 0
    · simp only [advance,hstage,if_pos hz] at hsound ⊢
      exact hs.of_leave hrun hf (by rw [hstage]; rfl) (by simp [hstage,Stage.holds]) hsound
        (fun u hu => by simp [hu]) (by simp) (fun d => rfl)
        fun d => serves_none (Or.inl (by simp [hstage,Stage.ready,Stage.parked]))
    · simp only [advance,hstage,if_neg hz] at hsound ⊢
      exact hs.of_again hrun hf s.suspended hsound (by simp [hstage,Stage.parked])
        (by simp [hstage,Stage.holds])

theorem call_consistent (hs : Consistent s) (hrun : runnable s t = true) (hnone : s.frames t = none)
    (hf : f.stage = .attempt) (hsound : Sound (s.goto t f)) : Consistent (s.goto t f) := by
  have hout : ∀ d, t ∉ waiting s.queue d := by
    intro d hd
    obtain ⟨g,hg,-⟩ := hs.parked d t hd
    rw [hnone] at hg
    cases hg
  have hothers : ∀ u, u ≠ t → (s.goto t f).frames u = s.frames u := fun u hu => by simp [hu]
  refine hs.of_step hrun hsound hothers hs.nodup (fun _ _ _ h => h) (fun d hd => absurd hd (hout d))
    ?_ ?_ ?_ ?_
  · intro g hg he
    simp only [goto_frames,if_true,Option.some.injEq] at hg
    rw [← hg,hf] at he
    cases he
  · intro d g hg hh
    simp only [goto_frames,if_true,Option.some.injEq] at hg
    rw [← hg,hf] at hh
    cases d <;> cases hh
  · intro d hl
    obtain ⟨u,g,hu,hg,-⟩ := hs.owed d hl
    have hut : u = t := by simpa [runnable,hu] using hrun
    rw [hut,hnone] at hg
    cases hg
  · intro d hd
    have hne : waiting s.queue d ≠ [] := hd.resolve_right fun ⟨g,hg,_,hplace⟩ => by
      simp only [goto_frames,if_true,Option.some.injEq] at hg
      rw [← hg,hf] at hplace
      cases hplace
    have hcov := hs.covered d (Or.inl hne)
    have hcard : (onWay s d).card + ([] : List τ).length ≤ (onWay (s.goto t f) d).card := by
      refine card_onWay_add hs rfl fun u hu => ?_
      have hut : u ≠ t := by
        rintro rfl
        obtain ⟨g,hg,-⟩ := ready_iff.mp hu
        rw [hnone] at hg
        cases hg
      rwa [ready_congr (hothers u hut)]
    simp only [List.length_nil] at hcard
    simp only [goto_queue]
    omega

theorem tick_consistent (hs : Consistent s) (t : τ) {q : Queue τ} (hsound : Sound { s with queue := q })
    (hlists : ∀ d, waiting q d = (waiting s.queue d).erase t)
    (hlock : ∀ d, lock q d = lock s.queue d)
    (hav : ∀ d, available q d = available s.queue d) : Consistent { s with queue := q } := by
  have hsub : ∀ d u, u ∈ waiting q d → u ∈ waiting s.queue d := by
    intro d u hu
    rw [hlists] at hu
    exact List.mem_of_mem_erase hu
  refine ⟨hsound,?_,fun d u hu => hs.parked d u (hsub d u hu),hs.exclusive,?_,?_,?_⟩
  · intro d
    show (waiting q d).Nodup
    rw [hlists]
    exact (hs.nodup d).erase t
  · intro d u g hg hh
    show 0 ≤ lock q d
    rw [hlock]
    exact hs.held d u g hg hh
  · intro d hl
    rw [show lock ({ s with queue := q } : System τ).queue d = lock s.queue d from hlock d] at hl
    exact hs.owed d hl
  · intro d hd
    have hcov := hs.covered d (hd.imp (fun hne hnil => hne (by
      show waiting q d = []
      rw [hlists,hnil]
      rfl)) id)
    have hcard : (onWay s d).card ≤ (onWay ({ s with queue := q } : System τ) d).card := by
      apply Finset.card_le_card
      intro u hu
      rw [mem_onWay] at hu ⊢
      exact ⟨hu.1,fun hin => hu.2 (hsub d u hin)⟩
    show available q d ≤ _ + (lock q d).toNat
    rw [hav,hlock]
    omega

theorem step_consistent (priority : τ → ℕ) (hs : Consistent s) {x : Input τ}
    (hx : x.Permitted s.queue) (hcount : Countable s.queue x) :
    Consistent (step priority s x).1 := by
  have hsound := (step_replays priority hs.sound hx).sound
  have hw := hs.sound.wellFormed
  cases x with
  | call t operation ticksToWait =>
    simp only [step] at hsound ⊢
    cases hf : s.frames t with
    | some f => exact hs
    | none =>
      simp only [hf] at hsound ⊢
      by_cases hrun : runnable s t = true
      · rw [if_pos hrun] at hsound ⊢
        exact call_consistent hs hrun hf rfl hsound
      · rw [if_neg hrun]
        exact hs
  | run t now =>
    simp only [step]
    cases hf : s.frames t with
    | none => exact hs
    | some f =>
      dsimp only
      split
      · rename_i hrun
        exact advance_consistent priority hs hrun hf now
      · exact hs
  | tick t =>
    simp only [step] at hsound ⊢
    cases hsus : s.suspended with
    | some u => exact hs
    | none =>
      simp only [hsus] at hsound ⊢
      have := tick_consistent (q := { s.queue with
        tasksWaitingToSend := s.queue.tasksWaitingToSend.erase t
        tasksWaitingToReceive := s.queue.tasksWaitingToReceive.erase t }) hs t
        (by rw [hsus]; exact hsound) (fun d => by cases d <;> rfl) (fun d => by cases d <;> rfl)
        fun d => by cases d <;> rfl
      rwa [hsus] at this
  | sendFromISR item position => exact hs.of_interrupt hsound (sendFromISR_effect hw hx hcount)
  | giveFromISR =>
    simp only [step,giveFromISR_eq hx fun _ => 0] at hsound ⊢
    exact hs.of_interrupt hsound (sendFromISR_effect hw trivial hcount)
  | receiveFromISR => exact hs.of_interrupt hsound (receiveFromISR_effect hw hcount)
  | peekFromISR => exact hs.of_interrupt hsound (peekFromISR_effect s.queue)

theorem consistent_start {q : Queue τ} (hq : Created q) : Consistent (start q) := by
  have h := hq.idle
  have hnil : ∀ d, waiting q d = [] := by
    intro d
    cases d
    · exact h.noReceiver
    · exact h.noSender
  have hfree : ∀ d, lock q d = queueUnlocked := by
    intro d
    cases d
    · exact h.unlocked.2
    · exact h.unlocked.1
  refine ⟨sound_start hq,fun d => ?_,fun d u hu => ?_,by simp [start],by simp [start],fun d hl => ?_,
    fun d hd => ?_⟩
  · rw [show waiting (start q).queue d = [] from hnil d]
    exact List.nodup_nil
  · rw [show waiting (start q).queue d = [] from hnil d] at hu
    cases hu
  · exact absurd (hfree d) hl
  · rcases hd with hne | ⟨u,f,hf,-⟩
    · exact absurd (hnil d) hne
    · cases hf

theorem run_consistent (priority : τ → ℕ) (hs : Consistent s) {xs : List (Input τ)}
    (hx : ∀ x ∈ xs, x.Permitted s.queue)
    (hcount : Execution.Along (step priority) (fun s x => Countable s.queue x) s xs) :
    Consistent (Execution.run (step priority) s xs) := by
  induction xs generalizing s with
  | nil => exact hs
  | cons x xs ih =>
    have hgeometry := (step_replays priority hs.sound (hx x (by simp))).geometry
    exact ih (step_consistent priority hs (hx x (by simp)) hcount.1)
      (fun y hy => (Input.permitted_congr hgeometry).mpr (hx y (by simp [hy]))) hcount.2

/-- While a task is blocked on a queue, what is available to it never exceeds the tasks
that are on their way to it, apart from the wake-ups that are owed while the scheduler is
suspended. -/
theorem no_lost_wakeup (priority : τ → ℕ) {q : Queue τ} (hq : Created q) {xs : List (Input τ)}
    (hx : ∀ x ∈ xs, x.Permitted q)
    (hcount : Execution.Along (step priority) (fun s x => Countable s.queue x) (start q) xs)
    (d : Side) (hblocked : waiting (Execution.run (step priority) (start q) xs).queue d ≠ []) :
    available (Execution.run (step priority) (start q) xs).queue d ≤
        (onWay (Execution.run (step priority) (start q) xs) d).card +
          (lock (Execution.run (step priority) (start q) xs).queue d).toNat ∧
      ((Execution.run (step priority) (start q) xs).suspended = none →
        available (Execution.run (step priority) (start q) xs).queue d ≤
          (onWay (Execution.run (step priority) (start q) xs) d).card) := by
  have hs := run_consistent priority (consistent_start hq) hx hcount
  have hcov := hs.covered d (Or.inl hblocked)
  refine ⟨hcov,fun hsus => ?_⟩
  have hfree : lock (Execution.run (step priority) (start q) xs).queue d = queueUnlocked := by
    by_contra hl
    obtain ⟨u,f,hu,-⟩ := hs.owed d hl
    rw [hsus] at hu
    cases hu
  rw [hfree] at hcov
  simpa [queueUnlocked] using hcov

end Steps

theorem no_lost_wakeup_posted : ∃ q, xQueueGenericCreate oneBlock 1 4 blankQueue = some q ∧
    waiting (Execution.run (step fun _ => 0) (start q) postWhileLocked).queue .receiver = [true] ∧
    available (Execution.run (step fun _ => 0) (start q) postWhileLocked).queue .receiver ≤
      (onWay (Execution.run (step fun _ => 0) (start q) postWhileLocked) .receiver).card +
        (lock (Execution.run (step fun _ => 0) (start q) postWhileLocked).queue .receiver).toNat := by
  refine ⟨_,rfl,by decide,(no_lost_wakeup (fun _ => 0) (.queue oneBlock_allocated rfl) ?_ ?_ .receiver ?_).1⟩
  · simp [postWhileLocked,Input.Permitted,Permitted]
  · refine ⟨trivial,trivial,trivial,trivial,trivial,?_,trivial,trivial⟩
    show (_ : ℤ) < 127
    decide
  · decide

end QueueTasks
end EmbeddedShell
