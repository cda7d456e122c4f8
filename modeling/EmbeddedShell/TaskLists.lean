import Mathlib.Algebra.Order.Ring.Nat
import Mathlib.Data.List.TakeWhile
import EmbeddedShell.DoublyLinked
import EmbeddedShell.Execution

/-!
# The lists of the kernel

`ListItem_t`s lie somewhere in memory and are linked into rings that start and end with
the `xListEnd` of a `List_t`. `Lists` says what such memory is for: every list is a plain
list of items with the position of `pxIndex` in it, and every item knows its list. Each
function of the kernel does the same on both.
-/

namespace EmbeddedShell
namespace TaskLists

open DoublyLinked

def portMaxDelay : ℕ := 2^32-1

/-- The members of the list items and lists in memory, and whether a `List_t` at `NULL`
has been accessed. -/
structure Items (α L : Type*) where
  next : α → α
  previous : α → α
  value : α → ℕ
  container : α → Option L
  index : L → α
  count : L → ℕ
  faulted : Bool

variable {α L : Type*} [DecidableEq α] [DecidableEq L]

namespace Items

/-- `xListEnd` of a list is a list item, too. -/
def vListInitialise (endOf : L → α) (m : Items α L) (l : L) : Items α L :=
  { m with
    index := Function.update m.index l (endOf l)
    value := Function.update m.value (endOf l) portMaxDelay
    next := Function.update m.next (endOf l) (endOf l)
    previous := Function.update m.previous (endOf l) (endOf l)
    count := Function.update m.count l 0 }

def vListInitialiseItem (m : Items α L) (x : α) : Items α L :=
  { m with container := Function.update m.container x none }

def vListInsertEnd (m : Items α L) (l : L) (x : α) : Items α L :=
  let index := m.index l
  let next := Function.update m.next x index
  let previous := Function.update m.previous x (m.previous index)
  let next := Function.update next (previous index) x
  let previous := Function.update previous index x
  { m with
    next := next
    previous := previous
    container := Function.update m.container x (some l)
    count := Function.update m.count l (m.count l+1) }

/-- The loop of `vListInsert`. -/
def insertPosition (m : Items α L) (v : ℕ) : ℕ → α → α
  | 0, iterator => iterator
  | fuel+1, iterator =>
    if m.value (m.next iterator) ≤ v then insertPosition m v fuel (m.next iterator) else iterator

def vListInsert (endOf : L → α) (m : Items α L) (l : L) (x : α) : Items α L :=
  let v := m.value x
  let iterator := if v = portMaxDelay then m.previous (endOf l)
    else insertPosition m v (m.count l+1) (endOf l)
  let next := Function.update m.next x (m.next iterator)
  let previous := Function.update m.previous (next x) x
  let previous := Function.update previous x iterator
  let next := Function.update next iterator x
  { m with
    next := next
    previous := previous
    container := Function.update m.container x (some l)
    count := Function.update m.count l (m.count l+1) }

/-- The memory afterwards and the number of items left. The list of an item that is in
none is `NULL`. -/
def uxListRemove (m : Items α L) (x : α) : Items α L × ℕ :=
  match m.container x with
  | none => ({ m with faulted := true },0)
  | some l =>
    let previous := Function.update m.previous (m.next x) (m.previous x)
    let next := Function.update m.next (previous x) (m.next x)
    let index := if m.index l = x then previous x else m.index l
    ({ m with
      next := next
      previous := previous
      index := Function.update m.index l index
      container := Function.update m.container x none
      count := Function.update m.count l (m.count l-1) },m.count l-1)

def listSetListItemValue (m : Items α L) (x : α) (v : ℕ) : Items α L :=
  { m with value := Function.update m.value x v }

/-- `listGET_OWNER_OF_NEXT_ENTRY`, with the item in place of its owner. -/
def listGetNextEntry (endOf : L → α) (m : Items α L) (l : L) : Items α L × α :=
  let index := m.next (m.index l)
  let index := if index = endOf l then m.next index else index
  ({ m with index := Function.update m.index l index },index)

def listGetHeadEntry (endOf : L → α) (m : Items α L) (l : L) : α := m.next (endOf l)

end Items

/-- The items of a list, and how many steps `pxIndex` is behind `xListEnd`. -/
structure TaskList (α : Type*) where
  items : List α
  index : ℕ

namespace TaskList

/-- A new item after the first `p`; `pxIndex` stays at its item. -/
def insertAt (t : TaskList α) (p : ℕ) (x : α) : TaskList α :=
  ⟨t.items.take p++x::t.items.drop p,if p < t.index then t.index+1 else t.index⟩

/-- An item is taken out; `pxIndex` moves back if it was there. -/
def remove (t : TaskList α) (x : α) : TaskList α :=
  ⟨t.items.erase x,if t.items.idxOf x < t.index then t.index-1 else t.index⟩

/-- `pxIndex` moves on and skips `xListEnd`. -/
def advance (t : TaskList α) : TaskList α :=
  ⟨t.items,if t.index < t.items.length then t.index+1 else 1⟩

def current (t : TaskList α) : Option α := if t.index = 0 then none else t.items[t.index-1]?

end TaskList

/-- All lists, what each item knows, and whether an item has been removed that was in none. -/
structure Lists (α L : Type*) where
  list : L → TaskList α
  value : α → ℕ
  container : α → Option L
  faulted : Bool

namespace Lists

def put (s : Lists α L) (l : L) (p : ℕ) (x : α) : Lists α L :=
  { s with
    list := Function.update s.list l ((s.list l).insertAt p x)
    container := Function.update s.container x (some l) }

/-- Right before `pxIndex`. -/
def vListInsertEnd (s : Lists α L) (l : L) (x : α) : Lists α L :=
  s.put l (if (s.list l).index = 0 then (s.list l).items.length else (s.list l).index-1) x

/-- After the items in front whose values are not larger. -/
def vListInsert (s : Lists α L) (l : L) (x : α) : Lists α L :=
  s.put l ((s.list l).items.takeWhile fun y => s.value y ≤ s.value x).length x

def vListInitialiseItem (s : Lists α L) (x : α) : Lists α L :=
  { s with container := Function.update s.container x none }

def uxListRemove (s : Lists α L) (x : α) : Lists α L × ℕ :=
  match s.container x with
  | none => ({ s with faulted := true },0)
  | some l =>
    ({ s with
      list := Function.update s.list l ((s.list l).remove x)
      container := Function.update s.container x none },((s.list l).remove x).items.length)

def listSetListItemValue (s : Lists α L) (x : α) (v : ℕ) : Lists α L :=
  { s with value := Function.update s.value x v }

def listGetNextEntry (s : Lists α L) (l : L) : Lists α L × Option α :=
  ({ s with list := Function.update s.list l (s.list l).advance },(s.list l).advance.current)

def listGetHeadEntry (s : Lists α L) (l : L) : Option α := (s.list l).items.head?

end Lists

section Effects

variable (s : Lists α L) (l : L) (x : α)

@[simp] theorem Lists.put_container (p : ℕ) :
    (s.put l p x).container = Function.update s.container x (some l) := rfl
@[simp] theorem Lists.put_value (p : ℕ) : (s.put l p x).value = s.value := rfl
@[simp] theorem Lists.insertEnd_container :
    (s.vListInsertEnd l x).container = Function.update s.container x (some l) := rfl
@[simp] theorem Lists.insertEnd_value : (s.vListInsertEnd l x).value = s.value := rfl
@[simp] theorem Lists.insert_container :
    (s.vListInsert l x).container = Function.update s.container x (some l) := rfl
@[simp] theorem Lists.insert_value : (s.vListInsert l x).value = s.value := rfl

@[simp] theorem Lists.remove_container :
    (s.uxListRemove x).1.container = Function.update s.container x none := by
  rw [Lists.uxListRemove]
  split
  · rename_i hx
    show s.container = _
    rw [← hx,Function.update_eq_self]
  · rfl

@[simp] theorem Lists.remove_value : (s.uxListRemove x).1.value = s.value := by
  rw [Lists.uxListRemove]
  split <;> rfl

variable {l} in
theorem Lists.remove_items {l' : L} (hl : s.container x = some l) :
    ((s.uxListRemove x).1.list l').items =
      if l' = l then (s.list l').items.erase x else (s.list l').items := by
  simp only [Lists.uxListRemove,hl]
  by_cases h : l' = l
  · subst h
    simp [TaskList.remove]
  · simp [h]

theorem Lists.remove_sublist (l' : L) :
    ((s.uxListRemove x).1.list l').items.Sublist (s.list l').items := by
  cases hx : s.container x with
  | none =>
    simp only [Lists.uxListRemove,hx]
    exact List.Sublist.refl _
  | some l =>
    rw [Lists.remove_items s x hx]
    split
    · exact List.erase_sublist
    · exact List.Sublist.refl _

theorem Lists.put_items_of_ne {l' : L} (p : ℕ) (h : l' ≠ l) : (s.put l p x).list l' = s.list l' := by
  simp [Lists.put,h]

end Effects

/-- Every item is in the list that it knows and in no other, and no other was removed. -/
structure Lists.WellFormed (s : Lists α L) : Prop where
  mem_iff : ∀ x l, x ∈ (s.list l).items ↔ s.container x = some l
  nodup : ∀ l, (s.list l).items.Nodup
  index_le : ∀ l, (s.list l).index ≤ (s.list l).items.length
  sound : s.faulted = false

section WellFormed

variable {s : Lists α L} {l : L} {x : α}

omit [DecidableEq L] in
theorem Lists.WellFormed.erase_eq (h : s.WellFormed) (hx : s.container x = some l) : ∃ us ws,
    (s.list l).items = us++x::ws ∧ (s.list l).remove x =
      ⟨us++ws,if us.length < (s.list l).index then (s.list l).index-1 else (s.list l).index⟩ := by
  obtain ⟨us,ws,hitems⟩ := List.append_of_mem ((h.mem_iff x l).mpr hx)
  have hd := h.nodup l
  rw [hitems] at hd
  have hus : x ∉ us := fun hmem => by
    rw [List.nodup_append] at hd
    exact hd.2.2 x hmem x List.mem_cons_self rfl
  refine ⟨us,ws,hitems,?_⟩
  have hidx : (us++x::ws).idxOf x = us.length := by
    rw [List.idxOf_append_of_notMem hus,List.idxOf_cons_self,Nat.add_zero]
  rw [TaskList.remove,hitems,List.erase_append_right _ hus,List.erase_cons_head,hidx]

omit [DecidableEq L] in
theorem Lists.WellFormed.mem_remove (h : s.WellFormed) (hx : s.container x = some l) (y : α) :
    y ∈ ((s.list l).remove x).items ↔ y ≠ x ∧ s.container y = some l := by
  obtain ⟨us,ws,hitems,hremove⟩ := h.erase_eq hx
  have hd := h.nodup l
  rw [hitems,List.nodup_middle,List.nodup_cons] at hd
  rw [hremove,← h.mem_iff,hitems]
  simp only [List.mem_append,List.mem_cons] at hd ⊢
  constructor
  · intro hy
    refine ⟨?_,hy.imp id Or.inr⟩
    rintro rfl
    exact hd.1 hy
  · rintro ⟨hne,hy | hy | hy⟩
    · exact Or.inl hy
    · exact absurd hy hne
    · exact Or.inr hy

theorem Lists.WellFormed.remove_count (h : s.WellFormed) (hx : s.container x = some l) :
    (s.uxListRemove x).2 = 0 ↔ ∀ y, y ≠ x → s.container y ≠ some l := by
  simp only [Lists.uxListRemove,hx,List.length_eq_zero_iff,List.eq_nil_iff_forall_not_mem,
    h.mem_remove hx,not_and]

theorem Lists.WellFormed.put (h : s.WellFormed) (hx : s.container x = none) (p : ℕ) :
    (s.put l p x).WellFormed := by
  have hnew : ∀ l, x ∉ (s.list l).items := fun l hmem => by
    rw [(h.mem_iff x l).mp hmem] at hx
    cases hx
  have hmem : ∀ y, y ∈ (s.list l).items.take p++x::(s.list l).items.drop p ↔
      y = x ∨ y ∈ (s.list l).items := by
    intro y
    rw [List.mem_append,List.mem_cons,← or_assoc,or_comm (a := y ∈ _) (b := y = x),or_assoc,
      ← List.mem_append,List.take_append_drop]
  refine ⟨?_,?_,?_,h.sound⟩
  · intro y l'
    by_cases hl : l' = l
    · subst hl
      simp only [Lists.put,Function.update_self,TaskList.insertAt,hmem]
      by_cases hy : y = x
      · simp [hy]
      · simp [hy,h.mem_iff]
    · simp only [Lists.put,Function.update_of_ne hl]
      by_cases hy : y = x
      · subst hy
        simp only [Function.update_self,Option.some.injEq,Ne.symm hl,iff_false]
        exact hnew l'
      · rw [Function.update_of_ne hy]
        exact h.mem_iff y l'
  · intro l'
    by_cases hl : l' = l
    · subst hl
      simp only [Lists.put,Function.update_self,TaskList.insertAt]
      rw [List.nodup_middle,List.nodup_cons,List.take_append_drop]
      exact ⟨hnew l',h.nodup l'⟩
    · simp only [Lists.put,Function.update_of_ne hl]
      exact h.nodup l'
  · intro l'
    by_cases hl : l' = l
    · subst hl
      have hle := h.index_le l'
      have hlen : ((s.list l').items.take p++x::(s.list l').items.drop p).length =
          (s.list l').items.length+1 := by
        simp only [List.length_append,List.length_cons,List.length_take,List.length_drop]
        omega
      simp only [Lists.put,Function.update_self,TaskList.insertAt,hlen]
      split <;> omega
    · simp only [Lists.put,Function.update_of_ne hl]
      exact h.index_le l'

theorem Lists.WellFormed.remove (h : s.WellFormed) (hx : s.container x ≠ none) :
    (s.uxListRemove x).1.WellFormed := by
  rw [Lists.uxListRemove]
  split
  · rename_i hnone
    exact absurd hnone hx
  · rename_i l hx
    obtain ⟨us,ws,hitems,hremove⟩ := h.erase_eq hx
    have hd := h.nodup l
    have hle := h.index_le l
    rw [hitems] at hd hle
    rw [List.nodup_middle,List.nodup_cons] at hd
    refine ⟨?_,?_,?_,h.sound⟩
    · intro y l'
      by_cases hl : l' = l
      · subst hl
        simp only [hremove,Function.update_self]
        by_cases hy : y = x
        · simp only [hy,Function.update_self,reduceCtorEq,iff_false]
          exact hd.1
        · rw [Function.update_of_ne hy,← h.mem_iff,hitems]
          simp [hy]
      · simp only [Function.update_of_ne hl]
        by_cases hy : y = x
        · subst hy
          simp only [Function.update_self,reduceCtorEq,iff_false,h.mem_iff,hx,Option.some.injEq]
          exact Ne.symm hl
        · rw [Function.update_of_ne hy]
          exact h.mem_iff y l'
    · intro l'
      by_cases hl : l' = l
      · subst hl
        simp only [hremove,Function.update_self]
        exact hd.2
      · simp only [Function.update_of_ne hl]
        exact h.nodup l'
    · intro l'
      by_cases hl : l' = l
      · subst hl
        simp only [hremove,Function.update_self]
        simp only [List.length_append,List.length_cons] at hle ⊢
        split <;> omega
      · simp only [Function.update_of_ne hl]
        exact h.index_le l'

omit [DecidableEq α] in
theorem Lists.WellFormed.next (h : s.WellFormed) (hne : (s.list l).items ≠ []) :
    (s.listGetNextEntry l).1.WellFormed := by
  have hpos := List.length_pos_iff.mpr hne
  refine ⟨?_,?_,?_,h.sound⟩
  · intro y l'
    by_cases hl : l' = l
    · subst hl
      simpa [Lists.listGetNextEntry,TaskList.advance] using h.mem_iff y l'
    · simpa [Lists.listGetNextEntry,hl] using h.mem_iff y l'
  · intro l'
    by_cases hl : l' = l
    · subst hl
      simpa [Lists.listGetNextEntry,TaskList.advance] using h.nodup l'
    · simpa [Lists.listGetNextEntry,hl] using h.nodup l'
  · intro l'
    by_cases hl : l' = l
    · subst hl
      simp only [Lists.listGetNextEntry,Function.update_self,TaskList.advance]
      split <;> omega
    · simpa [Lists.listGetNextEntry,hl] using h.index_le l'

end WellFormed

def Lists.Sorted (s : Lists α L) (l : L) : Prop :=
  (s.list l).items.Pairwise fun x y => s.value x ≤ s.value y

section Sorted

variable {s : Lists α L} {l : L}

theorem Lists.Sorted.insert (h : s.Sorted l) (x : α) : (s.vListInsert l x).Sorted l := by
  set p := ((s.list l).items.takeWhile fun y => s.value y ≤ s.value x).length with hp
  have hsplit : (s.list l).items.take p = (s.list l).items.takeWhile fun y => s.value y ≤ s.value x :=
    (List.prefix_iff_eq_take.mp (List.takeWhile_prefix _)).symm
  have hdrop : (s.list l).items.drop p = (s.list l).items.dropWhile fun y => s.value y ≤ s.value x := by
    have := List.takeWhile_append_dropWhile (p := fun y => decide (s.value y ≤ s.value x))
      (l := (s.list l).items)
    rw [← hsplit] at this
    exact List.append_cancel_left ((List.take_append_drop p _).trans this.symm)
  have hitems : ((s.vListInsert l x).list l).items =
      (s.list l).items.takeWhile (fun y => s.value y ≤ s.value x)++
        x::(s.list l).items.dropWhile fun y => s.value y ≤ s.value x := by
    rw [← hsplit,← hdrop]
    simp [Lists.vListInsert,Lists.put,TaskList.insertAt,hp]
  have hpair := h
  rw [Lists.Sorted,← List.takeWhile_append_dropWhile (p := fun y => decide (s.value y ≤ s.value x))
    (l := (s.list l).items),List.pairwise_append] at hpair
  have hlow : ∀ y ∈ (s.list l).items.takeWhile (fun y => s.value y ≤ s.value x), s.value y ≤ s.value x :=
    fun y hy => by simpa using List.mem_takeWhile_imp hy
  have hhigh : ∀ y ∈ (s.list l).items.dropWhile (fun y => s.value y ≤ s.value x), s.value x ≤ s.value y := by
    intro y hy
    cases hd : (s.list l).items.dropWhile (fun y => s.value y ≤ s.value x) with
    | nil =>
      rw [hd] at hy
      cases hy
    | cons z zs =>
      have hz : s.value x < s.value z := by
        have := List.head?_dropWhile_not (fun y => decide (s.value y ≤ s.value x)) (s.list l).items
        rw [hd] at this
        simpa using this
      rw [hd] at hy hpair
      rcases List.mem_cons.mp hy with rfl | hy
      · exact hz.le
      · exact hz.le.trans (List.rel_of_pairwise_cons hpair.2.1 hy)
  rw [Lists.Sorted,hitems,Lists.insert_value,List.pairwise_append,List.pairwise_cons]
  refine ⟨hpair.1,⟨hhigh,hpair.2.1⟩,fun y hy z hz => ?_⟩
  rcases List.mem_cons.mp hz with rfl | hz
  · exact hlow y hy
  · exact (hlow y hy).trans (hhigh z hz)

end Sorted

structure Represents (endOf : L → α) (m : Items α L) (s : Lists α L) : Prop where
  ring : ∀ l, Ring m.next m.previous (endOf l) (s.list l).items
  index_eq : ∀ l, (endOf l::(s.list l).items)[(s.list l).index]? = some (m.index l)
  count_eq : ∀ l, m.count l = (s.list l).items.length
  value_eq : ∀ x, (∀ l, x ≠ endOf l) → m.value x = s.value x
  end_value : ∀ l, m.value (endOf l) = portMaxDelay
  container_eq : ∀ x, m.container x = s.container x
  end_container : ∀ l, s.container (endOf l) = none
  wellFormed : s.WellFormed
  value_le : ∀ x, s.value x ≤ portMaxDelay
  sound : m.faulted = false

section Gap

variable {e x : α} {us ws : List α}

omit [DecidableEq α] in
/-- `pxIndex` before and after an item comes into a gap. -/
theorem getElem?_gap (e x : α) (us ws : List α) (k : ℕ) :
    (e::(us++x::ws))[if us.length < k then k+1 else k]? = (e::(us++ws))[k]? := by
  cases k with
  | zero => simp
  | succ k =>
    split
    · rename_i h
      rw [List.getElem?_cons_succ,List.getElem?_cons_succ,List.getElem?_append_right (by omega),
        List.getElem?_append_right (by omega),show k+1-us.length = k-us.length+1 by omega,
        List.getElem?_cons_succ]
    · rename_i h
      rw [List.getElem?_cons_succ,List.getElem?_cons_succ,List.getElem?_append_left (by omega),
        List.getElem?_append_left (by omega)]

omit [DecidableEq α] in
theorem getElem?_getLastD (e : α) (us ws : List α) : (e::(us++ws))[us.length]? = some (us.getLastD e) := by
  induction us generalizing e with
  | nil => rfl
  | cons u us ih => rw [List.getLastD_cons,List.length_cons,List.getElem?_cons_succ,List.cons_append,ih]

omit [DecidableEq α] in
theorem path_getElem? {next prev : α → α} {a b y : α} {xs : List α} (h : Path next prev a xs b) {k : ℕ}
    (hk : (a::xs)[k]? = some y) : (xs++[b])[k]? = some (next y) := by
  induction xs generalizing a k with
  | nil =>
    cases k with
    | zero =>
      simp only [List.getElem?_cons_zero,Option.some.injEq] at hk
      rw [← hk,h.1]
      rfl
    | succ k => simp at hk
  | cons x xs ih =>
    cases k with
    | zero =>
      simp only [List.getElem?_cons_zero,Option.some.injEq] at hk
      rw [← hk,h.1]
      rfl
    | succ k =>
      rw [List.cons_append,List.getElem?_cons_succ]
      exact ih h.2.2 hk

end Gap

section Represents

variable {endOf : L → α} {m : Items α L} {s : Lists α L} {l : L} {x : α}

omit [DecidableEq α] [DecidableEq L] in
theorem Represents.notEnd (h : Represents endOf m s) (hx : s.container x = some l) (l' : L) : x ≠ endOf l' := by
  rintro rfl
  rw [h.end_container] at hx
  cases hx

omit [DecidableEq α] [DecidableEq L] in
/-- A node of one ring is in no other. -/
theorem Represents.apart (h : Represents endOf m s) (hend : Function.Injective endOf) {l' : L} (hl : l' ≠ l)
    (hx : x ∈ endOf l::(s.list l).items) : x ∉ endOf l'::(s.list l').items := by
  intro hx'
  rcases List.mem_cons.mp hx with rfl | hx
  · rcases List.mem_cons.mp hx' with he | hx'
    · exact hl (hend he.symm)
    · exact h.notEnd ((h.wellFormed.mem_iff _ _).mp hx') l rfl
  · have hc := (h.wellFormed.mem_iff _ _).mp hx
    rcases List.mem_cons.mp hx' with rfl | hx'
    · exact h.notEnd hc l' rfl
    · rw [(h.wellFormed.mem_iff _ _).mp hx',Option.some.injEq] at hc
      exact hl hc

theorem Represents.put (h : Represents endOf m s) (hend : Function.Injective endOf)
    (hx : s.container x = none) (hne : ∀ l, x ≠ endOf l) (p : ℕ) :
    Represents endOf { m with
      next := linkNext m.next (((s.list l).items.take p).getLastD (endOf l))
        (((s.list l).items.drop p).headD (endOf l)) x
      previous := linkPrev m.previous (((s.list l).items.take p).getLastD (endOf l))
        (((s.list l).items.drop p).headD (endOf l)) x
      container := Function.update m.container x (some l)
      count := Function.update m.count l (m.count l+1) } (s.put l p x) := by
  have hgap : (s.list l).items = (s.list l).items.take p++(s.list l).items.drop p :=
    (List.take_append_drop ..).symm
  have hnot : ∀ l', x ∉ endOf l'::(s.list l').items := by
    intro l' hmem
    rcases List.mem_cons.mp hmem with he | hmem
    · exact hne l' he
    · rw [(h.wellFormed.mem_iff _ _).mp hmem] at hx
      cases hx
  have hlast : ((s.list l).items.take p).getLastD (endOf l) ∈ endOf l::(s.list l).items := by
    rcases List.mem_cons.mp (getLastD_mem (endOf l) ((s.list l).items.take p)) with he | hmem
    · rw [he]
      exact List.mem_cons_self
    · exact List.mem_cons_of_mem _ (List.mem_of_mem_take hmem)
  have hhead : ((s.list l).items.drop p).headD (endOf l) ∈ endOf l::(s.list l).items := by
    rcases List.mem_cons.mp (headD_mem (endOf l) ((s.list l).items.drop p)) with he | hmem
    · rw [he]
      exact List.mem_cons_self
    · exact List.mem_cons_of_mem _ (List.mem_of_mem_drop hmem)
  refine ⟨?_,?_,?_,h.value_eq,h.end_value,?_,?_,h.wellFormed.put hx p,h.value_le,h.sound⟩
  · intro l'
    by_cases hl : l' = l
    · subst hl
      simp only [Lists.put,Function.update_self,TaskList.insertAt]
      refine Ring.insert ?_ ?_
      · rw [← hgap]
        exact h.ring l'
      · rw [← hgap]
        exact hnot l'
    · simp only [Lists.put,Function.update_of_ne hl]
      refine ⟨(h.ring l').path.congr (fun y hy => ?_) fun y hy => ?_,(h.ring l').nodup⟩
      · refine linkNext_of_ne ?_ ?_
        · rintro rfl
          exact h.apart hend hl hlast hy
        · rintro rfl
          exact hnot l' hy
      · refine linkPrev_of_ne ?_ ?_
        · rintro rfl
          exact h.apart hend hl hhead hy
        · rintro rfl
          exact hnot l' hy
  · intro l'
    by_cases hl : l' = l
    · subst hl
      simp only [Lists.put,Function.update_self,TaskList.insertAt]
      have hle := h.wellFormed.index_le l'
      have hlen : ((s.list l').items.take p).length < (s.list l').index ↔ p < (s.list l').index := by
        rw [List.length_take]
        omega
      have hindex := getElem?_gap (endOf l') x ((s.list l').items.take p) ((s.list l').items.drop p)
        (s.list l').index
      simp only [hlen,← hgap] at hindex
      rw [hindex]
      exact h.index_eq l'
    · simp only [Lists.put,Function.update_of_ne hl]
      exact h.index_eq l'
  · intro l'
    by_cases hl : l' = l
    · subst hl
      simp only [Lists.put,Function.update_self,TaskList.insertAt,h.count_eq]
      simp only [List.length_append,List.length_cons,List.length_take,List.length_drop]
      omega
    · simp only [Lists.put,Function.update_of_ne hl]
      exact h.count_eq l'
  · intro y
    by_cases hy : y = x
    · simp [Lists.put,hy]
    · simpa [Lists.put,hy] using h.container_eq y
  · intro l'
    simpa [Lists.put,Ne.symm (hne l')] using h.end_container l'

theorem Represents.insertEnd (h : Represents endOf m s) (hend : Function.Injective endOf)
    (hx : s.container x = none) (hne : ∀ l, x ≠ endOf l) :
    Represents endOf (m.vListInsertEnd l x) (s.vListInsertEnd l x) := by
  set p := if (s.list l).index = 0 then (s.list l).items.length else (s.list l).index-1 with hp
  have hindex := h.index_eq l
  have hle := h.wellFormed.index_le l
  have hhead : ((s.list l).items.drop p).headD (endOf l) = m.index l := by
    rw [hp]
    split_ifs with hzero
    · rw [hzero] at hindex
      simpa using hindex
    · obtain ⟨k,hk⟩ : ∃ k, (s.list l).index = k+1 := ⟨(s.list l).index-1,by omega⟩
      rw [hk,List.getElem?_cons_succ] at hindex
      rw [hk,Nat.add_sub_cancel,List.headD_eq_head?_getD,List.head?_drop,hindex]
      rfl
  have hlast : m.previous (m.index l) = ((s.list l).items.take p).getLastD (endOf l) := by
    have hpath := (h.ring l).path
    rw [← List.take_append_drop p (s.list l).items,path_append,hhead] at hpath
    exact hpath.1.prev_eq
  have hput := h.put (l := l) hend hx hne p
  rw [hhead,← hlast] at hput
  have hmem : x ≠ m.index l := by
    rintro rfl
    have hmem := List.mem_of_getElem? hindex
    rcases List.mem_cons.mp hmem with he | hmem
    · exact hne l he
    · rw [(h.wellFormed.mem_iff _ _).mp hmem] at hx
      cases hx
  have hprevious : Function.update m.previous x (m.previous (m.index l)) (m.index l) =
      m.previous (m.index l) := Function.update_of_ne hmem.symm _ _
  simp only [Items.vListInsertEnd,hprevious]
  exact hput

omit [DecidableEq α] [DecidableEq L] in
/-- The loop of `vListInsert` stops at the last item of a run of smaller ones. -/
theorem insertPosition_eq {v fuel : ℕ} {a e : α} {xs : List α} (hpath : Path m.next m.previous a xs e)
    (hvalue : ∀ y ∈ xs, m.value y = s.value y) (he : v < m.value e) (hfuel : xs.length < fuel) :
    m.insertPosition v fuel a = (xs.takeWhile fun y => s.value y ≤ v).getLastD a := by
  induction xs generalizing a fuel with
  | nil =>
    obtain ⟨fuel,rfl⟩ : ∃ k, fuel = k+1 := ⟨fuel-1,by simp at hfuel; omega⟩
    rw [Items.insertPosition,hpath.1,if_neg (by omega)]
    rfl
  | cons x xs ih =>
    obtain ⟨fuel,rfl⟩ : ∃ k, fuel = k+1 := ⟨fuel-1,by simp at hfuel; omega⟩
    rw [Items.insertPosition,hpath.1,hvalue x (by simp)]
    by_cases hx : s.value x ≤ v
    · rw [if_pos hx,List.takeWhile_cons_of_pos (by simpa using hx),List.getLastD_cons]
      exact ih hpath.2.2 (fun y hy => hvalue y (List.mem_cons_of_mem _ hy)) (by simpa using hfuel)
    · rw [if_neg hx,List.takeWhile_cons_of_neg (by simpa using hx)]
      rfl

theorem Represents.insert (h : Represents endOf m s) (hend : Function.Injective endOf)
    (hx : s.container x = none) (hne : ∀ l, x ≠ endOf l) :
    Represents endOf (m.vListInsert endOf l x) (s.vListInsert l x) := by
  set us := (s.list l).items.takeWhile fun y => s.value y ≤ s.value x with hus
  have hvalue : ∀ y ∈ (s.list l).items, m.value y = s.value y := fun y hy =>
    h.value_eq y (h.notEnd ((h.wellFormed.mem_iff _ _).mp hy))
  have htake : (s.list l).items.take us.length = us := by
    rw [hus]
    exact (List.prefix_iff_eq_take.mp (List.takeWhile_prefix _)).symm
  have hiterator : (if m.value x = portMaxDelay then m.previous (endOf l)
      else m.insertPosition (m.value x) (m.count l+1) (endOf l)) = us.getLastD (endOf l) := by
    rw [h.value_eq x hne]
    split_ifs with hmax
    · have hall : us = (s.list l).items := by
        rw [hus,List.takeWhile_eq_self_iff]
        intro y hy
        rw [hmax]
        simpa using h.value_le y
      rw [hall]
      exact (h.ring l).path.prev_eq
    · have hlt : s.value x < m.value (endOf l) := by
        have hle := h.value_le x
        rw [h.end_value]
        omega
      exact insertPosition_eq (h.ring l).path hvalue hlt (by rw [h.count_eq]; omega)
  have hnext : m.next (us.getLastD (endOf l)) = ((s.list l).items.drop us.length).headD (endOf l) := by
    have hpath := (h.ring l).path
    rw [← List.take_append_drop us.length (s.list l).items,path_append,htake] at hpath
    exact hpath.2.next_eq
  have hput := h.put (l := l) hend hx hne us.length
  rw [htake,← hnext] at hput
  have hself : Function.update m.next x (m.next (us.getLastD (endOf l))) x = m.next (us.getLastD (endOf l)) :=
    Function.update_self ..
  have hmem : x ≠ m.next (us.getLastD (endOf l)) := by
    rw [hnext]
    intro he
    have hmem := headD_mem (endOf l) ((s.list l).items.drop us.length)
    rw [← he] at hmem
    rcases List.mem_cons.mp hmem with he | hmem
    · exact hne l he
    · rw [(h.wellFormed.mem_iff _ _).mp (List.mem_of_mem_drop hmem)] at hx
      cases hx
  simp only [Items.vListInsert,hiterator,hself]
  rw [Function.update_comm hmem.symm]
  exact hput

theorem Represents.remove (h : Represents endOf m s) (hend : Function.Injective endOf)
    (hlisted : s.container x ≠ none) :
    Represents endOf (m.uxListRemove x).1 (s.uxListRemove x).1 ∧
      (m.uxListRemove x).2 = (s.uxListRemove x).2 := by
  cases hx : s.container x with
  | none => exact absurd hx hlisted
  | some l =>
    obtain ⟨us,ws,hitems,hremove⟩ := h.wellFormed.erase_eq hx
    have hring := h.ring l
    rw [hitems] at hring
    have hpath := path_append.mp hring.path
    have hprevious : m.previous x = us.getLastD (endOf l) := hpath.2.2.1
    have hnext : m.next x = ws.headD (endOf l) := hpath.2.2.2.next_eq
    have hne : x ≠ ws.headD (endOf l) := by
      intro he
      have hd := hring.nodup
      rcases List.mem_cons.mp (headD_mem (endOf l) ws) with hh | hh
      · exact h.notEnd hx l (he.trans hh)
      · rw [← he] at hh
        rw [← List.cons_append,List.nodup_middle,List.nodup_cons] at hd
        exact hd.1 (by simp [hh])
    have hback : Function.update m.previous (m.next x) (m.previous x) x = us.getLastD (endOf l) := by
      rw [hnext,Function.update_of_ne hne,hprevious]
    have hlast : us.getLastD (endOf l) ∈ endOf l::(s.list l).items := by
      rw [hitems]
      rcases List.mem_cons.mp (getLastD_mem (endOf l) us) with he | hmem
      · rw [he]
        exact List.mem_cons_self
      · exact List.mem_cons_of_mem _ (List.mem_append_left _ hmem)
    have hhead : ws.headD (endOf l) ∈ endOf l::(s.list l).items := by
      rw [hitems]
      rcases List.mem_cons.mp (headD_mem (endOf l) ws) with he | hmem
      · rw [he]
        exact List.mem_cons_self
      · exact List.mem_cons_of_mem _ (List.mem_append_right _ (List.mem_cons_of_mem _ hmem))
    have hcount : m.count l-1 = (us++ws).length := by
      rw [h.count_eq,hitems]
      simp only [List.length_append,List.length_cons]
      omega
    have hwf := h.wellFormed.remove hlisted
    simp only [Lists.uxListRemove,hx,hremove] at hwf
    simp only [Items.uxListRemove,Lists.uxListRemove,h.container_eq,hx,hback,hremove]
    refine ⟨⟨?_,?_,?_,h.value_eq,h.end_value,?_,?_,hwf,h.value_le,h.sound⟩,hcount⟩
    · intro l'
      by_cases hl : l' = l
      · subst hl
        simp only [Function.update_self,hprevious,hnext]
        exact hring.remove
      · simp only [Function.update_of_ne hl,hprevious,hnext]
        refine ⟨(h.ring l').path.congr (fun y hy => ?_) fun y hy => ?_,(h.ring l').nodup⟩
        · refine Function.update_of_ne ?_ _ _
          rintro rfl
          exact h.apart hend hl hlast hy
        · refine Function.update_of_ne ?_ _ _
          rintro rfl
          exact h.apart hend hl hhead hy
    · intro l'
      by_cases hl : l' = l
      · subst hl
        simp only [Function.update_self]
        have hindex := h.index_eq l'
        rw [hitems] at hindex
        by_cases hat : (s.list l').index = us.length+1
        · rw [hat,List.getElem?_cons_succ,List.getElem?_append_right le_rfl,Nat.sub_self,
            List.getElem?_cons_zero,Option.some.injEq] at hindex
          rw [if_pos hindex.symm,hat,if_pos (Nat.lt_succ_self _),Nat.add_sub_cancel]
          exact getElem?_getLastD ..
        · have hother : m.index l' ≠ x := by
            intro hi
            have hself : (endOf l'::(us++x::ws))[us.length+1]? = some x := by simp
            rw [hi,← hself] at hindex
            have hle := h.wellFormed.index_le l'
            rw [hitems] at hle
            exact hat ((List.getElem?_inj (by rw [List.length_cons]; omega) hring.nodup).mp hindex)
          rw [if_neg hother,← hindex]
          have hgap := getElem?_gap (endOf l') x us ws
            (if us.length < (s.list l').index then (s.list l').index-1 else (s.list l').index)
          rw [← hgap]
          congr 1
          split_ifs <;> omega
      · simp only [Function.update_of_ne hl]
        exact h.index_eq l'
    · intro l'
      by_cases hl : l' = l
      · subst hl
        simp only [Function.update_self]
        exact hcount
      · simp only [Function.update_of_ne hl]
        exact h.count_eq l'
    · intro y
      by_cases hy : y = x
      · simp [hy]
      · simpa [hy] using h.container_eq y
    · intro l'
      by_cases hy : endOf l' = x
      · simp [hy]
      · simpa [hy] using h.end_container l'

omit [DecidableEq L] in
theorem Represents.initialiseItem (h : Represents endOf m s) (hx : s.container x = none) :
    Represents endOf (m.vListInitialiseItem x) (s.vListInitialiseItem x) := by
  have hs : s.vListInitialiseItem x = s := by rw [Lists.vListInitialiseItem,← hx,Function.update_eq_self]
  have hm : m.vListInitialiseItem x = m := by
    rw [Items.vListInitialiseItem,← hx,← h.container_eq x,Function.update_eq_self]
  rwa [hs,hm]

omit [DecidableEq L] in
theorem Represents.setValue (h : Represents endOf m s) (hne : ∀ l, x ≠ endOf l) {v : ℕ} (hv : v ≤ portMaxDelay) :
    Represents endOf (m.listSetListItemValue x v) (s.listSetListItemValue x v) := by
  refine ⟨h.ring,h.index_eq,h.count_eq,?_,?_,h.container_eq,h.end_container,
    ⟨h.wellFormed.mem_iff,h.wellFormed.nodup,h.wellFormed.index_le,h.wellFormed.sound⟩,?_,h.sound⟩
  · intro y hy
    by_cases hyx : y = x
    · simp [Items.listSetListItemValue,Lists.listSetListItemValue,hyx]
    · simpa [Items.listSetListItemValue,Lists.listSetListItemValue,hyx] using h.value_eq y hy
  · intro l
    simpa [Items.listSetListItemValue,Ne.symm (hne l)] using h.end_value l
  · intro y
    by_cases hyx : y = x
    · simpa [Lists.listSetListItemValue,hyx] using hv
    · simpa [Lists.listSetListItemValue,hyx] using h.value_le y

theorem Represents.next (h : Represents endOf m s) (hitems : (s.list l).items ≠ []) :
    Represents endOf (m.listGetNextEntry endOf l).1 (s.listGetNextEntry l).1 ∧
      (s.listGetNextEntry l).2 = some (m.listGetNextEntry endOf l).2 := by
  have hpos := List.length_pos_iff.mpr hitems
  have hle := h.wellFormed.index_le l
  have hstep := path_getElem? (h.ring l).path (h.index_eq l)
  have hentry : (s.list l).items[(s.list l).advance.index-1]? = some (m.listGetNextEntry endOf l).2 := by
    simp only [TaskList.advance,Items.listGetNextEntry]
    by_cases hlt : (s.list l).index < (s.list l).items.length
    · rw [List.getElem?_append_left hlt] at hstep
      have hmem := List.mem_of_getElem? hstep
      have hne := h.notEnd ((h.wellFormed.mem_iff _ _).mp hmem) l
      rw [if_pos hlt,Nat.add_sub_cancel,if_neg hne]
      exact hstep
    · rw [List.getElem?_append_right (by omega),show (s.list l).index-(s.list l).items.length = 0 by omega,
        List.getElem?_cons_zero,Option.some.injEq] at hstep
      rw [if_neg hlt,← hstep,if_pos rfl,(h.ring l).path.next_eq]
      cases hi : (s.list l).items with
      | nil => exact absurd hi hitems
      | cons y ys => rfl
  have hindex : (s.list l).advance.index ≠ 0 := by
    simp only [TaskList.advance]
    split <;> omega
  refine ⟨⟨?_,?_,?_,h.value_eq,h.end_value,h.container_eq,h.end_container,h.wellFormed.next hitems,
    h.value_le,h.sound⟩,?_⟩
  · intro l'
    by_cases hl : l' = l
    · subst hl
      simpa [Lists.listGetNextEntry,Items.listGetNextEntry,TaskList.advance] using h.ring l'
    · simpa [Lists.listGetNextEntry,Items.listGetNextEntry,hl] using h.ring l'
  · intro l'
    by_cases hl : l' = l
    · subst hl
      obtain ⟨k,hk⟩ : ∃ k, (s.list l').advance.index = k+1 := ⟨_,(Nat.succ_pred_eq_of_ne_zero hindex).symm⟩
      rw [hk,Nat.add_sub_cancel] at hentry
      simp only [Lists.listGetNextEntry,Function.update_self,hk,List.getElem?_cons_succ]
      simpa [Items.listGetNextEntry,TaskList.advance] using hentry
    · simpa [Lists.listGetNextEntry,Items.listGetNextEntry,hl] using h.index_eq l'
  · intro l'
    by_cases hl : l' = l
    · subst hl
      simpa [Lists.listGetNextEntry,Items.listGetNextEntry,TaskList.advance] using h.count_eq l'
    · simpa [Lists.listGetNextEntry,Items.listGetNextEntry,hl] using h.count_eq l'
  · rw [Lists.listGetNextEntry,TaskList.current,if_neg hindex]
    exact hentry

omit [DecidableEq α] [DecidableEq L] in
theorem Represents.head (h : Represents endOf m s) (hitems : (s.list l).items ≠ []) :
    s.listGetHeadEntry l = some (m.listGetHeadEntry endOf l) := by
  rw [Lists.listGetHeadEntry,Items.listGetHeadEntry,(h.ring l).path.next_eq]
  cases hi : (s.list l).items with
  | nil => exact absurd hi hitems
  | cons y ys => rfl

end Represents

inductive Call (α L : Type*) where
  | initialiseItem (x : α)
  | insert (l : L) (x : α)
  | insertEnd (l : L) (x : α)
  | remove (x : α)
  | setValue (x : α) (v : ℕ)
  | nextEntry (l : L)
  | headEntry (l : L)

inductive Answer (α : Type*) where
  | left (n : ℕ)
  | entry (x : α)
  deriving DecidableEq

def memoryCalls (endOf : L → α) : Execution.Machine (Items α L) (Call α L) (Answer α)
  | m, .initialiseItem x => (m.vListInitialiseItem x,[])
  | m, .insert l x => (m.vListInsert endOf l x,[])
  | m, .insertEnd l x => (m.vListInsertEnd l x,[])
  | m, .remove x => ((m.uxListRemove x).1,[.left (m.uxListRemove x).2])
  | m, .setValue x v => (m.listSetListItemValue x v,[])
  | m, .nextEntry l => ((m.listGetNextEntry endOf l).1,[.entry (m.listGetNextEntry endOf l).2])
  | m, .headEntry l => (m,[.entry (m.listGetHeadEntry endOf l)])

def listCalls : Execution.Machine (Lists α L) (Call α L) (Answer α)
  | s, .initialiseItem x => (s.vListInitialiseItem x,[])
  | s, .insert l x => (s.vListInsert l x,[])
  | s, .insertEnd l x => (s.vListInsertEnd l x,[])
  | s, .remove x => ((s.uxListRemove x).1,[.left (s.uxListRemove x).2])
  | s, .setValue x v => (s.listSetListItemValue x v,[])
  | s, .nextEntry l => ((s.listGetNextEntry l).1,(s.listGetNextEntry l).2.toList.map .entry)
  | s, .headEntry l => (s,(s.listGetHeadEntry l).toList.map .entry)

/-- Only an item that is in no list is initialised or put into one, only an item that is in
one is removed, only entries of a list that has some are asked for, and a value is a
`TickType_t`. -/
def Proper (endOf : L → α) (s : Lists α L) : Call α L → Prop
  | .initialiseItem x => s.container x = none
  | .insert _ x => s.container x = none ∧ ∀ l, x ≠ endOf l
  | .insertEnd _ x => s.container x = none ∧ ∀ l, x ≠ endOf l
  | .remove x => s.container x ≠ none
  | .setValue x v => (∀ l, x ≠ endOf l) ∧ v ≤ portMaxDelay
  | .nextEntry l => (s.list l).items ≠ []
  | .headEntry l => (s.list l).items ≠ []

def emptyLists (value : α → ℕ) : Lists α L := ⟨fun _ => ⟨[],0⟩,value,fun _ => none,false⟩

section Runs

variable {endOf : L → α} {m : Items α L} {s : Lists α L}

theorem step_represents (hend : Function.Injective endOf) (h : Represents endOf m s) (c : Call α L)
    (hc : Proper endOf s c) :
    (memoryCalls endOf m c).2 = (listCalls s c).2 ∧
      Represents endOf (memoryCalls endOf m c).1 (listCalls s c).1 := by
  cases c with
  | initialiseItem x => exact ⟨rfl,h.initialiseItem hc⟩
  | insert l x => exact ⟨rfl,h.insert hend hc.1 hc.2⟩
  | insertEnd l x => exact ⟨rfl,h.insertEnd hend hc.1 hc.2⟩
  | remove x =>
    refine ⟨?_,(h.remove hend hc).1⟩
    simp only [memoryCalls,listCalls,(h.remove hend hc).2]
  | setValue x v => exact ⟨rfl,h.setValue hc.1 hc.2⟩
  | nextEntry l =>
    refine ⟨?_,(h.next hc).1⟩
    simp only [memoryCalls,listCalls,(h.next hc).2,Option.toList_some,List.map_cons,List.map_nil]
  | headEntry l =>
    refine ⟨?_,h⟩
    simp only [memoryCalls,listCalls,h.head hc,Option.toList_some,List.map_cons,List.map_nil]

def Initialised (endOf : L → α) (m : Items α L) (l : L) : Prop :=
  m.next (endOf l) = endOf l ∧ m.previous (endOf l) = endOf l ∧ m.value (endOf l) = portMaxDelay ∧
    m.index l = endOf l ∧ m.count l = 0

theorem initialised_vListInitialise (hend : Function.Injective endOf) (l l' : L)
    (h : l' = l ∨ Initialised endOf m l') : Initialised endOf (m.vListInitialise endOf l) l' := by
  by_cases hl : l' = l
  · subst hl
    simp [Initialised,Items.vListInitialise]
  · have he : endOf l' ≠ endOf l := fun he => hl (hend he)
    simpa [Initialised,Items.vListInitialise,hl,he] using h.resolve_left hl

theorem initialised_foldl (hend : Function.Injective endOf) (ls : List L) (m : Items α L) (l : L)
    (h : l ∈ ls ∨ Initialised endOf m l) : Initialised endOf (ls.foldl (Items.vListInitialise endOf) m) l := by
  induction ls generalizing m with
  | nil => exact h.resolve_left (by simp)
  | cons k ls ih =>
    refine ih _ ?_
    rcases h with h | h
    · rcases List.mem_cons.mp h with rfl | h
      · exact Or.inr (initialised_vListInitialise hend _ _ (Or.inl rfl))
      · exact Or.inl h
    · exact Or.inr (initialised_vListInitialise hend _ _ (Or.inr h))

theorem foldl_vListInitialise (ls : List L) (m : Items α L) :
    (ls.foldl (Items.vListInitialise endOf) m).container = m.container ∧
      (ls.foldl (Items.vListInitialise endOf) m).faulted = m.faulted ∧
      ∀ x, (∀ l, x ≠ endOf l) → (ls.foldl (Items.vListInitialise endOf) m).value x = m.value x := by
  induction ls generalizing m with
  | nil => exact ⟨rfl,rfl,fun _ _ => rfl⟩
  | cons k ls ih =>
    refine ⟨(ih _).1,(ih _).2.1,fun x hx => ((ih _).2.2 x hx).trans ?_⟩
    exact Function.update_of_ne (hx k) _ _

/-- After `vListInitialise` of each list, the memory stands for empty lists. -/
theorem initialised_represents (hend : Function.Injective endOf) {ls : List L} (hls : ∀ l, l ∈ ls)
    (hitems : ∀ x, m.container x = none) (hvalue : ∀ x, m.value x ≤ portMaxDelay)
    (hsound : m.faulted = false) : Represents endOf (ls.foldl (Items.vListInitialise endOf) m) (emptyLists m.value) := by
  have hinit := fun l => initialised_foldl hend ls m l (Or.inl (hls l))
  obtain ⟨hcontainer,hfaulted,hkeep⟩ := foldl_vListInitialise ls m
  refine ⟨?_,?_,?_,hkeep,?_,?_,?_,⟨?_,?_,?_,rfl⟩,hvalue,hfaulted.trans hsound⟩
  · exact fun l => ⟨⟨(hinit l).1,(hinit l).2.1⟩,List.nodup_singleton _⟩
  · exact fun l => congrArg some (hinit l).2.2.2.1.symm
  · exact fun l => (hinit l).2.2.2.2
  · exact fun l => (hinit l).2.2.1
  · intro x
    rw [hcontainer]
    exact hitems x
  · exact fun _ => rfl
  · intro x l
    simp [emptyLists]
  · exact fun _ => List.nodup_nil
  · exact fun _ => le_rfl

/-- In every run of calls, the linked items in memory are the plain lists: each call
returns the same, no `List_t` at `NULL` is accessed, and the memory stands for the lists
afterwards. -/
theorem kernel_lists_refine (hend : Function.Injective endOf) {ls : List L} (hls : ∀ l, l ∈ ls)
    (m : Items α L) (hitems : ∀ x, m.container x = none) (hvalue : ∀ x, m.value x ≤ portMaxDelay)
    (hsound : m.faulted = false) (calls : List (Call α L))
    (hc : Execution.Along listCalls (Proper endOf) (emptyLists m.value) calls) :
    Execution.trace (memoryCalls endOf) (ls.foldl (Items.vListInitialise endOf) m) calls =
        Execution.trace listCalls (emptyLists m.value) calls ∧
      Represents endOf
        (Execution.run (memoryCalls endOf) (ls.foldl (Items.vListInitialise endOf) m) calls)
        (Execution.run listCalls (emptyLists m.value) calls) := by
  have hinit := initialised_represents hend hls hitems hvalue hsound
  constructor
  · exact Execution.trace_simulation (R := Represents endOf)
      (fun _ _ c h hc => (step_represents hend h c hc).symm) hinit hc
  · exact Execution.run_related (R := Represents endOf)
      (fun _ _ c h hc => (step_represents hend h c hc).2) hinit hc

def twoEnds (l : Bool) : ℕ := if l then 1 else 0

def twoItems : List (Call ℕ Bool) :=
  [.initialiseItem 5,.setValue 5 30,.insert true 5,.setValue 6 20,.insert true 6,.insertEnd false 7,.headEntry true,
    .nextEntry true,.nextEntry true,.remove 5,.nextEntry true]

theorem kernel_lists_refine_two :
    Execution.trace (memoryCalls twoEnds) ([true,false].foldl (Items.vListInitialise twoEnds)
      ⟨id,id,fun _ => 0,fun _ => none,fun _ => 0,fun _ => 0,false⟩) twoItems =
        [.entry 6,.entry 6,.entry 5,.left 1,.entry 6] := by
  have hend : Function.Injective twoEnds := by
    intro a b hab
    cases a <;> cases b <;> simp_all [twoEnds]
  refine (kernel_lists_refine hend (by decide) _ (fun _ => rfl) (fun _ => Nat.zero_le _) rfl twoItems ?_).1.trans ?_
  · simp only [twoItems,Execution.along_cons,Execution.along_nil,Proper]
    decide
  · decide

end Runs

end TaskLists
end EmbeddedShell
