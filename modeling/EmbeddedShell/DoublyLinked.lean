import Mathlib.Data.List.Nodup
import Mathlib.Logic.Function.Basic
import Mathlib.Tactic.Common

/-!
# Doubly linked rings

`next` and `prev` lead from a node `a` through a list of nodes to `b` and back. A ring is a
path from a node to itself that meets no node twice. A node is linked into any gap of a
ring, or out of it, by two writes on each side, and nothing else of the ring is touched.
-/

namespace EmbeddedShell
namespace DoublyLinked

variable {α : Type*}

/-- `next` leads from `a` through `xs` to `b`, and `prev` leads back. -/
def Path (next prev : α → α) : α → List α → α → Prop
  | a, [], b => next a = b ∧ prev b = a
  | a, x::xs, b => next a = x ∧ prev x = a ∧ Path next prev x xs b

structure Ring (next prev : α → α) (e : α) (xs : List α) : Prop where
  path : Path next prev e xs e
  nodup : (e::xs).Nodup

variable {next prev next' prev' : α → α} {a b e n : α} {xs us ws : List α}

theorem Path.next_eq (h : Path next prev a xs b) : next a = xs.headD b := by
  cases xs with
  | nil => exact h.1
  | cons x xs => exact h.1

theorem Path.prev_eq (h : Path next prev a xs b) : prev b = xs.getLastD a := by
  induction xs generalizing a with
  | nil => exact h.2
  | cons x xs ih =>
    rw [ih h.2.2,List.getLastD_cons]

theorem path_append : Path next prev a (us++ws) b ↔
    Path next prev a us (ws.headD b) ∧ Path next prev (us.getLastD a) ws b := by
  induction us generalizing a with
  | nil =>
    simp only [List.nil_append,Path,List.getLastD_nil]
    constructor
    · intro h
      refine ⟨⟨h.next_eq,?_⟩,h⟩
      cases ws with
      | nil => exact h.2
      | cons w ws => exact h.2.1
    · exact fun h => h.2
  | cons u us ih =>
    rw [List.cons_append,List.getLastD_cons]
    simp only [Path,ih,and_assoc]

/-- Only `next` at the nodes before the last one and `prev` at the nodes after the first
one matter. -/
theorem Path.congr (h : Path next prev a xs b) (hnext : ∀ x ∈ a::xs, next' x = next x)
    (hprev : ∀ x ∈ b::xs, prev' x = prev x) : Path next' prev' a xs b := by
  induction xs generalizing a with
  | nil => exact ⟨(hnext a (by simp)).trans h.1,(hprev b (by simp)).trans h.2⟩
  | cons x xs ih =>
    refine ⟨(hnext a (by simp)).trans h.1,(hprev x (by simp)).trans h.2.1,ih h.2.2 ?_ ?_⟩
    · exact fun y hy => hnext y (List.mem_cons_of_mem _ hy)
    · intro y hy
      refine hprev y ?_
      rcases List.mem_cons.mp hy with rfl | hy
      · exact List.mem_cons_self
      · exact List.mem_cons_of_mem _ (List.mem_cons_of_mem _ hy)

theorem getLastD_mem (a : α) (us : List α) : us.getLastD a ∈ a::us := by
  induction us generalizing a with
  | nil => simp
  | cons u us ih =>
    rw [List.getLastD_cons]
    exact List.mem_cons_of_mem _ (ih u)

theorem headD_mem (b : α) (ws : List α) : ws.headD b ∈ b::ws := by
  cases ws <;> simp

theorem Path.toward {c : α} (h : Path next prev a us b) (hd : (a::us).Nodup)
    (hnext : ∀ x ∈ a::us, x ≠ us.getLastD a → next' x = next x) (hlast : next' (us.getLastD a) = c)
    (hprev : ∀ x ∈ us, prev' x = prev x) (hback : prev' c = us.getLastD a) : Path next' prev' a us c := by
  induction us generalizing a with
  | nil => exact ⟨hlast,hback⟩
  | cons u us ih =>
    rw [List.getLastD_cons] at hnext hlast hback
    have hne : a ≠ us.getLastD u := by
      rintro rfl
      exact (List.nodup_cons.mp hd).1 (getLastD_mem u us)
    refine ⟨(hnext a (by simp) hne).trans h.1,(hprev u (by simp)).trans h.2.1,?_⟩
    refine ih h.2.2 (List.nodup_cons.mp hd).2 ?_ hlast ?_ hback
    · exact fun x hx => hnext x (List.mem_cons_of_mem _ hx)
    · exact fun x hx => hprev x (List.mem_cons_of_mem _ hx)

theorem Path.from {c : α} (h : Path next prev a ws b) (hd : (b::ws).Nodup)
    (hnext : ∀ x ∈ ws, next' x = next x) (hfirst : next' c = ws.headD b)
    (hprev : ∀ x ∈ b::ws, x ≠ ws.headD b → prev' x = prev x) (hback : prev' (ws.headD b) = c) :
    Path next' prev' c ws b := by
  cases ws with
  | nil => exact ⟨hfirst,hback⟩
  | cons w ws =>
    refine ⟨hfirst,hback,h.2.2.congr hnext fun x hx => ?_⟩
    simp only [List.nodup_cons,List.mem_cons,not_or] at hd
    refine hprev x ?_ ?_
    · rcases List.mem_cons.mp hx with rfl | hx
      · simp
      · simp [hx]
    · rintro rfl
      rcases List.mem_cons.mp hx with he | hx
      · exact hd.1.1 he.symm
      · exact hd.2.1 hx

theorem Ring.nodup_parts (h : Ring next prev e (us++ws)) : (e::us).Nodup ∧ (e::ws).Nodup ∧
    ∀ x ∈ us, x ∉ ws := by
  have hd := h.nodup
  simp only [List.nodup_cons,List.mem_append,not_or,List.nodup_append] at hd ⊢
  exact ⟨⟨hd.1.1,hd.2.1⟩,⟨hd.1.2,hd.2.2.1⟩,fun x hx hw => hd.2.2.2 x hx x hw rfl⟩

section Edit

variable [DecidableEq α]

/-- `next` after `n` has been linked in between `i` and `j`. -/
def linkNext (next : α → α) (i j n : α) : α → α := Function.update (Function.update next n j) i n

/-- `prev` after `n` has been linked in between `i` and `j`. -/
def linkPrev (prev : α → α) (i j n : α) : α → α := Function.update (Function.update prev n i) j n

section Link

variable {i j x : α}

theorem linkNext_of_ne (hi : x ≠ i) (hn : x ≠ n) : linkNext next i j n x = next x := by
  rw [linkNext,Function.update_of_ne hi,Function.update_of_ne hn]

theorem linkNext_new (h : n ≠ i) : linkNext next i j n n = j := by
  rw [linkNext,Function.update_of_ne h,Function.update_self]

theorem linkPrev_of_ne (hj : x ≠ j) (hn : x ≠ n) : linkPrev prev i j n x = prev x := by
  rw [linkPrev,Function.update_of_ne hj,Function.update_of_ne hn]

theorem linkPrev_new (h : n ≠ j) : linkPrev prev i j n n = i := by
  rw [linkPrev,Function.update_of_ne h,Function.update_self]

end Link

theorem Ring.insert (h : Ring next prev e (us++ws)) (hn : n ∉ e::(us++ws)) :
    Ring (linkNext next (us.getLastD e) (ws.headD e) n) (linkPrev prev (us.getLastD e) (ws.headD e) n)
      e (us++n::ws) := by
  obtain ⟨hu,hw,hdisjoint⟩ := h.nodup_parts
  obtain ⟨hfront,hbehind⟩ := path_append.mp h.path
  have hlast := getLastD_mem e us
  have hhead := headD_mem e ws
  simp only [List.mem_cons,List.mem_append,not_or] at hn hlast hhead
  have hnl : n ≠ us.getLastD e := by
    rintro rfl
    exact hlast.elim hn.1 hn.2.1
  have hnh : n ≠ ws.headD e := by
    rintro rfl
    exact hhead.elim hn.1 hn.2.2
  simp only [List.nodup_cons] at hu hw
  refine ⟨path_append.mpr ⟨?_,?_⟩,?_⟩
  · refine hfront.toward (List.nodup_cons.mpr hu) ?_ (Function.update_self ..) ?_ ?_
    · intro x hx hne
      have hxn : x ≠ n := by
        rintro rfl
        exact (List.mem_cons.mp hx).elim hn.1 hn.2.1
      exact linkNext_of_ne hne hxn
    · intro x hx
      have hxn : x ≠ n := fun he => hn.2.1 (he ▸ hx)
      have hxh : x ≠ ws.headD e := by
        rintro rfl
        exact hhead.elim (fun he => hu.1 (he ▸ hx)) (hdisjoint _ hx)
      exact linkPrev_of_ne hxh hxn
    · exact linkPrev_new hnh
  · refine ⟨Function.update_self ..,linkPrev_new hnh,?_⟩
    refine hbehind.from (List.nodup_cons.mpr hw) ?_ ?_ ?_ (Function.update_self ..)
    · intro x hx
      have hxn : x ≠ n := fun he => hn.2.2 (he ▸ hx)
      have hxl : x ≠ us.getLastD e := by
        rintro rfl
        exact hlast.elim (fun he => hw.1 (he ▸ hx)) (fun hu => hdisjoint _ hu hx)
      exact linkNext_of_ne hxl hxn
    · exact linkNext_new hnl
    · intro x hx hne
      have hxn : x ≠ n := by
        rintro rfl
        exact (List.mem_cons.mp hx).elim hn.1 hn.2.2
      exact linkPrev_of_ne hne hxn
  · have hd := h.nodup
    rw [← List.cons_append] at hd ⊢
    rw [List.nodup_middle,List.nodup_cons]
    refine ⟨?_,hd⟩
    simp only [List.cons_append,List.mem_cons,List.mem_append,not_or]
    exact hn

/-- A node is linked out of its ring. -/
theorem Ring.remove (h : Ring next prev e (us++n::ws)) :
    Ring (Function.update next (us.getLastD e) (ws.headD e))
      (Function.update prev (ws.headD e) (us.getLastD e)) e (us++ws) := by
  obtain ⟨hu,hw,hdisjoint⟩ := h.nodup_parts
  obtain ⟨hfront,hbehind⟩ := path_append.mp h.path
  have hlast := List.mem_cons.mp (getLastD_mem e us)
  have hhead := List.mem_cons.mp (headD_mem e ws)
  simp only [List.nodup_cons,List.mem_cons,not_or] at hu hw
  have hdisjoint' : ∀ x ∈ us, x ∉ ws := fun x hx hxw => hdisjoint x hx (List.mem_cons_of_mem _ hxw)
  refine ⟨path_append.mpr ⟨?_,?_⟩,?_⟩
  · refine hfront.toward (List.nodup_cons.mpr hu) ?_ (Function.update_self ..) ?_ (Function.update_self ..)
    · exact fun x _ hne => Function.update_of_ne hne _ _
    · intro x hx
      refine Function.update_of_ne ?_ _ _
      rintro rfl
      exact hhead.elim (fun he => hu.1 (he ▸ hx)) (hdisjoint' _ hx)
  · refine hbehind.2.2.from (List.nodup_cons.mpr ⟨hw.1.2,hw.2.2⟩) ?_ (Function.update_self ..) ?_
      (Function.update_self ..)
    · intro x hx
      refine Function.update_of_ne ?_ _ _
      rintro rfl
      exact hlast.elim (fun he => hw.1.2 (he ▸ hx)) (fun hu => hdisjoint' _ hu hx)
    · exact fun x _ hne => Function.update_of_ne hne _ _
  · have hd := h.nodup
    rw [← List.cons_append,List.nodup_middle,List.nodup_cons] at hd
    exact hd.2

end Edit

end DoublyLinked
end EmbeddedShell
