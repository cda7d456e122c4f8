import Mathlib.Data.List.Basic
import Mathlib.Tactic.Common

/-!
# Lists in memory

`Segment next start xs stop` says that following `next` from `start` visits the
nodes `xs` one after the other and then arrives at `stop`. With `stop = none` it
is a complete list. A write to one node is described by what it leaves alone.
-/

namespace EmbeddedShell
namespace LinkedList

variable {α : Type*} {next next' : α → Option α}

def Segment (next : α → Option α) : Option α → List α → Option α → Prop
  | start, [], stop => start = stop
  | start, x::xs, stop => start = some x ∧ Segment next (next x) xs stop

instance decidableSegment [DecidableEq α] (next : α → Option α) :
    (start : Option α) → (xs : List α) → (stop : Option α) → Decidable (Segment next start xs stop)
  | start, [], stop => inferInstanceAs (Decidable (start = stop))
  | start, x::xs, stop =>
    haveI := decidableSegment next (next x) xs stop
    inferInstanceAs (Decidable (start = some x ∧ Segment next (next x) xs stop))

@[simp] theorem segment_nil {start stop : Option α} : Segment next start [] stop ↔ start = stop :=
  Iff.rfl

@[simp] theorem segment_cons {start stop : Option α} {x : α} {xs : List α} :
    Segment next start (x::xs) stop ↔ start = some x ∧ Segment next (next x) xs stop := Iff.rfl

theorem Segment.congr {start stop : Option α} {xs : List α} (h : Segment next start xs stop)
    (hn : ∀ x ∈ xs, next' x = next x) : Segment next' start xs stop := by
  induction xs generalizing start with
  | nil => exact h
  | cons x xs ih =>
    obtain ⟨hs,ht⟩ := h
    refine ⟨hs,?_⟩
    rw [hn x (by simp)]
    exact ih ht (fun y hy => hn y (by simp [hy]))

theorem segment_append {start stop : Option α} {xs ys : List α} :
    Segment next start (xs++ys) stop ↔ ∃ mid, Segment next start xs mid ∧ Segment next mid ys stop := by
  induction xs generalizing start with
  | nil => simp
  | cons x xs ih => simp [ih,and_assoc]

theorem segment_concat {start stop : Option α} {xs : List α} {y : α} :
    Segment next start (xs++[y]) stop ↔ Segment next start xs (some y) ∧ next y = stop := by
  simp [segment_append]

theorem Segment.start_eq {start : Option α} {xs : List α} (h : Segment next start xs none) :
    start = xs.head? := by
  cases xs with
  | nil => exact h
  | cons x xs => exact h.1

theorem Segment.exists_cons {x : α} {xs : List α} (h : Segment next (some x) xs none) :
    ∃ rest, xs = x::rest := by
  cases xs with
  | nil => simp at h
  | cons y rest => exact ⟨rest,by rw [Option.some.inj h.1]⟩

theorem Segment.unique {start : Option α} {xs ys : List α} (hx : Segment next start xs none)
    (hy : Segment next start ys none) : xs = ys := by
  induction xs generalizing start ys with
  | nil =>
    obtain rfl : start = none := hx
    exact (List.head?_eq_none_iff.mp hy.start_eq.symm).symm
  | cons x xs ih =>
    obtain ⟨rfl,hxs⟩ := hx
    cases ys with
    | nil => simp at hy
    | cons y ys =>
      obtain ⟨he,hys⟩ := hy
      obtain rfl : x = y := Option.some.inj he
      rw [ih hxs hys]

theorem Segment.next_ne_none {start : Option α} {xs : List α} {y x : α}
    (h : Segment next start (xs++[y]) none) (hx : x ∈ xs) : next x ≠ none := by
  induction xs generalizing start with
  | nil => simp at hx
  | cons z xs ih =>
    rw [List.cons_append,segment_cons] at h
    rcases List.mem_cons.mp hx with rfl | hx
    · intro hnone
      rw [hnone] at h
      have hs := h.2.start_eq
      cases xs with
      | nil => simp at hs
      | cons w xs => simp at hs
    · exact ih h.2 hx

/-- Linking one more node behind a complete list. -/
theorem Segment.extend {start : Option α} {xs : List α} {y z : α}
    (h : Segment next start (xs++[y]) none) (hxs : ∀ x ∈ xs, next' x = next x)
    (hy : next' y = some z) (hz : next' z = none) : Segment next' start (xs++[y]++[z]) none := by
  rw [segment_concat,segment_concat]
  exact ⟨⟨((segment_concat).mp h).1.congr hxs,hy⟩,hz⟩

end LinkedList
end EmbeddedShell
