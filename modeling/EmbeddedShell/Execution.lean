import Mathlib.Data.List.Basic
import Mathlib.Tactic.Common

/-!
# Deterministic machines driven by input sequences

A machine consumes one input at a time, moves its state, and emits a list of
outputs. `run` is the state after a whole sequence, `trace` the concatenation of
everything emitted, and `Along` says that each step of the run meets a condition
on the input and on the state it is consumed in. `guarded` takes the outcome away
from the steps that do not meet a condition, and `reach` is a run over such steps.
The induction rules at the end are the only inductions over runs that a client
needs.
-/

namespace EmbeddedShell
namespace Execution

abbrev Machine (σ ι ω : Type*) := σ → ι → σ × List ω

variable {σ τ ι ω : Type*}

def run (m : Machine σ ι ω) : σ → List ι → σ
  | s, [] => s
  | s, x::xs => run m (m s x).1 xs

def trace (m : Machine σ ι ω) : σ → List ι → List ω
  | _, [] => []
  | s, x::xs => (m s x).2 ++ trace m (m s x).1 xs

/-- Each input is consumed in a state that meets `C`. -/
def Along (m : Machine σ ι ω) (C : σ → ι → Prop) : σ → List ι → Prop
  | _, [] => True
  | s, x::xs => C s x ∧ Along m C (m s x).1 xs

instance decidableAlong (m : Machine σ ι ω) (C : σ → ι → Prop) [∀ s x, Decidable (C s x)] :
    (s : σ) → (xs : List ι) → Decidable (Along m C s xs)
  | _, [] => isTrue trivial
  | s, x::xs =>
    haveI := decidableAlong m C (m s x).1 xs
    inferInstanceAs (Decidable (C s x ∧ Along m C (m s x).1 xs))

@[simp] theorem run_nil (m : Machine σ ι ω) (s : σ) : run m s [] = s := rfl
@[simp] theorem run_cons (m : Machine σ ι ω) (s : σ) (x : ι) (xs : List ι) :
    run m s (x::xs) = run m (m s x).1 xs := rfl
@[simp] theorem trace_nil (m : Machine σ ι ω) (s : σ) : trace m s [] = [] := rfl
@[simp] theorem trace_cons (m : Machine σ ι ω) (s : σ) (x : ι) (xs : List ι) :
    trace m s (x::xs) = (m s x).2 ++ trace m (m s x).1 xs := rfl
@[simp] theorem along_nil (m : Machine σ ι ω) (C : σ → ι → Prop) (s : σ) : Along m C s [] := trivial
@[simp] theorem along_cons (m : Machine σ ι ω) (C : σ → ι → Prop) (s : σ) (x : ι) (xs : List ι) :
    Along m C s (x::xs) ↔ C s x ∧ Along m C (m s x).1 xs := Iff.rfl

theorem run_append (m : Machine σ ι ω) (s : σ) (xs ys : List ι) :
    run m s (xs ++ ys) = run m (run m s xs) ys := by
  induction xs generalizing s with
  | nil => rfl
  | cons x xs ih => simp [ih]

theorem along_append (m : Machine σ ι ω) (C : σ → ι → Prop) (s : σ) (xs ys : List ι) :
    Along m C s (xs ++ ys) ↔ Along m C s xs ∧ Along m C (run m s xs) ys := by
  induction xs generalizing s with
  | nil => simp
  | cons x xs ih => simp [ih,and_assoc]

/-- The recursive form of `Along` and the form that names the step it is about. -/
theorem along_iff_split (m : Machine σ ι ω) (C : σ → ι → Prop) (s : σ) (xs : List ι) :
    Along m C s xs ↔ ∀ pre x post, xs = pre ++ x::post → C (run m s pre) x := by
  constructor
  · rintro h pre x post rfl
    exact ((along_append m C s pre (x::post)).mp h).2.1
  · intro h
    induction xs generalizing s with
    | nil => trivial
    | cons x xs ih =>
      refine ⟨h [] x xs rfl,ih _ ?_⟩
      intro pre y post he
      simpa using h (x::pre) y post (by simp [he])

theorem Along.and {m : Machine σ ι ω} {C D : σ → ι → Prop} {s : σ} {xs : List ι}
    (hc : Along m C s xs) (hd : Along m D s xs) : Along m (fun s x => C s x ∧ D s x) s xs := by
  induction xs generalizing s with
  | nil => trivial
  | cons x xs ih => exact ⟨⟨hc.1,hd.1⟩,ih hc.2 hd.2⟩

/-- Invariant rule: what every admissible step preserves holds after the run. -/
theorem run_invariant {m : Machine σ ι ω} {C : σ → ι → Prop} {P : σ → Prop}
    (hstep : ∀ s x, P s → C s x → P (m s x).1) {s : σ} {xs : List ι}
    (hs : P s) (hc : Along m C s xs) : P (run m s xs) := by
  induction xs generalizing s with
  | nil => exact hs
  | cons x xs ih => exact ih (hstep s x hs hc.1) hc.2

/-- Step conditions may be strengthened or exchanged under an invariant. -/
theorem along_imp {m : Machine σ ι ω} {C D : σ → ι → Prop} {P : σ → Prop}
    (hstep : ∀ s x, P s → C s x → D s x ∧ P (m s x).1) {s : σ} {xs : List ι}
    (hs : P s) (hc : Along m C s xs) : Along m D s xs := by
  induction xs generalizing s with
  | nil => trivial
  | cons x xs ih =>
    obtain ⟨hd,hp⟩ := hstep s x hs hc.1
    exact ⟨hd,ih hp hc.2⟩

theorem along_of_forall {m : Machine σ ι ω} {C : ι → Prop} {s : σ} {xs : List ι}
    (h : ∀ x ∈ xs, C x) : Along m (fun _ x => C x) s xs := by
  induction xs generalizing s with
  | nil => trivial
  | cons x xs ih => exact ⟨h x (by simp),ih fun y hy => h y (by simp [hy])⟩

/-- Two machines stepped on the same inputs stay in a relation that each step keeps. -/
theorem run_related {ω' : Type*} {m : Machine σ ι ω} {n : Machine τ ι ω'} {R : σ → τ → Prop}
    {C : τ → ι → Prop} (hstep : ∀ s t x, R s t → C t x → R (m s x).1 (n t x).1)
    {s : σ} {t : τ} {xs : List ι} (hr : R s t) (hc : Along n C t xs) :
    R (run m s xs) (run n t xs) := by
  induction xs generalizing s t with
  | nil => exact hr
  | cons x xs ih => exact ih (hstep s t x hr hc.1) hc.2

/-- Simulation rule: related states that step to related states with equal
outputs emit equal traces. -/
theorem trace_simulation {m : Machine σ ι ω} {n : Machine τ ι ω} {R : σ → τ → Prop}
    {C : τ → ι → Prop}
    (hstep : ∀ s t x, R s t → C t x → R (m s x).1 (n t x).1 ∧ (m s x).2 = (n t x).2)
    {s : σ} {t : τ} {xs : List ι} (hr : R s t) (hc : Along n C t xs) :
    trace m s xs = trace n t xs := by
  induction xs generalizing s t with
  | nil => rfl
  | cons x xs ih =>
    obtain ⟨hn,ho⟩ := hstep s t x hr hc.1
    rw [trace_cons,trace_cons,ho,ih hn hc.2]

/-- A step that has an outcome only under a condition. -/
def guarded (m : Machine σ ι ω) (C : σ → ι → Prop) [∀ s x, Decidable (C s x)] (s : σ) (x : ι) :
    Option (σ × List ω) :=
  if C s x then some (m s x) else none

/-- The state after steps that all have an outcome. -/
def reach (m : σ → ι → Option (σ × List ω)) : σ → List ι → Option σ
  | s, [] => some s
  | s, x::xs => (m s x).bind fun r => reach m r.1 xs

/-- A guarded run gets through exactly when every step meets the condition. -/
theorem reach_guarded_iff (m : Machine σ ι ω) (C : σ → ι → Prop) [∀ s x, Decidable (C s x)]
    {s t : σ} {xs : List ι} :
    reach (guarded m C) s xs = some t ↔ Along m C s xs ∧ run m s xs = t := by
  induction xs generalizing s with
  | nil => simp [reach]
  | cons x xs ih =>
    by_cases hc : C s x
    · simp [reach,guarded,hc,ih]
    · simp [reach,guarded,hc]

end Execution
end EmbeddedShell
