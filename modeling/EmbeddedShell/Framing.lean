import Mathlib.Data.List.Basic
import Mathlib.Data.List.ReduceOption
import Mathlib.Order.Nat
import Mathlib.Tactic.Common

/-!
# Cutting a sequence into frames

A sequence arrives element by element, with gaps (`none`) between the elements.
`pieces` cuts it at separators and at gaps, `chunks` cuts a piece into blocks of
bounded length. `spaced` places gaps between the elements of a given sequence;
`pieces_spaced_iff` says which gaps can be told from the pieces.
-/

namespace EmbeddedShell
namespace Framing

variable {α : Type*}

/-- Blocks of `k` elements, the last one possibly shorter. -/
def chunks (k : ℕ) (xs : List α) : List (List α) :=
  if 0 < k ∧ xs ≠ [] then xs.take k::chunks k (xs.drop k) else []
termination_by xs.length
decreasing_by
  rename_i h
  have hpos : 0 < xs.length := List.length_pos_iff.mpr h.2
  rw [List.length_drop]
  omega

@[simp] theorem chunks_nil (k : ℕ) : chunks k ([] : List α) = [] := by simp [chunks]

theorem chunks_append {k : ℕ} {xs : List α} (ys : List α) (hk : 0 < k) (h : xs.length = k) :
    chunks k (xs++ys) = xs::chunks k ys := by
  have hne : xs++ys ≠ [] := by
    intro he
    rw [(List.append_eq_nil_iff.mp he).1,List.length_nil] at h
    omega
  rw [chunks,if_pos ⟨hk,hne⟩,List.take_left' h,List.drop_left' h]

theorem chunks_of_length_le {k : ℕ} {xs : List α} (hne : xs ≠ []) (h : xs.length ≤ k) :
    chunks k xs = [xs] := by
  have hk : 0 < k := Nat.lt_of_lt_of_le (List.length_pos_iff.mpr hne) h
  rw [chunks,if_pos ⟨hk,hne⟩,List.take_of_length_le h,List.drop_of_length_le h,chunks_nil]

theorem flatten_chunks {k : ℕ} (hk : 0 < k) (xs : List α) : (chunks k xs).flatten = xs := by
  fun_induction chunks k xs with
  | case1 xs h ih => rw [List.flatten_cons,ih,List.take_append_drop]
  | case2 xs h =>
    have hnil : xs = [] := by
      by_contra hne
      exact h ⟨hk,hne⟩
    rw [hnil,List.flatten_nil]

def nonEmpty (xs : List (List α)) : List (List α) := xs.filter (!·.isEmpty)

@[simp] theorem nonEmpty_nil : nonEmpty ([] : List (List α)) = [] := rfl

@[simp] theorem nonEmpty_cons_nil (xs : List (List α)) : nonEmpty ([]::xs) = nonEmpty xs := rfl

theorem nonEmpty_cons {x : List α} (h : x ≠ []) (xs : List (List α)) :
    nonEmpty (x::xs) = x::nonEmpty xs := by
  simp [nonEmpty,h]

/-- Short pieces are their own only block. -/
theorem flatMap_chunks {k : ℕ} {xs : List (List α)} (h : ∀ x ∈ xs, x.length ≤ k) :
    xs.flatMap (chunks k) = nonEmpty xs := by
  induction xs with
  | nil => rfl
  | cons x xs ih =>
    have htail := ih fun y hy => h y (by simp [hy])
    by_cases hx : x = []
    · simp [hx,htail]
    · rw [List.flatMap_cons,chunks_of_length_le hx (h x (by simp)),htail,nonEmpty_cons hx]
      rfl

theorem flatten_nonEmpty (xs : List (List α)) : (nonEmpty xs).flatten = xs.flatten := by
  induction xs with
  | nil => rfl
  | cons x xs ih =>
    by_cases hx : x = []
    · simp [hx,ih]
    · rw [nonEmpty_cons hx,List.flatten_cons,List.flatten_cons,ih]

theorem flatten_flatMap_chunks {k : ℕ} (hk : 0 < k) (xs : List (List α)) :
    (xs.flatMap (chunks k)).flatten = xs.flatten := by
  induction xs with
  | nil => rfl
  | cons x xs ih =>
    rw [List.flatMap_cons,List.flatten_append,flatten_chunks hk,ih,List.flatten_cons]

variable (sep : α → Bool)

/-- Cut at separators, which are dropped, and at gaps; `acc` is the open piece. -/
def pieces : List α → List (Option α) → List (List α)
  | acc, [] => [acc]
  | acc, none::xs => acc::pieces [] xs
  | acc, some x::xs => if sep x then acc::pieces [] xs else pieces (acc++[x]) xs

theorem pieces_head (xs : List (Option α)) :
    ∃ h t, ∀ acc, pieces sep acc xs = (acc++h)::t := by
  induction xs with
  | nil => exact ⟨[],[],fun acc => by simp [pieces]⟩
  | cons o xs ih =>
    cases o with
    | none => exact ⟨[],pieces sep [] xs,fun acc => by simp [pieces]⟩
    | some x =>
      by_cases hx : sep x
      · exact ⟨[],pieces sep [] xs,fun acc => by simp [pieces,hx]⟩
      · obtain ⟨h,t,ht⟩ := ih
        exact ⟨x::h,t,fun acc => by simp [pieces,hx,ht]⟩

/-- Without gaps the pieces are the runs between separators. -/
theorem pieces_map_some (xs : List α) : pieces sep [] (xs.map some) = xs.splitOnP sep := by
  have hacc (acc : List α) : pieces sep acc (xs.map some) = xs.splitOnPPrepend sep acc.reverse := by
    induction xs generalizing acc with
    | nil => simp [pieces]
    | cons x xs ih =>
      rw [List.map_cons,pieces,List.splitOnPPrepend_cons_eq_if,ih,ih]
      simp
  exact hacc []

theorem flatten_pieces (acc : List α) (xs : List (Option α)) :
    (pieces sep acc xs).flatten = acc ++ xs.reduceOption.filter (!sep ·) := by
  induction xs generalizing acc with
  | nil => simp [pieces]
  | cons o xs ih =>
    cases o with
    | none => simp [pieces,ih]
    | some x =>
      by_cases hx : sep x
      · simp [pieces,hx,ih]
      · simp [pieces,hx,ih]

theorem flatten_splitOnP (xs : List α) : (xs.splitOnP sep).flatten = xs.filter (!sep ·) := by
  have hxs : (xs.map some).reduceOption = xs := by simp [List.reduceOption,List.filterMap_map]
  rw [← pieces_map_some,flatten_pieces,hxs,List.nil_append]

/-- The sequence with `gap j` gaps in front of its element `j`. -/
def spaced : List α → (ℕ → ℕ) → List (Option α)
  | [], gap => List.replicate (gap 0) none
  | x::xs, gap => List.replicate (gap 0) none ++ some x::spaced xs fun j => gap (j+1)

/-- Elements `j` and `j+1` belong to one run. -/
def Inside (xs : List α) (j : ℕ) : Prop :=
  ∃ x y, xs[j]? = some x ∧ xs[j+1]? = some y ∧ sep x = false ∧ sep y = false

theorem nonEmpty_cons_eq_append (x : List α) (xs : List (List α)) :
    nonEmpty (x::xs) = nonEmpty [x] ++ nonEmpty xs := by
  rw [nonEmpty,← List.singleton_append,List.filter_append]
  rfl

theorem nonEmpty_pieces_gaps (acc : List α) (n : ℕ) (xs : List (Option α)) :
    nonEmpty (pieces sep acc (List.replicate n none ++ xs)) =
      if n = 0 then nonEmpty (pieces sep acc xs)
      else nonEmpty [acc] ++ nonEmpty (pieces sep [] xs) := by
  induction n generalizing acc with
  | zero => rfl
  | succ n ih =>
    rw [List.replicate_succ,List.cons_append,pieces,nonEmpty_cons_eq_append,ih]
    cases n with
    | zero => rfl
    | succ n => rfl

/-- The pieces of a spaced sequence behind the open piece `acc`. -/
def frames (acc xs : List α) (gap : ℕ → ℕ) : List (List α) :=
  nonEmpty (pieces sep acc (spaced xs gap))

theorem frames_nil (acc : List α) (gap : ℕ → ℕ) : frames sep acc [] gap = nonEmpty [acc] := by
  have h := nonEmpty_pieces_gaps sep acc (gap 0) []
  rw [List.append_nil] at h
  rw [frames,spaced,h]
  split
  · rfl
  · simp [pieces]

theorem frames_sep {x : α} (hx : sep x = true) (acc xs : List α) (gap : ℕ → ℕ) :
    frames sep acc (x::xs) gap = nonEmpty [acc] ++ frames sep [] xs fun j => gap (j+1) := by
  rw [frames,spaced,nonEmpty_pieces_gaps]
  simp only [pieces,hx,if_true,nonEmpty_cons_nil]
  rw [nonEmpty_cons_eq_append,ite_self]
  rfl

theorem frames_text {x : α} (hx : sep x = false) (acc xs : List α) (gap : ℕ → ℕ) :
    frames sep acc (x::xs) gap = if gap 0 = 0 then frames sep (acc++[x]) xs fun j => gap (j+1)
      else nonEmpty [acc] ++ frames sep [x] xs fun j => gap (j+1) := by
  rw [frames,spaced,nonEmpty_pieces_gaps]
  simp only [pieces,hx,Bool.false_eq_true,if_false,List.nil_append]
  rfl

theorem frames_head {acc : List α} (h : acc ≠ []) (xs : List α) (gap : ℕ → ℕ) :
    ∃ more rest, frames sep acc xs gap = (acc++more)::rest := by
  obtain ⟨more,rest,hp⟩ := pieces_head sep (spaced xs gap)
  refine ⟨more,nonEmpty rest,?_⟩
  rw [frames,hp,nonEmpty_cons]
  simp [h]

theorem frames_ne {acc : List α} (h : acc ≠ []) (x : α) (xs : List α) (gap gap' : ℕ → ℕ) :
    frames sep (acc++[x]) xs gap ≠ nonEmpty [acc] ++ frames sep [x] xs gap' := by
  obtain ⟨more,rest,hf⟩ := frames_head sep (show acc++[x] ≠ [] by simp) xs gap
  intro he
  rw [hf,nonEmpty_cons h,nonEmpty_nil,List.singleton_append,List.cons.injEq] at he
  have hlen := congrArg List.length he.1
  simp at hlen

/-- The gaps that cut a run fall in the same places; `inRun` says that the element
in front is not a separator. -/
def SameCuts : Bool → List α → (ℕ → ℕ) → (ℕ → ℕ) → Prop
  | _, [], _, _ => True
  | inRun, x::xs, gap, gap' =>
    if sep x then SameCuts false xs (fun j => gap (j+1)) fun j => gap' (j+1)
    else (inRun = true → (gap 0 = 0 ↔ gap' 0 = 0)) ∧
      SameCuts true xs (fun j => gap (j+1)) fun j => gap' (j+1)

theorem frames_eq_iff (acc xs : List α) (gap gap' : ℕ → ℕ) :
    frames sep acc xs gap = frames sep acc xs gap' ↔ SameCuts sep (!acc.isEmpty) xs gap gap' := by
  induction xs generalizing acc gap gap' with
  | nil => simp [frames_nil,SameCuts]
  | cons x xs ih =>
    cases hx : sep x with
    | true =>
      rw [frames_sep sep hx,frames_sep sep hx,List.append_right_inj,ih]
      simp [SameCuts,hx]
    | false =>
      by_cases ha : acc = []
      · subst acc
        have hnil (gap : ℕ → ℕ) : frames sep [] (x::xs) gap = frames sep [x] xs fun j => gap (j+1) := by
          rw [frames_text sep hx]
          simp
        rw [hnil,hnil,ih]
        simp [SameCuts,hx]
      · have hrun : (!acc.isEmpty) = true := by simp [ha]
        have hmore : (!(acc++[x]).isEmpty) = true := by simp
        rw [frames_text sep hx,frames_text sep hx,hrun]
        by_cases hg : gap 0 = 0
        · by_cases hg' : gap' 0 = 0
          · rw [if_pos hg,if_pos hg',ih,hmore]
            simp [SameCuts,hx,hg,hg']
          · rw [if_pos hg,if_neg hg']
            simp [SameCuts,hx,hg,hg',frames_ne sep ha]
        · by_cases hg' : gap' 0 = 0
          · rw [if_neg hg,if_pos hg',eq_comm]
            simp [SameCuts,hx,hg,hg',frames_ne sep ha]
          · rw [if_neg hg,if_neg hg',List.append_right_inj,ih]
            simp [SameCuts,hx,hg,hg']

theorem sameCuts_iff (inRun : Bool) (xs : List α) (gap gap' : ℕ → ℕ) :
    SameCuts sep inRun xs gap gap' ↔
      (inRun = true → ∀ x, xs[0]? = some x → sep x = false → (gap 0 = 0 ↔ gap' 0 = 0)) ∧
      ∀ j, Inside sep xs j → (gap (j+1) = 0 ↔ gap' (j+1) = 0) := by
  induction xs generalizing inRun gap gap' with
  | nil => simp [SameCuts,Inside]
  | cons x xs ih =>
    have hinside : (∀ j, Inside sep (x::xs) j → (gap (j+1) = 0 ↔ gap' (j+1) = 0)) ↔
        (sep x = false → ∀ y, xs[0]? = some y → sep y = false → (gap 1 = 0 ↔ gap' 1 = 0)) ∧
        ∀ j, Inside sep xs j → (gap (j+1+1) = 0 ↔ gap' (j+1+1) = 0) := by
      constructor
      · intro h
        exact ⟨fun hx y hy hs => h 0 ⟨x,y,rfl,by simpa using hy,hx,hs⟩,
          fun j ⟨y,z,hy,hz,hs⟩ => h (j+1) ⟨y,z,by simpa using hy,by simpa using hz,hs⟩⟩
      · rintro ⟨hzero,hsucc⟩ j ⟨y,z,hy,hz,hsy,hsz⟩
        cases j with
        | zero =>
          obtain rfl : x = y := by simpa using hy
          exact hzero hsy z (by simpa using hz) hsz
        | succ j => exact hsucc j ⟨y,z,by simpa using hy,by simpa using hz,hsy,hsz⟩
    rw [hinside]
    cases hx : sep x with
    | true => simp [SameCuts,hx,ih]
    | false => simp [SameCuts,hx,ih]

/-- The pieces of two spacings of one sequence agree exactly when both cut the
same places inside the runs. -/
theorem pieces_spaced_iff (xs : List α) (gap gap' : ℕ → ℕ) :
    nonEmpty (pieces sep [] (spaced xs gap)) = nonEmpty (pieces sep [] (spaced xs gap')) ↔
      ∀ j, Inside sep xs j → (gap (j+1) = 0 ↔ gap' (j+1) = 0) := by
  refine (frames_eq_iff sep [] xs gap gap').trans ((sameCuts_iff sep _ xs gap gap').trans ?_)
  simp

theorem flatMap_chunks_full {k : ℕ} {acc : List α} (hk : 0 < k) (h : acc.length = k)
    (xs : List (Option α)) : (pieces sep acc xs).flatMap (chunks k) =
      acc::(pieces sep [] xs).flatMap (chunks k) := by
  obtain ⟨more,rest,hp⟩ := pieces_head sep xs
  rw [hp,hp [],List.flatMap_cons,chunks_append more hk h]
  rfl

theorem length_le_of_pieces {k : ℕ} {acc : List α} {xs : List (Option α)}
    (h : ∀ run ∈ pieces sep acc xs, run.length ≤ k) : acc.length ≤ k := by
  obtain ⟨more,rest,hp⟩ := pieces_head sep xs
  have hlen := h (acc++more) (by simp [hp])
  rw [List.length_append] at hlen
  omega

theorem mem_pieces_gaps {acc p : List α} {n : ℕ} {xs : List (Option α)}
    (h : p ∈ pieces sep acc (List.replicate n none ++ xs)) :
    p.length ≤ acc.length ∨ ∃ acc', acc'.length ≤ acc.length ∧ p ∈ pieces sep acc' xs := by
  induction n generalizing acc with
  | zero => exact Or.inr ⟨acc,le_rfl,h⟩
  | succ n ih =>
    rw [List.replicate_succ,List.cons_append,pieces] at h
    rcases List.mem_cons.mp h with rfl | h
    · exact Or.inl le_rfl
    · rcases ih h with hp | ⟨acc',ha,hp⟩
      · exact Or.inl (hp.trans (Nat.zero_le _))
      · exact Or.inr ⟨acc',ha.trans (Nat.zero_le _),hp⟩

theorem pieces_spaced_length {k : ℕ} {acc acc' xs : List α} (gap : ℕ → ℕ)
    (h : ∀ run ∈ pieces sep acc (xs.map some), run.length ≤ k) (ha : acc'.length ≤ acc.length) :
    ∀ p ∈ pieces sep acc' (spaced xs gap), p.length ≤ k := by
  have hacc := length_le_of_pieces sep h
  induction xs generalizing acc acc' gap with
  | nil =>
    intro p hp
    rw [spaced,← List.append_nil (List.replicate _ _)] at hp
    rcases mem_pieces_gaps sep hp with hl | ⟨acc'',hl,hp⟩
    · omega
    · obtain rfl : p = acc'' := by simpa [pieces] using hp
      omega
  | cons x xs ih =>
    intro p hp
    rcases mem_pieces_gaps sep hp with hl | ⟨acc'',hl,hp⟩
    · omega
    · cases hx : sep x with
      | true =>
        simp only [List.map_cons,pieces,hx,if_true,List.mem_cons] at h hp
        rcases hp with rfl | hp
        · omega
        · have htail : ∀ run ∈ pieces sep [] (xs.map some), run.length ≤ k := fun run hr =>
            h run (Or.inr hr)
          exact ih _ htail le_rfl (Nat.zero_le k) p hp
      | false =>
        simp only [List.map_cons,pieces,hx,Bool.false_eq_true,if_false] at h hp
        exact ih _ h (by simp; omega) (length_le_of_pieces sep h) p hp

end Framing
end EmbeddedShell
