import Mathlib.Data.List.Basic
import Mathlib.Data.List.TakeWhile
import Mathlib.Data.Nat.Digits.Defs
import Mathlib.Tactic.Common

/-!
# Byte strings that end at a NUL

Text is a list of bytes. `cstr` is what a C string function sees of it: the
bytes before the first NUL. `chunked` reads a list the way a bounded staging
buffer does, one terminated block after the other, so a NUL inside a block hides
the rest of that block and nothing else.
-/

namespace EmbeddedShell

abbrev Bytes := List UInt8

namespace CString

def chars (s : String) : Bytes := s.toList.map fun c => UInt8.ofNat c.toNat

/-- The `%lu` and `%u` conversions. -/
def decimal (n : ℕ) : Bytes := (Nat.toDigits 10 n).map fun c => UInt8.ofNat c.toNat

def NulFree (xs : Bytes) : Prop := (0 : UInt8) ∉ xs

instance (xs : Bytes) : Decidable (NulFree xs) := inferInstanceAs (Decidable (¬ _))

/-- The bytes before the first NUL. -/
def cstr (xs : Bytes) : Bytes := xs.takeWhile (· ≠ 0)

def printable (xs : Bytes) : Bytes := xs.filter (· ≠ 0)

@[simp] theorem nulFree_nil : NulFree [] := by simp [NulFree]

@[simp] theorem nulFree_append {xs ys : Bytes} : NulFree (xs++ys) ↔ NulFree xs ∧ NulFree ys := by
  simp [NulFree]

theorem NulFree.sublist {xs ys : Bytes} (h : NulFree ys) (hs : xs.Sublist ys) : NulFree xs :=
  fun h0 => h (hs.subset h0)

theorem notMem_takeWhile_ne (b : UInt8) (xs : Bytes) : b ∉ xs.takeWhile (· ≠ b) := by
  intro h
  simpa using List.mem_takeWhile_imp (p:=fun x : UInt8 => decide (x ≠ b)) h

theorem forall_ne_of_notMem {b : UInt8} {xs : Bytes} (h : b ∉ xs) :
    ∀ x ∈ xs, decide (x ≠ b) = true := by
  intro x hx
  have hne : x ≠ b := ne_of_mem_of_not_mem hx h
  simpa using hne

theorem takeWhile_ne_append {b : UInt8} {xs : Bytes} (h : b ∉ xs) (rest : Bytes) :
    (xs ++ b::rest).takeWhile (· ≠ b) = xs := by
  rw [List.takeWhile_append_of_pos (forall_ne_of_notMem h)]
  simp

theorem nulFree_cstr (xs : Bytes) : NulFree (cstr xs) := notMem_takeWhile_ne 0 xs

theorem cstr_of_nulFree {xs : Bytes} (h : NulFree xs) : cstr xs = xs :=
  List.takeWhile_eq_self_iff.mpr (forall_ne_of_notMem h)

/-- What stands behind the terminator is not seen. -/
theorem cstr_append_nul (xs ys : Bytes) : cstr (xs ++ (0::ys)) = cstr xs := by
  induction xs with
  | nil => simp [cstr]
  | cons x xs ih =>
    by_cases hx : x = 0
    · simp [cstr,hx]
    · simpa [cstr,hx] using ih

theorem printable_of_nulFree {xs : Bytes} (h : NulFree xs) : printable xs = xs :=
  List.filter_eq_self.mpr (forall_ne_of_notMem h)

@[simp] theorem printable_append (xs ys : Bytes) :
    printable (xs++ys) = printable xs ++ printable ys := by
  simp [printable]

theorem nulFree_decimal (n : ℕ) : NulFree (decimal n) := by
  intro h
  obtain ⟨c,hc,h0⟩ := List.mem_map.mp h
  have hd := Nat.isDigit_of_mem_toDigits (by decide) (by decide) hc
  have hr : 48 ≤ c.toNat ∧ c.toNat ≤ 57 := by
    simpa [Char.isDigit,UInt32.le_iff_toNat_le] using hd
  have ht := congrArg UInt8.toNat h0
  simp at ht
  omega

theorem decimal_length_le {n : ℕ} (h : n < 2^32) : (decimal n).length ≤ 10 := by
  rw [decimal,List.length_map]
  exact Nat.toDigits_length 10 n 10 (by decide) (by omega)

theorem cstr_sublist_printable (xs : Bytes) : (cstr xs).Sublist (printable xs) := by
  rw [← printable_of_nulFree (nulFree_cstr xs)]
  exact (List.takeWhile_sublist _).filter _

/-- A text that ends at its only line feed. -/
def IsLine (xs : Bytes) : Prop := ∃ body, xs = body ++ [10] ∧ (10 : UInt8) ∉ body

theorem IsLine.eq_of_begins {xs ys rest : Bytes} (hx : IsLine xs) (hy : IsLine ys)
    (h : xs <+: ys ++ rest) : xs = ys := by
  obtain ⟨body,rfl,hbody⟩ := hx
  obtain ⟨body',rfl,hbody'⟩ := hy
  obtain ⟨more,hmore⟩ := h
  rw [List.append_assoc,List.append_assoc] at hmore
  have heq := congrArg (List.takeWhile fun b : UInt8 => decide (b ≠ 10)) hmore
  rw [List.singleton_append,List.singleton_append,takeWhile_ne_append hbody,
    takeWhile_ne_append hbody'] at heq
  rw [heq]

/-- Nothing but NULs stands behind a NUL of the same block of `n+1` bytes. -/
def Intact (n : ℕ) (xs : Bytes) : Prop :=
  ∀ i j, i < j → i/(n+1) = j/(n+1) → xs[i]? = some 0 → ∀ b, xs[j]? = some b → b = 0

theorem cstr_eq_printable_iff (xs : Bytes) : cstr xs = printable xs ↔
    ∀ i j : ℕ, i < j → xs[i]? = some 0 → ∀ b, xs[j]? = some b → b = 0 := by
  induction xs with
  | nil => simp [cstr,printable]
  | cons x xs ih =>
    by_cases hx : x = 0
    · subst x
      have hnil : cstr (0::xs) = printable (0::xs) ↔ ∀ b ∈ xs, b = 0 := by
        have hf : printable (0::xs) = printable xs := by simp [printable]
        rw [show cstr (0::xs) = [] by simp [cstr],hf]
        exact ⟨fun h => by simpa [printable] using h.symm,fun h => by simpa [printable] using h⟩
      rw [hnil]
      constructor
      · intro h i j hij _ b hb
        obtain ⟨k,rfl⟩ : ∃ k, j = k+1 := ⟨j-1,by omega⟩
        exact h b (List.mem_of_getElem? (by simpa using hb))
      · intro h b hb
        obtain ⟨k,hk⟩ := List.getElem?_of_mem hb
        exact h 0 (k+1) (by omega) (by simp) b (by simpa using hk)
    · have hcons : cstr (x::xs) = printable (x::xs) ↔ cstr xs = printable xs := by
        simp [cstr,printable,hx]
      rw [hcons,ih]
      constructor
      · intro h i j hij hi b hb
        cases i with
        | zero => exact absurd (by simpa using hi) hx
        | succ i =>
          obtain ⟨k,rfl⟩ : ∃ k, j = k+1 := ⟨j-1,by omega⟩
          exact h i k (by omega) (by simpa using hi) b (by simpa using hb)
      · intro h i j hij hi b hb
        exact h (i+1) (j+1) (by omega) (by simpa using hi) b (by simpa using hb)

theorem intact_of_length_le {n : ℕ} {xs : Bytes} (h : xs.length ≤ n+1) :
    Intact n xs ↔ cstr xs = printable xs := by
  rw [cstr_eq_printable_iff]
  constructor
  · intro hx i j hij hi b hb
    have hj : j < xs.length := (List.getElem?_eq_some_iff.mp hb).1
    exact hx i j hij (by rw [Nat.div_eq_of_lt (by omega),Nat.div_eq_of_lt (by omega)]) hi b hb
  · intro hx i j hij _ hi b hb
    exact hx i j hij hi b hb

theorem intact_append {n : ℕ} {xs ys : Bytes} (h : xs.length = n+1) :
    Intact n (xs++ys) ↔ Intact n xs ∧ Intact n ys := by
  constructor
  · intro hx
    refine ⟨?_,?_⟩
    · intro i j hij hd hi b hb
      have hil : i < xs.length := (List.getElem?_eq_some_iff.mp hi).1
      have hjl : j < xs.length := (List.getElem?_eq_some_iff.mp hb).1
      exact hx i j hij hd (by rw [List.getElem?_append_left hil,hi]) b
        (by rw [List.getElem?_append_left hjl,hb])
    · intro i j hij hd hi b hb
      refine hx (n+1+i) (n+1+j) (by omega) ?_ ?_ b ?_
      · rw [Nat.add_div_left i (by omega),Nat.add_div_left j (by omega),hd]
      · rw [← h,List.getElem?_append_right (by omega)]; simpa using hi
      · rw [← h,List.getElem?_append_right (by omega)]; simpa using hb
  · rintro ⟨hl,hr⟩ i j hij hd hi b hb
    by_cases hin : i < n+1
    · have hjn : j < n+1 := by
        rw [Nat.div_eq_of_lt hin] at hd
        exact (Nat.div_eq_zero_iff_lt (by omega)).mp hd.symm
      rw [List.getElem?_append_left (by omega)] at hi hb
      exact hl i j hij hd hi b hb
    · obtain ⟨k,rfl⟩ : ∃ k, i = n+1+k := ⟨i-(n+1),by omega⟩
      obtain ⟨l,rfl⟩ : ∃ l, j = n+1+l := ⟨j-(n+1),by omega⟩
      rw [List.getElem?_append_right (by omega),h,Nat.add_sub_cancel_left] at hi hb
      rw [Nat.add_div_left k (by omega),Nat.add_div_left l (by omega)] at hd
      exact hr k l (by omega) (by omega) hi b hb

/-- What is seen of `xs` when it passes through a buffer of `n+1` bytes. -/
def chunked (n : ℕ) : Bytes → Bytes
  | [] => []
  | x::xs => cstr ((x::xs).take (n+1)) ++ chunked n ((x::xs).drop (n+1))
termination_by xs => xs.length

@[simp] theorem chunked_nil (n : ℕ) : chunked n [] = [] := by simp [chunked]

theorem chunked_append {n : ℕ} {xs : Bytes} (ys : Bytes) (h : xs.length = n+1) :
    chunked n (xs++ys) = cstr xs ++ chunked n ys := by
  cases xs with
  | nil => simp at h
  | cons x xs =>
    rw [List.cons_append,chunked,← List.cons_append,List.take_left' h,List.drop_left' h]

theorem chunked_of_length_le {n : ℕ} {xs : Bytes} (h : xs.length ≤ n+1) : chunked n xs = cstr xs := by
  cases xs with
  | nil => simp [cstr]
  | cons x xs => rw [chunked,List.take_of_length_le h,List.drop_of_length_le h]; simp

/-- Induction block by block: a short list, or one full block in front. -/
theorem block_induction {n : ℕ} {P : Bytes → Prop} (short : ∀ xs, xs.length ≤ n+1 → P xs)
    (block : ∀ xs ys, xs.length = n+1 → P ys → P (xs++ys)) (xs : Bytes) : P xs := by
  induction hl : xs.length using Nat.strong_induction_on generalizing xs with
  | _ l ih =>
    by_cases h : xs.length ≤ n+1
    · exact short xs h
    · rw [← List.take_append_drop (n+1) xs]
      refine block _ _ (by simp; omega) (ih (xs.drop (n+1)).length ?_ _ rfl)
      simp; omega

theorem chunked_sublist_printable (n : ℕ) (xs : Bytes) : (chunked n xs).Sublist (printable xs) := by
  induction xs using block_induction (n:=n) with
  | short xs h => rw [chunked_of_length_le h]; exact cstr_sublist_printable xs
  | block xs ys h ih =>
    rw [chunked_append ys h,printable_append]
    exact (cstr_sublist_printable xs).append ih

/-- No printable byte is lost exactly when no block has one behind a NUL. -/
theorem chunked_eq_printable_iff (n : ℕ) (xs : Bytes) :
    chunked n xs = printable xs ↔ Intact n xs := by
  induction xs using block_induction (n:=n) with
  | short xs h => rw [chunked_of_length_le h,intact_of_length_le h]
  | block xs ys h ih =>
    rw [chunked_append ys h,printable_append,intact_append h,← ih,intact_of_length_le h.le]
    constructor
    · intro he
      have hx := (cstr_sublist_printable xs).length_le
      have hy := (chunked_sublist_printable n ys).length_le
      have hlen := congrArg List.length he
      simp only [List.length_append] at hlen
      exact ⟨(cstr_sublist_printable xs).eq_of_length (by omega),
        (chunked_sublist_printable n ys).eq_of_length (by omega)⟩
    · rintro ⟨hx,hy⟩
      rw [hx,hy]

theorem chunked_of_nulFree {n : ℕ} {xs : Bytes} (h : NulFree xs) : chunked n xs = xs := by
  have hi : Intact n xs := by
    intro i j _ _ hz
    exact absurd (List.mem_of_getElem? hz) h
  rw [(chunked_eq_printable_iff n xs).mpr hi,printable_of_nulFree h]

end CString
end EmbeddedShell
