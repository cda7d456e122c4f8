import Mathlib.Data.List.Basic
import Mathlib.Data.Nat.ModEq
import Mathlib.Tactic.Common
import Mathlib.Tactic.Ring

/-!
# Machine words, flat memories and circular windows

`wrap w` is the conversion of an integer to an unsigned word of `w` bits. A
memory is a total function from addresses to cells, so that a store beyond the
object it was meant for is representable. The second half is about `N` cells used
circularly: `put` is a copy that is split at the end of the array, `Holds` says
that the cells still carry the newest `N` elements of everything put so far.
-/

namespace EmbeddedShell

/-- Conversion to an unsigned word of `w` bits. -/
def wrap (w : ℕ) (x : ℤ) : ℕ := (x % 2^w).toNat

@[simp] theorem wrap_natCast (w n : ℕ) : wrap w n = n % 2^w := by
  simp only [wrap]
  exact_mod_cast Int.toNat_natCast (n % 2^w)

theorem wrap_sub {w a b : ℕ} (hb : b ≤ a) (ha : a < 2^w) : wrap w ((a:ℤ)-b) = a-b := by
  rw [← Nat.cast_sub hb,wrap_natCast,Nat.mod_eq_of_lt (by omega)]

namespace Memory

variable {α : Type*}

def store (m : ℕ → α) (a : ℕ) (xs : List α) : ℕ → α :=
  fun i => if a ≤ i then (xs[i-a]?).getD (m i) else m i

def load (m : ℕ → α) (a n : ℕ) : List α := (List.range n).map fun i => m (a+i)

theorem store_below (m : ℕ → α) (xs : List α) {a i : ℕ} (h : i < a) : store m a xs i = m i := by
  simp [store,Nat.not_le.mpr h]

theorem store_above (m : ℕ → α) (xs : List α) {a i : ℕ} (h : a+xs.length ≤ i) :
    store m a xs i = m i := by
  have hn : xs[i-a]? = none := List.getElem?_eq_none (by omega)
  simp [store,hn]

theorem store_outside (m : ℕ → α) (xs : List α) {a i : ℕ} (h : i < a ∨ a+xs.length ≤ i) :
    store m a xs i = m i :=
  h.elim (store_below m xs) (store_above m xs)

@[simp] theorem store_inside (m : ℕ → α) (a : ℕ) (xs : List α) (i : ℕ) (h : i < xs.length) :
    store m a xs (a+i) = xs[i] := by
  simp [store,h]

@[simp] theorem store_nil (m : ℕ → α) (a : ℕ) : store m a [] = m := by
  funext i
  simp [store]

theorem store_append (m : ℕ → α) (a : ℕ) (xs ys : List α) :
    store m a (xs++ys) = store (store m a xs) (a+xs.length) ys := by
  funext i
  by_cases h₁ : i < a+xs.length
  · rw [store_below _ _ h₁]
    by_cases h₀ : a ≤ i
    · simp [store,h₀,List.getElem?_append_left (show i-a < xs.length by omega)]
    · simp [store,h₀]
  · have hx : xs[i-a]? = none := List.getElem?_eq_none (by omega)
    have hi : i-a-xs.length = i-(a+xs.length) := by omega
    simp [store,hx,show a ≤ i by omega,show a+xs.length ≤ i by omega,
      List.getElem?_append_right (show xs.length ≤ i-a by omega),hi]

@[simp] theorem load_length (m : ℕ → α) (a n : ℕ) : (load m a n).length = n := by simp [load]

@[simp] theorem load_zero (m : ℕ → α) (a : ℕ) : load m a 0 = [] := rfl

@[simp] theorem getElem_load (m : ℕ → α) (a n i : ℕ) (h : i < (load m a n).length) :
    (load m a n)[i] = m (a+i) := by simp [load]

theorem mem_load {m : ℕ → α} {a n : ℕ} {x : α} : x ∈ load m a n ↔ ∃ i < n, m (a+i) = x := by
  simp [load]

theorem load_eq_of_forall {m : ℕ → α} {a : ℕ} {xs : List α}
    (h : ∀ i (hi : i < xs.length), m (a+i) = xs[i]) : load m a xs.length = xs := by
  apply List.ext_getElem (by simp)
  intro i h₁ h₂
  simpa using h i h₂

theorem load_congr {m m' : ℕ → α} {a n : ℕ} (h : ∀ i < n, m (a+i) = m' (a+i)) :
    load m a n = load m' a n := by
  apply List.ext_getElem (by simp)
  intro i h₁ _
  simpa using h i (by simpa using h₁)

theorem load_add (m : ℕ → α) (a n k : ℕ) : load m a (n+k) = load m a n ++ load m (a+n) k := by
  simp [load,List.range_add,Function.comp_def,Nat.add_assoc]

@[simp] theorem load_store_self (m : ℕ → α) (a : ℕ) (xs : List α) :
    load (store m a xs) a xs.length = xs :=
  load_eq_of_forall fun i hi => store_inside m a xs i hi

theorem load_store_disjoint (m : ℕ → α) (xs : List α) {a b n : ℕ}
    (h : a+n ≤ b ∨ b+xs.length ≤ a) : load (store m b xs) a n = load m a n :=
  load_congr fun i hi => store_outside m xs (by omega)

theorem load_store_extend (m : ℕ → α) {a : ℕ} {xs ys : List α} {n k : ℕ}
    (h : load m a n = xs) (hk : k ≤ ys.length) :
    load (store m (a+n) ys) a (n+k) = xs ++ ys.take k := by
  obtain ⟨l,hl⟩ : ∃ l, ys.length = k+l := ⟨ys.length-k,by omega⟩
  have hself := load_store_self m (a+n) ys
  rw [hl,load_add] at hself
  have hy : load (store m (a+n) ys) (a+n) k = ys.take k := by
    conv_rhs => rw [← hself]
    rw [List.take_left' (by simp)]
  rw [load_add,load_store_disjoint m ys (Or.inl le_rfl),h,hy]

/-- A memory that keeps a record of the addresses that are stored to. -/
structure Tracked (α : Type*) where
  cells : ℕ → α
  stored : List ℕ

def Tracked.store (t : Tracked α) (a : ℕ) (xs : List α) : Tracked α :=
  ⟨Memory.store t.cells a xs,t.stored ++ List.range' a xs.length⟩

@[simp] theorem Tracked.store_cells (t : Tracked α) (a : ℕ) (xs : List α) :
    (t.store a xs).cells = Memory.store t.cells a xs := rfl

@[simp] theorem Tracked.mem_stored {t : Tracked α} {a i : ℕ} {xs : List α} :
    i ∈ (t.store a xs).stored ↔ i ∈ t.stored ∨ a ≤ i ∧ i < a+xs.length := by
  simp [Tracked.store]

/-- What is not on record is as it was. -/
def Tracked.Since (m : ℕ → α) (t : Tracked α) : Prop := ∀ i, i ∉ t.stored → t.cells i = m i

theorem Tracked.since_start (m : ℕ → α) : Tracked.Since m ⟨m,[]⟩ := fun _ _ => rfl

theorem Tracked.Since.store {m : ℕ → α} {t : Tracked α} (h : t.Since m) (a : ℕ) (xs : List α) :
    (t.store a xs).Since m := by
  intro i hi
  simp only [Tracked.mem_stored,not_or,not_and_or,not_le,not_lt] at hi
  rw [Tracked.store_cells,store_outside t.cells xs hi.2]
  exact h i hi.1

end Memory

namespace Ring

open Memory

variable {α : Type*}

/-- A copy into `N` circular cells, split in two where it meets the end. -/
def put (N : ℕ) (m : ℕ → α) (p : ℕ) (xs : List α) : ℕ → α :=
  if N ≤ p+xs.length then store (store m p (xs.take (N-p))) 0 (xs.drop (N-p))
  else store m p xs

/-- The `k` cells met when walking circularly from `p`. -/
def window (N : ℕ) (m : ℕ → α) (p k : ℕ) : List α := (List.range k).map fun i => m ((p+i)%N)

/-- After `xs` was put circularly from `start` on, its newest `N` elements are in place. -/
def Holds (N : ℕ) (m : ℕ → α) (start : ℕ) (xs : List α) : Prop :=
  ∀ i (h : i < xs.length), xs.length ≤ i+N → m ((start+i)%N) = xs[i]

variable {N : ℕ} {m : ℕ → α}

theorem holds_nil (N : ℕ) (m : ℕ → α) (start : ℕ) : Holds N m start [] := by
  intro i h
  simp at h

theorem put_new {p i : ℕ} {xs : List α} (hp : p < N) (hl : xs.length ≤ N) (hi : i < xs.length) :
    put N m p xs ((p+i)%N) = xs[i] := by
  unfold put
  split
  · by_cases hw : p+i < N
    · rw [Nat.mod_eq_of_lt hw,store_above _ _ (by simp; omega)]
      have ht : i < (xs.take (N-p)).length := by simp; omega
      simpa using store_inside m p (xs.take (N-p)) i ht
    · have hm : (p+i)%N = p+i-N := by
        rw [Nat.mod_eq_sub_mod (by omega),Nat.mod_eq_of_lt (by omega)]
      have hd : p+i-N < (xs.drop (N-p)).length := by simp; omega
      have hs := store_inside (store m p (xs.take (N-p))) 0 (xs.drop (N-p)) (p+i-N) hd
      have hx : N-p+(p+i-N) = i := by omega
      simpa [hm,hx] using hs
  · rw [Nat.mod_eq_of_lt (by omega)]
    exact store_inside m p xs i hi

theorem put_old {p i : ℕ} {xs : List α} (hp : p < N) (hl : xs.length ≤ i) (hi : i < N) :
    put N m p xs ((p+i)%N) = m ((p+i)%N) := by
  unfold put
  by_cases hw : p+i < N
  · rw [Nat.mod_eq_of_lt hw,if_neg (by omega)]
    exact store_above m xs (by omega)
  · have hm : (p+i)%N = p+i-N := by
      rw [Nat.mod_eq_sub_mod (by omega),Nat.mod_eq_of_lt (by omega)]
    rw [hm]
    split
    · rw [store_above _ _ (by simp; omega),store_below _ _ (by omega)]
    · exact store_below m xs (by omega)

/-- Putting more elements keeps the newest `N` of the longer history. -/
theorem holds_put {start : ℕ} {xs ys : List α} (hN : 0 < N) (h : Holds N m start xs)
    (hl : ys.length ≤ N) : Holds N (put N m ((start+xs.length)%N) ys) start (xs++ys) := by
  intro i hi hnew
  simp only [List.length_append] at hi hnew
  have hp : (start+xs.length)%N < N := Nat.mod_lt _ hN
  by_cases hx : i < xs.length
  · have hpos : (start+i)%N = ((start+xs.length)%N + (N-(xs.length-i)))%N := by
      rw [Nat.mod_add_mod,show start+xs.length+(N-(xs.length-i)) = start+i+N by omega,
        Nat.add_mod_right]
    rw [hpos,put_old hp (by omega) (by omega),← hpos,h i hx (by omega),
      List.getElem_append_left hx]
  · have hpos : (start+i)%N = ((start+xs.length)%N + (i-xs.length))%N := by
      rw [Nat.mod_add_mod,show start+xs.length+(i-xs.length) = start+i by omega]
    rw [hpos,put_new hp hl (by omega),List.getElem_append_right (by omega)]

/-- The newest `k` elements are a window that ends at the write position. -/
theorem holds_window {start k : ℕ} {xs : List α} (h : Holds N m start xs) (hk : k ≤ N)
    (hx : k ≤ xs.length) : window N m (start+(xs.length-k)) k = xs.drop (xs.length-k) := by
  apply List.ext_getElem
  · simp [window]; omega
  · intro i h₁ h₂
    simp only [window,List.length_map,List.length_range] at h₁
    have hh := h (xs.length-k+i) (by omega) (by omega)
    simpa [window,Nat.add_assoc] using hh

theorem window_straight {p k : ℕ} (h : p+k ≤ N) : window N m p k = load m p k := by
  apply List.ext_getElem (by simp [window])
  intro i h₁ _
  simp only [window,List.length_map,List.length_range] at h₁
  simp [window,Nat.mod_eq_of_lt (show p+i < N by omega)]

theorem window_wrapped {p k : ℕ} (hp : p ≤ N) (hk : k ≤ N) (h : N ≤ p+k) :
    window N m p k = load m p (N-p) ++ load m 0 (p+k-N) := by
  apply List.ext_getElem
  · simp [window]; omega
  · intro i h₁ _
    simp only [window,List.length_map,List.length_range] at h₁
    by_cases hi : i < N-p
    · rw [List.getElem_append_left (by simpa using hi)]
      simp [window,Nat.mod_eq_of_lt (show p+i < N by omega)]
    · have hm : (p+i)%N = i-(N-p) := by
        rw [Nat.mod_eq_sub_mod (by omega),Nat.mod_eq_of_lt (by omega)]
        omega
      rw [List.getElem_append_right (by simp; omega)]
      simp [window,hm]

theorem window_mod {p k : ℕ} : window N m (p%N) k = window N m p k := by
  simp [window]

/-- Every cell of a ring that was filled at least once carries a put element. -/
theorem holds_mem_of_full {start p : ℕ} {xs : List α} (h : Holds N m start xs)
    (hfull : N ≤ xs.length) (hp : p < N) : m p ∈ xs := by
  have hN : 0 < N := by omega
  obtain ⟨i,hi,hpos⟩ : ∃ i < N, (start+(xs.length-N)+i)%N = p := by
    refine ⟨(p+(N-(start+(xs.length-N))%N))%N,Nat.mod_lt _ hN,?_⟩
    have hs : (start+(xs.length-N))%N < N := Nat.mod_lt _ hN
    have hsum : (start+(xs.length-N))%N + (p+(N-(start+(xs.length-N))%N)) = p+N := by omega
    rw [Nat.add_mod_mod,← Nat.mod_add_mod,hsum,Nat.add_mod_right,Nat.mod_eq_of_lt hp]
  have hh := h (xs.length-N+i) (by omega) (by omega)
  rw [← Nat.add_assoc,hpos] at hh
  rw [hh]
  exact List.getElem_mem _

@[simp] theorem window_length (N : ℕ) (m : ℕ → α) (p k : ℕ) : (window N m p k).length = k := by
  simp [window]

theorem window_succ (N : ℕ) (m : ℕ → α) (p k : ℕ) :
    window N m p (k+1) = window N m p k ++ [m ((p+k)%N)] := by
  simp [window,List.range_succ]

theorem window_cons (N : ℕ) (m : ℕ → α) (p k : ℕ) :
    window N m p (k+1) = m (p%N) :: window N m (p+1) k := by
  simp [window,List.range_succ_eq_map,Function.comp_def,Nat.add_assoc,Nat.add_comm 1]

theorem window_congr {m' : ℕ → α} {p k : ℕ} (h : ∀ i < k, m' ((p+i)%N) = m ((p+i)%N)) :
    window N m' p k = window N m p k := by
  apply List.map_congr_left
  intro i hi
  exact h i (List.mem_range.mp hi)

theorem mod_ne_mod {p i j : ℕ} (hij : i < j) (hj : j < i+N) : (p+i)%N ≠ (p+j)%N := by
  intro h
  have hmod : (p+j-(p+i))%N = 0 := Nat.sub_mod_eq_zero_of_mod_eq h.symm
  rw [show p+j-(p+i) = j-i by omega,Nat.mod_eq_of_lt (by omega)] at hmod
  omega

end Ring
end EmbeddedShell
