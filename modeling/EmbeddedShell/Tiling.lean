import Mathlib.Algebra.Order.Ring.Nat
import Mathlib.Data.List.Chain
import Mathlib.Data.List.Basic
import Mathlib.Tactic.Common

/-!
# A region that is cut into blocks

The blocks lie one behind the other from an address on, so that a list of sizes says
where each of them is and no two of them overlap. A block is free or carries the request
it was given for. The free blocks may be linked by address (`Linked`), and every block
may be described at its address (`Labelled`). `join` puts a block back between two parts
and merges it with the free blocks at both sides, so that two free blocks never meet.
-/

namespace EmbeddedShell
namespace Tiling

structure Block where
  size : ℕ
  owner : Option ℕ
  deriving DecidableEq

def Block.free (b : Block) : Bool := b.owner.isNone

def total : List Block → ℕ
  | [] => 0
  | b::bs => b.size + total bs

def freeTotal : List Block → ℕ
  | [] => 0
  | b::bs => (if b.free then b.size else 0) + freeTotal bs

def placed : ℕ → List Block → List (ℕ × Block)
  | _, [] => []
  | a, b::bs => (a,b)::placed (a+b.size) bs

/-- The address and the request of each block that is given away. -/
def owned : ℕ → List Block → List (ℕ × ℕ)
  | _, [] => []
  | a, b::bs => (b.owner.map fun n => (a,n)).toList ++ owned (a+b.size) bs

/-- The free block with the highest address, or `prev` if there is none. -/
def lastFree : ℕ → ℕ → List Block → ℕ
  | prev, _, [] => prev
  | prev, a, b::bs => lastFree (if b.free then a else prev) (a+b.size) bs

/-- The free block with the lowest address, or `stop` if there is none. -/
def firstFree : ℕ → List Block → ℕ → ℕ
  | _, [], stop => stop
  | a, b::bs, stop => if b.free then a else firstFree (a+b.size) bs stop

/-- From `prev` on, `next` leads through the free blocks to `stop`. -/
def Linked (next : ℕ → ℕ) : ℕ → ℕ → List Block → ℕ → Prop
  | prev, _, [], stop => next prev = stop
  | prev, a, b::bs, stop =>
    if b.free then next prev = a ∧ Linked next a (a+b.size) bs stop
    else Linked next prev (a+b.size) bs stop

def Labelled (label : ℕ → Block → Prop) (a : ℕ) (bs : List Block) : Prop :=
  ∀ x ∈ placed a bs, label x.1 x.2

def Solid (bs : List Block) : Prop := ∀ b ∈ bs, 0 < b.size

/-- No two free blocks meet. -/
def Coalesced (bs : List Block) : Prop :=
  bs.IsChain fun b c => ¬ (b.free = true ∧ c.free = true)

variable {a prev stop : ℕ} {bs cs : List Block} {b : Block} {next next' : ℕ → ℕ}

@[simp] theorem total_append (bs cs : List Block) : total (bs++cs) = total bs + total cs := by
  induction bs with
  | nil => simp [total]
  | cons b bs ih => simp [total,ih,Nat.add_assoc]

@[simp] theorem freeTotal_append (bs cs : List Block) :
    freeTotal (bs++cs) = freeTotal bs + freeTotal cs := by
  induction bs with
  | nil => simp [freeTotal]
  | cons b bs ih => simp [freeTotal,ih,Nat.add_assoc]

theorem placed_append (a : ℕ) (bs cs : List Block) :
    placed a (bs++cs) = placed a bs ++ placed (a+total bs) cs := by
  induction bs generalizing a with
  | nil => simp [placed,total]
  | cons b bs ih => simp [placed,total,ih,Nat.add_assoc]

theorem owned_append (a : ℕ) (bs cs : List Block) :
    owned a (bs++cs) = owned a bs ++ owned (a+total bs) cs := by
  induction bs generalizing a with
  | nil => simp [owned,total]
  | cons b bs ih => simp [owned,total,ih,Nat.add_assoc]

theorem labelled_append {label : ℕ → Block → Prop} :
    Labelled label a (bs++cs) ↔ Labelled label a bs ∧ Labelled label (a+total bs) cs := by
  simp only [Labelled,placed_append,List.mem_append]
  exact ⟨fun h => ⟨fun x hx => h x (Or.inl hx),fun x hx => h x (Or.inr hx)⟩,
    fun h x hx => hx.elim (h.1 x) (h.2 x)⟩

theorem labelled_cons {label : ℕ → Block → Prop} :
    Labelled label a (b::bs) ↔ label a b ∧ Labelled label (a+b.size) bs := by
  simp [Labelled,placed]

theorem placed_bounds {x : ℕ × Block} (h : x ∈ placed a bs) :
    a ≤ x.1 ∧ x.1+x.2.size ≤ a+total bs := by
  induction bs generalizing a with
  | nil => simp [placed] at h
  | cons b bs ih =>
    simp only [placed,List.mem_cons] at h
    rcases h with rfl | h
    · simp [total]
    · have := ih h
      simp only [total]
      omega

theorem mem_of_mem_placed {x : ℕ × Block} (h : x ∈ placed a bs) : x.2 ∈ bs := by
  induction bs generalizing a with
  | nil => simp [placed] at h
  | cons b bs ih =>
    simp only [placed,List.mem_cons] at h ⊢
    rcases h with rfl | h
    · exact Or.inl rfl
    · exact Or.inr (ih h)

theorem mem_placed {x : ℕ × Block} :
    x ∈ placed a bs ↔ ∃ pre post, bs = pre++x.2::post ∧ x.1 = a+total pre := by
  constructor
  · intro h
    induction bs generalizing a with
    | nil => cases h
    | cons b bs ih =>
      rcases List.mem_cons.mp h with rfl | h
      · exact ⟨[],bs,rfl,rfl⟩
      · obtain ⟨pre,post,hbs,hx⟩ := ih h
        exact ⟨b::pre,post,by rw [hbs]; rfl,by rw [hx,total,Nat.add_assoc]⟩
  · rintro ⟨pre,post,rfl,hx⟩
    rw [placed_append,placed,List.mem_append,List.mem_cons,← hx]
    exact Or.inr (Or.inl rfl)

theorem exists_placed (a : ℕ) (hb : b ∈ bs) : ∃ x, (x,b) ∈ placed a bs := by
  obtain ⟨pre,post,rfl⟩ := List.append_of_mem hb
  exact ⟨a+total pre,by simp [placed_append,placed]⟩

theorem placed_pairwise (a : ℕ) (bs : List Block) :
    (placed a bs).Pairwise fun x y => x.1+x.2.size ≤ y.1 := by
  induction bs generalizing a with
  | nil => exact List.Pairwise.nil
  | cons b bs ih => exact List.pairwise_cons.mpr ⟨fun y hy => (placed_bounds hy).1,ih _⟩

theorem mem_owned {x : ℕ × ℕ} : x ∈ owned a bs ↔ ∃ c, (x.1,c) ∈ placed a bs ∧ c.owner = some x.2 := by
  induction bs generalizing a with
  | nil => simp [owned,placed]
  | cons b bs ih =>
    simp only [owned,placed,List.mem_append,Option.mem_toList,Option.map_eq_some_iff,List.mem_cons,ih,
      Prod.mk.injEq]
    constructor
    · rintro (⟨n,hn,rfl⟩ | ⟨c,hc,ho⟩)
      · exact ⟨b,Or.inl ⟨rfl,rfl⟩,hn⟩
      · exact ⟨c,Or.inr hc,ho⟩
    · rintro ⟨c,⟨ha,rfl⟩ | hc,ho⟩
      · exact Or.inl ⟨x.2,ho,by rw [← ha]⟩
      · exact Or.inr ⟨c,hc,ho⟩

theorem solid_append : Solid (bs++cs) ↔ Solid bs ∧ Solid cs := by
  simp only [Solid,List.mem_append]
  exact ⟨fun h => ⟨fun b hb => h b (Or.inl hb),fun b hb => h b (Or.inr hb)⟩,
    fun h b hb => hb.elim (h.1 b) (h.2 b)⟩

theorem solid_cons : Solid (b::bs) ↔ 0 < b.size ∧ Solid bs := by simp [Solid]

theorem lastFree_append (prev a : ℕ) (bs cs : List Block) :
    lastFree prev a (bs++cs) = lastFree (lastFree prev a bs) (a+total bs) cs := by
  induction bs generalizing prev a with
  | nil => simp [lastFree,total]
  | cons b bs ih => simp [lastFree,total,ih,Nat.add_assoc]

theorem lastFree_bounds (prev a : ℕ) (bs : List Block) (hs : Solid bs) :
    lastFree prev a bs = prev ∨ a ≤ lastFree prev a bs ∧ lastFree prev a bs < a+total bs := by
  induction bs generalizing prev a with
  | nil => exact Or.inl rfl
  | cons b bs ih =>
    obtain ⟨hb,hs⟩ := solid_cons.mp hs
    simp only [lastFree,total]
    rcases ih (if b.free then a else prev) (a+b.size) hs with h | h
    · rw [h]
      split
      · exact Or.inr (by omega)
      · exact Or.inl rfl
    · exact Or.inr (by omega)

theorem firstFree_bounds (a : ℕ) (bs : List Block) (stop : ℕ) (hs : a+total bs ≤ stop) :
    a ≤ firstFree a bs stop ∧ firstFree a bs stop ≤ stop := by
  induction bs generalizing a with
  | nil => simpa [firstFree,total] using hs
  | cons b bs ih =>
    simp only [total] at hs
    simp only [firstFree]
    split
    · omega
    · have := ih (a+b.size) (by omega)
      omega

theorem Linked.first (h : Linked next prev a bs stop) : next prev = firstFree a bs stop := by
  induction bs generalizing a with
  | nil => exact h
  | cons b bs ih =>
    simp only [Linked,firstFree] at h ⊢
    split
    · rename_i hb
      rw [if_pos hb] at h
      exact h.1
    · rename_i hb
      rw [if_neg hb] at h
      exact ih h

/-- Links of a concatenation: both parts and the seam. -/
theorem linked_append : Linked next prev a (bs++cs) stop ↔
    Linked next prev a bs (firstFree (a+total bs) cs stop) ∧
      Linked next (lastFree prev a bs) (a+total bs) cs stop := by
  induction bs generalizing prev a with
  | nil =>
    simp only [List.nil_append,Linked,total,Nat.add_zero,lastFree,iff_and_self]
    exact Linked.first
  | cons b bs ih =>
    simp only [List.cons_append,Linked,total,lastFree]
    split
    · rw [ih,Nat.add_assoc,and_assoc]
    · rw [ih,Nat.add_assoc]

/-- The links inside of the region are kept, and some address leads to the first of them. -/
theorem Linked.restart {start : ℕ} (h : Linked next prev a bs stop) (hs : Solid bs)
    (hstart : next' start = firstFree a bs stop)
    (hin : ∀ x, a ≤ x → x < a+total bs → next' x = next x) : Linked next' start a bs stop := by
  induction bs generalizing prev start a with
  | nil => exact hstart
  | cons b bs ih =>
    obtain ⟨hb,hs⟩ := solid_cons.mp hs
    simp only [Linked,total,firstFree] at h hin hstart ⊢
    have hrest : ∀ x, a+b.size ≤ x → x < a+b.size+total bs → next' x = next x :=
      fun x h₁ h₂ => hin x (by omega) (by omega)
    split
    · rename_i hf
      rw [if_pos hf] at h hstart
      exact ⟨hstart,ih h.2 hs ((hin a le_rfl (by omega)).trans h.2.first) hrest⟩
    · rename_i hf
      rw [if_neg hf] at h hstart
      exact ih h hs hstart hrest

/-- Only the links at the free blocks matter. -/
theorem Linked.congr (h : Linked next prev a bs stop) (hprev : next' prev = next prev)
    (hin : ∀ x ∈ placed a bs, next' x.1 = next x.1) : Linked next' prev a bs stop := by
  induction bs generalizing prev a with
  | nil => exact hprev.trans h
  | cons b bs ih =>
    have hhead := hin (a,b) (by simp [placed])
    have hrest : ∀ x ∈ placed (a+b.size) bs, next' x.1 = next x.1 :=
      fun x hx => hin x (by simp [placed,hx])
    simp only [Linked] at h ⊢
    split
    · rename_i hf
      rw [if_pos hf] at h
      exact ⟨hprev.trans h.1,ih h.2 hhead hrest⟩
    · rename_i hf
      rw [if_neg hf] at h
      exact ih h hprev hrest

/-- The last link can be led elsewhere. -/
theorem Linked.redirect (h : Linked next prev a bs stop) (hs : Solid bs)
    (hprev : ¬ (a ≤ prev ∧ prev < a+total bs)) (target : ℕ) :
    Linked (Function.update next (lastFree prev a bs) target) prev a bs target := by
  induction bs generalizing prev a with
  | nil => simp [Linked,lastFree]
  | cons b bs ih =>
    obtain ⟨hb,hs'⟩ := solid_cons.mp hs
    simp only [Linked,total] at h hprev ⊢
    by_cases hf : b.free = true
    · rw [if_pos hf] at h ⊢
      have hlast : lastFree prev a (b::bs) = lastFree a (a+b.size) bs := by simp [lastFree,hf]
      rw [hlast]
      refine ⟨?_,ih h.2 hs' (by omega)⟩
      rw [Function.update_of_ne,h.1]
      rcases lastFree_bounds a (a+b.size) bs hs' with he | he <;> omega
    · rw [if_neg hf] at h ⊢
      have hlast : lastFree prev a (b::bs) = lastFree prev (a+b.size) bs := by simp [lastFree,hf]
      rw [hlast]
      exact ih h hs' (by omega)

theorem placed_unique {x : ℕ} {c d : Block} (hs : Solid bs) (hc : (x,c) ∈ placed a bs)
    (hd : (x,d) ∈ placed a bs) : c = d := by
  induction bs generalizing a with
  | nil => simp [placed] at hc
  | cons b bs ih =>
    obtain ⟨hb,hs⟩ := solid_cons.mp hs
    simp only [placed,List.mem_cons,Prod.mk.injEq] at hc hd
    rcases hc with ⟨hx,rfl⟩ | hc
    · rcases hd with ⟨-,rfl⟩ | hd
      · rfl
      · have := (placed_bounds hd).1
        dsimp only at this
        omega
    · rcases hd with ⟨hx,rfl⟩ | hd
      · have := (placed_bounds hc).1
        dsimp only at this
        omega
      · exact ih hs hc hd

theorem lastFree_mem (prev a : ℕ) (bs : List Block) : lastFree prev a bs = prev ∨
    ∃ c, c.free = true ∧ (lastFree prev a bs,c) ∈ placed a bs := by
  induction bs generalizing prev a with
  | nil => exact Or.inl rfl
  | cons b bs ih =>
    simp only [lastFree,placed,List.mem_cons,Prod.mk.injEq]
    rcases ih (if b.free then a else prev) (a+b.size) with h | ⟨c,hc,hmem⟩
    · rw [h]
      split
      · rename_i hb
        exact Or.inr ⟨b,hb,Or.inl ⟨rfl,rfl⟩⟩
      · exact Or.inl rfl
    · exact Or.inr ⟨c,hc,Or.inr hmem⟩

def joinRight (n : ℕ) : List Block → List Block
  | [] => [⟨n,none⟩]
  | c::cs => if c.free then ⟨n+c.size,none⟩::cs else ⟨n,none⟩::c::cs

/-- A free block of `n` bytes between `bs` and `cs`. -/
def join : List Block → ℕ → List Block → List Block
  | [], n, cs => joinRight n cs
  | [b], n, cs => if b.free then joinRight (b.size+n) cs else b::joinRight n cs
  | b::c::bs, n, cs => b::join (c::bs) n cs

theorem join_concat (bs : List Block) (b : Block) (n : ℕ) (cs : List Block) :
    join (bs++[b]) n cs =
      bs ++ if b.free then joinRight (b.size+n) cs else b::joinRight n cs := by
  induction bs with
  | nil => rfl
  | cons c bs ih =>
    cases bs with
    | nil => simp [join]
    | cons d bs => simpa [join] using ih

/-- A free block at the end of `bs` is taken in, from `n` bytes to `m`. -/
def TakesLeft (bs : List Block) (n : ℕ) (bs' : List Block) (m : ℕ) : Prop :=
  (bs' = bs ∧ m = n ∧ ∀ b, bs.getLast? = some b → b.free = false) ∨
    ∃ b, b.free = true ∧ bs = bs'++[b] ∧ m = b.size+n

/-- A free block at the start of `cs` is taken in, from `n` bytes to `m`. -/
def TakesRight (cs : List Block) (n : ℕ) (cs' : List Block) (m : ℕ) : Prop :=
  (cs' = cs ∧ m = n ∧ ∀ c, cs.head? = some c → c.free = false) ∨
    ∃ c, c.free = true ∧ cs = c::cs' ∧ m = n+c.size

theorem joinRight_of_takes {n m : ℕ} {cs' : List Block} (h : TakesRight cs n cs' m) :
    joinRight n cs = ⟨m,none⟩::cs' := by
  rcases h with ⟨rfl,rfl,hc⟩ | ⟨c,hc,rfl,rfl⟩
  · cases cs' with
    | nil => rfl
    | cons c cs => simp [joinRight,hc c rfl]
  · simp [joinRight,hc]

/-- A join is a block between what is left of both sides. -/
theorem join_of_takes {n k m : ℕ} {bs' cs' : List Block} (hl : TakesLeft bs n bs' k)
    (hr : TakesRight cs k cs' m) : join bs n cs = bs'++⟨m,none⟩::cs' := by
  have hj := joinRight_of_takes hr
  rcases hl with ⟨rfl,rfl,hb⟩ | ⟨b,hb,rfl,rfl⟩
  · rcases List.eq_nil_or_concat bs' with rfl | ⟨bs,b,hbs⟩
    · exact hj
    · rw [List.concat_eq_append] at hbs
      have hused : b.free = false := hb b (by simp [hbs])
      rw [hbs,join_concat,hused,hj]
      simp
  · rw [join_concat,if_pos hb,hj]

theorem exists_takes (bs : List Block) (n : ℕ) (cs : List Block) :
    ∃ bs' k cs' m, TakesLeft bs n bs' k ∧ TakesRight cs k cs' m := by
  have hright : ∀ k, ∃ cs' m, TakesRight cs k cs' m := by
    intro k
    cases cs with
    | nil => exact ⟨[],k,Or.inl ⟨rfl,rfl,by simp⟩⟩
    | cons c cs =>
      by_cases hc : c.free = true
      · exact ⟨cs,k+c.size,Or.inr ⟨c,hc,rfl,rfl⟩⟩
      · exact ⟨c::cs,k,Or.inl ⟨rfl,rfl,by simpa using hc⟩⟩
  have hleft : ∃ bs' k, TakesLeft bs n bs' k := by
    rcases List.eq_nil_or_concat bs with rfl | ⟨bs',b,hbs⟩
    · exact ⟨[],n,Or.inl ⟨rfl,rfl,by simp⟩⟩
    · rw [List.concat_eq_append] at hbs
      by_cases hb : b.free = true
      · exact ⟨bs',b.size+n,Or.inr ⟨b,hb,hbs,rfl⟩⟩
      · exact ⟨bs,n,Or.inl ⟨rfl,rfl,by simpa [hbs] using hb⟩⟩
  obtain ⟨bs',k,hl⟩ := hleft
  obtain ⟨cs',m,hr⟩ := hright k
  exact ⟨bs',k,cs',m,hl,hr⟩

theorem join_eq (bs : List Block) (n : ℕ) (cs : List Block) :
    ∃ bs' k cs' m, TakesLeft bs n bs' k ∧ TakesRight cs k cs' m ∧
      join bs n cs = bs' ++ ⟨m,none⟩::cs' := by
  obtain ⟨bs',k,cs',m,hl,hr⟩ := exists_takes bs n cs
  exact ⟨bs',k,cs',m,hl,hr,join_of_takes hl hr⟩

section Join

variable {bs' cs' : List Block} {n k m : ℕ}

theorem Block.owner_of_free (h : b.free = true) : b.owner = none := by
  simpa [Block.free] using h

theorem TakesLeft.total_eq (h : TakesLeft bs n bs' k) : total bs'+k = total bs+n := by
  rcases h with ⟨rfl,rfl,-⟩ | ⟨b,-,rfl,rfl⟩
  · rfl
  · simp [total,Nat.add_assoc]

theorem TakesRight.total_eq (h : TakesRight cs n cs' m) : m+total cs' = n+total cs := by
  rcases h with ⟨rfl,rfl,-⟩ | ⟨c,-,rfl,rfl⟩
  · rfl
  · simp [total,Nat.add_assoc]

theorem TakesLeft.freeTotal_eq (h : TakesLeft bs n bs' k) : freeTotal bs'+k = freeTotal bs+n := by
  rcases h with ⟨rfl,rfl,-⟩ | ⟨b,hb,rfl,rfl⟩
  · rfl
  · simp [freeTotal,hb,Nat.add_assoc]

theorem TakesRight.freeTotal_eq (h : TakesRight cs n cs' m) :
    m+freeTotal cs' = n+freeTotal cs := by
  rcases h with ⟨rfl,rfl,-⟩ | ⟨c,hc,rfl,rfl⟩
  · rfl
  · simp [freeTotal,hc,Nat.add_assoc]

theorem TakesLeft.owned_eq (h : TakesLeft bs n bs' k) (a : ℕ) : owned a bs' = owned a bs := by
  rcases h with ⟨rfl,-,-⟩ | ⟨b,hb,rfl,-⟩
  · rfl
  · simp [owned_append,owned,Block.owner_of_free hb]

theorem TakesRight.owned_eq (h : TakesRight cs n cs' m) (a : ℕ) :
    owned (a+m) cs' = owned (a+n) cs := by
  rcases h with ⟨rfl,rfl,-⟩ | ⟨c,hc,rfl,rfl⟩
  · rfl
  · simp [owned,Block.owner_of_free hc,Nat.add_assoc]

theorem TakesLeft.coalesced (h : TakesLeft bs n bs' k) (hn : Coalesced bs) :
    Coalesced bs' ∧ ∀ b, bs'.getLast? = some b → b.free = false := by
  rcases h with ⟨rfl,-,hl⟩ | ⟨b,hb,rfl,-⟩
  · exact ⟨hn,hl⟩
  · simp only [Coalesced,List.isChain_append] at hn
    refine ⟨hn.1,fun c hc => ?_⟩
    have := hn.2.2 c hc b (by simp)
    simpa [hb] using this

theorem TakesRight.coalesced (h : TakesRight cs n cs' m) (hn : Coalesced cs) :
    Coalesced cs' ∧ ∀ c, cs'.head? = some c → c.free = false := by
  rcases h with ⟨rfl,-,hl⟩ | ⟨b,hb,rfl,-⟩
  · exact ⟨hn,hl⟩
  · rw [Coalesced,List.isChain_cons] at hn
    refine ⟨hn.2,fun c hc => ?_⟩
    have := hn.1 c hc
    simpa [hb] using this

theorem coalesced_between (hl : Coalesced bs ∧ ∀ b, bs.getLast? = some b → b.free = false)
    (hr : Coalesced cs ∧ ∀ c, cs.head? = some c → c.free = false) (x : Block) :
    Coalesced (bs++x::cs) := by
  simp only [Coalesced,List.isChain_append,List.isChain_cons]
  refine ⟨hl.1,⟨fun c hc => ?_,hr.1⟩,fun b hb c _ => ?_⟩
  · simp [hr.2 c hc]
  · simp [hl.2 b hb]

/-- A block that is not free may stand for any block. -/
theorem coalesced_of_used {x n : ℕ} (h : Coalesced (bs++b::cs)) : Coalesced (bs++⟨x,some n⟩::cs) := by
  simp only [Coalesced,List.isChain_append,List.isChain_cons] at h ⊢
  refine ⟨h.1,⟨fun c _ => ?_,h.2.1.2⟩,fun d _ c hc => ?_⟩
  · simp [Block.free]
  · simp only [List.head?_cons,Option.mem_some_iff] at hc
    simp [← hc,Block.free]

theorem total_join (bs : List Block) (n : ℕ) (cs : List Block) :
    total (join bs n cs) = total bs+n+total cs := by
  obtain ⟨bs',k,cs',m,hl,hr,hj⟩ := join_eq bs n cs
  have h₁ := hl.total_eq
  have h₂ := hr.total_eq
  rw [hj,total_append,total]
  dsimp only
  omega

theorem freeTotal_join (bs : List Block) (n : ℕ) (cs : List Block) :
    freeTotal (join bs n cs) = freeTotal bs+n+freeTotal cs := by
  obtain ⟨bs',k,cs',m,hl,hr,hj⟩ := join_eq bs n cs
  have h₁ := hl.freeTotal_eq
  have h₂ := hr.freeTotal_eq
  rw [hj,freeTotal_append,freeTotal]
  simp only [Block.free,Option.isNone_none,if_true]
  omega

theorem owned_join (a : ℕ) (bs : List Block) (n : ℕ) (cs : List Block) :
    owned a (join bs n cs) = owned a bs ++ owned (a+total bs+n) cs := by
  obtain ⟨bs',k,cs',m,hl,hr,hj⟩ := join_eq bs n cs
  have h₁ := hl.total_eq
  rw [hj,owned_append,hl.owned_eq]
  simp only [owned,Option.map_none,Option.toList_none,List.nil_append]
  rw [hr.owned_eq,show a+total bs'+k = a+total bs+n by omega]

theorem coalesced_join (hb : Coalesced bs) (hc : Coalesced cs) (n : ℕ) : Coalesced (join bs n cs) := by
  obtain ⟨bs',k,cs',m,hl,hr,hj⟩ := join_eq bs n cs
  rw [hj]
  exact coalesced_between (hl.coalesced hb) (hr.coalesced hc) _

/-- What holds of the sizes and is kept by sums holds after a join. -/
theorem forall_size_join {P : ℕ → Prop} (hadd : ∀ x y, P x → P y → P (x+y))
    (hb : ∀ b ∈ bs, P b.size) (hc : ∀ c ∈ cs, P c.size) (hn : P n) :
    ∀ x ∈ join bs n cs, P x.size := by
  obtain ⟨bs',k,cs',m,hl,hr,hj⟩ := join_eq bs n cs
  have hk : P k ∧ ∀ b ∈ bs', P b.size := by
    rcases hl with ⟨rfl,rfl,-⟩ | ⟨b,-,rfl,rfl⟩
    · exact ⟨hn,hb⟩
    · exact ⟨hadd _ _ (hb b (by simp)) hn,fun x hx => hb x (by simp [hx])⟩
  have hm : P m ∧ ∀ c ∈ cs', P c.size := by
    rcases hr with ⟨rfl,rfl,-⟩ | ⟨c,-,rfl,rfl⟩
    · exact ⟨hk.1,hc⟩
    · exact ⟨hadd _ _ hk.1 (hc c (by simp)),fun x hx => hc x (by simp [hx])⟩
  intro x hx
  rw [hj,List.mem_append,List.mem_cons] at hx
  rcases hx with hx | rfl | hx
  · exact hk.2 x hx
  · exact hm.1
  · exact hm.2 x hx

theorem mem_placed_join {x : ℕ × Block} (hx : x ∈ placed a (join bs n cs)) (hf : x.2.free = false) :
    x ∈ placed a bs ∨ x ∈ placed (a+total bs+n) cs := by
  obtain ⟨bs',k,cs',m,hl,hr,hj⟩ := join_eq bs n cs
  have ht := hl.total_eq
  rw [hj,placed_append,placed,List.mem_append,List.mem_cons] at hx
  rcases hx with hx | rfl | hx
  · left
    rcases hl with ⟨rfl,-⟩ | ⟨b,-,rfl,-⟩
    · exact hx
    · rw [placed_append]
      exact List.mem_append_left _ hx
  · cases hf
  · right
    rw [show a+total bs+n = a+total bs'+k by omega]
    rcases hr with ⟨rfl,rfl,-⟩ | ⟨c,-,rfl,rfl⟩
    · exact hx
    · dsimp only at hx
      rw [← Nat.add_assoc] at hx
      exact List.mem_cons_of_mem _ hx

end Join

theorem exists_first_fit (n : ℕ) (bs : List Block) :
    (∀ b ∈ bs, b.free = true → b.size < n) ∨
      ∃ pre b post, bs = pre++b::post ∧ b.free = true ∧ n ≤ b.size ∧
        ∀ c ∈ pre, c.free = true → c.size < n := by
  induction bs with
  | nil => exact Or.inl (by simp)
  | cons b bs ih =>
    by_cases hb : b.free = true ∧ n ≤ b.size
    · exact Or.inr ⟨[],b,bs,rfl,hb.1,hb.2,by simp⟩
    · have hsmall : b.free = true → b.size < n := fun hf => by
        by_contra hle
        exact hb ⟨hf,by omega⟩
      rcases ih with h | ⟨pre,c,post,rfl,hc,hle,hpre⟩
      · exact Or.inl (by simpa using ⟨hsmall,h⟩)
      · exact Or.inr ⟨b::pre,c,post,rfl,hc,hle,by simpa using ⟨hsmall,hpre⟩⟩

theorem size_le_freeTotal (hb : b ∈ bs) (hf : b.free = true) : b.size ≤ freeTotal bs := by
  induction bs with
  | nil => cases hb
  | cons c bs ih =>
    rw [List.mem_cons] at hb
    simp only [freeTotal]
    rcases hb with rfl | hb
    · rw [if_pos hf]
      omega
    · have := ih hb
      omega

theorem freeTotal_le_total (bs : List Block) : freeTotal bs ≤ total bs := by
  induction bs with
  | nil => exact le_rfl
  | cons b bs ih =>
    simp only [freeTotal,total]
    split <;> omega

def Apart (x y : ℕ × Block) : Prop := x.1+x.2.size ≤ y.1 ∨ y.1+y.2.size ≤ x.1

instance : Std.Symm Apart := ⟨fun _ _ h => h.symm⟩

theorem placed_apart {x y : ℕ × Block} (hx : x ∈ placed a bs) (hy : y ∈ placed a bs) (hne : x ≠ y) :
    Apart x y := by
  have hpair : (placed a bs).Pairwise Apart := (placed_pairwise a bs).imp fun h => Or.inl h
  exact List.Pairwise.forall hpair hx hy hne

/-- Bytes that touch no block that is given away lie in one free block. -/
theorem exists_free_of_gap {x w : ℕ} (hn : Coalesced bs) (hw : 0 < w) (hlow : a ≤ x)
    (hhigh : x+w ≤ a+total bs)
    (hgap : ∀ y ∈ placed a bs, y.2.free = false → y.1+y.2.size ≤ x ∨ x+w ≤ y.1) :
    ∃ b ∈ bs, b.free = true ∧ w ≤ b.size := by
  induction bs generalizing a with
  | nil =>
    simp only [total] at hhigh
    omega
  | cons b bs ih =>
    have hhead := hgap (a,b) (by simp [placed])
    dsimp only at hhead
    rw [Coalesced,List.isChain_cons] at hn
    simp only [total] at hhigh
    by_cases hx : a+b.size ≤ x
    · obtain ⟨c,hc,hfit⟩ := ih hn.2 hx (by omega) fun y hy => hgap y (by simp [placed,hy])
      exact ⟨c,List.mem_cons_of_mem _ hc,hfit⟩
    · have hf : b.free = true := by
        by_contra hf
        have := hhead (by simpa using hf)
        omega
      refine ⟨b,by simp,hf,?_⟩
      cases bs with
      | nil =>
        simp only [total] at hhigh
        omega
      | cons c cs =>
        have hc : c.free = false := by simpa [hf] using hn.1 c (by simp)
        have := hgap (a+b.size,c) (by simp [placed]) hc
        dsimp only at this
        omega

/-- Requests lie apart, with `k` bytes of every block to spare. -/
theorem owned_pairwise {k : ℕ} (h : ∀ b ∈ bs, ∀ n, b.owner = some n → n+k ≤ b.size) :
    (owned a bs).Pairwise fun x y => x.1+x.2+k ≤ y.1 := by
  induction bs generalizing a with
  | nil => exact List.Pairwise.nil
  | cons b bs ih =>
    have hrest := ih (a := a+b.size) fun c hc => h c (List.mem_cons_of_mem _ hc)
    cases ho : b.owner with
    | none => simpa [owned,ho] using hrest
    | some n =>
      simp only [owned,ho,Option.map_some,Option.toList_some,List.cons_append,List.nil_append,
        List.pairwise_cons]
      refine ⟨fun y hy => ?_,hrest⟩
      obtain ⟨c,hc,-⟩ := mem_owned.mp hy
      have hbound := (placed_bounds hc).1
      have hsize := h b (by simp) n ho
      dsimp only at hbound
      omega

theorem total_mod {k : ℕ} (h : ∀ b ∈ bs, b.size%k = 0) : total bs%k = 0 := by
  induction bs with
  | nil => exact Nat.zero_mod k
  | cons b bs ih =>
    rw [total,Nat.add_mod,h b (by simp),ih fun c hc => h c (List.mem_cons_of_mem _ hc)]
    exact Nat.zero_mod k

theorem sum_owned {f : ℕ → ℕ} (hf : ∀ y ∈ placed a bs, y.2.free = false → f y.1 = y.2.size) :
    ((owned a bs).map fun x => f x.1).sum+freeTotal bs = total bs := by
  induction bs generalizing a with
  | nil => rfl
  | cons b bs ih =>
    have hrest := ih (a := a+b.size) fun y hy => hf y (by simp [placed,hy])
    have hhead := hf (a,b) (by simp [placed])
    dsimp only at hhead
    simp only [owned,freeTotal,total,List.map_append,List.sum_append]
    cases ho : b.owner with
    | none =>
      have hb : b.free = true := by simp [Block.free,ho]
      simp only [Option.map_none,Option.toList_none,List.map_nil,List.sum_nil,if_pos hb]
      omega
    | some n =>
      have hb : b.free = false := by simp [Block.free,ho]
      simp only [Option.map_some,Option.toList_some,List.map_cons,List.map_nil,List.sum_cons,List.sum_nil,
        hhead hb,hb,Bool.false_eq_true,if_false]
      omega

theorem eq_singleton_of_owned (hn : Coalesced bs) (ho : owned a bs = []) (ht : 0 < total bs) :
    bs = [⟨total bs,none⟩] := by
  cases bs with
  | nil => cases ht
  | cons b bs =>
    simp only [owned,List.append_eq_nil_iff,Option.toList_eq_nil_iff,Option.map_eq_none_iff] at ho
    rw [Coalesced,List.isChain_cons] at hn
    cases bs with
    | nil =>
      cases b
      simp only [total,List.cons.injEq,Block.mk.injEq,and_true] at ho ⊢
      exact ⟨(Nat.add_zero _).symm,ho.1⟩
    | cons c cs =>
      simp only [owned,List.append_eq_nil_iff,Option.toList_eq_nil_iff,Option.map_eq_none_iff] at ho
      exact absurd ⟨by simp [Block.free,ho.1],by simp [Block.free,ho.2.1]⟩ (hn.1 c (by simp))

end Tiling
end EmbeddedShell
