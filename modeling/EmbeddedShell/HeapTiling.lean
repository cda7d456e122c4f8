import Mathlib.Data.Nat.Bitwise
import EmbeddedShell.Heap

/-!
# The kernel heap as a tiling

A heap represents a tiling of the region between its two ends. An allocation cuts the
first block that fits, a release joins a block with its neighbours, and an application
may write where it likes in the blocks it was given.
-/

namespace EmbeddedShell
namespace Heap

open Tiling

theorem alignedHeap_spec (l : Layout) :
    alignedHeap l%8 = 0 ∧ l.ucHeap ≤ alignedHeap l ∧ alignedHeap l < l.ucHeap+8 := by
  by_cases hu : l.ucHeap%portByteAlignment ≠ 0
  · rw [alignedHeap,if_pos hu]
    simp only [alignDown,portByteAlignment] at hu ⊢
    omega
  · rw [alignedHeap,if_neg hu]
    simp only [portByteAlignment] at hu
    omega

theorem heapEnd_spec (l : Layout) : heapEnd l%8 = 0 ∧ heapEnd l+8 ≤ l.ucHeap+65536 ∧
    l.ucHeap+65536 < heapEnd l+16 := by
  have hb := alignedHeap_spec l
  have ht : alignedHeap l+totalHeapSize l = l.ucHeap+65536 := by
    simp only [totalHeapSize,configTotalHeapSize]
    split_ifs with hu
    · omega
    · rw [alignedHeap,if_neg hu]
  simp only [heapEnd,ht,alignDown,portByteAlignment,heapStructSize]
  omega

structure Represents (l : Layout) (h : State) (bs : List Block) : Prop where
  end_eq : h.pxEnd = heapEnd l
  total_eq : alignedHeap l+total bs = heapEnd l
  linked : Linked h.next l.xStart (alignedHeap l) bs h.pxEnd
  sized : Labelled (Sized h) (alignedHeap l) bs
  marked : Labelled (Marked h) (alignedHeap l) bs
  start_size : h.size l.xStart = 0
  end_link : h.next h.pxEnd = 0 ∧ h.size h.pxEnd = 0
  bit_eq : h.blockAllocatedBit = 2^31
  free_eq : h.freeBytesRemaining = freeTotal bs
  coalesced : Coalesced bs
  sizes : ∀ b ∈ bs, 0 < b.size ∧ b.size%8 = 0
  owners : ∀ b ∈ bs, ∀ n, b.owner = some n → 0 < n ∧ n+heapStructSize ≤ b.size ∧ b.size < n+32

section Represents

variable {l : Layout} {h : State} {bs pre post : List Block} {b : Block}

theorem Represents.solid (hr : Represents l h bs) : Solid bs := fun b hb => (hr.sizes b hb).1

theorem Represents.outside (hr : Represents l h bs) : l.xStart < alignedHeap l ∨ h.pxEnd < l.xStart := by
  have hap := l.apart
  have hb := alignedHeap_spec l
  have hl := heapEnd_spec l
  rw [hr.end_eq]
  simp only [heapStructSize,configTotalHeapSize] at hap
  omega

theorem Represents.size_lt (hr : Represents l h bs) (hb : b ∈ bs) : b.size < 2^31 := by
  have hl := heapEnd_spec l
  have hbase := alignedHeap_spec l
  have ht := hr.total_eq
  have hle : b.size ≤ total bs := by
    obtain ⟨pre,post,rfl⟩ := List.append_of_mem hb
    simp only [total_append,total]
    omega
  omega

theorem init_represents (l : Layout) (h : State) :
    Represents l (prvHeapInit l h) [⟨heapEnd l-alignedHeap l,none⟩] := by
  have hb := alignedHeap_spec l
  have hl := heapEnd_spec l
  have hap := l.apart
  simp only [heapStructSize,configTotalHeapSize] at hap
  have hpos := l.heap_pos
  refine ⟨rfl,?_,?_,?_,?_,?_,⟨?_,?_⟩,rfl,?_,?_,?_,?_⟩
  · simp only [total]
    omega
  · simp only [Linked,Block.free,Option.isNone_none,if_true]
    constructor
    · simp only [prvHeapInit,setNext,setSize]
      rw [Function.update_of_ne (by omega),Function.update_of_ne (by omega),Function.update_self]
    · simp [prvHeapInit,setNext,setSize]
  · intro x hx _
    simp only [placed,List.mem_singleton] at hx
    simp [hx,prvHeapInit,setNext,setSize]
  · intro x hx hf
    simp only [placed,List.mem_singleton] at hx
    rw [hx] at hf
    cases hf
  · simp only [prvHeapInit,setNext,setSize]
    rw [Function.update_of_ne (by omega),Function.update_of_ne (by omega),Function.update_self]
  · show Function.update _ _ _ (heapEnd l) = 0
    rw [Function.update_of_ne (by omega)]
    exact Function.update_self ..
  · show Function.update _ _ _ (heapEnd l) = 0
    rw [Function.update_of_ne (by omega)]
    exact Function.update_self ..
  · simp [prvHeapInit,setNext,setSize,freeTotal,Block.free]
  · exact List.isChain_singleton _
  · simp only [List.mem_singleton,forall_eq]
    omega
  · simp

theorem or_allocatedBit {n : ℕ} (h : n < 2^31) : n ||| 2^31 = n+2^31 := by
  have hsum := Nat.two_pow_add_eq_or_of_lt h 1
  rw [Nat.mul_one] at hsum
  rw [Nat.or_comm,← hsum,Nat.add_comm]

theorem and_allocatedBit {n : ℕ} (h : n < 2^32) : n &&& 2^31 = 0 ↔ n < 2^31 := by
  rw [Nat.and_two_pow]
  by_cases hn : n < 2^31
  · rw [Nat.testBit_lt_two_pow hn]
    exact ⟨fun _ => hn,fun _ => rfl⟩
  · have hbit : n.testBit 31 = true := by
      rw [Nat.testBit_eq_decide_div_mod_eq]
      simp only [decide_eq_true_eq]
      omega
    rw [hbit]
    exact ⟨fun h => absurd h (by decide),fun h => absurd h hn⟩

theorem clear_allocatedBit {n : ℕ} (h : n < 2^31) : (n ||| 2^31) &&& (2^32-1-2^31) = n := by
  rw [or_allocatedBit h,show 2^32-1-2^31 = 2^31-1 by norm_num,Nat.and_two_pow_sub_one_eq_mod]
  omega

/-- A heap whose list leads past a block, seen from the tiling in which it is not free. -/
theorem Represents.detached {m n : ℕ} (hr : Represents l h (pre++⟨m,some n⟩::post)) (h' : State)
    (hnext : h'.next = h.next) (hpx : h'.pxEnd = h.pxEnd)
    (hsize : h'.size = Function.update h.size (alignedHeap l+total pre) m) :
    Detached l h' (alignedHeap l) pre m post := by
  have hsolid := hr.solid
  rw [solid_append,solid_cons] at hsolid
  have hlinked := hr.linked
  rw [linked_append] at hlinked
  have hsized := hr.sized
  rw [labelled_append,labelled_cons] at hsized
  have htotal := hr.total_eq
  have hout := hr.outside
  have hb := alignedHeap_spec l
  have hl := heapEnd_spec l
  have hend := hr.end_eq
  simp only [total_append,total] at htotal
  refine ⟨hsolid,by rw [hpx]; exact hout,by rw [hpx]; omega,?_,?_,?_,⟨?_,?_⟩,?_,?_⟩
  · simp only [configTotalHeapSize]
    omega
  · rw [hnext,hpx]
    exact hlinked.1
  · rw [hnext,hpx]
    exact hlinked.2
  · intro x hx hf
    have hbound := placed_bounds hx
    have hpos := hsolid.1 x.2 (mem_of_mem_placed hx)
    rw [hsize,Function.update_of_ne (by omega)]
    exact hsized.1 x hx hf
  · intro x hx hf
    have hbound := placed_bounds hx
    have hpos := hsolid.2.1
    dsimp only at hpos
    rw [hsize,Function.update_of_ne (by omega)]
    exact hsized.2.2 x hx hf
  · rw [hsize,Function.update_self]
  · rw [hsize,Function.update_of_ne (by omega)]
    exact hr.start_size

theorem free_represents {m n : ℕ} (hr : Represents l h (pre++⟨m,some n⟩::post)) :
    Represents l (vPortFree l h (alignedHeap l+total pre+heapStructSize)) (join pre m post) := by
  have hsolid := hr.solid
  rw [solid_append,solid_cons] at hsolid
  have hmarked := hr.marked
  rw [labelled_append,labelled_cons] at hmarked
  have htotal := hr.total_eq
  simp only [total_append,total] at htotal
  have hm : m < 2^31 := hr.size_lt (b := ⟨m,some n⟩) (by simp)
  obtain ⟨hnext,hsize⟩ := hmarked.2.1 rfl
  rw [hr.bit_eq] at hsize
  dsimp only at hsize
  set h' : State := { setSize h (alignedHeap l+total pre) m with
    freeBytesRemaining := h.freeBytesRemaining+m } with hh'
  have hfree : freeTotal (pre++⟨m,some n⟩::post) = freeTotal pre+freeTotal post := by
    simp [freeTotal,Block.free]
  have hbound : freeTotal pre+m+freeTotal post < 2^31 := by
    have h₁ := freeTotal_le_total pre
    have h₂ := freeTotal_le_total post
    have hb := alignedHeap_spec l
    have hl := heapEnd_spec l
    omega
  have hcode : vPortFree l h (alignedHeap l+total pre+heapStructSize) =
      prvInsertBlockIntoFreeList l h' (alignedHeap l+total pre) := by
    have hflag : ¬ (m ||| 2^31) &&& 2^31 = 0 := by
      rw [or_allocatedBit hm,and_allocatedBit (by omega)]
      omega
    have hsum : wrap 32 ((h.freeBytesRemaining : ℤ)+m) = h.freeBytesRemaining+m := by
      rw [← Nat.cast_add,wrap_natCast,Nat.mod_eq_of_lt (by rw [hr.free_eq,hfree]; omega)]
    have hself : (setSize h (alignedHeap l+total pre) m).size (alignedHeap l+total pre) = m := by
      simp [setSize]
    rw [vPortFree,if_neg (by simp [heapStructSize])]
    simp only [Nat.add_sub_cancel,hsize,hr.bit_eq,if_pos hflag,hnext,if_true,clear_allocatedBit hm,
      hself]
    rw [show (setSize h (alignedHeap l+total pre) m).freeBytesRemaining = h.freeBytesRemaining from rfl,
      hsum]
  obtain ⟨next,size,hinsert,hlinked,hsized,hstart,hends,hendn,hframe⟩ :=
    insert_spec (hr.detached h' rfl rfl rfl)
  have hpx : h'.pxEnd = h.pxEnd := rfl
  have hend := hr.end_eq
  have hpos := hsolid.2.1
  dsimp only at hpos
  rw [hcode,hinsert]
  refine ⟨hr.end_eq,?_,hlinked,hsized,?_,hstart,⟨?_,?_⟩,hr.bit_eq,?_,?_,?_,?_⟩
  · rw [total_join]
    omega
  · intro x hx hf
    have hold := mem_placed_join hx hf
    have hsame := hframe x.1 x.2 hf hold
    have hne : x.1 ≠ alignedHeap l+total pre := by
      rcases hold with hx | hx
      · have := placed_bounds hx
        have := hsolid.1 x.2 (mem_of_mem_placed hx)
        omega
      · have := placed_bounds hx
        omega
    have hmark : Marked h x.1 x.2 := hold.elim (hmarked.1 x) (hmarked.2.2 x)
    have hsize' : h'.size x.1 = h.size x.1 := Function.update_of_ne hne _ _
    show next x.1 = 0 ∧ size x.1 = x.2.size ||| h.blockAllocatedBit
    rw [hsame.1,hsame.2,hsize']
    exact hmark hf
  · exact hendn.trans hr.end_link.1
  · refine hends.trans ?_
    show Function.update _ _ _ h.pxEnd = 0
    rw [Function.update_of_ne (by omega)]
    exact hr.end_link.2
  · rw [freeTotal_join]
    show h.freeBytesRemaining+m = _
    rw [hr.free_eq,hfree]
    omega
  · have hn := hr.coalesced
    rw [Coalesced,List.isChain_append,List.isChain_cons] at hn
    exact coalesced_join hn.1 hn.2.1.2 m
  · refine forall_size_join (P := fun x => 0 < x ∧ x%8 = 0) ?_ (fun b hb => hr.sizes b (by simp [hb]))
      (fun b hb => hr.sizes b (by simp [hb])) (hr.sizes ⟨m,some n⟩ (by simp))
    intro x y hx hy
    omega
  · intro b hb k hk
    obtain ⟨x,hx⟩ := exists_placed (alignedHeap l) hb
    have hf : b.free = false := by simp [Block.free,hk]
    rcases mem_placed_join hx hf with hx | hx
    · exact hr.owners b (by simp [mem_of_mem_placed hx]) k hk
    · exact hr.owners b (by simp [mem_of_mem_placed hx]) k hk

/-- What an application writes behind the start of a block does not matter to the heap. -/
theorem write_represents (hr : Represents l h bs) {x y next size : ℕ} (hy : (y,b) ∈ placed (alignedHeap l) bs)
    (hlow : y < x) (hhigh : x < y+b.size) :
    Represents l (setSize (setNext h x next) x size) bs := by
  have hbound := placed_bounds hy
  dsimp only at hbound
  have hend := hr.end_eq
  have ht := hr.total_eq
  have hout := hr.outside
  have hapart : ∀ z ∈ placed (alignedHeap l) bs, z.1 ≠ x := by
    intro z hz he
    by_cases hzy : z = (y,b)
    · subst hzy
      dsimp only at he
      omega
    · have hpos := hr.solid z.2 (mem_of_mem_placed hz)
      have := placed_apart hz hy hzy
      simp only [Apart] at this
      omega
  have hnext : ∀ z, z ≠ x → (setSize (setNext h x next) x size).next z = h.next z :=
    fun z hz => Function.update_of_ne hz _ _
  have hsize : ∀ z, z ≠ x → (setSize (setNext h x next) x size).size z = h.size z :=
    fun z hz => Function.update_of_ne hz _ _
  refine ⟨hr.end_eq,hr.total_eq,?_,?_,?_,?_,⟨?_,?_⟩,hr.bit_eq,hr.free_eq,hr.coalesced,hr.sizes,hr.owners⟩
  · exact hr.linked.congr (hnext _ (by omega)) fun z hz => hnext _ (hapart z hz)
  · intro z hz hf
    rw [hsize _ (hapart z hz)]
    exact hr.sized z hz hf
  · intro z hz hf
    rw [hsize _ (hapart z hz),hnext _ (hapart z hz)]
    exact hr.marked z hz hf
  · rw [hsize _ (by omega)]
    exact hr.start_size
  · exact (hnext h.pxEnd (by omega)).trans hr.end_link.1
  · exact (hsize h.pxEnd (by omega)).trans hr.end_link.2

theorem wantedSize_spec {n : ℕ} (hpos : 0 < n) (hn : n < 2^31) :
    n+heapStructSize ≤ wantedSize n ∧ wantedSize n < n+16 ∧ wantedSize n%8 = 0 := by
  have hsum : wrap 32 ((n : ℤ)+heapStructSize) = n+8 := by
    rw [← Nat.cast_add,wrap_natCast,Nat.mod_eq_of_lt (by simp only [heapStructSize]; omega)]
    rfl
  simp only [wantedSize,if_pos hpos,hsum,portByteAlignment]
  split_ifs with hu
  · have hmod : (n+8)%8 < 8 := Nat.mod_lt _ (by decide)
    rw [← Nat.cast_add,wrap_natCast,Nat.mod_eq_of_lt (by omega)]
    simp only [heapStructSize]
    omega
  · simp only [heapStructSize]
    omega

theorem searchLoop_skip {wanted prev a stop fuel : ℕ} {cs : List Block}
    (hl : Linked h.next prev a (bs++cs) stop) (hsized : Labelled (Sized h) a bs) (hs : Solid bs)
    (ha : 0 < a) (hstop : a+total (bs++cs) ≤ stop)
    (hsmall : ∀ b ∈ bs, b.free = true → b.size < wanted) (hfuel : bs.length < fuel) :
    ∃ left, searchLoop h wanted fuel prev (h.next prev) =
      searchLoop h wanted (left+1) (lastFree prev a bs) (h.next (lastFree prev a bs)) := by
  induction bs generalizing prev a fuel with
  | nil => exact ⟨fuel-1,by rw [Nat.sub_add_cancel (show 1 ≤ fuel from hfuel)]; rfl⟩
  | cons b bs ih =>
    obtain ⟨hb,hs⟩ := solid_cons.mp hs
    rw [labelled_cons] at hsized
    simp only [List.cons_append,total] at hstop
    simp only [List.cons_append,Linked] at hl
    rw [List.length_cons] at hfuel
    have hrest : ∀ c ∈ bs, c.free = true → c.size < wanted := fun c hc => hsmall c (by simp [hc])
    by_cases hf : b.free = true
    · rw [if_pos hf] at hl
      obtain ⟨fuel,rfl⟩ : ∃ k, fuel = k+1 := ⟨fuel-1,by omega⟩
      obtain ⟨left,hloop⟩ := ih hl.2 hsized.2 hs (by omega) (by omega) hrest
        (show bs.length < fuel by omega)
      have hnext : h.next a ≠ 0 := by
        rw [hl.2.first]
        have := (firstFree_bounds (a+b.size) (bs++cs) stop (by omega)).1
        omega
      have hsize : h.size a < wanted := by
        rw [hsized.1 hf]
        exact hsmall b (by simp) hf
      refine ⟨left,?_⟩
      rw [searchLoop,hl.1,if_pos ⟨hsize,hnext⟩,hloop]
      simp [lastFree,hf]
    · rw [if_neg hf] at hl
      obtain ⟨left,hloop⟩ := ih hl hsized.2 hs (by omega) (by omega) hrest
        (show bs.length < fuel by omega)
      refine ⟨left,?_⟩
      rw [hloop]
      simp [lastFree,hf]

theorem Represents.length_lt (hr : Represents l h bs) : bs.length < configTotalHeapSize := by
  have hle := length_le_total hr.solid
  have ht := hr.total_eq
  have hb := alignedHeap_spec l
  have hl := heapEnd_spec l
  simp only [configTotalHeapSize]
  omega

theorem Represents.base_pos (l : Layout) : 0 < alignedHeap l := by
  have hpos := l.heap_pos
  have hb := alignedHeap_spec l
  omega

theorem search_found (hr : Represents l h (pre++b::post)) (hf : b.free = true) {wanted : ℕ}
    (hle : wanted ≤ b.size) (hsmall : ∀ c ∈ pre, c.free = true → c.size < wanted) :
    searchLoop h wanted configTotalHeapSize l.xStart (h.next l.xStart) =
      (lastFree l.xStart (alignedHeap l) pre,alignedHeap l+total pre) := by
  have hsolid := hr.solid
  rw [solid_append] at hsolid
  have hsized := hr.sized
  rw [labelled_append,labelled_cons] at hsized
  have hlen := hr.length_lt
  simp only [List.length_append,List.length_cons] at hlen
  have hend := hr.end_eq
  have ht := hr.total_eq
  obtain ⟨left,hskip⟩ := searchLoop_skip hr.linked hsized.1 hsolid.1 (Represents.base_pos l) (by omega)
    hsmall (show pre.length < configTotalHeapSize by omega)
  have hlinked := hr.linked
  rw [linked_append] at hlinked
  have hnext := hlinked.2
  simp only [Linked,if_pos hf] at hnext
  rw [hskip,hnext.1,searchLoop,if_neg]
  rintro ⟨hlt,-⟩
  rw [hsized.2.1 hf] at hlt
  omega

theorem search_missing (hr : Represents l h bs) {wanted : ℕ}
    (hsmall : ∀ c ∈ bs, c.free = true → c.size < wanted) :
    (searchLoop h wanted configTotalHeapSize l.xStart (h.next l.xStart)).2 = h.pxEnd := by
  have hend := hr.end_eq
  have ht := hr.total_eq
  have hlinked := hr.linked
  rw [← List.append_nil bs] at hlinked
  obtain ⟨left,hskip⟩ := searchLoop_skip hlinked hr.sized hr.solid (Represents.base_pos l)
    (by rw [List.append_nil]; omega) hsmall hr.length_lt
  have hlast := (linked_append.mp hlinked).2
  simp only [Linked] at hlast
  rw [hskip,hlast,searchLoop,if_neg]
  rintro ⟨-,hne⟩
  exact hne hr.end_link.1

theorem mark_represents {m n : ℕ} (hend : h.pxEnd = heapEnd l)
    (htotal : alignedHeap l+total (pre++⟨m,some n⟩::post) = heapEnd l)
    (hlinked : Linked h.next l.xStart (alignedHeap l) (pre++⟨m,some n⟩::post) h.pxEnd)
    (hsized : Labelled (Sized h) (alignedHeap l) (pre++⟨m,some n⟩::post))
    (hmarked : Labelled (Marked h) (alignedHeap l) pre ∧
      Labelled (Marked h) (alignedHeap l+total pre+m) post)
    (hout : l.xStart < alignedHeap l ∨ h.pxEnd < l.xStart)
    (hstart : h.size l.xStart = 0) (hlink : h.next h.pxEnd = 0 ∧ h.size h.pxEnd = 0)
    (hbit : h.blockAllocatedBit = 2^31)
    (hfree : h.freeBytesRemaining = freeTotal pre+freeTotal post+m)
    (hcoalesced : Coalesced (pre++⟨m,some n⟩::post))
    (hsizes : ∀ b ∈ pre++⟨m,some n⟩::post, 0 < b.size ∧ b.size%8 = 0)
    (howners : ∀ b ∈ pre++⟨m,some n⟩::post, ∀ n, b.owner = some n →
      0 < n ∧ n+heapStructSize ≤ b.size ∧ b.size < n+32)
    (hhole : h.size (alignedHeap l+total pre) = m) :
    Represents l (markBlock h (alignedHeap l+total pre)) (pre++⟨m,some n⟩::post) := by
  have hsolid : Solid (pre++⟨m,some n⟩::post) := fun b hb => (hsizes b hb).1
  have hsolid' := hsolid
  rw [solid_append,solid_cons] at hsolid'
  dsimp only at hsolid'
  have hlast := lastFree_bounds l.xStart (alignedHeap l) pre hsolid'.1
  simp only [total_append,total] at htotal
  have hnext : ∀ x, x ≠ alignedHeap l+total pre →
      (markBlock h (alignedHeap l+total pre)).next x = h.next x := by
    intro x hx
    simp [markBlock,setNext,setSize,hx]
  have hsize : ∀ x, x ≠ alignedHeap l+total pre →
      (markBlock h (alignedHeap l+total pre)).size x = h.size x := by
    intro x hx
    simp [markBlock,setNext,setSize,hx]
  have hpx : (markBlock h (alignedHeap l+total pre)).pxEnd = h.pxEnd := rfl
  have hbit' : (markBlock h (alignedHeap l+total pre)).blockAllocatedBit = 2^31 := hbit
  have hapart : ∀ x ∈ placed (alignedHeap l) pre, x.1 ≠ alignedHeap l+total pre := fun x hx => by
    have := placed_bounds hx
    have := hsolid'.1 x.2 (mem_of_mem_placed hx)
    omega
  have hapart' : ∀ x ∈ placed (alignedHeap l+total pre+m) post, x.1 ≠ alignedHeap l+total pre :=
    fun x hx => by
      have := placed_bounds hx
      omega
  rw [labelled_append,labelled_cons] at hsized
  refine ⟨hend,by simpa only [total_append,total] using htotal,?_,?_,?_,?_,⟨?_,?_⟩,hbit',?_,hcoalesced,
    hsizes,howners⟩
  · rw [hpx]
    rw [linked_append] at hlinked ⊢
    constructor
    · refine hlinked.1.restart hsolid'.1 ?_ fun x h₁ h₂ => hnext x (by omega)
      rw [hnext _ (by omega)]
      exact hlinked.1.first
    · simp only [Linked,Block.free,Option.isNone_some,Bool.false_eq_true,if_false] at hlinked ⊢
      refine hlinked.2.restart hsolid'.2.2 ?_ fun x h₁ h₂ => hnext x (by omega)
      rw [hnext _ (by rcases hlast with he | he <;> omega)]
      exact hlinked.2.first
  · rw [labelled_append,labelled_cons]
    refine ⟨fun x hx hf => ?_,fun hf => (by cases hf),fun x hx hf => ?_⟩
    · rw [hsize _ (hapart x hx)]
      exact hsized.1 x hx hf
    · rw [hsize _ (hapart' x hx)]
      exact hsized.2.2 x hx hf
  · rw [labelled_append,labelled_cons]
    refine ⟨fun x hx hf => ?_,fun _ => ?_,fun x hx hf => ?_⟩
    · rw [hnext _ (hapart x hx),hsize _ (hapart x hx)]
      exact hmarked.1 x hx hf
    · simp [markBlock,setNext,setSize,hhole]
    · rw [hnext _ (hapart' x hx),hsize _ (hapart' x hx)]
      exact hmarked.2 x hx hf
  · rw [hsize _ (by omega)]
    exact hstart
  · rw [hpx,hnext _ (by omega)]
    exact hlink.1
  · rw [hpx,hsize _ (by omega)]
    exact hlink.2
  · show wrap 32 ((h.freeBytesRemaining : ℤ)-h.size (alignedHeap l+total pre)) = _
    have h₁ := freeTotal_le_total pre
    have h₂ := freeTotal_le_total post
    have hb := alignedHeap_spec l
    have hl := heapEnd_spec l
    have hlt := l.heap_lt
    simp only [configTotalHeapSize] at hlt
    rw [hhole,wrap_sub (by omega) (by omega),hfree,freeTotal_append]
    simp [freeTotal,Block.free]

/-- The blocks that an allocation makes of a free block. -/
def cut (size wanted n : ℕ) : List Block :=
  if heapMinimumBlockSize < size-wanted then [⟨wanted,some n⟩,⟨size-wanted,none⟩]
  else [⟨size,some n⟩]

theorem bypass_linked (hr : Represents l h (pre++b::post)) (hf : b.free = true) :
    Linked (Function.update h.next (lastFree l.xStart (alignedHeap l) pre)
      (h.next (alignedHeap l+total pre))) l.xStart (alignedHeap l) pre
        (firstFree (alignedHeap l+total pre+b.size) post h.pxEnd) ∧
    Linked (Function.update h.next (lastFree l.xStart (alignedHeap l) pre)
      (h.next (alignedHeap l+total pre))) (lastFree l.xStart (alignedHeap l) pre)
        (alignedHeap l+total pre+b.size) post h.pxEnd := by
  have hsolid := hr.solid
  rw [solid_append,solid_cons] at hsolid
  have hlinked := hr.linked
  rw [linked_append] at hlinked
  have hbehind := hlinked.2
  simp only [Linked,if_pos hf] at hbehind
  have hlast := lastFree_bounds l.xStart (alignedHeap l) pre hsolid.1
  have hout := hr.outside
  have hend := hr.end_eq
  have ht := hr.total_eq
  simp only [total_append,total] at ht
  have hnext := hbehind.2.first
  rw [hnext]
  refine ⟨hlinked.1.redirect hsolid.1 (by omega) _,?_⟩
  refine hbehind.2.restart hsolid.2.2 (Function.update_self ..) fun x h₁ h₂ => ?_
  exact Function.update_of_ne (by rcases hlast with he | he <;> omega) _ _

theorem bypass_frame (hr : Represents l h (pre++b::post)) (v : ℕ) (x : ℕ × Block)
    (hx : x ∈ placed (alignedHeap l) pre ∨ x ∈ placed (alignedHeap l+total pre+b.size) post)
    (hu : x.2.free = false) :
    Function.update h.next (lastFree l.xStart (alignedHeap l) pre) v x.1 = h.next x.1 := by
  have hsolid := hr.solid
  rw [solid_append,solid_cons] at hsolid
  have hout := hr.outside
  have hend := hr.end_eq
  have ht := hr.total_eq
  simp only [total_append,total] at ht
  refine Function.update_of_ne ?_ _ _
  intro he
  rcases hx with hx | hx
  · have hbound := placed_bounds hx
    have hpos := hsolid.1 x.2 (mem_of_mem_placed hx)
    rcases lastFree_mem l.xStart (alignedHeap l) pre with hl | ⟨c,hc,hmem⟩
    · omega
    · rw [← he] at hmem
      rw [placed_unique hsolid.1 hx hmem,hc] at hu
      cases hu
  · have hbound := placed_bounds hx
    have hpos := hsolid.2.2 x.2 (mem_of_mem_placed hx)
    rcases lastFree_bounds l.xStart (alignedHeap l) pre hsolid.1 with hl | hl <;> omega

theorem takeWhole_represents (hr : Represents l h (pre++b::post)) (hf : b.free = true) {n : ℕ}
    (hn : 0 < n) (hwanted : n+heapStructSize ≤ b.size ∧ b.size < n+32) :
    Represents l (markBlock (setNext h (lastFree l.xStart (alignedHeap l) pre)
      (h.next (alignedHeap l+total pre))) (alignedHeap l+total pre)) (pre++⟨b.size,some n⟩::post) := by
  have hsolid := hr.solid
  rw [solid_append,solid_cons] at hsolid
  obtain ⟨hfront,hbehind⟩ := bypass_linked hr hf
  have hsized := hr.sized
  rw [labelled_append,labelled_cons] at hsized
  have hmarked := hr.marked
  rw [labelled_append,labelled_cons] at hmarked
  have ht := hr.total_eq
  simp only [total_append,total] at ht
  have hout := hr.outside
  have hend := hr.end_eq
  have hkeep := bypass_frame hr (h.next (alignedHeap l+total pre))
  refine mark_represents hr.end_eq (by simpa only [total_append,total] using ht) ?_ ?_ ⟨?_,?_⟩ hout
    hr.start_size ⟨?_,hr.end_link.2⟩ hr.bit_eq ?_ ?_ ?_ ?_ (hsized.2.1 hf)
  · rw [linked_append]
    simp only [Linked,firstFree,Block.free,Option.isNone_some,Bool.false_eq_true,if_false]
    exact ⟨hfront,hbehind⟩
  · rw [labelled_append,labelled_cons]
    exact ⟨hsized.1,fun hf => (by cases hf),hsized.2.2⟩
  · exact fun x hx hu => ⟨(hkeep x (Or.inl hx) hu).trans (hmarked.1 x hx hu).1,(hmarked.1 x hx hu).2⟩
  · exact fun x hx hu =>
      ⟨(hkeep x (Or.inr hx) hu).trans (hmarked.2.2 x hx hu).1,(hmarked.2.2 x hx hu).2⟩
  · show Function.update _ _ _ h.pxEnd = 0
    have hlast := lastFree_bounds l.xStart (alignedHeap l) pre hsolid.1
    rw [Function.update_of_ne (by rcases hlast with he | he <;> omega)]
    exact hr.end_link.1
  · show h.freeBytesRemaining = _
    rw [hr.free_eq]
    simp only [freeTotal_append,freeTotal,if_pos hf]
    omega
  · exact coalesced_of_used hr.coalesced
  · intro c hc
    rcases List.mem_append.mp hc with hc | hc
    · exact hr.sizes c (by simp [hc])
    · rcases List.mem_cons.mp hc with rfl | hc
      · exact hr.sizes b (by simp)
      · exact hr.sizes c (by simp [hc])
  · intro c hc k hk
    rcases List.mem_append.mp hc with hc | hc
    · exact hr.owners c (by simp [hc]) k hk
    · rcases List.mem_cons.mp hc with rfl | hc
      · cases hk
        exact ⟨hn,hwanted⟩
      · exact hr.owners c (by simp [hc]) k hk

/-- The free block behind the first `wanted` bytes of a block that leaves the list. -/
def splitBlock (h : State) (wanted previous block : ℕ) : State :=
  setSize (setSize (setNext h previous (h.next block)) (block+wanted) (h.size block-wanted)) block wanted

theorem splitBlock_detached (hr : Represents l h (pre++b::post)) (hf : b.free = true) {wanted n : ℕ}
    (hpos : 0 < wanted) (hlt : wanted < b.size) :
    Detached l (splitBlock h wanted (lastFree l.xStart (alignedHeap l) pre) (alignedHeap l+total pre))
      (alignedHeap l) (pre++[⟨wanted,some n⟩]) (b.size-wanted) post := by
  have hsolid := hr.solid
  rw [solid_append,solid_cons] at hsolid
  obtain ⟨hfront,hbehind⟩ := bypass_linked hr hf
  have hsized := hr.sized
  rw [labelled_append,labelled_cons] at hsized
  have ht := hr.total_eq
  simp only [total_append,total] at ht
  have hout := hr.outside
  have hend := hr.end_eq
  have hb := alignedHeap_spec l
  have hl := heapEnd_spec l
  have htotal : total (pre++[⟨wanted,some n⟩]) = total pre+wanted := by simp [total]
  have hseam : alignedHeap l+total (pre++[⟨wanted,some n⟩])+(b.size-wanted) =
      alignedHeap l+total pre+b.size := by omega
  have hother : ∀ x, x ≠ alignedHeap l+total pre → x ≠ alignedHeap l+total pre+wanted →
      (splitBlock h wanted (lastFree l.xStart (alignedHeap l) pre) (alignedHeap l+total pre)).size x =
        h.size x := by
    intro x h₁ h₂
    simp [splitBlock,setSize,setNext,h₁,h₂]
  refine ⟨⟨?_,by omega,hsolid.2.2⟩,hout,?_,?_,?_,?_,⟨?_,?_⟩,?_,?_⟩
  · rw [solid_append,solid_cons]
    exact ⟨hsolid.1,hpos,by simp [Solid]⟩
  · show h.pxEnd = _
    omega
  · simp only [configTotalHeapSize]
    omega
  · rw [hseam,linked_append]
    simp only [firstFree,Linked,Block.free,Option.isNone_some,Bool.false_eq_true,if_false]
    exact ⟨hfront,hbehind.first⟩
  · rw [hseam,lastFree_append]
    simp only [lastFree,Block.free,Option.isNone_some,Bool.false_eq_true,if_false]
    exact hbehind
  · rw [labelled_append,labelled_cons]
    refine ⟨fun x hx hx' => ?_,fun hf => (by cases hf),by simp [Labelled,placed]⟩
    have hbound := placed_bounds hx
    have hsolid := hsolid.1 x.2 (mem_of_mem_placed hx)
    rw [hother x.1 (by omega) (by omega)]
    exact hsized.1 x hx hx'
  · rw [hseam]
    intro x hx hx'
    have hbound := placed_bounds hx
    rw [hother x.1 (by omega) (by omega)]
    exact hsized.2.2 x hx hx'
  · have hsize : h.size (alignedHeap l+total pre) = b.size := hsized.2.1 hf
    rw [htotal,← Nat.add_assoc]
    simp [splitBlock,setSize,setNext,hsize,hpos.ne']
  · rw [hother _ (by omega) (by omega)]
    exact hr.start_size

theorem takePart_represents (hr : Represents l h (pre++b::post)) (hf : b.free = true) {wanted n : ℕ}
    (hlt : wanted < b.size) (halign : wanted%8 = 0) (hn : 0 < n)
    (hwanted : n+heapStructSize ≤ wanted ∧ wanted < n+16) :
    Represents l (markBlock (prvInsertBlockIntoFreeList l
      (splitBlock h wanted (lastFree l.xStart (alignedHeap l) pre) (alignedHeap l+total pre))
      (alignedHeap l+total pre+wanted)) (alignedHeap l+total pre))
      (pre++⟨wanted,some n⟩::⟨b.size-wanted,none⟩::post) := by
  have hsolid := hr.solid
  rw [solid_append,solid_cons] at hsolid
  have hmarked := hr.marked
  rw [labelled_append,labelled_cons] at hmarked
  have ht := hr.total_eq
  simp only [total_append,total] at ht
  have hout := hr.outside
  have hend := hr.end_eq
  have hcoalesced := hr.coalesced
  rw [Coalesced,List.isChain_append,List.isChain_cons] at hcoalesced
  have hused : ∀ c, post.head? = some c → c.free = false := fun c hc => by
    simpa [hf] using hcoalesced.2.1.1 c hc
  set h' := splitBlock h wanted (lastFree l.xStart (alignedHeap l) pre) (alignedHeap l+total pre) with hh'
  have hd : Detached l h' (alignedHeap l) (pre++[⟨wanted,some n⟩]) (b.size-wanted) post :=
    splitBlock_detached hr hf (by omega) hlt
  obtain ⟨next,size,hinsert,hlinked,hsized,hstart,hends,hendn,hframe⟩ := insert_spec hd
  have htotal : total (pre++[⟨wanted,some n⟩]) = total pre+wanted := by simp [total]
  have hseam : alignedHeap l+total (pre++[⟨wanted,some n⟩])+(b.size-wanted) =
      alignedHeap l+total pre+b.size := by omega
  have hjoin : join (pre++[⟨wanted,some n⟩]) (b.size-wanted) post =
      pre++⟨wanted,some n⟩::⟨b.size-wanted,none⟩::post := by
    have hright : joinRight (b.size-wanted) post = ⟨b.size-wanted,none⟩::post :=
      joinRight_of_takes (Or.inl ⟨rfl,rfl,hused⟩)
    rw [join_concat,hright]
    rfl
  rw [htotal,← Nat.add_assoc] at hinsert
  rw [hjoin] at hlinked hsized
  rw [hseam] at hframe
  have hpx : h'.pxEnd = h.pxEnd := rfl
  have hsize : ∀ x, x ≠ alignedHeap l+total pre → x ≠ alignedHeap l+total pre+wanted →
      h'.size x = h.size x := by
    intro x h₁ h₂
    simp [hh',splitBlock,setSize,setNext,h₁,h₂]
  have hkeep := bypass_frame hr (h.next (alignedHeap l+total pre))
  rw [hinsert]
  refine mark_represents hr.end_eq ?_ hlinked hsized ⟨?_,?_⟩ hout hstart ⟨?_,?_⟩ hr.bit_eq ?_ ?_ ?_ ?_ ?_
  · simp only [total_append,total]
    omega
  · intro x hx hu
    have hbound := placed_bounds hx
    have hpos := hsolid.1 x.2 (mem_of_mem_placed hx)
    have hsame := hframe x.1 x.2 hu (Or.inl (by rw [placed_append]; exact List.mem_append_left _ hx))
    show next x.1 = 0 ∧ size x.1 = x.2.size ||| h.blockAllocatedBit
    rw [hsame.1,hsame.2,hsize _ (by omega) (by omega)]
    exact ⟨(hkeep x (Or.inl hx) hu).trans (hmarked.1 x hx hu).1,(hmarked.1 x hx hu).2⟩
  · rw [labelled_cons]
    refine ⟨fun hu => (by cases hu),fun x hx hu => ?_⟩
    rw [show alignedHeap l+total pre+wanted+(b.size-wanted) = alignedHeap l+total pre+b.size by omega] at hx
    have hbound := placed_bounds hx
    have hsame := hframe x.1 x.2 hu (Or.inr hx)
    show next x.1 = 0 ∧ size x.1 = x.2.size ||| h.blockAllocatedBit
    rw [hsame.1,hsame.2,hsize _ (by omega) (by omega)]
    exact ⟨(hkeep x (Or.inr hx) hu).trans (hmarked.2.2 x hx hu).1,(hmarked.2.2 x hx hu).2⟩
  · show next h.pxEnd = 0
    refine hendn.trans ?_
    show Function.update _ _ _ h.pxEnd = 0
    have hlast := lastFree_bounds l.xStart (alignedHeap l) pre hsolid.1
    rw [Function.update_of_ne (by rcases hlast with he | he <;> omega)]
    exact hr.end_link.1
  · show size h.pxEnd = 0
    refine hends.trans ?_
    rw [hpx,hsize _ (by omega) (by omega)]
    exact hr.end_link.2
  · show h.freeBytesRemaining = _
    rw [hr.free_eq]
    have hrest : (⟨b.size-wanted,none⟩ : Block).free = true := rfl
    simp only [freeTotal_append,freeTotal,if_pos hf,if_pos hrest]
    omega
  · simp only [Coalesced,List.isChain_append,List.isChain_cons]
    refine ⟨hcoalesced.1,⟨fun c _ => ?_,fun c hc => ?_,hcoalesced.2.1.2⟩,fun d _ c hc => ?_⟩
    · simp [Block.free]
    · simp [hused c hc]
    · simp only [List.head?_cons,Option.mem_some_iff] at hc
      simp [← hc,Block.free]
  · have hbsize := hr.sizes b (by simp)
    intro c hc
    simp only [List.mem_append,List.mem_cons] at hc
    rcases hc with hc | rfl | rfl | hc
    · exact hr.sizes c (by simp [hc])
    · exact ⟨by dsimp only; omega,halign⟩
    · dsimp only
      omega
    · exact hr.sizes c (by simp [hc])
  · intro c hc k hk
    simp only [List.mem_append,List.mem_cons] at hc
    rcases hc with hc | rfl | rfl | hc
    · exact hr.owners c (by simp [hc]) k hk
    · cases hk
      dsimp only
      omega
    · cases hk
    · exact hr.owners c (by simp [hc]) k hk
  · have hsame := hframe (alignedHeap l+total pre) ⟨wanted,some n⟩ rfl
      (Or.inl (by rw [placed_append]; simp [placed]))
    show size _ = wanted
    rw [hsame.2]
    simp [hh',splitBlock,setSize]

theorem takeBlock_represents (hr : Represents l h (pre++b::post)) (hf : b.free = true) {wanted n : ℕ}
    (hle : wanted ≤ b.size) (halign : wanted%8 = 0) (hn : 0 < n)
    (hwanted : n+heapStructSize ≤ wanted ∧ wanted < n+16) :
    Represents l (takeBlock l h wanted (lastFree l.xStart (alignedHeap l) pre)
      (alignedHeap l+total pre)) (pre++(cut b.size wanted n++post)) := by
  have hsized := hr.sized
  rw [labelled_append,labelled_cons] at hsized
  have hsize : (setNext h (lastFree l.xStart (alignedHeap l) pre)
      (h.next (alignedHeap l+total pre))).size (alignedHeap l+total pre) = b.size := hsized.2.1 hf
  simp only [takeBlock,cut,hsize]
  split_ifs with hcut
  · have hpart := takePart_represents hr hf (show wanted < b.size by omega) halign hn hwanted
    rw [splitBlock,show h.size (alignedHeap l+total pre) = b.size from hsize] at hpart
    exact hpart
  · refine takeWhole_represents hr hf hn ?_
    simp only [heapMinimumBlockSize,heapStructSize] at *
    omega

/-- An allocation takes the first block that fits, and fails only if none does. -/
theorem malloc_represents (hr : Represents l h bs) {n : ℕ} (hn : n < 2^32) :
    ((n = 0 ∨ 2^31 ≤ n ∨ ∀ b ∈ bs, b.free = true → b.size < wantedSize n) ∧
      pvPortMalloc l h n = (h,0)) ∨
    ∃ pre b post, bs = pre++b::post ∧ b.free = true ∧ 0 < n ∧ n < 2^31 ∧ wantedSize n ≤ b.size ∧
      (pvPortMalloc l h n).2 = alignedHeap l+total pre+heapStructSize ∧
      Represents l (pvPortMalloc l h n).1 (pre++(cut b.size (wantedSize n) n++post)) := by
  have hready : ¬ h.pxEnd = 0 := by
    have hpos := Represents.base_pos l
    have hend := hr.end_eq
    have ht := hr.total_eq
    omega
  have hcode : pvPortMalloc l h n = if n &&& 2^31 = 0 then
      if 0 < wantedSize n ∧ wantedSize n ≤ h.freeBytesRemaining then
        let r := searchLoop h (wantedSize n) configTotalHeapSize l.xStart (h.next l.xStart)
        if r.2 ≠ h.pxEnd then (takeBlock l h (wantedSize n) r.1 r.2,h.next r.1+heapStructSize) else (h,0)
      else (h,0)
      else (h,0) := by
    simp only [pvPortMalloc,if_neg hready,hr.bit_eq]
  by_cases hsmall : n < 2^31
  · rw [if_pos ((and_allocatedBit hn).mpr hsmall)] at hcode
    by_cases hzero : n = 0
    · left
      refine ⟨Or.inl hzero,?_⟩
      rw [hcode,if_neg]
      rintro ⟨hpos,-⟩
      simp [hzero,wantedSize] at hpos
    · have hpos : 0 < n := Nat.pos_of_ne_zero hzero
      have hw := wantedSize_spec hpos hsmall
      rcases exists_first_fit (wantedSize n) bs with hnone | ⟨pre,b,post,rfl,hf,hle,hpre⟩
      · left
        refine ⟨Or.inr (Or.inr hnone),?_⟩
        rw [hcode]
        split_ifs with hfree
        · dsimp only
          rw [if_neg (not_not_intro (search_missing hr hnone))]
        · rfl
      · right
        have hfree : wantedSize n ≤ h.freeBytesRemaining := by
          rw [hr.free_eq]
          exact hle.trans (size_le_freeTotal (by simp) hf)
        have hne : alignedHeap l+total pre ≠ h.pxEnd := by
          have hsolid := hr.solid b (by simp)
          have ht := hr.total_eq
          have hend := hr.end_eq
          simp only [total_append,total] at ht
          omega
        have hlinked := hr.linked
        rw [linked_append] at hlinked
        have hnext := hlinked.2
        simp only [Linked,if_pos hf] at hnext
        rw [if_pos ⟨by omega,hfree⟩,search_found hr hf hle hpre] at hcode
        dsimp only at hcode
        rw [if_pos hne,hnext.1] at hcode
        refine ⟨pre,b,post,rfl,hf,hpos,hsmall,hle,by rw [hcode],?_⟩
        rw [hcode]
        exact takeBlock_represents hr hf hle hw.2.2 hpos ⟨hw.1,hw.2.1⟩
  · left
    rw [if_neg (mt (and_allocatedBit hn).mp hsmall)] at hcode
    exact ⟨Or.inr (Or.inl (by omega)),hcode⟩

theorem owned_cut (a size wanted n : ℕ) : owned a (cut size wanted n) = [(a,n)] := by
  rw [cut]
  split <;> rfl

theorem total_cut {size wanted : ℕ} (n : ℕ) : total (cut size wanted n) = size := by
  rw [cut]
  split
  · simp only [total]
    omega
  · rfl

end Represents

end Heap
end EmbeddedShell
