import EmbeddedShell.Execution
import EmbeddedShell.Memory
import EmbeddedShell.Tiling

/-!
# The kernel heap

`pvPortMalloc` takes the first free block that is large enough and splits it;
`vPortFree` puts a block back and merges it with its neighbours. The free blocks are
linked in the order of their addresses, from `xStart`, which lies outside of the heap, to
`pxEnd` behind its last block. `next` and `size` are the two members of the `BlockLink_t`
at an address; the top bit of `size` marks a block that is given away.
-/

namespace EmbeddedShell
namespace Heap

open Tiling

def configTotalHeapSize : ℕ := 64*1024
def portByteAlignment : ℕ := 8
def heapStructSize : ℕ := 8
def heapMinimumBlockSize : ℕ := heapStructSize*2

/-- Where the linker has put `ucHeap` and `xStart`. -/
structure Layout where
  ucHeap : ℕ
  xStart : ℕ
  heap_pos : 0 < ucHeap
  heap_lt : ucHeap+configTotalHeapSize < 2^32
  apart : xStart+heapStructSize ≤ ucHeap ∨ ucHeap+configTotalHeapSize ≤ xStart

structure State where
  next : ℕ → ℕ
  size : ℕ → ℕ
  pxEnd : ℕ
  freeBytesRemaining : ℕ
  minimumEverFreeBytesRemaining : ℕ
  blockAllocatedBit : ℕ

def setNext (h : State) (p v : ℕ) : State := { h with next := Function.update h.next p v }
def setSize (h : State) (p v : ℕ) : State := { h with size := Function.update h.size p v }

/-- `&= ~portBYTE_ALIGNMENT_MASK`. -/
def alignDown (x : ℕ) : ℕ := x - x%portByteAlignment

def alignedHeap (l : Layout) : ℕ :=
  if l.ucHeap%portByteAlignment ≠ 0 then alignDown (l.ucHeap+(portByteAlignment-1)) else l.ucHeap

def totalHeapSize (l : Layout) : ℕ :=
  if l.ucHeap%portByteAlignment ≠ 0 then configTotalHeapSize-(alignedHeap l-l.ucHeap)
  else configTotalHeapSize

def heapEnd (l : Layout) : ℕ := alignDown (alignedHeap l+totalHeapSize l-heapStructSize)

def prvHeapInit (l : Layout) (h : State) : State :=
  let h := setSize (setNext h l.xStart (alignedHeap l)) l.xStart 0
  let h := setNext (setSize { h with pxEnd := heapEnd l } (heapEnd l) 0) (heapEnd l) 0
  let h := setNext (setSize h (alignedHeap l) (heapEnd l-alignedHeap l)) (alignedHeap l) (heapEnd l)
  { h with
    minimumEverFreeBytesRemaining := h.size (alignedHeap l)
    freeBytesRemaining := h.size (alignedHeap l)
    blockAllocatedBit := 2^31 }

/-- The loop of `prvInsertBlockIntoFreeList`: the last free block below `block`. -/
def insertLoop (h : State) (block : ℕ) : ℕ → ℕ → ℕ
  | 0, iterator => iterator
  | fuel+1, iterator =>
    if h.next iterator < block then insertLoop h block fuel (h.next iterator) else iterator

/-- Merge with the block in front, and the block that is then to be linked. -/
def mergeFront (h : State) (iterator block : ℕ) : State × ℕ :=
  if iterator+h.size iterator = block then
    (setSize h iterator (h.size iterator+h.size block),iterator)
  else (h,block)

/-- Merge with the block behind, and lead to the block after it. -/
def mergeBehind (h : State) (iterator block : ℕ) : State :=
  if block+h.size block = h.next iterator then
    if h.next iterator ≠ h.pxEnd then
      let h' := setSize h block (h.size block+h.size (h.next iterator))
      setNext h' block (h'.next (h'.next iterator))
    else setNext h block h.pxEnd
  else setNext h block (h.next iterator)

def prvInsertBlockIntoFreeList (l : Layout) (h : State) (block : ℕ) : State :=
  let iterator := insertLoop h block configTotalHeapSize l.xStart
  let r := mergeFront h iterator block
  let h := mergeBehind r.1 iterator r.2
  if iterator ≠ r.2 then setNext h iterator r.2 else h

/-- The first free block of at least `wanted` bytes and the one before it. -/
def searchLoop (h : State) (wanted : ℕ) : ℕ → ℕ → ℕ → ℕ × ℕ
  | 0, previous, block => (previous,block)
  | fuel+1, previous, block =>
    if h.size block < wanted ∧ h.next block ≠ 0 then
      searchLoop h wanted fuel block (h.next block)
    else (previous,block)

/-- The request with the `BlockLink_t` in front, rounded up. -/
def wantedSize (n : ℕ) : ℕ :=
  if 0 < n then
    let n := wrap 32 ((n : ℤ)+heapStructSize)
    if n%portByteAlignment ≠ 0 then wrap 32 ((n : ℤ)+(portByteAlignment-n%portByteAlignment : ℕ))
    else n
  else n

/-- The bytes of `block` are no longer free, and its top bit says so. -/
def markBlock (h : State) (block : ℕ) : State :=
  let free := wrap 32 ((h.freeBytesRemaining : ℤ)-h.size block)
  let h := { h with
    freeBytesRemaining := free
    minimumEverFreeBytesRemaining :=
      if free < h.minimumEverFreeBytesRemaining then free else h.minimumEverFreeBytesRemaining }
  setNext (setSize h block (h.size block ||| h.blockAllocatedBit)) block 0

/-- Take `block` out of the list, split it, and mark it. -/
def takeBlock (l : Layout) (h : State) (wanted previous block : ℕ) : State :=
  let h := setNext h previous (h.next block)
  let h :=
    if heapMinimumBlockSize < h.size block-wanted then
      let newBlock := block+wanted
      let h := setSize h newBlock (h.size block-wanted)
      let h := setSize h block wanted
      prvInsertBlockIntoFreeList l h newBlock
    else h
  markBlock h block

/-- The heap afterwards and the pointer that is returned, 0 for `NULL`. -/
def pvPortMalloc (l : Layout) (h : State) (n : ℕ) : State × ℕ :=
  let h := if h.pxEnd = 0 then prvHeapInit l h else h
  if n &&& h.blockAllocatedBit = 0 then
    let wanted := wantedSize n
    if 0 < wanted ∧ wanted ≤ h.freeBytesRemaining then
      let r := searchLoop h wanted configTotalHeapSize l.xStart (h.next l.xStart)
      if r.2 ≠ h.pxEnd then (takeBlock l h wanted r.1 r.2,h.next r.1+heapStructSize) else (h,0)
    else (h,0)
  else (h,0)

def vPortFree (l : Layout) (h : State) (p : ℕ) : State :=
  if p = 0 then h
  else
    let link := p-heapStructSize
    if h.size link &&& h.blockAllocatedBit ≠ 0 then
      if h.next link = 0 then
        let h := setSize h link (h.size link &&& (2^32-1-h.blockAllocatedBit))
        prvInsertBlockIntoFreeList l
          { h with freeBytesRemaining := wrap 32 ((h.freeBytesRemaining : ℤ)+h.size link) } link
      else h
    else h

def Sized (h : State) (x : ℕ) (b : Block) : Prop := b.free = true → h.size x = b.size

/-- A block that is given away has its size with the top bit set, and no successor. -/
def Marked (h : State) (x : ℕ) (b : Block) : Prop :=
  b.free = false → h.next x = 0 ∧ h.size x = b.size ||| h.blockAllocatedBit

/-- The list leads past a block of `n` bytes between `bs` and `cs`, which lie from `a` on. -/
structure Detached (l : Layout) (h : State) (a : ℕ) (bs : List Block) (n : ℕ) (cs : List Block) :
    Prop where
  solid : Solid bs ∧ 0 < n ∧ Solid cs
  outside : l.xStart < a ∨ h.pxEnd < l.xStart
  end_eq : h.pxEnd = a+total bs+n+total cs
  small : total bs < configTotalHeapSize
  front : Linked h.next l.xStart a bs (firstFree (a+total bs+n) cs h.pxEnd)
  behind : Linked h.next (lastFree l.xStart a bs) (a+total bs+n) cs h.pxEnd
  sized : Labelled (Sized h) a bs ∧ Labelled (Sized h) (a+total bs+n) cs
  hole : h.size (a+total bs) = n
  start_size : h.size l.xStart = 0

theorem length_le_total {bs : List Block} (hs : Solid bs) : bs.length ≤ total bs := by
  induction bs with
  | nil => exact Nat.zero_le _
  | cons b bs ih =>
    obtain ⟨hb,hs⟩ := solid_cons.mp hs
    have := ih hs
    simp only [List.length_cons,total]
    omega

theorem insertLoop_eq {h : State} {block fuel prev a stop : ℕ} {bs : List Block}
    (hl : Linked h.next prev a bs stop) (hs : Solid bs) (hlow : a+total bs ≤ block)
    (hhigh : block ≤ stop) (hfuel : bs.length < fuel) :
    insertLoop h block fuel prev = lastFree prev a bs := by
  induction bs generalizing prev a fuel with
  | nil =>
    obtain ⟨fuel,rfl⟩ : ∃ k, fuel = k+1 := ⟨fuel-1,by simp at hfuel; omega⟩
    rw [insertLoop,if_neg (by rw [show h.next prev = stop from hl]; omega)]
    rfl
  | cons b bs ih =>
    obtain ⟨hb,hs⟩ := solid_cons.mp hs
    simp only [total,List.length_cons] at hlow hfuel
    simp only [Linked] at hl
    by_cases hf : b.free = true
    · rw [if_pos hf] at hl
      obtain ⟨fuel,rfl⟩ : ∃ k, fuel = k+1 := ⟨fuel-1,by omega⟩
      rw [insertLoop,hl.1,if_pos (by omega),ih hl.2 hs (by omega) (by omega)]
      simp [lastFree,hf]
    · rw [if_neg hf] at hl
      rw [ih hl hs (by omega) (by omega)]
      simp [lastFree,hf]

section Insert

variable {l : Layout} {h : State} {a n : ℕ} {bs cs : List Block}

theorem setSize_self (h : State) (p : ℕ) : setSize h p (h.size p) = h := by
  simp [setSize]

theorem setNext_self {h : State} {p v : ℕ} (hv : h.next p = v) : setNext h p v = h := by
  simp [setNext,← hv]

@[simp] theorem setSize_setSize (h : State) (p v w : ℕ) :
    setSize (setSize h p v) p w = setSize h p w := by
  simp [setSize]

theorem mergeFront_eq (hd : Detached l h a bs n cs) : ∃ bs' k, TakesLeft bs n bs' k ∧
    mergeFront h (lastFree l.xStart a bs) (a+total bs) =
      (setSize h (a+total bs') k,a+total bs') ∧
    (lastFree l.xStart a bs = lastFree l.xStart a bs' ∨
      lastFree l.xStart a bs = a+total bs' ∧ h.next (lastFree l.xStart a bs') = a+total bs') ∧
    ∃ stop, Linked h.next l.xStart a bs' stop := by
  have hend := hd.end_eq
  have hnot : lastFree l.xStart a bs + h.size (lastFree l.xStart a bs) ≠ a+total bs →
      (∀ b, bs.getLast? = some b → b.free = false) → ∃ bs' k, TakesLeft bs n bs' k ∧
      mergeFront h (lastFree l.xStart a bs) (a+total bs) =
        (setSize h (a+total bs') k,a+total bs') ∧
      (lastFree l.xStart a bs = lastFree l.xStart a bs' ∨
        lastFree l.xStart a bs = a+total bs' ∧ h.next (lastFree l.xStart a bs') = a+total bs') ∧
      ∃ stop, Linked h.next l.xStart a bs' stop := by
    intro hne hlast
    refine ⟨bs,n,Or.inl ⟨rfl,rfl,hlast⟩,?_,Or.inl rfl,_,hd.front⟩
    have hself := setSize_self h (a+total bs)
    rw [hd.hole] at hself
    rw [mergeFront,if_neg hne,hself]
  rcases List.eq_nil_or_concat bs with hbs | ⟨bs',b,hbs⟩
  · apply hnot
    · rw [hbs]
      simp only [lastFree,hd.start_size,total]
      have := hd.outside
      omega
    · simp [hbs]
  · rw [List.concat_eq_append] at hbs
    have htotal : total bs = total bs'+b.size := by simp [hbs,total]
    have hsolid := hd.solid.1
    rw [hbs,solid_append,solid_cons] at hsolid
    have hlabel := hd.sized.1
    rw [hbs,labelled_append,labelled_cons] at hlabel
    by_cases hb : b.free = true
    · have hit : lastFree l.xStart a bs = a+total bs' := by
        rw [hbs,lastFree_append]
        simp [lastFree,hb]
      have hsize : h.size (a+total bs') = b.size := hlabel.2.1 hb
      have hfront := hd.front
      rw [hbs,linked_append] at hfront
      refine ⟨bs',b.size+n,Or.inr ⟨b,hb,hbs,rfl⟩,?_,Or.inr ⟨hit,?_⟩,_,hfront.1⟩
      · rw [hit,mergeFront,if_pos (by omega),hd.hole,hsize]
      · have hlast := hfront.2
        simp only [Linked,if_pos hb] at hlast
        exact hlast.1
    · have hit : lastFree l.xStart a bs = lastFree l.xStart a bs' := by
        rw [hbs,lastFree_append]
        simp [lastFree,hb]
      apply hnot
      · rw [hit]
        rcases lastFree_mem l.xStart a bs' with he | ⟨c,hc,hmem⟩
        · rw [he,hd.start_size]
          have := hd.outside
          omega
        · have hsize : h.size (lastFree l.xStart a bs') = c.size := hlabel.1 _ hmem hc
          have hbound := (placed_bounds hmem).2
          dsimp only at hbound
          have := hsolid.2.1
          omega
      · simpa [hbs] using hb

theorem mergeBehind_eq {iterator p k : ℕ} (hs : Solid cs) (hk : 0 < k)
    (hend : h.pxEnd = p+k+total cs) (hnext : h.next iterator = firstFree (p+k) cs h.pxEnd)
    (hbehind : Linked h.next iterator (p+k) cs h.pxEnd) (hlabel : Labelled (Sized h) (p+k) cs) :
    ∃ cs' m, TakesRight cs k cs' m ∧ mergeBehind (setSize h p k) iterator p =
      setNext (setSize h p m) p (firstFree (p+m) cs' h.pxEnd) ∧
      ∃ start, Linked h.next start (p+m) cs' h.pxEnd := by
  have hsize : (setSize h p k).size p = k := by simp [setSize]
  have hnext' : (setSize h p k).next = h.next := rfl
  have hpx : (setSize h p k).pxEnd = h.pxEnd := rfl
  cases cs with
  | nil =>
    refine ⟨[],k,Or.inl ⟨rfl,rfl,by simp⟩,?_,iterator,hbehind⟩
    simp only [total,firstFree] at hend hnext
    rw [mergeBehind,hsize,hnext',hpx,if_pos (by omega),if_neg (by omega)]
    rfl
  | cons c cs =>
    obtain ⟨hc,hs⟩ := solid_cons.mp hs
    rw [labelled_cons] at hlabel
    by_cases hf : c.free = true
    · have hcsize : h.size (p+k) = c.size := hlabel.1 hf
      simp only [Linked,if_pos hf] at hbehind
      simp only [total] at hend
      refine ⟨cs,k+c.size,Or.inr ⟨c,hf,rfl,rfl⟩,?_,p+k,by rw [← Nat.add_assoc]; exact hbehind.2⟩
      have hother : (setSize h p k).size (p+k) = c.size := by
        rw [← hcsize]
        exact Function.update_of_ne (by omega) _ _
      rw [mergeBehind,hsize,hnext',hbehind.1,if_pos rfl,hpx,if_pos (by omega),hother,setSize_setSize]
      show setNext (setSize h p (k+c.size)) p (h.next (h.next iterator)) = _
      rw [hbehind.1,hbehind.2.first,Nat.add_assoc]
    · refine ⟨c::cs,k,Or.inl ⟨rfl,rfl,by simpa using hf⟩,?_,iterator,hbehind⟩
      have hpast : p+k < firstFree (p+k) (c::cs) h.pxEnd := by
        simp only [total] at hend
        have := (firstFree_bounds (p+k+c.size) cs h.pxEnd (by omega)).1
        simp only [firstFree,if_neg hf]
        omega
      rw [mergeBehind,hsize,hnext',hnext,if_neg (by omega)]

/-- The list after a block of `m` bytes at `a+total bs` has been linked in. -/
def relinked (l : Layout) (h : State) (a : ℕ) (bs : List Block) (m : ℕ) (cs : List Block) : State :=
  setNext (setNext (setSize h (a+total bs) m) (a+total bs)
    (firstFree (a+total bs+m) cs h.pxEnd)) (lastFree l.xStart a bs) (a+total bs)

theorem insert_eq (hd : Detached l h a bs n cs) : ∃ bs' k cs' m, TakesLeft bs n bs' k ∧
    TakesRight cs k cs' m ∧
    prvInsertBlockIntoFreeList l h (a+total bs) = relinked l h a bs' m cs' ∧
    (∃ stop, Linked h.next l.xStart a bs' stop) ∧
    ∃ start, Linked h.next start (a+total bs'+m) cs' h.pxEnd := by
  have hend := hd.end_eq
  have hloop : insertLoop h (a+total bs) configTotalHeapSize l.xStart = lastFree l.xStart a bs := by
    refine insertLoop_eq hd.front hd.solid.1 le_rfl ?_ ?_
    · have := (firstFree_bounds (a+total bs+n) cs h.pxEnd (by omega)).1
      omega
    · exact lt_of_le_of_lt (length_le_total hd.solid.1) hd.small
  obtain ⟨bs',k,hleft,hmerge,hit,hfront⟩ := mergeFront_eq hd
  have htotal := hleft.total_eq
  have hseam : a+total bs+n = a+total bs'+k := by omega
  have hk : 0 < k := by
    have := hd.solid.2.1
    rcases hleft with ⟨-,rfl,-⟩ | ⟨b,-,-,rfl⟩ <;> omega
  have hbehind := hd.behind
  have hlabel := hd.sized.2
  rw [hseam] at hbehind hlabel
  obtain ⟨cs',m,hright,hmerge',hrest⟩ := mergeBehind_eq hd.solid.2.2 hk (by omega) hbehind.first
    hbehind hlabel
  refine ⟨bs',k,cs',m,hleft,hright,?_,hfront,hrest⟩
  simp only [prvInsertBlockIntoFreeList,hloop,hmerge,hmerge']
  have hsolid : Solid bs' := by
    have := hd.solid.1
    rcases hleft with ⟨rfl,-⟩ | ⟨b,-,rfl,-⟩
    · exact this
    · exact (solid_append.mp this).1
  have hlast : lastFree l.xStart a bs' ≠ a+total bs' := by
    have := hd.outside
    rcases lastFree_bounds l.xStart a bs' hsolid with he | he <;> omega
  rcases hit with hit | ⟨hit,hnext⟩
  · rw [hit,if_pos hlast]
    rfl
  · rw [if_neg (by simpa using hit)]
    have hsame : (setNext (setSize h (a+total bs') m) (a+total bs')
        (firstFree (a+total bs'+m) cs' h.pxEnd)).next (lastFree l.xStart a bs') = a+total bs' := by
      simp [setNext,setSize,hlast,hnext]
    rw [relinked,setNext_self hsame]

theorem relinked_frame {x m : ℕ} {bs' cs' : List Block} (hx : x ≠ a+total bs')
    (hx' : x ≠ lastFree l.xStart a bs') :
    (relinked l h a bs' m cs').next x = h.next x ∧ (relinked l h a bs' m cs').size x = h.size x := by
  simp [relinked,setNext,setSize,hx,hx']

theorem relinked_size {x m : ℕ} {bs' cs' : List Block} (hx : x ≠ a+total bs') :
    (relinked l h a bs' m cs').size x = h.size x := by
  simp [relinked,setNext,setSize,hx]

theorem relinked_spec {m stop start : ℕ} {bs' cs' : List Block}
    (hb : Solid bs') (hm : 0 < m) (hc : Solid cs')
    (hout : l.xStart < a ∨ h.pxEnd < l.xStart) (hend : h.pxEnd = a+total bs'+m+total cs')
    (hfront : Linked h.next l.xStart a bs' stop)
    (hbehind : Linked h.next start (a+total bs'+m) cs' h.pxEnd)
    (hlf : Labelled (Sized h) a bs') (hlb : Labelled (Sized h) (a+total bs'+m) cs') :
    Linked (relinked l h a bs' m cs').next l.xStart a (bs'++⟨m,none⟩::cs') h.pxEnd ∧
      Labelled (Sized (relinked l h a bs' m cs')) a (bs'++⟨m,none⟩::cs') := by
  have hlast := lastFree_bounds l.xStart a bs' hb
  have hne : lastFree l.xStart a bs' ≠ a+total bs' := by
    rcases hlast with he | he <;> omega
  constructor
  · rw [linked_append]
    refine ⟨?_,?_⟩
    · have hstop : firstFree (a+total bs') (⟨m,none⟩::cs') h.pxEnd = a+total bs' := by
        simp [firstFree,Block.free]
      rw [hstop]
      have hre := hfront.redirect hb (by omega) (a+total bs')
      have hsame : ∀ x, x ≠ a+total bs' → (relinked l h a bs' m cs').next x =
          Function.update h.next (lastFree l.xStart a bs') (a+total bs') x := by
        intro x hx
        simp only [relinked,setNext,setSize,Function.update_apply,if_neg hx]
      refine hre.restart hb ?_ fun x h₁ h₂ => hsame x (by omega)
      rw [← hre.first]
      exact hsame _ (by omega)
    · simp only [Linked,Block.free,Option.isNone_none,if_true]
      refine ⟨by simp [relinked,setNext],hbehind.restart hc ?_ fun x h₁ h₂ => ?_⟩
      · simp [relinked,setNext,setSize,Ne.symm hne]
      · exact (relinked_frame (by omega) (by rcases hlast with he | he <;> omega)).1
  · rw [labelled_append,labelled_cons]
    refine ⟨fun x hx hf => ?_,fun _ => by simp [relinked,setNext,setSize],fun x hx hf => ?_⟩
    · have hbound := placed_bounds hx
      have hpos := hb x.2 (mem_of_mem_placed hx)
      rw [relinked_size (by omega)]
      exact hlf x hx hf
    · have hbound : a+total bs'+m ≤ x.1 ∧ x.1+x.2.size ≤ a+total bs'+m+total cs' := placed_bounds hx
      rw [relinked_size (by omega)]
      exact hlb x hx hf

/-- A detached block is linked in and merged; the blocks that are given away are not
touched. -/
theorem insert_spec (hd : Detached l h a bs n cs) :
    ∃ next size, prvInsertBlockIntoFreeList l h (a+total bs) = { h with next := next,size := size } ∧
      Linked next l.xStart a (join bs n cs) h.pxEnd ∧
      Labelled (Sized { h with next := next,size := size }) a (join bs n cs) ∧
      size l.xStart = 0 ∧ size h.pxEnd = h.size h.pxEnd ∧ next h.pxEnd = h.next h.pxEnd ∧
      ∀ x c, c.free = false → (x,c) ∈ placed a bs ∨ (x,c) ∈ placed (a+total bs+n) cs →
        next x = h.next x ∧ size x = h.size x := by
  obtain ⟨bs',k,cs',m,hleft,hright,hinsert,⟨stop,hfront⟩,start,hbehind⟩ := insert_eq hd
  have hend := hd.end_eq
  have hout := hd.outside
  have hl := hleft.total_eq
  have hr := hright.total_eq
  obtain ⟨hsb,hn,hsc⟩ := hd.solid
  obtain ⟨hlabelb,hlabelc⟩ := hd.sized
  have hbs' : Solid bs' ∧ Labelled (Sized h) a bs' ∧ ∀ x c, c.free = true → (x,c) ∈ placed a bs' →
      (x,c) ∈ placed a bs := by
    rcases hleft with ⟨rfl,-⟩ | ⟨b,-,rfl,-⟩
    · exact ⟨hsb,hlabelb,fun _ _ _ hx => hx⟩
    · exact ⟨(solid_append.mp hsb).1,(labelled_append.mp hlabelb).1,fun x c _ hx => by
        rw [placed_append]
        exact List.mem_append_left _ hx⟩
  have hcs' : Solid cs' ∧ Labelled (Sized h) (a+total bs'+m) cs' := by
    rw [show a+total bs+n = a+total bs'+k by omega] at hlabelc
    rcases hright with ⟨rfl,rfl,-⟩ | ⟨c,-,rfl,rfl⟩
    · exact ⟨hsc,hlabelc⟩
    · refine ⟨(solid_cons.mp hsc).2,?_⟩
      rw [← Nat.add_assoc]
      exact (labelled_cons.mp hlabelc).2
  have hm : 0 < m := by
    rcases hleft with ⟨-,rfl,-⟩ | ⟨b,-,-,rfl⟩ <;>
      rcases hright with ⟨-,rfl,-⟩ | ⟨c,-,-,rfl⟩ <;> omega
  have hspec := relinked_spec hbs'.1 hm hcs'.1 hout (by omega) hfront hbehind hbs'.2.1 hcs'.2
  rw [← join_of_takes hleft hright] at hspec
  have hlast := lastFree_bounds l.xStart a bs' hbs'.1
  refine ⟨(relinked l h a bs' m cs').next,(relinked l h a bs' m cs').size,hinsert,hspec.1,hspec.2,
    ?_,?_,?_,?_⟩
  · rw [← hd.start_size]
    exact relinked_size (by omega)
  · exact relinked_size (by omega)
  · exact (relinked_frame (by omega) (by rcases hlast with he | he <;> omega)).1
  · intro x c hc hx
    have hplace : x ≠ a+total bs' ∧ x ≠ lastFree l.xStart a bs' := by
      rcases hx with hx | hx
      · have hbound := placed_bounds hx
        have hpos := hsb c (mem_of_mem_placed hx)
        dsimp only at hbound
        have hfree : ∀ d, d.free = true → (x,d) ∉ placed a bs := fun d hd' hmem => by
          rw [placed_unique hsb hx hmem,hd'] at hc
          cases hc
        constructor
        · rintro rfl
          rcases hleft with ⟨rfl,-⟩ | ⟨b,hb,rfl,-⟩
          · omega
          · apply hfree b hb
            rw [placed_append]
            simp [placed]
        · rintro rfl
          rcases lastFree_mem l.xStart a bs' with he | ⟨d,hd',hmem⟩
          · omega
          · exact hfree d hd' (hbs'.2.2 _ d hd' hmem)
      · have hbound := placed_bounds hx
        have hpos := hsc c (mem_of_mem_placed hx)
        dsimp only at hbound
        have hk : 0 < k := by
          rcases hleft with ⟨-,rfl,-⟩ | ⟨b,-,-,rfl⟩ <;> omega
        exact ⟨by omega,by rcases hlast with he | he <;> omega⟩
    exact relinked_frame hplace.1 hplace.2

end Insert

end Heap
end EmbeddedShell
