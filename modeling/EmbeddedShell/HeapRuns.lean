import EmbeddedShell.HeapTiling

/-!
# Runs of an application on the kernel heap

An application asks for memory, returns it, and writes to the memory it holds. In every
run of an application that returns only what it holds and writes only there, the blocks
it holds lie apart, the heap refuses a request only if there is no room for it, and
every byte is accounted for.
-/

namespace EmbeddedShell
namespace Heap

open Execution Tiling

inductive Call where
  | malloc (n : ℕ)
  | free (p : ℕ)
  | write (x next size : ℕ)
  deriving DecidableEq

/-- The heap, and the pointers that an application holds with what it asked for. -/
structure Application where
  heap : State
  held : List (ℕ × ℕ)

/-- A write changes the words that a `BlockLink_t` at the address would have. -/
def application (l : Layout) : Machine Application Call ℕ
  | s, .malloc n =>
    let r := pvPortMalloc l s.heap n
    (⟨r.1,if r.2 = 0 then s.held else (r.2,n)::s.held⟩,[r.2])
  | s, .free p => (⟨vPortFree l s.heap p,s.held.filter fun b => b.1 ≠ p⟩,[])
  | s, .write x next size => ({ s with heap := setSize (setNext s.heap x next) x size },[])

/-- Only what is held is returned or written, and a request is a `size_t`. -/
def Proper (s : Application) : Call → Prop
  | .malloc n => n < 2^32
  | .free p => p = 0 ∨ ∃ b ∈ s.held, b.1 = p
  | .write x _ _ => ∃ b ∈ s.held, b.1 ≤ x ∧ x < b.1+b.2

instance (s : Application) : (c : Call) → Decidable (Proper s c)
  | .malloc n => inferInstanceAs (Decidable (n < 2^32))
  | .free p => inferInstanceAs (Decidable (p = 0 ∨ ∃ b ∈ s.held, b.1 = p))
  | .write x _ _ => inferInstanceAs (Decidable (∃ b ∈ s.held, b.1 ≤ x ∧ x < b.1+b.2))

def blank : Application := ⟨⟨fun _ => 0,fun _ => 0,0,0,0,0⟩,[]⟩

def pointers (l : Layout) (bs : List Block) : List (ℕ × ℕ) :=
  (owned (alignedHeap l) bs).map fun x => (x.1+heapStructSize,x.2)

/-- The heap has a tiling whose blocks that are given away are those that are held. -/
def Started (l : Layout) (s : Application) : Prop :=
  ∃ bs, Represents l s.heap bs ∧ s.held.Perm (pointers l bs)

/-- Nothing is held of a heap that has not been used. -/
def Accounted (l : Layout) (s : Application) : Prop :=
  (s.heap.pxEnd = 0 ∧ s.held = []) ∨ Started l s

section Runs

variable {l : Layout} {h : State} {s : Application} {bs pre post : List Block} {m n : ℕ}

theorem mem_pointers {x : ℕ × ℕ} : x ∈ pointers l bs ↔
    ∃ pre m post, bs = pre++⟨m,some x.2⟩::post ∧ x.1 = alignedHeap l+total pre+heapStructSize := by
  simp only [pointers,List.mem_map]
  constructor
  · rintro ⟨y,hy,rfl⟩
    obtain ⟨c,hc,ho⟩ := mem_owned.mp hy
    obtain ⟨pre,post,hbs,hx⟩ := mem_placed.mp hc
    obtain ⟨m,o⟩ := c
    dsimp only at hbs hx ho ⊢
    rw [ho] at hbs
    exact ⟨pre,m,post,hbs,by rw [hx]⟩
  · rintro ⟨pre,m,post,rfl,hx⟩
    refine ⟨(alignedHeap l+total pre,x.2),mem_owned.mpr ⟨⟨m,some x.2⟩,?_,rfl⟩,by rw [← hx]⟩
    exact mem_placed.mpr ⟨pre,post,rfl,rfl⟩

theorem malloc_first (l : Layout) {h : State} (hp : h.pxEnd = 0) (n : ℕ) :
    pvPortMalloc l h n = pvPortMalloc l (prvHeapInit l h) n := by
  have hready : ¬ (prvHeapInit l h).pxEnd = 0 := by
    have hend := (init_represents l h).end_eq
    have hpos := Represents.base_pos l
    have ht := (init_represents l h).total_eq
    omega
  simp only [pvPortMalloc,if_pos hp,if_neg hready]

theorem malloc_started (hr : Represents l h bs) {held : List (ℕ × ℕ)} (hp : held.Perm (pointers l bs))
    {n : ℕ} (hn : n < 2^32) : Started l ⟨(pvPortMalloc l h n).1,
      if (pvPortMalloc l h n).2 = 0 then held else ((pvPortMalloc l h n).2,n)::held⟩ := by
  rcases malloc_represents hr hn with ⟨-,hcode⟩ | ⟨pre,b,post,rfl,hf,-,-,-,hptr,hrep⟩
  · rw [hcode]
    exact ⟨bs,hr,hp⟩
  · refine ⟨_,hrep,?_⟩
    rw [if_neg (by rw [hptr,heapStructSize]; omega),hptr]
    have ho := Block.owner_of_free hf
    simp only [pointers,owned_append,owned,ho,Option.map_none,Option.toList_none,List.nil_append,
      List.map_append] at hp
    simp only [pointers,owned_append,owned_cut,total_cut,List.map_append,List.map_cons,
      List.cons_append,List.nil_append]
    exact (hp.cons _).trans List.perm_middle.symm

theorem filter_pointers {m n : ℕ} (hs : Solid (pre++⟨m,some n⟩::post)) :
    (pointers l (pre++⟨m,some n⟩::post)).filter
        (fun b => b.1 ≠ alignedHeap l+total pre+heapStructSize) = pointers l (join pre m post) := by
  rw [solid_append,solid_cons] at hs
  have hfront : ∀ x ∈ owned (alignedHeap l) pre, x.1 < alignedHeap l+total pre := by
    intro x hx
    obtain ⟨c,hc,-⟩ := mem_owned.mp hx
    have hbound := (placed_bounds hc).2
    have hpos := hs.1 c (mem_of_mem_placed hc)
    dsimp only at hbound
    omega
  have hbehind : ∀ x ∈ owned (alignedHeap l+total pre+m) post, alignedHeap l+total pre < x.1 := by
    intro x hx
    obtain ⟨c,hc,-⟩ := mem_owned.mp hx
    have hbound := (placed_bounds hc).1
    have hpos := hs.2.1
    dsimp only at hbound hpos
    omega
  have hkeep : ∀ xs : List (ℕ × ℕ), (∀ x ∈ xs, x.1 ≠ alignedHeap l+total pre) →
      (xs.map fun x => (x.1+heapStructSize,x.2)).filter
        (fun b => b.1 ≠ alignedHeap l+total pre+heapStructSize) =
          xs.map fun x => (x.1+heapStructSize,x.2) := by
    intro xs hxs
    refine List.filter_eq_self.mpr fun y hy => ?_
    obtain ⟨x,hx,rfl⟩ := List.mem_map.mp hy
    simpa using hxs x hx
  simp only [pointers,owned_join,owned_append,owned,Option.map_some,Option.toList_some,List.map_append,
    List.map_cons,List.filter_append,List.cons_append,List.nil_append]
  rw [hkeep _ fun x hx => (hfront x hx).ne,List.filter_cons_of_neg (by simp),
    hkeep _ fun x hx => (hbehind x hx).ne']

theorem free_started (hr : Represents l h bs) {held : List (ℕ × ℕ)} (hp : held.Perm (pointers l bs))
    {p : ℕ} (hheld : p = 0 ∨ ∃ b ∈ held, b.1 = p) :
    Started l ⟨vPortFree l h p,held.filter fun b => b.1 ≠ p⟩ := by
  rcases hheld with rfl | ⟨b,hb,rfl⟩
  · refine ⟨bs,by simpa [vPortFree] using hr,?_⟩
    have hkeep : held.filter (fun b => b.1 ≠ 0) = held := by
      refine List.filter_eq_self.mpr fun x hx => ?_
      obtain ⟨pre,m,post,-,hx⟩ := mem_pointers.mp (hp.subset hx)
      simp only [heapStructSize] at hx
      simp only [decide_eq_true_eq]
      omega
    rw [hkeep]
    exact hp
  · obtain ⟨pre,m,post,rfl,hx⟩ := mem_pointers.mp (hp.subset hb)
    rw [hx]
    refine ⟨_,free_represents hr,?_⟩
    rw [← filter_pointers hr.solid]
    exact hp.filter _

theorem step_started (hs : Started l s) {c : Call} (hc : Proper s c) : Started l (application l s c).1 := by
  obtain ⟨bs,hr,hheld⟩ := hs
  cases c with
  | malloc n => exact malloc_started hr hheld hc
  | free p => exact free_started hr hheld hc
  | write x next size =>
    obtain ⟨b,hb,hlow,hhigh⟩ := hc
    obtain ⟨pre,m,post,hbs,hx⟩ := mem_pointers.mp (hheld.subset hb)
    have hsize := (hr.owners ⟨m,some b.2⟩ (by simp [hbs]) b.2 rfl).2.1
    dsimp only at hsize
    refine ⟨bs,write_represents hr (b := ⟨m,some b.2⟩) (mem_placed.mpr ⟨pre,post,hbs,rfl⟩) ?_ ?_,hheld⟩
    · simp only [heapStructSize] at hx
      omega
    · dsimp only
      omega

theorem first_malloc_started (hp : s.heap.pxEnd = 0) (hheld : s.held = []) {n : ℕ} (hn : n < 2^32) :
    Started l (application l s (.malloc n)).1 := by
  simp only [application,malloc_first l hp,hheld]
  exact malloc_started (init_represents l s.heap) (by rfl) hn

theorem step_accounted (hs : Accounted l s) {c : Call} (hc : Proper s c) :
    Accounted l (application l s c).1 := by
  rcases hs with ⟨hp,hheld⟩ | hs
  · cases c with
    | malloc n => exact Or.inr (first_malloc_started hp hheld hc)
    | free p =>
      left
      have hzero : p = 0 := by simpa [Proper,hheld] using hc
      simpa [application,hzero,vPortFree,hheld] using hp
    | write x next size =>
      obtain ⟨b,hb,-⟩ := hc
      rw [hheld] at hb
      cases hb
  · exact Or.inr (step_started hs hc)

theorem run_accounted (l : Layout) {calls : List Call} (hc : Along (application l) Proper blank calls) :
    Accounted l (run (application l) blank calls) :=
  run_invariant (C := Proper) (P := Accounted l) (fun _ _ hs hc => step_accounted hs hc)
    (Or.inl ⟨rfl,rfl⟩) hc

theorem run_started (l : Layout) {calls : List Call} (hc : Along (application l) Proper blank calls)
    (hm : ∃ n, Call.malloc n ∈ calls) : Started l (run (application l) blank calls) := by
  obtain ⟨n,hn⟩ := hm
  obtain ⟨pre,post,rfl⟩ := List.append_of_mem hn
  rw [along_append,along_cons] at hc
  rw [run_append,run_cons]
  refine run_invariant (C := Proper) (P := Started l) (fun _ _ hs hc => step_started hs hc) ?_ hc.2.2
  rcases run_accounted l hc.1 with ⟨hp,hheld⟩ | hs
  · exact first_malloc_started hp hheld hc.2.1
  · exact step_started hs hc.2.1

/-- The size of a block that is held, as its `BlockLink_t` has it without the top bit. -/
def blockSize (h : State) (p : ℕ) : ℕ := h.size (p-heapStructSize)%2^31

theorem Represents.blockSize_eq (hr : Represents l h (pre++⟨m,some n⟩::post)) :
    blockSize h (alignedHeap l+total pre+heapStructSize) = m := by
  have hmarked := hr.marked
  rw [labelled_append,labelled_cons] at hmarked
  have hm : m < 2^31 := hr.size_lt (b := ⟨m,some n⟩) (by simp)
  rw [blockSize,Nat.add_sub_cancel,(hmarked.2.1 rfl).2,hr.bit_eq,or_allocatedBit hm,Nat.add_mod_right,
    Nat.mod_eq_of_lt hm]

/-- In every run, the blocks that are held lie apart with their `BlockLink_t`s, in
`ucHeap` and in front of its end marker; each of them is aligned and has the bytes that
were asked for, and not many more. -/
theorem held_blocks_apart (l : Layout) (calls : List Call)
    (hc : Along (application l) Proper blank calls) :
    ((run (application l) blank calls).held.Pairwise fun b c =>
      b.1+b.2+heapStructSize ≤ c.1 ∨ c.1+c.2+heapStructSize ≤ b.1) ∧
    ∀ b ∈ (run (application l) blank calls).held,
      b.1%portByteAlignment = 0 ∧ l.ucHeap+heapStructSize ≤ b.1 ∧
      b.1+b.2 ≤ heapEnd l ∧
      b.1-heapStructSize+blockSize (run (application l) blank calls).heap b.1 ≤ heapEnd l ∧
      (run (application l) blank calls).heap.pxEnd = heapEnd l ∧
      heapEnd l+heapStructSize ≤ l.ucHeap+configTotalHeapSize ∧
      b.2+heapStructSize ≤ blockSize (run (application l) blank calls).heap b.1 ∧
      blockSize (run (application l) blank calls).heap b.1 < b.2+32 := by
  rcases run_accounted l hc with ⟨-,hheld⟩ | ⟨bs,hr,hheld⟩
  · simp [hheld]
  · constructor
    · rw [hheld.pairwise_iff (fun h => h.symm)]
      refine (owned_pairwise (k := heapStructSize) fun b hb n hn => (hr.owners b hb n hn).2.1).map _
        fun x y h => ?_
      left
      dsimp only
      omega
    · intro b hb
      obtain ⟨pre,m,post,rfl,hx⟩ := mem_pointers.mp (hheld.subset hb)
      have howner := hr.owners ⟨m,some b.2⟩ (by simp) b.2 rfl
      have halign : total pre%8 = 0 := total_mod fun c hc => (hr.sizes c (by simp [hc])).2
      have hbase := alignedHeap_spec l
      have hend := heapEnd_spec l
      have ht := hr.total_eq
      simp only [total_append,total] at ht
      dsimp only at howner
      rw [hx,hr.blockSize_eq,hr.end_eq]
      simp only [portByteAlignment,configTotalHeapSize,heapStructSize,true_and] at howner ⊢
      omega

def board : Layout := ⟨0x20000404,0x20010800,by decide,by decide,by decide⟩

def shortRun : List Call :=
  [.malloc 10,.malloc 24,.malloc 100,.write 0x20000418 7 9,.free 0x20000410,.free 0]

theorem shortRun_proper : Along (application board) Proper blank shortRun := by decide

theorem held_blocks_apart_short :
    (run (application board) blank shortRun).held = [(0x20000448,100),(0x20000428,24)] ∧
    (run (application board) blank shortRun).held.Pairwise fun b c =>
      b.1+b.2+heapStructSize ≤ c.1 ∨ c.1+c.2+heapStructSize ≤ b.1 :=
  ⟨by decide,(held_blocks_apart board shortRun shortRun_proper).1⟩

/-- `w` bytes from `x` on lie between the ends of the heap and in no block that is held. -/
def Room (l : Layout) (s : Application) (x w : ℕ) : Prop :=
  alignedHeap l ≤ x ∧ x+w ≤ heapEnd l ∧
    ∀ b ∈ s.held, b.1-heapStructSize+blockSize s.heap b.1 ≤ x ∨ x+w ≤ b.1-heapStructSize

theorem room_iff (hr : Represents l s.heap bs) (hheld : s.held.Perm (pointers l bs)) {w : ℕ} (hw : 0 < w) :
    (∃ x, Room l s x w) ↔ ∃ b ∈ bs, b.free = true ∧ w ≤ b.size := by
  have ht := hr.total_eq
  constructor
  · rintro ⟨x,hlow,hhigh,hgap⟩
    refine exists_free_of_gap hr.coalesced hw hlow (by omega) fun y hy hu => ?_
    obtain ⟨pre,post,hbs,hat⟩ := mem_placed.mp hy
    obtain ⟨y,⟨m,_ | n⟩⟩ := y
    · cases hu
    · dsimp only at hbs hat ⊢
      subst hbs
      have hgap := hgap (y+heapStructSize,n)
        (hheld.symm.subset (mem_pointers.mpr ⟨pre,m,post,rfl,by rw [hat]⟩))
      dsimp only at hgap
      rw [hat,hr.blockSize_eq,Nat.add_sub_cancel] at hgap
      omega
  · rintro ⟨b,hb,hf,hle⟩
    obtain ⟨x,hx⟩ := exists_placed (alignedHeap l) hb
    have hbound := placed_bounds hx
    dsimp only at hbound
    refine ⟨x,hbound.1,by omega,fun c hc => ?_⟩
    obtain ⟨pre,m,post,rfl,hy⟩ := mem_pointers.mp (hheld.subset hc)
    have hc : ((alignedHeap l+total pre,⟨m,some c.2⟩) : ℕ × Block) ∈ placed (alignedHeap l) _ :=
      mem_placed.mpr ⟨pre,post,rfl,rfl⟩
    have hne : ((alignedHeap l+total pre,⟨m,some c.2⟩) : ℕ × Block) ≠ (x,b) := by
      rintro h
      cases h
      cases hf
    have hapart := placed_apart hc hx hne
    simp only [Apart] at hapart
    rw [hy,hr.blockSize_eq,Nat.add_sub_cancel]
    omega

theorem malloc_zero_iff (hr : Represents l s.heap bs) (hheld : s.held.Perm (pointers l bs)) (hn : n < 2^32) :
    (pvPortMalloc l s.heap n).2 = 0 ↔ n = 0 ∨ 2^31 ≤ n ∨ ¬ ∃ x, Room l s x (wantedSize n) := by
  by_cases hasked : 0 < n ∧ n < 2^31
  · rw [room_iff hr hheld (by have := (wantedSize_spec hasked.1 hasked.2).1; omega)]
    rcases malloc_represents hr hn with ⟨hwhy,hcode⟩ | ⟨pre,b,post,rfl,hf,-,-,hle,hptr,-⟩
    · rw [hcode]
      refine iff_of_true rfl ?_
      rcases hwhy with h | h | h
      · omega
      · omega
      · right
        right
        rintro ⟨b,hb,hf,hle⟩
        have := h b hb hf
        omega
    · rw [hptr]
      refine iff_of_false (by simp only [heapStructSize]; omega) ?_
      rintro (h | h | h)
      · omega
      · omega
      · exact h ⟨b,by simp,hf,hle⟩
  · rcases malloc_represents hr hn with ⟨-,hcode⟩ | ⟨pre,b,post,-,-,hpos,hlt,-⟩
    · rw [hcode]
      exact iff_of_true rfl (by omega)
    · exact absurd ⟨hpos,hlt⟩ hasked

/-- In every run, a request is refused exactly if it is empty, has the top bit set, or
fits nowhere between the blocks that are held. -/
theorem malloc_refused_iff_no_room (l : Layout) (calls : List Call) (n : ℕ)
    (hc : Along (application l) Proper blank calls) (hn : n < 2^32) :
    (pvPortMalloc l (run (application l) blank calls).heap n).2 = 0 ↔
      n = 0 ∨ 2^31 ≤ n ∨ ¬ ∃ x, Room l (run (application l) blank calls) x (wantedSize n) := by
  rcases run_accounted l hc with ⟨hp,hheld⟩ | ⟨bs,hr,hheld⟩
  · have hinit := malloc_zero_iff (s := ⟨prvHeapInit l (run (application l) blank calls).heap,[]⟩)
      (init_represents l _) (by rfl) hn
    rw [malloc_first l hp,hinit]
    simp [Room,hheld]
  · exact malloc_zero_iff hr hheld hn

theorem malloc_granted_short :
    ∃ x, Room board (run (application board) blank [.malloc 10,.malloc 24]) x (wantedSize 20) := by
  by_contra hroom
  have hrefused := malloc_refused_iff_no_room board [.malloc 10,.malloc 24] 20 (by decide) (by decide)
  exact absurd (hrefused.mpr (Or.inr (Or.inr hroom))) (by decide)

/-- In every run that has asked for memory, the free bytes and the blocks that are held
make up the heap; if nothing is held, the heap is one free block again. -/
theorem heap_bytes_accounted (l : Layout) (calls : List Call)
    (hc : Along (application l) Proper blank calls) (hm : ∃ n, Call.malloc n ∈ calls) :
    (run (application l) blank calls).heap.freeBytesRemaining+
      ((run (application l) blank calls).held.map
        fun b => blockSize (run (application l) blank calls).heap b.1).sum =
          heapEnd l-alignedHeap l ∧
    ((run (application l) blank calls).held = [] →
      (run (application l) blank calls).heap.next l.xStart = alignedHeap l ∧
      (run (application l) blank calls).heap.size (alignedHeap l) = heapEnd l-alignedHeap l ∧
      (run (application l) blank calls).heap.next (alignedHeap l) = heapEnd l) := by
  obtain ⟨bs,hr,hheld⟩ := run_started l hc hm
  have ht := hr.total_eq
  constructor
  · rw [(hheld.map _).sum_nat,pointers,List.map_map,hr.free_eq]
    have hsum : ((owned (alignedHeap l) bs).map fun x =>
        blockSize (run (application l) blank calls).heap (x.1+heapStructSize)).sum+freeTotal bs =
          total bs := by
      refine sum_owned (f := fun y => blockSize _ (y+heapStructSize)) ?_
      intro y hy hu
      obtain ⟨pre,post,hbs,hat⟩ := mem_placed.mp hy
      obtain ⟨y,⟨m,_ | n⟩⟩ := y
      · cases hu
      · dsimp only at hbs hat ⊢
        subst hbs
        rw [hat,hr.blockSize_eq]
    simp only [Function.comp_def]
    omega
  · intro hnone
    have howned : owned (alignedHeap l) bs = [] := by
      rw [hnone] at hheld
      simpa [pointers] using hheld.symm.eq_nil
    have hbase := alignedHeap_spec l
    have hend := heapEnd_spec l
    have hbs := eq_singleton_of_owned hr.coalesced howned (by omega)
    have hlinked := hr.linked
    have hsized := hr.sized
    rw [hbs] at hlinked hsized
    simp only [Linked,Block.free,Option.isNone_none,if_true] at hlinked
    have hsize := hsized (alignedHeap l,⟨total bs,none⟩) (by simp [placed]) rfl
    dsimp only at hsize
    exact ⟨hlinked.1,by omega,hlinked.2.trans hr.end_eq⟩

def returnRun : List Call := [.malloc 10,.malloc 24,.free 0x20000410,.free 0x20000428]

theorem heap_bytes_accounted_returned :
    (run (application board) blank returnRun).heap.next board.xStart = alignedHeap board ∧
    (run (application board) blank returnRun).heap.size (alignedHeap board) =
      heapEnd board-alignedHeap board ∧
    (run (application board) blank returnRun).heap.next (alignedHeap board) = heapEnd board :=
  (heap_bytes_accounted board returnRun (by decide) ⟨10,by decide⟩).2 (by decide)

end Runs

end Heap
end EmbeddedShell
