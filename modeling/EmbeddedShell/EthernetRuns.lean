import EmbeddedShell.EthernetIf

/-!
# Ownership of packet buffers

The driver, the stack and the pool as one machine. `link` is a call of the link
callback, `deliver` is what `ethernetif_poll` does with a complete frame, and
`release` is the one `pbuf_free` of an accepted frame. `pbuf_chain` leaves every
later element of a frame with a reference that nobody drops, so only the head of
a frame ever returns to the pool. `Accounted` keeps the books: each element is
free, the head of a frame, or leaked.
-/

namespace EmbeddedShell
namespace EthernetIf

open CString Memory LinkedList Execution Pool

inductive Event
  | link (f : Fragment)
  | deliver (err : ℤ)
  | release (head : ℕ)

/-- Loop body of `ethernetif_poll` for a frame that `netif->input` answers with `err`. -/
def deliver (s : State) (err : ℤ) : State × List Bytes :=
  match s.pStart with
  | none => (s,[])
  | some p =>
    let s := { s with pStart := none, pEnd := none, rxCount := wrap 32 ((s.rxCount+1 : ℕ) : ℤ) }
    if err = 0 then ({ s with pending := s.pending ++ [p] },[])
    else ({ s with pool := s.pool.pbufFree p, rxDrop := wrap 32 ((s.rxDrop+1 : ℕ) : ℤ) },[inputFailed err])

def release (s : State) (head : ℕ) : State :=
  if head ∈ s.pending then { s with pool := s.pool.pbufFree head, pending := s.pending.erase head } else s

def driver : Machine State Event Bytes
  | s, .link f => rxLinkCallback s f
  | s, .deliver err => deliver s err
  | s, .release head => (release s head,[])

/-- A frame as the HAL receives it, with the answer of `netif->input`. -/
structure Frame where
  fragments : List Fragment
  err : ℤ

def Frame.events (frame : Frame) : List Event := frame.fragments.map .link ++ [.deliver frame.err]

/-- `ethernetif_poll`: `HAL_ETH_ReadData` assembles the frames one by one, and the
loop ends at a frame without any buffer. -/
def ethernetifPoll : State → List Frame → State
  | s, [] => s
  | s, frame::frames =>
    let received := run rxLinkCallback s frame.fragments
    if received.pStart = none then received else ethernetifPoll (deliver received frame.err).1 frames

theorem run_link (s : State) (frags : List Fragment) :
    run driver s (frags.map .link) = run rxLinkCallback s frags := by
  induction frags generalizing s with
  | nil => rfl
  | cons f fs ih => exact ih _

theorem run_events (s : State) (frame : Frame) : run driver s frame.events =
    (deliver (run rxLinkCallback s frame.fragments) frame.err).1 := by
  rw [Frame.events,run_append,run_link]
  rfl

theorem ethernetifPoll_eq_run (s : State) (frames : List Frame) :
    ∃ n, ethernetifPoll s frames = run driver s ((frames.take n).flatMap Frame.events) := by
  induction frames generalizing s with
  | nil => exact ⟨0,rfl⟩
  | cons frame frames ih =>
    by_cases hnone : (run rxLinkCallback s frame.fragments).pStart = none
    · refine ⟨1,?_⟩
      simp [ethernetifPoll,hnone,run_events,deliver]
    · obtain ⟨n,hn⟩ := ih (deliver (run rxLinkCallback s frame.fragments) frame.err).1
      refine ⟨n+1,?_⟩
      rw [ethernetifPoll,if_neg hnone,hn,List.take_succ_cons,List.flatMap_cons,run_append,run_events]

/-- Where the elements of the pool are: on the free list, at the head of a frame
(`heads`), or leaked. A head has one reference; its successor has two and is
leaked, and no two heads share it. The frame under assembly is `chain`. -/
structure Accounted (initial : List ℕ) (pool : Pool) (heads : List ℕ) (start : Option ℕ)
    (leaked chain : List ℕ) : Prop where
  all_nodup : (pool.free ++ (heads ++ leaked)).Nodup
  perm : (pool.free ++ (heads ++ leaked)).Perm initial
  lt : ∀ i ∈ initial, i < pool.size
  ref : ∀ h ∈ heads, (pool.cell h).ref = 1
  tail : ∀ h ∈ heads, ∀ t, pool.next h = some t → t ∈ leaked ∧ (pool.cell t).ref = 2
  distinct : (heads.filterMap pool.next).Nodup
  start_mem : ∀ p, start = some p → p ∈ heads
  linked : Segment pool.next start chain none
  nodup : chain.Nodup
  rest : ∀ i ∈ chain.tail, i ∈ leaked

section Books

variable {initial heads leaked chain : List ℕ} {pool pool' : Pool} {start : Option ℕ}

theorem Accounted.notMem_free (h : Accounted initial pool heads start leaked chain) {i : ℕ}
    (hi : i ∈ heads ++ leaked) : i ∉ pool.free := by
  intro hf
  exact List.disjoint_of_nodup_append h.all_nodup hf hi

theorem Accounted.notMem_leaked (h : Accounted initial pool heads start leaked chain) {i : ℕ}
    (hi : i ∈ heads) : i ∉ leaked := by
  intro hl
  exact List.disjoint_of_nodup_append h.all_nodup.of_append_right hi hl

theorem Accounted.tail_ne (h : Accounted initial pool heads start leaked chain) {i t q : ℕ}
    (hi : i ∈ heads) (ht : pool.next i = some t) (href : (pool.cell q).ref = 1) : t ≠ q := by
  have htwo := (h.tail i hi t ht).2
  intro he
  rw [he] at htwo
  omega

theorem Accounted.heads_nodup (h : Accounted initial pool heads start leaked chain) : heads.Nodup :=
  h.all_nodup.of_append_right.of_append_left

theorem Accounted.wellFormed (h : Accounted initial pool heads start leaked chain) :
    WellFormed pool :=
  ⟨h.all_nodup.of_append_left,
    fun i hi => h.lt i (h.perm.mem_iff.mp (List.mem_append_left _ hi))⟩

theorem Accounted.chain_cases (h : Accounted initial pool heads start leaked chain) {i : ℕ}
    (hi : i ∈ chain) : start = some i ∨ i ∈ leaked := by
  cases hc : chain with
  | nil => simp [hc] at hi
  | cons p rest =>
    have hstart := h.linked.start_eq
    rw [hc] at hi hstart
    rcases List.mem_cons.mp hi with rfl | hi
    · exact Or.inl hstart
    · exact Or.inr (h.rest i (by simpa [hc] using hi))

theorem Accounted.mem_chain (h : Accounted initial pool heads start leaked chain) {i : ℕ}
    (hi : i ∈ chain) : i ∈ heads ++ leaked := by
  rcases h.chain_cases hi with hs | hl
  · exact List.mem_append_left _ (h.start_mem i hs)
  · exact List.mem_append_right _ hl

theorem Accounted.notMem_chain (h : Accounted initial pool heads start leaked chain) {i : ℕ}
    (hi : i ∈ heads) (hs : start ≠ some i) : i ∉ chain := by
  intro hmem
  rcases h.chain_cases hmem with he | hl
  · exact hs he
  · exact h.notMem_leaked hi hl

/-- Free elements may be moved and more of them leak, as long as the cells of heads
and leaked elements stay as they are. -/
theorem Accounted.of_free (h : Accounted initial pool heads start leaked chain) (more : List ℕ)
    (hperm : pool.free.Perm (more ++ pool'.free)) (hsize : pool'.size = pool.size)
    (hcell : ∀ i ∈ heads ++ leaked, pool'.cell i = pool.cell i) :
    Accounted initial pool' heads start (more++leaked) chain := by
  have hnext : ∀ i ∈ heads ++ leaked, pool'.next i = pool.next i := next_congr hcell
  have hall : (pool'.free ++ (heads ++ (more ++ leaked))).Perm (pool.free ++ (heads ++ leaked)) := by
    rw [List.perm_iff_count]
    intro a
    have hc := hperm.count_eq a
    simp only [List.count_append] at hc ⊢
    omega
  refine ⟨hall.nodup_iff.mpr h.all_nodup,hall.trans h.perm,?_,?_,?_,?_,h.start_mem,?_,h.nodup,?_⟩
  · rw [hsize]
    exact h.lt
  · intro i hi
    rw [hcell i (List.mem_append_left _ hi)]
    exact h.ref i hi
  · intro i hi t ht
    rw [hnext i (List.mem_append_left _ hi)] at ht
    obtain ⟨hl,hr⟩ := h.tail i hi t ht
    refine ⟨List.mem_append_right _ hl,?_⟩
    rw [hcell t (List.mem_append_right _ hl),hr]
  · rw [List.filterMap_congr (fun i hi => hnext i (List.mem_append_left _ hi))]
    exact h.distinct
  · exact h.linked.congr (fun i hi => hnext i (h.mem_chain hi))
  · intro i hi
    exact List.mem_append_right _ (h.rest i hi)

theorem Accounted.adopt {q : ℕ} (h : Accounted initial pool heads none (q::leaked) chain)
    (hnext : pool.next q = none) (href : (pool.cell q).ref = 1) :
    Accounted initial pool (heads++[q]) (some q) leaked [q] := by
  have hall : (pool.free ++ (heads ++ [q] ++ leaked)) = pool.free ++ (heads ++ (q::leaked)) := by simp
  refine ⟨by rw [hall]; exact h.all_nodup,by rw [hall]; exact h.perm,h.lt,?_,?_,?_,?_,⟨rfl,hnext⟩,
    by simp,by simp⟩
  · intro i hi
    rcases List.mem_append.mp hi with hi | hi
    · exact h.ref i hi
    · obtain rfl : i = q := by simpa using hi
      exact href
  · intro i hi t ht
    rcases List.mem_append.mp hi with hi | hi
    · obtain ⟨hl,hr⟩ := h.tail i hi t ht
      exact ⟨by simpa [h.tail_ne hi ht href] using hl,hr⟩
    · obtain rfl : i = q := by simpa using hi
      rw [hnext] at ht
      cases ht
  · rw [List.filterMap_append]
    simpa [hnext] using h.distinct
  · intro p hp
    obtain rfl := Option.some.inj hp
    simp

/-- The successors of heads after a new element has been put behind the frame under
assembly: only its own head may get one. -/
theorem nodup_filterMap_append {p q : ℕ} {next next' : ℕ → Option ℕ} (hn : heads.Nodup)
    (hp : p ∈ heads) (hd : (heads.filterMap next).Nodup) (hq : q ∉ heads.filterMap next)
    (hothers : ∀ i ∈ heads, i ≠ p → next' i = next i) (hhead : next' p = some ((next p).getD q)) :
    (heads.filterMap next').Nodup := by
  obtain ⟨l,r,rfl⟩ := List.append_of_mem hp
  have hpl : ∀ i ∈ l, i ≠ p := by
    rintro i hi rfl
    exact List.disjoint_of_nodup_append hn hi (by simp)
  have hpr : ∀ i ∈ r, i ≠ p := fun i hi =>
    ne_of_mem_of_not_mem hi (List.nodup_cons.mp hn.of_append_right).1
  have hl : l.filterMap next' = l.filterMap next :=
    List.filterMap_congr (fun i hi => hothers i (by simp [hi]) (hpl i hi))
  have hr : r.filterMap next' = r.filterMap next :=
    List.filterMap_congr (fun i hi => hothers i (by simp [hi]) (hpr i hi))
  rw [List.filterMap_append] at hd hq ⊢
  cases hnext : next p with
  | some t =>
    rw [List.filterMap_cons_some hnext] at hd
    rw [hl,List.filterMap_cons_some hhead,hr,hnext]
    exact hd
  | none =>
    rw [List.filterMap_cons_none hnext] at hd hq
    rw [hl,List.filterMap_cons_some hhead,hr,hnext]
    exact List.perm_middle.nodup_iff.mpr (List.nodup_cons.mpr ⟨hq,hd⟩)

/-- `pbuf_chain` makes the successor of the head, or of a leaked element. -/
theorem Accounted.chain_append {p q : ℕ} (h : Accounted initial pool heads (some p) leaked chain)
    (hq : q ∈ leaked) (hqc : q ∉ chain) (hnext : pool.next q = none) (href : (pool.cell q).ref = 1) :
    Accounted initial (pool.pbufChain p q) heads (some p) leaked (chain++[q]) := by
  have hlen : chain.length ≤ pool.size := length_le_of_lt h.nodup
    (fun i hi => h.lt i (h.perm.mem_iff.mp (List.mem_append_right _ (h.mem_chain hi))))
  obtain ⟨⟨hsize,hoff⟩,hin,hcell⟩ := pbufChain_cell h.linked h.nodup hqc hlen
  have hrefs : ∀ i, i ≠ q → ((pool.pbufChain p q).cell i).ref = (pool.cell i).ref := by
    intro i hi
    by_cases hic : i ∈ chain
    · rw [hin i hic]
    · rw [hoff i (by simp [hic,hi])]
  have hqref : ((pool.pbufChain p q).cell q).ref = 2 := by
    simp [hcell,href]
  have hheads : ∀ i ∈ heads, i ≠ q :=
    fun i hi => (ne_of_mem_of_not_mem hq (h.notMem_leaked hi)).symm
  have hothers : ∀ i ∈ heads, i ≠ p → (pool.pbufChain p q).next i = pool.next i := by
    intro i hi hip
    have hic : i ∉ chain := h.notMem_chain hi (fun he => hip (Option.some.inj he).symm)
    rw [Pool.next,Pool.next,hoff i (by simp [hic,hheads i hi])]
  have hp : p ∈ heads := h.start_mem p rfl
  obtain ⟨rest,hchain⟩ := h.linked.exists_cons
  have hhead : (pool.pbufChain p q).next p = some ((pool.next p).getD q) := by
    rw [Pool.next,hin p (by simp [hchain])]
  have hqtail : q ∉ heads.filterMap pool.next := by
    intro hmem
    obtain ⟨i,hi,ht⟩ := List.mem_filterMap.mp hmem
    exact h.tail_ne hi ht href rfl
  refine ⟨by rw [pbufChain_free]; exact h.all_nodup,by rw [pbufChain_free]; exact h.perm,
    by rw [hsize]; exact h.lt,?_,?_,?_,h.start_mem,pbufChain_linked h.linked h.nodup hqc hlen hnext,?_,?_⟩
  · intro i hi
    rw [hrefs i (hheads i hi)]
    exact h.ref i hi
  · intro i hi t ht
    by_cases hip : i = p
    · subst hip
      rw [hhead] at ht
      cases hn : pool.next i with
      | none =>
        obtain rfl : q = t := by simpa [hn] using ht
        exact ⟨hq,hqref⟩
      | some u =>
        obtain rfl : u = t := by simpa [hn] using ht
        obtain ⟨hl,hr⟩ := h.tail i hi u hn
        exact ⟨hl,by rw [hrefs u (h.tail_ne hi hn href),hr]⟩
    · rw [hothers i hi hip] at ht
      obtain ⟨hl,hr⟩ := h.tail i hi t ht
      exact ⟨hl,by rw [hrefs t (h.tail_ne hi ht href),hr]⟩
  · exact nodup_filterMap_append h.heads_nodup hp h.distinct hqtail hothers hhead
  · exact List.Nodup.append h.nodup (by simp) (by simpa using hqc)
  · intro i hi
    rw [hchain,List.cons_append,List.tail_cons] at hi
    rcases List.mem_append.mp hi with hi | hi
    · exact h.rest i (by simpa [hchain] using hi)
    · obtain rfl : i = q := by simpa using hi
      exact hq

theorem Accounted.complete (h : Accounted initial pool heads start leaked chain) :
    Accounted initial pool heads none leaked [] :=
  ⟨h.all_nodup,h.perm,h.lt,h.ref,h.tail,h.distinct,by simp,rfl,by simp,by simp⟩

theorem Accounted.free_head {p : ℕ} {rest : List ℕ}
    (h : Accounted initial pool heads start leaked chain) (hp : heads.Perm (p::rest))
    (hs : start ≠ some p) : Accounted initial (pool.pbufFree p) rest start leaked chain := by
  have hmem : p ∈ heads := hp.mem_iff.mpr (by simp)
  have hsub : ∀ i ∈ rest, i ∈ heads := fun i hi => hp.mem_iff.mpr (by simp [hi])
  have hne : ∀ i ∈ rest, i ≠ p := fun i hi =>
    ne_of_mem_of_not_mem hi (List.nodup_cons.mp (hp.nodup_iff.mp h.heads_nodup)).1
  have hsize : 0 < pool.size := lt_of_le_of_lt (Nat.zero_le p)
    (h.lt p (h.perm.mem_iff.mp (by simp [hmem])))
  have htail : ∀ t, pool.next p = some t → t ≠ p ∧ (pool.cell t).ref = 2 := by
    intro t ht
    obtain ⟨hl,hr⟩ := h.tail p hmem t ht
    exact ⟨ne_of_mem_of_not_mem hl (h.notMem_leaked hmem),hr⟩
  obtain ⟨hfree,hsz,hnext,hcell⟩ := pbufFree_head hsize (h.ref p hmem) htail
  have hall : ((pool.pbufFree p).free ++ (rest ++ leaked)).Perm (pool.free ++ (heads ++ leaked)) := by
    rw [hfree,List.perm_iff_count]
    intro a
    have hc := hp.count_eq a
    simp only [List.count_append,List.count_cons] at hc ⊢
    omega
  have hd : (p::rest).filterMap pool.next |>.Nodup := (hp.filterMap pool.next).nodup_iff.mp h.distinct
  refine ⟨hall.nodup_iff.mpr h.all_nodup,hall.trans h.perm,by rw [hsz]; exact h.lt,?_,?_,?_,?_,
    h.linked.congr (fun i _ => hnext i),h.nodup,h.rest⟩
  · intro i hi
    rw [hcell i (hne i hi) (fun he => h.notMem_leaked (hsub i hi) (h.tail p hmem i he).1)]
    exact h.ref i (hsub i hi)
  · intro i hi t ht
    rw [hnext i] at ht
    obtain ⟨hl,hr⟩ := h.tail i (hsub i hi) t ht
    refine ⟨hl,?_⟩
    have htp : t ≠ p := ne_of_mem_of_not_mem hl (h.notMem_leaked hmem)
    have hshare : pool.next p ≠ some t := by
      intro he
      rw [List.filterMap_cons_some he] at hd
      exact (List.nodup_cons.mp hd).1 (List.mem_filterMap.mpr ⟨i,hi,ht⟩)
    rw [hcell t htp hshare,hr]
  · rw [List.filterMap_congr (fun i _ => hnext i)]
    exact hd.sublist ((List.sublist_cons_self p rest).filterMap _)
  · intro x hx
    have hxmem := hp.mem_iff.mp (h.start_mem x hx)
    rcases List.mem_cons.mp hxmem with rfl | hxmem
    · exact absurd hx hs
    · exact hxmem

end Books

/-- The books of a state: its heads are the accepted frames and the frame under
assembly. -/
def Balanced (initial : List ℕ) (s : State) (leaked chain : List ℕ) : Prop :=
  Accounted initial s.pool (s.pending ++ s.pStart.toList) s.pStart leaked chain

/-- Elements that no later `pbuf_free` can return. -/
def leakedBy (s : State) : Event → ℕ
  | .link f =>
    if f.Granted s.pool.free.length then
      if s.pStart = none then poolCount f.data.length - 1 else poolCount f.data.length
    else 0
  | _ => 0

/-- A fragment gets a buffer only as the first of its frame, and needs only one. -/
def SingleBuffer (s : State) : Event → Prop
  | .link f => f.Granted s.pool.free.length → s.pStart = none ∧ f.data.length ≤ pbufPoolBufsize
  | _ => True

instance (s : State) : (e : Event) → Decidable (SingleBuffer s e)
  | .link f => inferInstanceAs
      (Decidable (f.Granted s.pool.free.length → s.pStart = none ∧ f.data.length ≤ pbufPoolBufsize))
  | .deliver _ => isTrue trivial
  | .release _ => isTrue trivial

theorem leakedBy_eq_zero_iff (s : State) (e : Event) : leakedBy s e = 0 ↔ SingleBuffer s e := by
  cases e with
  | link f =>
    by_cases hg : f.Granted s.pool.free.length
    · have hpos := poolCount_pos f.data.length
      have hone : poolCount f.data.length = 1 ↔ f.data.length ≤ pbufPoolBufsize := by
        simp only [poolCount,pbufPoolBufsize]
        omega
      by_cases hs : s.pStart = none
      · simp only [leakedBy,SingleBuffer,hg,hs,if_true,true_and,true_imp_iff]
        omega
      · simp only [leakedBy,SingleBuffer,hg,hs,if_true,if_false,false_and,true_imp_iff,iff_false]
        omega
    · simp [leakedBy,SingleBuffer,hg]
  | deliver err => simp [leakedBy,SingleBuffer]
  | release head => simp [leakedBy,SingleBuffer]

variable {initial leaked chain : List ℕ} {s : State}

theorem balanced_link (h : Balanced initial s leaked chain) (f : Fragment) : ∃ leaked' chain',
    Balanced initial (rxLinkCallback s f).1 leaked' chain' ∧
      leaked'.length = leaked.length + leakedBy s (.link f) := by
  rcases link_cases h.wellFormed f with ⟨hg,pool,hperm,hagree,he⟩ | ⟨hg,pool,q,extra,hc,he⟩
  · refine ⟨leaked,chain,?_,by simp [leakedBy,hg]⟩
    rw [he]
    exact Accounted.of_free h [] hperm.symm hagree.1
      (fun i hi => hagree.2 i (h.notMem_free hi))
  · have hnew : ∀ i ∈ q::extra, i ∈ s.pool.free := by
      intro i hi
      rw [hc.free]
      exact List.mem_append_left _ hi
    have hcopied : Accounted initial pool (s.pending ++ s.pStart.toList) s.pStart (q::extra++leaked) chain :=
      Accounted.of_free h (q::extra) (by rw [hc.free]) hc.agrees.1
        (fun i hi => hc.agrees.2 i (fun hmem => h.notMem_free hi (hnew i hmem)))
    have hcount := hc.count
    rw [List.length_cons] at hcount
    rw [he]
    cases hs : s.pStart with
    | none =>
      rw [hs] at hcopied
      refine ⟨extra++leaked,[q],?_,?_⟩
      · simp only [Balanced,linked,hs]
        simpa using hcopied.adopt hc.next hc.ref
      · simp only [leakedBy,hg,hs,if_true,List.length_append]
        omega
    | some p =>
      rw [hs] at hcopied
      have hq : q ∉ chain := fun hmem => h.notMem_free (h.mem_chain hmem) (hnew q (by simp))
      refine ⟨q::extra++leaked,chain++[q],?_,?_⟩
      · simp only [Balanced,linked,hs]
        exact hcopied.chain_append (by simp) hq hc.next hc.ref
      · simp only [leakedBy,hg,hs,if_true,List.length_append,List.length_cons,reduceCtorEq,if_false]
        omega

theorem balanced_deliver (h : Balanced initial s leaked chain) (err : ℤ) : ∃ chain',
    Balanced initial (deliver s err).1 leaked chain' := by
  cases hs : s.pStart with
  | none => exact ⟨chain,by simpa [deliver,hs] using h⟩
  | some p =>
    rw [Balanced,hs] at h
    by_cases he : err = 0
    · refine ⟨[],?_⟩
      simp only [deliver,hs,he,if_true,Balanced,Option.toList_none,List.append_nil]
      exact h.complete
    · refine ⟨[],?_⟩
      simp only [deliver,hs,he,if_false,Balanced,Option.toList_none,List.append_nil]
      exact h.complete.free_head (List.perm_append_singleton p s.pending) (by simp)

theorem balanced_release (h : Balanced initial s leaked chain) (head : ℕ) :
    Balanced initial (release s head) leaked chain := by
  by_cases hmem : head ∈ s.pending
  · have hnodup := h.heads_nodup
    have hs : s.pStart ≠ some head := by
      intro hs
      rw [hs] at hnodup
      exact List.disjoint_of_nodup_append hnodup hmem (by simp)
    simp only [release,hmem,if_true,Balanced]
    exact Accounted.free_head h ((List.perm_cons_erase hmem).append_right _) hs
  · simpa [release,hmem] using h

theorem balanced_step (h : Balanced initial s leaked chain) (e : Event) : ∃ leaked' chain',
    Balanced initial (driver s e).1 leaked' chain' ∧ leaked'.length = leaked.length + leakedBy s e := by
  cases e with
  | link f => exact balanced_link h f
  | deliver err =>
    obtain ⟨chain',h'⟩ := balanced_deliver h err
    exact ⟨leaked,chain',h',rfl⟩
  | release head => exact ⟨leaked,chain,balanced_release h head,rfl⟩

theorem balanced_run (h : Balanced initial s leaked chain) (events : List Event) : ∃ leaked' chain',
    Balanced initial (run driver s events) leaked' chain' ∧ leaked.length ≤ leaked'.length ∧
      (leaked'.length = leaked.length ↔ Along driver SingleBuffer s events) := by
  induction events generalizing s leaked chain with
  | nil => exact ⟨leaked,chain,h,le_refl _,by simp⟩
  | cons e events ih =>
    obtain ⟨leaked₁,chain₁,h₁,hlen₁⟩ := balanced_step h e
    obtain ⟨leaked₂,chain₂,h₂,hle,hiff⟩ := ih h₁
    refine ⟨leaked₂,chain₂,h₂,by omega,?_⟩
    rw [along_cons,← hiff,← leakedBy_eq_zero_iff]
    constructor
    · intro he
      exact ⟨by omega,by omega⟩
    · rintro ⟨hz,he⟩
      omega

theorem balanced_idle (hw : WellFormed s.pool) (hp : s.pending = []) (hs : s.pStart = none) :
    Balanced s.pool.free s [] [] := by
  rw [Balanced,hp,hs]
  exact ⟨by simpa using hw.nodup,by simp,hw.lt,by simp,by simp,by simp,by simp,rfl,by simp,by simp⟩

theorem ethernetifPoll_pStart (hs : s.pStart = none) (frames : List Frame) :
    (ethernetifPoll s frames).pStart = none := by
  induction frames generalizing s with
  | nil => exact hs
  | cons frame frames ih =>
    rw [ethernetifPoll]
    split
    · assumption
    · rename_i hsome
      obtain ⟨p,hp⟩ := Option.ne_none_iff_exists'.mp hsome
      refine ih ?_
      simp only [deliver,hp]
      split <;> rfl

/-- After a poll every element is free, at the head of an accepted frame or leaked, and none
is leaked exactly if every frame that has been looked at needed a single buffer. -/
theorem ethernetifPoll_accounted (hw : WellFormed s.pool) (hp : s.pending = []) (hs : s.pStart = none)
    (frames : List Frame) : ∃ leaked n,
      ((ethernetifPoll s frames).pool.free ++ ((ethernetifPoll s frames).pending ++ leaked)).Perm s.pool.free ∧
      (leaked = [] ↔ Along driver SingleBuffer s ((frames.take n).flatMap Frame.events)) := by
  obtain ⟨n,hn⟩ := ethernetifPoll_eq_run s frames
  obtain ⟨leaked,chain,h,-,hiff⟩ := balanced_run (balanced_idle hw hp hs) ((frames.take n).flatMap Frame.events)
  rw [← hn] at h
  have hperm := h.perm
  rw [ethernetifPoll_pStart hs,Option.toList_none,List.append_nil] at hperm
  exact ⟨leaked,n,hperm,by rw [← hiff,List.length_nil,List.length_eq_zero_iff]⟩

/-- When all frames have been freed, every element is back in the pool exactly when
in each frame at most one fragment got a buffer, and it fitted one element. -/
theorem pool_restored_iff {s : State} (hw : WellFormed s.pool) (hp : s.pending = [])
    (hs : s.pStart = none) (events : List Event) (hfreed : (run driver s events).pending = [])
    (hdone : (run driver s events).pStart = none) :
    (run driver s events).pool.free.Perm s.pool.free ↔ Along driver SingleBuffer s events := by
  obtain ⟨leaked,chain,h,-,hiff⟩ := balanced_run (balanced_idle hw hp hs) events
  have hperm := h.perm
  rw [hfreed,hdone] at hperm
  simp only [Option.toList_none,List.append_nil,List.nil_append] at hperm
  rw [← hiff]
  constructor
  · intro hp'
    have hlen := hperm.length_eq
    rw [List.length_append,hp'.length_eq] at hlen
    simpa using hlen
  · intro hlen
    have hnil : leaked = [] := List.length_eq_zero_iff.mp hlen
    simpa [hnil] using hperm

theorem pool_restored_single :
    (run driver (idle 8) [.link ⟨0,[1,2,3],8,by decide⟩,.link ⟨1,[4],0,by decide⟩,.deliver 0,
      .release 0]).pool.free.Perm (idle 8).pool.free :=
  (pool_restored_iff (idle_wellFormed 8) rfl rfl _ (by decide) (by decide)).mpr (by decide)

/-- A frame of two fragments is accepted and freed, and one buffer stays behind. -/
theorem pool_leaks_second_fragment :
    (run driver (idle 8) [.link ⟨0,[1],8,by decide⟩,.link ⟨1,[2],8,by decide⟩,.deliver 0,
      .release 0]).pending = [] ∧
    (run driver (idle 8) [.link ⟨0,[1],8,by decide⟩,.link ⟨1,[2],8,by decide⟩,.deliver 0,
      .release 0]).pStart = none ∧
    (run driver (idle 8) [.link ⟨0,[1],8,by decide⟩,.link ⟨1,[2],8,by decide⟩,.deliver 0,
      .release 0]).pool.free.length = 7 ∧
    ¬ (run driver (idle 8) [.link ⟨0,[1],8,by decide⟩,.link ⟨1,[2],8,by decide⟩,.deliver 0,
      .release 0]).pool.free.Perm (idle 8).pool.free := by
  refine ⟨by decide,by decide,by decide,?_⟩
  intro h
  exact absurd h.length_eq (by decide)

end EthernetIf
end EmbeddedShell
