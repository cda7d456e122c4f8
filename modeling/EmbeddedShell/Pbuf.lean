import Mathlib.Data.List.Nodup
import Mathlib.Data.List.Perm.Subperm
import EmbeddedShell.CString
import EmbeddedShell.LinkedList
import EmbeddedShell.Memory

/-!
# Packet buffers

The functions of `pbuf.c` on the receive path, for buffers of the pool. A pool
has `size` elements, the cells are the headers with the payload area behind them,
and `free` is the list of elements that `memp_malloc` hands out, first element
first. Loops over a chain are bounded by the number of elements.
-/

namespace EmbeddedShell

open CString Memory LinkedList

structure Pbuf where
  next : Option ℕ
  payload : ℕ → UInt8
  totLen : ℕ
  len : ℕ
  ref : ℕ

structure Pool where
  size : ℕ
  free : List ℕ
  cell : ℕ → Pbuf

namespace Pool

def pbufPoolBufsize : ℕ := 1528

def modify (pool : Pool) (i : ℕ) (f : Pbuf → Pbuf) : Pool :=
  { pool with cell := Function.update pool.cell i (f (pool.cell i)) }

def next (pool : Pool) (i : ℕ) : Option ℕ := (pool.cell i).next

@[simp] theorem modify_size (pool : Pool) (i : ℕ) (f : Pbuf → Pbuf) :
    (pool.modify i f).size = pool.size := rfl
@[simp] theorem modify_free (pool : Pool) (i : ℕ) (f : Pbuf → Pbuf) :
    (pool.modify i f).free = pool.free := rfl
@[simp] theorem modify_cell (pool : Pool) (i : ℕ) (f : Pbuf → Pbuf) :
    (pool.modify i f).cell i = f (pool.cell i) := by simp [modify]
@[simp] theorem modify_cell_of_ne (pool : Pool) {i j : ℕ} (f : Pbuf → Pbuf) (h : j ≠ i) :
    (pool.modify i f).cell j = pool.cell j := by simp [modify,h]

/-- `memp_malloc` while other users of the pool leave `avail` elements to the caller. -/
def mempMalloc (pool : Pool) (avail : ℕ) : Option (ℕ × Pool) :=
  match avail,pool.free with
  | _+1, q::rest => some (q,{ pool with free := rest })
  | _, _ => none

def mempFree (pool : Pool) (p : ℕ) : Pool := { pool with free := p::pool.free }

def pbufFreeLoop : ℕ → Pool → Option ℕ → Pool
  | 0, pool, _ => pool
  | _+1, pool, none => pool
  | fuel+1, pool, some p =>
    let pool := pool.modify p fun c => { c with ref := wrap 8 ((c.ref : ℤ)-1) }
    if (pool.cell p).ref = 0 then pbufFreeLoop fuel (pool.mempFree p) (pool.cell p).next else pool

def pbufFree (pool : Pool) (p : ℕ) : Pool := pbufFreeLoop (pool.size+1) pool (some p)

def pbufInitAllocedPbuf (pool : Pool) (q totLen len : ℕ) : Pool :=
  pool.modify q fun c => { c with next := none, totLen := totLen, len := len, ref := 1 }

def setNext (pool : Pool) (p : ℕ) (q : Option ℕ) : Pool := pool.modify p fun c => { c with next := q }

/-- A new element is initialized and becomes the head or the successor of `last`. -/
def attach (pool : Pool) (head : Option ℕ) (last q remLen : ℕ) : Pool :=
  let pool := pool.pbufInitAllocedPbuf q remLen (min remLen pbufPoolBufsize)
  if head = none then pool else pool.setNext last (some q)

/-- The loop of `pbuf_alloc` for `PBUF_POOL`: `head` and `last` are `p` and `last`
of the source, `avail` is left of the elements that other users leave. -/
def pbufAllocLoop : ℕ → Pool → ℕ → Option ℕ → ℕ → ℕ → Pool × Option ℕ
  | 0, pool, _, _, _, _ => (pool,none)
  | fuel+1, pool, avail, head, last, remLen =>
    match pool.mempMalloc avail with
    | none => (head.elim pool pool.pbufFree,none)
    | some (q,pool) =>
      let pool := pool.attach head last q remLen
      let head := some (head.getD q)
      let remLen := wrap 16 ((remLen : ℤ) - (min remLen pbufPoolBufsize : ℕ))
      if 0 < remLen then pbufAllocLoop fuel pool (avail-1) head q remLen else (pool,head)

/-- `pbuf_alloc(PBUF_RAW, length, PBUF_POOL)`. -/
def pbufAlloc (pool : Pool) (avail length : ℕ) : Pool × Option ℕ :=
  pbufAllocLoop (length+1) pool avail none 0 length

def addTotLen (pool : Pool) (p t : ℕ) : Pool :=
  pool.modify p fun c => { c with totLen := wrap 16 ((c.totLen + (pool.cell t).totLen : ℕ) : ℤ) }

def pbufCatLoop : ℕ → Pool → ℕ → ℕ → Pool
  | 0, pool, _, _ => pool
  | fuel+1, pool, p, t =>
    match (pool.cell p).next with
    | some q => pbufCatLoop fuel (pool.addTotLen p t) q t
    | none => (pool.addTotLen p t).setNext p (some t)

def pbufCat (pool : Pool) (h t : ℕ) : Pool := pbufCatLoop pool.size pool h t

def pbufRef (pool : Pool) (p : ℕ) : Pool :=
  pool.modify p fun c => { c with ref := wrap 8 ((c.ref+1 : ℕ) : ℤ) }

def pbufChain (pool : Pool) (h t : ℕ) : Pool := (pool.pbufCat h t).pbufRef t

def pbufTakeLoop : ℕ → Pool → Option ℕ → Bytes → Pool
  | 0, pool, _, _ => pool
  | _+1, pool, none, _ => pool
  | fuel+1, pool, some p, data =>
    if data.length = 0 then pool
    else
      let bufCopyLen := min data.length (pool.cell p).len
      pbufTakeLoop fuel
        (pool.modify p fun c => { c with payload := store c.payload 0 (data.take bufCopyLen) })
        (pool.cell p).next (data.drop bufCopyLen)

/-- `pbuf_take`; the result code is not used by the driver. -/
def pbufTake (pool : Pool) (buf : ℕ) (data : Bytes) : Pool :=
  if (pool.cell buf).totLen < data.length then pool else pbufTakeLoop pool.size pool (some buf) data

/-- `pool'` differs from `pool` at most in the cells of `ids` and in its free list. -/
def AgreesOff (pool pool' : Pool) (ids : List ℕ) : Prop :=
  pool'.size = pool.size ∧ ∀ i, i ∉ ids → pool'.cell i = pool.cell i

theorem AgreesOff.trans {pool pool' pool'' : Pool} {xs ys ids : List ℕ} (h : AgreesOff pool pool' xs)
    (h' : AgreesOff pool' pool'' ys) (hx : xs ⊆ ids) (hy : ys ⊆ ids) : AgreesOff pool pool'' ids := by
  refine ⟨h'.1.trans h.1,fun i hi => ?_⟩
  rw [h'.2 i fun hmem => hi (hy hmem),h.2 i fun hmem => hi (hx hmem)]

theorem agreesOff_modify (pool : Pool) (p : ℕ) (f : Pbuf → Pbuf) :
    AgreesOff pool (pool.modify p f) [p] :=
  ⟨rfl,fun _ hi => modify_cell_of_ne _ _ (by simpa using hi)⟩

theorem AgreesOff.cell_eq {pool pool' : Pool} {p : ℕ} {ids : List ℕ} (h : AgreesOff pool pool' [p])
    (hp : p ∉ ids) : ∀ i ∈ ids, pool'.cell i = pool.cell i :=
  fun i hi => h.2 i (by simpa using ne_of_mem_of_not_mem hi hp)

theorem next_congr {pool pool' : Pool} {ids : List ℕ} (h : ∀ i ∈ ids, pool'.cell i = pool.cell i) :
    ∀ i ∈ ids, pool'.next i = pool.next i := by
  intro i hi
  rw [next,next,h i hi]

theorem next_modify (pool : Pool) (p : ℕ) {f : Pbuf → Pbuf} (hf : ∀ c, (f c).next = c.next) (i : ℕ) :
    (pool.modify p f).next i = pool.next i := by
  by_cases hi : i = p
  · rw [hi,next,next,modify_cell,hf]
  · rw [next,next,modify_cell_of_ne _ _ hi]

/-- Every element of a chain with references of its own only is returned. -/
theorem pbufFreeLoop_chain {fuel : ℕ} {pool : Pool} {start : Option ℕ} {ids : List ℕ}
    (hseg : Segment pool.next start ids none) (hn : ids.Nodup)
    (href : ∀ i ∈ ids, (pool.cell i).ref = 1) (hf : ids.length ≤ fuel) :
    (pbufFreeLoop fuel pool start).free = ids.reverse ++ pool.free ∧
      AgreesOff pool (pbufFreeLoop fuel pool start) ids := by
  induction ids generalizing fuel pool start with
  | nil =>
    obtain rfl : start = none := hseg
    cases fuel with
    | zero => simp [pbufFreeLoop,AgreesOff]
    | succ fuel => simp [pbufFreeLoop,AgreesOff]
  | cons p ids ih =>
    obtain ⟨rfl,hrest⟩ := hseg
    obtain ⟨hp,hn⟩ := List.nodup_cons.mp hn
    cases fuel with
    | zero => simp at hf
    | succ fuel =>
      have hzero : wrap 8 (((pool.cell p).ref : ℤ)-1) = 0 := by
        rw [href p (by simp)]
        decide
      let pool' := (pool.modify p fun c => { c with ref := wrap 8 ((c.ref : ℤ)-1) }).mempFree p
      have hloop : pbufFreeLoop (fuel+1) pool (some p) = pbufFreeLoop fuel pool' (pool.next p) := by
        simp [pbufFreeLoop,hzero,pool',next]
      have hagree : AgreesOff pool pool' [p] :=
        agreesOff_modify pool p fun c => { c with ref := wrap 8 ((c.ref : ℤ)-1) }
      have hsame := hagree.cell_eq hp
      have hlen : ids.length ≤ fuel := by simpa using hf
      obtain ⟨hfree,hoff⟩ := ih (hrest.congr (next_congr hsame)) hn
        (fun i hi => by rw [hsame i hi]; exact href i (by simp [hi])) hlen
      rw [hloop]
      refine ⟨?_,hagree.trans hoff (by simp) (by simp)⟩
      rw [hfree]
      simp [pool',mempFree]

/-- A head whose successor is held by someone else is returned alone. -/
theorem pbufFree_head {pool : Pool} {h : ℕ} (hs : 0 < pool.size) (href : (pool.cell h).ref = 1)
    (htail : ∀ t, pool.next h = some t → t ≠ h ∧ (pool.cell t).ref = 2) :
    (pool.pbufFree h).free = h::pool.free ∧ (pool.pbufFree h).size = pool.size ∧
      (∀ i, (pool.pbufFree h).next i = pool.next i) ∧
      (∀ i, i ≠ h → pool.next h ≠ some i → (pool.pbufFree h).cell i = pool.cell i) := by
  obtain ⟨k,hk⟩ : ∃ k, pool.size = k+1 := ⟨pool.size-1,by omega⟩
  have hzero : wrap 8 (((pool.cell h).ref : ℤ)-1) = 0 := by
    rw [href]
    decide
  let pool' := (pool.modify h fun c => { c with ref := wrap 8 ((c.ref : ℤ)-1) }).mempFree h
  have hloop : pool.pbufFree h = pbufFreeLoop (k+1) pool' (pool.next h) := by
    simp [pbufFree,pbufFreeLoop,hk,hzero,pool',next]
  have hcell : ∀ i, i ≠ h → pool'.cell i = pool.cell i := by
    intro i hi
    simp [pool',mempFree,hi]
  have hnext : ∀ i, pool'.next i = pool.next i :=
    next_modify pool h (f:=fun c => { c with ref := wrap 8 ((c.ref : ℤ)-1) }) fun _ => rfl
  rw [hloop]
  cases ht : pool.next h with
  | none => exact ⟨rfl,rfl,hnext,fun i hi _ => hcell i hi⟩
  | some t =>
    obtain ⟨hth,htwo⟩ := htail t ht
    have hone : wrap 8 (((pool'.cell t).ref : ℤ)-1) = 1 := by
      rw [hcell t hth,htwo]
      decide
    have hstop : pbufFreeLoop (k+1) pool' (some t) =
        pool'.modify t fun c => { c with ref := wrap 8 ((c.ref : ℤ)-1) } := by
      simp [pbufFreeLoop,hone]
    rw [hstop]
    refine ⟨rfl,rfl,fun i => ?_,fun i hi hne => ?_⟩
    · refine (next_modify pool' t (fun c => ?_) i).trans (hnext i)
      rfl
    · have hit : i ≠ t := fun he => hne (by rw [he])
      rw [modify_cell_of_ne _ _ hit,hcell i hi]

theorem addTotLen_cell (pool : Pool) (p t : ℕ) : (pool.addTotLen p t).cell p =
    { pool.cell p with totLen := ((pool.cell p).totLen + (pool.cell t).totLen)%2^16 } := by
  rw [addTotLen,modify_cell,wrap_natCast]

theorem pbufCatLoop_last {pool : Pool} {h : ℕ} (fuel t : ℕ) (hn : pool.next h = none) :
    pbufCatLoop (fuel+1) pool h t = (pool.addTotLen h t).setNext h (some t) := by
  simp only [next] at hn
  simp [pbufCatLoop,hn]

theorem pbufCatLoop_next {pool : Pool} {h q : ℕ} (fuel t : ℕ) (hn : pool.next h = some q) :
    pbufCatLoop (fuel+1) pool h t = pbufCatLoop fuel (pool.addTotLen h t) q t := by
  simp only [next] at hn
  simp [pbufCatLoop,hn]

/-- `pbuf_cat` visits the whole first chain: every total grows, the last element
gets a successor. -/
theorem pbufCatLoop_cell {fuel : ℕ} {pool : Pool} {h t : ℕ} {ids : List ℕ}
    (hseg : Segment pool.next (some h) ids none) (hn : ids.Nodup) (ht : t ∉ ids)
    (hf : ids.length ≤ fuel) : AgreesOff pool (pbufCatLoop fuel pool h t) ids ∧
    ∀ i ∈ ids, (pbufCatLoop fuel pool h t).cell i = { pool.cell i with
      totLen := ((pool.cell i).totLen + (pool.cell t).totLen)%2^16
      next := some ((pool.next i).getD t) } := by
  induction ids generalizing fuel pool h with
  | nil => simp at hseg
  | cons p ids ih =>
    obtain ⟨he,hrest⟩ := hseg
    obtain rfl : h = p := Option.some.inj he
    obtain ⟨hp,hn⟩ := List.nodup_cons.mp hn
    rw [List.mem_cons,not_or] at ht
    cases fuel with
    | zero => simp at hf
    | succ fuel =>
      cases hnext : pool.next h with
      | none =>
        obtain rfl : ids = [] := by
          cases ids with
          | nil => rfl
          | cons q ids => simp [hnext] at hrest
        rw [pbufCatLoop_last fuel t hnext]
        refine ⟨(agreesOff_modify pool h _).trans (agreesOff_modify _ h _) (by simp) (by simp),?_⟩
        intro i hi
        obtain rfl : i = h := by simpa using hi
        simp [setNext,addTotLen_cell,hnext]
      | some q =>
        have hagree : AgreesOff pool (pool.addTotLen h t) [h] := agreesOff_modify pool h _
        have hsame := hagree.cell_eq hp
        have hlen : ids.length ≤ fuel := by simpa using hf
        rw [hnext] at hrest
        obtain ⟨hoff,hin⟩ := ih (hrest.congr (next_congr hsame)) hn ht.2 hlen
        rw [pbufCatLoop_next fuel t hnext]
        refine ⟨hagree.trans hoff (by simp) (by simp),?_⟩
        intro i hi
        rcases List.mem_cons.mp hi with rfl | hi
        · rw [hoff.2 i hp,addTotLen_cell,hnext]
          simp only [next] at hnext
          simp [hnext]
        · rw [hin i hi,hsame i hi,hagree.2 t (by simpa using ht.1),next,next,hsame i hi]

theorem take_min_length (data : Bytes) (n : ℕ) : data.take (min data.length n) = data.take n := by
  rw [← List.take_take,List.take_of_length_le]
  exact List.length_take_le' n data

/-- `pbuf_take` writes payloads of the chain only. -/
theorem pbufTakeLoop_frame (fuel : ℕ) {pool : Pool} {start : Option ℕ} {ids : List ℕ} (data : Bytes)
    (hseg : Segment pool.next start ids none) :
    (pbufTakeLoop fuel pool start data).free = pool.free ∧
    AgreesOff pool (pbufTakeLoop fuel pool start data) ids ∧
    ∀ i, (pbufTakeLoop fuel pool start data).cell i =
      { pool.cell i with payload := ((pbufTakeLoop fuel pool start data).cell i).payload } := by
  induction fuel generalizing pool start ids data with
  | zero => simp [pbufTakeLoop,AgreesOff]
  | succ fuel ih =>
    cases ids with
    | nil =>
      obtain rfl : start = none := hseg
      simp [pbufTakeLoop,AgreesOff]
    | cons p ids =>
      obtain ⟨rfl,hrest⟩ := hseg
      by_cases hd : data.length = 0
      · simp [pbufTakeLoop,hd,AgreesOff]
      · let pool' := pool.modify p fun c =>
          { c with payload := store c.payload 0 (data.take (min data.length (pool.cell p).len)) }
        have hloop : pbufTakeLoop (fuel+1) pool (some p) data = pbufTakeLoop fuel pool' (pool.next p)
            (data.drop (min data.length (pool.cell p).len)) := by
          simp only [pbufTakeLoop,if_neg hd,pool',next]
        have hcell : ∀ i, pool'.cell i = { pool.cell i with payload := (pool'.cell i).payload } := by
          intro i
          by_cases hi : i = p
          · subst hi
            simp [pool']
          · simp [pool',hi]
        have hnext : ∀ i ∈ ids, pool'.next i = pool.next i := by
          intro i _
          rw [next,hcell i]
          rfl
        obtain ⟨hfree,hoff,hin⟩ := ih
          (data.drop (min data.length (pool.cell p).len)) (hrest.congr hnext)
        rw [hloop]
        refine ⟨hfree,(agreesOff_modify pool p _).trans hoff (by simp) (by simp),?_⟩
        intro i
        rw [hin i,hcell i]

theorem pbufTake_cell {pool : Pool} {p : ℕ} {ids : List ℕ} {data : Bytes} (hs : 0 < pool.size)
    (hseg : Segment pool.next (some p) (p::ids) none) (hp : p ∉ ids)
    (hd : data.length ≤ (pool.cell p).totLen) :
    (pool.pbufTake p data).free = pool.free ∧ AgreesOff pool (pool.pbufTake p data) (p::ids) ∧
    (pool.pbufTake p data).cell p = { pool.cell p with
      payload := store (pool.cell p).payload 0 (data.take (pool.cell p).len) } := by
  obtain ⟨k,hk⟩ : ∃ k, pool.size = k+1 := ⟨pool.size-1,by omega⟩
  have htake : pool.pbufTake p data = pbufTakeLoop (k+1) pool (some p) data := by
    rw [pbufTake,if_neg (by omega),hk]
  obtain ⟨hfree,hoff,-⟩ := pbufTakeLoop_frame (k+1) data hseg
  rw [htake]
  refine ⟨hfree,hoff,?_⟩
  by_cases h0 : data.length = 0
  · have hnil : data = [] := List.length_eq_zero_iff.mp h0
    simp [pbufTakeLoop,hnil]
  · let pool' := pool.modify p fun c =>
      { c with payload := store c.payload 0 (data.take (min data.length (pool.cell p).len)) }
    have hnext : ∀ i ∈ ids, pool'.next i = pool.next i := by
      intro i hi
      simp [pool',next,ne_of_mem_of_not_mem hi hp]
    obtain ⟨-,⟨-,hrest⟩,-⟩ := pbufTakeLoop_frame k
      (data.drop (min data.length (pool.cell p).len)) (hseg.2.congr hnext)
    simp only [pbufTakeLoop,if_neg h0]
    refine (hrest p hp).trans ?_
    simp only [pool',modify_cell,take_min_length]

theorem pbufCatLoop_free (fuel : ℕ) (pool : Pool) (h t : ℕ) :
    (pbufCatLoop fuel pool h t).free = pool.free := by
  induction fuel generalizing pool h with
  | zero => rfl
  | succ fuel ih =>
    cases hn : (pool.cell h).next with
    | none => simp [pbufCatLoop,hn,setNext,addTotLen]
    | some q => simp [pbufCatLoop,hn,ih,addTotLen]

@[simp] theorem pbufChain_free (pool : Pool) (h t : ℕ) : (pool.pbufChain h t).free = pool.free :=
  pbufCatLoop_free pool.size pool h t

/-- What `pbuf_chain` makes of the elements of the first chain and of the second. -/
theorem pbufChain_cell {pool : Pool} {h t : ℕ} {ids : List ℕ}
    (hseg : Segment pool.next (some h) ids none) (hn : ids.Nodup) (ht : t ∉ ids)
    (hlen : ids.length ≤ pool.size) :
    AgreesOff pool (pool.pbufChain h t) (ids++[t]) ∧
    (∀ i ∈ ids, (pool.pbufChain h t).cell i = { pool.cell i with
      totLen := ((pool.cell i).totLen + (pool.cell t).totLen)%2^16
      next := some ((pool.next i).getD t) }) ∧
    (pool.pbufChain h t).cell t = { pool.cell t with ref := ((pool.cell t).ref+1)%2^8 } := by
  obtain ⟨hoff,hin⟩ := pbufCatLoop_cell hseg hn ht hlen
  refine ⟨hoff.trans (agreesOff_modify _ t _) (by simp) (by simp),?_,?_⟩
  · intro i hi
    rw [pbufChain,pbufRef,modify_cell_of_ne _ _ (ne_of_mem_of_not_mem hi ht)]
    exact hin i hi
  · rw [pbufChain,pbufRef,modify_cell,wrap_natCast,pbufCat,hoff.2 t ht]

theorem pbufChain_linked {pool : Pool} {h t : ℕ} {ids : List ℕ}
    (hseg : Segment pool.next (some h) ids none) (hn : ids.Nodup) (ht : t ∉ ids)
    (hlen : ids.length ≤ pool.size) (hnext : pool.next t = none) :
    Segment (pool.pbufChain h t).next (some h) (ids++[t]) none := by
  obtain ⟨-,hin,hcell⟩ := pbufChain_cell hseg hn ht hlen
  rcases List.eq_nil_or_concat ids with rfl | ⟨xs,y,rfl⟩
  · simp at hseg
  · rw [List.concat_eq_append] at hseg hin hn ⊢
    refine hseg.extend ?_ ?_ ?_
    · intro x hx
      rw [next,hin x (by simp [hx])]
      obtain ⟨z,hz⟩ := Option.ne_none_iff_exists'.mp (hseg.next_ne_none hx)
      simp [hz]
    · rw [next,hin y (by simp)]
      simp [((segment_concat).mp hseg).2]
    · rw [next,hcell]
      exact hnext

/-- Number of pool elements for a text of the given length. -/
def poolCount (length : ℕ) : ℕ := max 1 ((length+1527)/1528)

theorem poolCount_of_le {length : ℕ} (h : length ≤ pbufPoolBufsize) : poolCount length = 1 := by
  simp only [pbufPoolBufsize] at h
  simp only [poolCount]
  omega

theorem poolCount_of_lt {length : ℕ} (h : pbufPoolBufsize < length) :
    poolCount length = poolCount (length-pbufPoolBufsize) + 1 := by
  simp only [pbufPoolBufsize] at *
  simp only [poolCount]
  omega

theorem poolCount_pos (length : ℕ) : 0 < poolCount length := by
  simp only [poolCount]
  omega

/-- The chain that `pbuf_alloc` has built so far. -/
structure Building (pool : Pool) (head : Option ℕ) (last : ℕ) (ids : List ℕ) : Prop where
  linked : Segment pool.next head ids none
  last : ∀ i, ids.getLast? = some i → i = last
  ref : ∀ i ∈ ids, (pool.cell i).ref = 1
  nodup : (ids++pool.free).Nodup
  lt : ∀ i ∈ ids++pool.free, i < pool.size

theorem building_nil {pool : Pool} (hn : pool.free.Nodup) (hlt : ∀ i ∈ pool.free, i < pool.size) :
    Building pool none 0 [] :=
  ⟨rfl,by simp,by simp,by simpa using hn,by simpa using hlt⟩

theorem attach_cell (pool : Pool) (head : Option ℕ) {last q : ℕ} (remLen : ℕ)
    (hne : head ≠ none → q ≠ last) : (pool.attach head last q remLen).cell q = { pool.cell q with
      next := none, totLen := remLen, len := min remLen pbufPoolBufsize, ref := 1 } := by
  by_cases hh : head = none
  · simp [attach,pbufInitAllocedPbuf,hh]
  · simp [attach,pbufInitAllocedPbuf,setNext,hh,hne hh]

theorem attach_cell_of_ne (pool : Pool) (head : Option ℕ) {last q i : ℕ} (remLen : ℕ) (hi : i ≠ q) :
    (pool.attach head last q remLen).cell i = if head ≠ none ∧ i = last then
      { pool.cell i with next := some q } else pool.cell i := by
  by_cases hh : head = none
  · simp [attach,pbufInitAllocedPbuf,hh,hi]
  · by_cases hl : i = last
    · subst hl
      simp [attach,pbufInitAllocedPbuf,setNext,hh,hi]
    · simp [attach,pbufInitAllocedPbuf,setNext,hh,hi,hl]

@[simp] theorem attach_free (pool : Pool) (head : Option ℕ) (last q remLen : ℕ) :
    (pool.attach head last q remLen).free = pool.free := by
  by_cases hh : head = none
  · simp [attach,pbufInitAllocedPbuf,hh]
  · simp [attach,pbufInitAllocedPbuf,setNext,hh]

@[simp] theorem attach_size (pool : Pool) (head : Option ℕ) (last q remLen : ℕ) :
    (pool.attach head last q remLen).size = pool.size := by
  by_cases hh : head = none
  · simp [attach,pbufInitAllocedPbuf,hh]
  · simp [attach,pbufInitAllocedPbuf,setNext,hh]

theorem attach_keeps (pool : Pool) (head : Option ℕ) (last : ℕ) {q i : ℕ} (remLen : ℕ) (hi : i ≠ q) :
    (pool.attach head last q remLen).cell i =
      { pool.cell i with next := (pool.attach head last q remLen).next i } := by
  rw [next,attach_cell_of_ne pool head remLen hi]
  split <;> rfl

/-- Without an element in front, a chain is empty. -/
theorem Building.head_eq {pool : Pool} {head : Option ℕ} {last : ℕ} {ids : List ℕ}
    (hb : Building pool head last ids) : head = ids.head? := hb.linked.start_eq

theorem Building.last_mem {pool : Pool} {head : Option ℕ} {last : ℕ} {ids : List ℕ}
    (hb : Building pool head last ids) (hh : head ≠ none) : last ∈ ids := by
  cases hl : ids.getLast? with
  | none =>
    rw [List.getLast?_eq_none_iff] at hl
    rw [hb.head_eq,hl] at hh
    exact absurd rfl hh
  | some y =>
    rw [← hb.last y hl]
    exact List.mem_of_getLast? hl

theorem Building.notMem_of_free {pool : Pool} {head : Option ℕ} {last q : ℕ} {ids rest : List ℕ}
    (hb : Building pool head last ids) (hq : pool.free = q::rest) : ∀ i ∈ ids, i ≠ q := by
  rintro i hi rfl
  have hnodup := hb.nodup
  rw [hq] at hnodup
  exact List.disjoint_of_nodup_append hnodup hi (by simp)

/-- One more element at the end of the chain. -/
theorem Building.attach {pool : Pool} {head : Option ℕ} {last q : ℕ} {ids rest : List ℕ}
    (hb : Building pool head last ids) (hq : pool.free = q::rest) (remLen : ℕ) :
    Building (({ pool with free := rest } : Pool).attach head last q remLen) (some (head.getD q)) q
      (ids++[q]) := by
  have hnodup := hb.nodup
  have hlt := hb.lt
  rw [hq] at hnodup hlt
  have hqids := hb.notMem_of_free hq
  refine ⟨?_,by simp,?_,by simpa using hnodup,by simpa using hlt⟩
  · rcases List.eq_nil_or_concat ids with rfl | ⟨xs,y,rfl⟩
    · obtain rfl : head = none := hb.head_eq
      simp [Pool.next,attach_cell]
    · obtain rfl : y = last := hb.last y (by simp)
      obtain ⟨h,hh⟩ : ∃ h, head = some h := by
        rw [hb.head_eq]
        cases xs with
        | nil => exact ⟨y,rfl⟩
        | cons x xs => exact ⟨x,rfl⟩
      subst hh
      have hy : y ∉ xs := by
        have hxs := hnodup.of_append_left
        rw [List.concat_eq_append] at hxs
        intro hy
        exact List.disjoint_of_nodup_append hxs hy (by simp)
      have hlinked := hb.linked
      rw [List.concat_eq_append] at hlinked ⊢
      refine hlinked.extend ?_ ?_ ?_
      · intro x hx
        have hxq : x ≠ q := hqids x (by simp [hx])
        simp [Pool.next,attach_cell_of_ne _ _ _ hxq,ne_of_mem_of_not_mem hx hy]
      · have hyq : y ≠ q := hqids y (by simp)
        simp [Pool.next,attach_cell_of_ne _ _ _ hyq]
      · have hyq : y ≠ q := hqids y (by simp)
        rw [Pool.next,attach_cell _ _ _ (fun _ => hyq.symm)]
  · intro i hi
    by_cases hiq : i = q
    · subst hiq
      rw [attach_cell _ _ _ (fun hh => (hqids last (hb.last_mem hh)).symm)]
    · rw [attach_keeps _ _ _ _ hiq]
      exact hb.ref i (by simpa [hiq] using hi)

theorem agreesOff_attach {pool : Pool} {head : Option ℕ} {last q : ℕ} {ids rest : List ℕ}
    (hb : Building pool head last ids) (remLen : ℕ) :
    AgreesOff pool (({ pool with free := rest } : Pool).attach head last q remLen) (ids++[q]) := by
  refine ⟨by simp,?_⟩
  intro i hi
  simp only [List.mem_append,List.mem_singleton,not_or] at hi
  rw [attach_cell_of_ne _ _ _ hi.2,if_neg]
  rintro ⟨hh,rfl⟩
  exact hi.1 (hb.last_mem hh)

theorem pbufAllocLoop_none {fuel : ℕ} {pool : Pool} {avail last remLen : ℕ} {head : Option ℕ}
    (h : avail = 0 ∨ pool.free = []) : pbufAllocLoop (fuel+1) pool avail head last remLen =
      (head.elim pool pool.pbufFree,none) := by
  have hm : pool.mempMalloc avail = none := by
    rcases h with rfl | h
    · rfl
    · cases avail <;> simp [mempMalloc,h]
  simp [pbufAllocLoop,hm]

theorem pbufAllocLoop_some {fuel : ℕ} {pool : Pool} {avail last remLen q : ℕ} {head : Option ℕ}
    {rest : List ℕ} (hq : pool.free = q::rest) (hr : remLen < 2^16) :
    pbufAllocLoop (fuel+1) pool (avail+1) head last remLen =
      if remLen ≤ pbufPoolBufsize then
        (({ pool with free := rest } : Pool).attach head last q remLen,some (head.getD q))
      else pbufAllocLoop fuel (({ pool with free := rest } : Pool).attach head last q remLen) avail
        (some (head.getD q)) q (remLen-pbufPoolBufsize) := by
  have hm : pool.mempMalloc (avail+1) = some (q,{ pool with free := rest }) := by simp [mempMalloc,hq]
  have hw : wrap 16 ((remLen : ℤ) - (min remLen pbufPoolBufsize : ℕ)) = remLen-pbufPoolBufsize := by
    rw [wrap_sub (by omega) hr]
    omega
  simp only [pbufAllocLoop,hm,hw]
  by_cases hle : remLen ≤ pbufPoolBufsize
  · rw [if_pos hle,if_neg (by omega)]
  · rw [if_neg hle,if_pos (by omega)]
    rfl

/-- Enough elements: the chain grows by `poolCount` elements off the free list. -/
theorem pbufAllocLoop_success {fuel : ℕ} {pool : Pool} {avail last remLen : ℕ} {head : Option ℕ}
    {ids : List ℕ} (hb : Building pool head last ids) (hr : remLen < 2^16)
    (hfuel : poolCount remLen ≤ fuel) (havail : poolCount remLen ≤ avail)
    (hfree : poolCount remLen ≤ pool.free.length) : ∃ pool',
      pbufAllocLoop fuel pool avail head last remLen =
        (pool',(ids ++ pool.free.take (poolCount remLen)).head?) ∧
      pool'.free = pool.free.drop (poolCount remLen) ∧
      Segment pool'.next (ids ++ pool.free.take (poolCount remLen)).head?
        (ids ++ pool.free.take (poolCount remLen)) none ∧
      AgreesOff pool pool' (ids ++ pool.free.take (poolCount remLen)) ∧
      ∀ i ∈ ids, pool'.cell i = { pool.cell i with next := pool'.next i } := by
  induction fuel generalizing pool avail head last remLen ids with
  | zero => exact absurd hfuel (by have := poolCount_pos remLen; omega)
  | succ fuel ih =>
    have hpos := poolCount_pos remLen
    obtain ⟨avail,rfl⟩ : ∃ a, avail = a+1 := ⟨avail-1,by omega⟩
    cases hq : pool.free with
    | nil => simp [hq] at hfree; omega
    | cons q rest =>
      have hb' := hb.attach hq remLen
      have hqids := hb.notMem_of_free hq
      rw [pbufAllocLoop_some hq hr]
      by_cases hle : remLen ≤ pbufPoolBufsize
      · have htake : (q::rest).take 1 = [q] := rfl
        rw [if_pos hle,poolCount_of_le hle,htake,← hb'.head_eq]
        refine ⟨_,rfl,by simp,hb'.linked,agreesOff_attach hb remLen,?_⟩
        intro i hi
        exact attach_keeps _ _ _ _ (hqids i hi)
      · have hn := poolCount_of_lt (not_le.mp hle)
        have hlen : poolCount (remLen-pbufPoolBufsize) ≤ rest.length := by
          rw [hq,List.length_cons] at hfree
          omega
        obtain ⟨pool',hloop,hfree',hseg,hoff,hkeep⟩ := ih hb' (by omega) (by omega)
          (show poolCount (remLen-pbufPoolBufsize) ≤ avail by omega) (by simpa using hlen)
        have happ : ids ++ [q] ++ rest.take (poolCount (remLen-pbufPoolBufsize)) =
            ids ++ (q::rest).take (poolCount remLen) := by
          rw [hn,List.take_succ_cons]
          simp
        simp only [attach_free,happ] at hloop hseg hoff hfree'
        rw [if_neg hle]
        refine ⟨pool',hloop,?_,hseg,(agreesOff_attach hb remLen).trans hoff ?_ (List.Subset.refl _),?_⟩
        · rw [hfree',hn,List.drop_succ_cons]
        · rw [← happ]
          exact List.subset_append_left _ _
        · intro i hi
          rw [hkeep i (by simp [hi]),attach_keeps _ _ _ _ (hqids i hi)]

theorem length_le_of_lt {ids : List ℕ} {n : ℕ} (hn : ids.Nodup) (hlt : ∀ i ∈ ids, i < n) :
    ids.length ≤ n := by
  have hsub : ids ⊆ List.range n := fun i hi => List.mem_range.mpr (hlt i hi)
  simpa using (List.subperm_of_subset hn hsub).length_le

/-- Too few elements: what was taken is returned. -/
theorem pbufAllocLoop_failure {fuel : ℕ} {pool : Pool} {avail last remLen : ℕ} {head : Option ℕ}
    {ids : List ℕ} (hb : Building pool head last ids) (hr : remLen < 2^16)
    (hfuel : poolCount remLen ≤ fuel)
    (hfew : avail < poolCount remLen ∨ pool.free.length < poolCount remLen) : ∃ pool',
      pbufAllocLoop fuel pool avail head last remLen = (pool',none) ∧
      pool'.free.Perm (ids++pool.free) ∧ AgreesOff pool pool' (ids++pool.free) := by
  induction fuel generalizing pool avail head last remLen ids with
  | zero => exact absurd hfuel (by have := poolCount_pos remLen; omega)
  | succ fuel ih =>
    by_cases hnone : avail = 0 ∨ pool.free = []
    · rw [pbufAllocLoop_none hnone]
      refine ⟨_,rfl,?_⟩
      cases head with
      | none =>
        obtain rfl : ids = [] := by simpa using hb.head_eq.symm
        exact ⟨List.Perm.refl _,rfl,fun _ _ => rfl⟩
      | some p =>
        have hnodup := hb.nodup.of_append_left
        have hlen := length_le_of_lt hnodup (fun i hi => hb.lt i (by simp [hi]))
        obtain ⟨hfree,hsize,hoff⟩ := pbufFreeLoop_chain hb.linked hnodup hb.ref (Nat.le_succ_of_le hlen)
        refine ⟨?_,hsize,?_⟩
        · rw [Option.elim_some,pbufFree,hfree]
          exact (List.reverse_perm ids).append_right _
        · intro i hi
          rw [List.mem_append,not_or] at hi
          exact hoff i hi.1
    · rw [not_or] at hnone
      obtain ⟨avail,rfl⟩ : ∃ a, avail = a+1 := ⟨avail-1,by omega⟩
      obtain ⟨q,rest,hq⟩ := List.exists_cons_of_ne_nil hnone.2
      have hb' := hb.attach hq remLen
      rw [pbufAllocLoop_some hq hr]
      by_cases hle : remLen ≤ pbufPoolBufsize
      · rw [poolCount_of_le hle,hq,List.length_cons] at hfew
        omega
      · have hn := poolCount_of_lt (not_le.mp hle)
        have hfew' : avail < poolCount (remLen-pbufPoolBufsize) ∨
            rest.length < poolCount (remLen-pbufPoolBufsize) := by
          rw [hq,List.length_cons] at hfew
          omega
        obtain ⟨pool',hloop,hperm,hoff⟩ := ih hb' (show remLen-pbufPoolBufsize < 2^16 by omega)
          (by omega) (hfew'.imp id (by simp))
        have happ : ids ++ [q] ++ rest = ids ++ pool.free := by simp [hq]
        simp only [attach_free,happ] at hperm hoff
        rw [if_neg hle]
        refine ⟨pool',hloop,hperm,(agreesOff_attach hb remLen).trans hoff ?_ (List.Subset.refl _)⟩
        rw [← happ]
        exact List.subset_append_left _ _

/-- The free list holds distinct elements of the pool. -/
structure WellFormed (pool : Pool) : Prop where
  nodup : pool.free.Nodup
  lt : ∀ i ∈ pool.free, i < pool.size

/-- The allocation gets its elements: other users and the free list leave enough. -/
def Grants (free avail length : ℕ) : Prop := poolCount length ≤ avail ∧ poolCount length ≤ free

instance (free avail length : ℕ) : Decidable (Grants free avail length) :=
  inferInstanceAs (Decidable (_ ∧ _))

theorem poolCount_le_succ (length : ℕ) : poolCount length ≤ length+1 := by
  simp only [poolCount]
  omega

theorem pbufAlloc_success {pool : Pool} (hw : WellFormed pool) {avail length q : ℕ} {rest : List ℕ}
    (hl : length < 2^16) (hq : pool.free = q::rest) (hg : Grants pool.free.length avail length) :
    ∃ pool', pool.pbufAlloc avail length = (pool',some q) ∧
      pool'.free = rest.drop (poolCount length - 1) ∧
      Segment pool'.next (some q) (q::rest.take (poolCount length - 1)) none ∧
      AgreesOff pool pool' (q::rest.take (poolCount length - 1)) ∧
      pool'.cell q = { pool.cell q with
        next := pool'.next q, totLen := length, len := min length pbufPoolBufsize, ref := 1 } := by
  have hb := building_nil hw.nodup hw.lt
  have hb' := hb.attach hq length
  have hcell : (({ pool with free := rest } : Pool).attach none 0 q length).cell q = _ :=
    attach_cell _ none length (by simp)
  have hpos := poolCount_pos length
  obtain ⟨havail,hfree⟩ := hg
  obtain ⟨avail,rfl⟩ : ∃ a, avail = a+1 := ⟨avail-1,by omega⟩
  rw [pbufAlloc,pbufAllocLoop_some hq hl]
  by_cases hle : length ≤ pbufPoolBufsize
  · rw [if_pos hle,poolCount_of_le hle]
    refine ⟨_,rfl,by simp,hb'.linked,agreesOff_attach hb length,?_⟩
    rw [hcell,next,hcell]
  · have hn := poolCount_of_lt (not_le.mp hle)
    have hsub : poolCount length - 1 = poolCount (length-pbufPoolBufsize) := by omega
    have hlen : poolCount (length-pbufPoolBufsize) ≤ rest.length := by
      rw [hq,List.length_cons] at hfree
      omega
    have hfuel : poolCount (length-pbufPoolBufsize) ≤ length := by
      have := poolCount_le_succ (length-pbufPoolBufsize)
      have hsize : pbufPoolBufsize = 1528 := rfl
      omega
    obtain ⟨pool',hloop,hfree',hseg,⟨hsize,hoff⟩,hkeep⟩ := pbufAllocLoop_success hb' (by omega) hfuel
      (show poolCount (length-pbufPoolBufsize) ≤ avail by omega) (by simpa using hlen)
    simp only [attach_free,List.nil_append,List.singleton_append,List.head?_cons] at hloop hseg hoff hfree'
    rw [if_neg hle,hsub]
    refine ⟨pool',hloop,hfree',hseg,⟨by rw [hsize]; simp,?_⟩,?_⟩
    · intro i hi
      rw [hoff i hi]
      refine (agreesOff_attach hb length).2 i ?_
      rw [List.mem_cons,not_or] at hi
      simpa using hi.1
    · rw [hkeep q (by simp),hcell]

theorem pbufAlloc_failure {pool : Pool} (hw : WellFormed pool) {avail length : ℕ} (hl : length < 2^16)
    (hg : ¬ Grants pool.free.length avail length) : ∃ pool',
      pool.pbufAlloc avail length = (pool',none) ∧ pool'.free.Perm pool.free ∧
      AgreesOff pool pool' pool.free := by
  have hfew : avail < poolCount length ∨ pool.free.length < poolCount length := by
    rwa [Grants,not_and_or,not_le,not_le] at hg
  exact pbufAllocLoop_failure (building_nil hw.nodup hw.lt) hl (poolCount_le_succ length) hfew

end Pool
end EmbeddedShell
