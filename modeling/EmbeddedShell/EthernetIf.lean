import EmbeddedShell.Execution
import EmbeddedShell.Pbuf
import EmbeddedShell.Uart

/-!
# The receive path of the network driver

`rxLinkCallback` copies one DMA fragment into buffers of the pool and appends it
to the frame that the HAL is assembling. `link_cases` says once what a call can
do. The chain it leaves carries the fragments that got their buffers, each cut
to the size of one pool element.
-/

namespace EmbeddedShell
namespace EthernetIf

open CString Memory LinkedList Execution Pool

/-- `eth_log` formats into 128 bytes. -/
def ethLog (text : Bytes) : Bytes := Uart.print (text.take 127)

def hexDigit (n : ℕ) : UInt8 := if n < 10 then UInt8.ofNat (48+n) else UInt8.ofNat (55+n)

def hexWord (n : ℕ) : Bytes := [n/4096%16,n/256%16,n/16%16,n%16].map hexDigit

def etherTypeName (etype : ℕ) : Bytes :=
  if etype = 0x0800 then chars "IPv4"
  else if etype = 0x0806 then chars "ARP"
  else if etype = 0x86DD then chars "IPv6"
  else chars "???"

/-- The line that is printed for the first fragment of a frame. -/
def frameNotice (buff : Bytes) : Bytes :=
  let etype := (buff.getD 12 0).toNat*256 + (buff.getD 13 0).toNat
  ethLog (chars "[eth] RX frame len=" ++ decimal buff.length ++ chars " type=0x" ++ hexWord etype ++
    chars "(" ++ etherTypeName etype ++ chars ")\r\n")

def allocFailed (length : ℕ) : Bytes :=
  ethLog (chars "[eth] RxLink: pbuf_alloc FAILED len=" ++ decimal length ++ chars "\r\n")

def signedDecimal (n : ℤ) : Bytes := (if n < 0 then chars "-" else []) ++ decimal n.natAbs

def inputFailed (err : ℤ) : Bytes :=
  ethLog (chars "[eth] netif->input ERR=" ++ signedDecimal err ++ chars "\r\n")

/-- The pool, the marks of the DMA buffers, the counters, the frame that the HAL is
assembling, and the frames that the stack has accepted and not yet freed. -/
structure State where
  pool : Pool
  rxBufInUse : List Bool
  rxCount : ℕ
  rxDrop : ℕ
  pStart : Option ℕ
  pEnd : Option ℕ
  pending : List ℕ

/-- One fragment in the DMA buffer `slot`, with the number of pool elements that
other users leave to this call. -/
structure Fragment where
  slot : ℕ
  data : Bytes
  avail : ℕ
  fits : data.length < 2^16

def rxLinkCallback (s : State) (f : Fragment) : State × List Bytes :=
  let notice := if s.pStart = none ∧ 14 ≤ f.data.length then [frameNotice f.data] else []
  let a := s.pool.pbufAlloc f.avail f.data.length
  let s := { s with pool := a.1, rxBufInUse := s.rxBufInUse.set f.slot false }
  match a.2 with
  | none => (s,notice ++ [allocFailed f.data.length])
  | some p =>
    let pool := (s.pool.pbufTake p f.data).setNext p none
    match s.pStart with
    | none => ({ s with pool := pool, pStart := some p, pEnd := some p },notice)
    | some h => ({ s with pool := pool.pbufChain h p, pEnd := some p },notice)

def Fragment.Granted (f : Fragment) (free : ℕ) : Prop := Grants free f.avail f.data.length

instance (f : Fragment) (free : ℕ) : Decidable (f.Granted free) :=
  inferInstanceAs (Decidable (Grants _ _ _))

/-- The text has been copied to the new element `q`, alone in its chain; the
elements `extra` were allocated with it. -/
structure Copied (pool pool' : Pool) (data : Bytes) (q : ℕ) (extra : List ℕ) : Prop where
  free : pool.free = q::extra ++ pool'.free
  count : (q::extra).length = poolCount data.length
  agrees : AgreesOff pool pool' (q::extra)
  next : pool'.next q = none
  totLen : (pool'.cell q).totLen = data.length
  len : (pool'.cell q).len = min data.length pbufPoolBufsize
  payload : load (pool'.cell q).payload 0 (min data.length pbufPoolBufsize) = data.take pbufPoolBufsize
  ref : (pool'.cell q).ref = 1

theorem copied_of_granted {pool : Pool} (hw : WellFormed pool) {f : Fragment}
    (hg : f.Granted pool.free.length) : ∃ q extra,
      (pool.pbufAlloc f.avail f.data.length).2 = some q ∧
      Copied pool (((pool.pbufAlloc f.avail f.data.length).1.pbufTake q f.data).setNext q none)
        f.data q extra := by
  have hpos := poolCount_pos f.data.length
  cases hq : pool.free with
  | nil =>
    have hfree := hg.2
    rw [hq,List.length_nil] at hfree
    omega
  | cons q rest =>
    obtain ⟨pool',halloc,hfree,hseg,hagree,hcell⟩ := pbufAlloc_success hw f.fits hq hg
    have hcount : poolCount f.data.length ≤ rest.length+1 := by
      have hle := hg.2
      rwa [hq,List.length_cons] at hle
    have hnodup := hw.nodup
    have hlt := hw.lt
    rw [hq] at hnodup hlt
    have hqrest : q ∉ rest.take (poolCount f.data.length - 1) := fun hmem =>
      (List.nodup_cons.mp hnodup).1 (List.mem_of_mem_take hmem)
    have hsize : 0 < pool'.size := by
      rw [hagree.1]
      exact lt_of_le_of_lt (Nat.zero_le q) (hlt q (by simp))
    have htot : (pool'.cell q).totLen = f.data.length := by rw [hcell]
    have hlen : (pool'.cell q).len = min f.data.length pbufPoolBufsize := by rw [hcell]
    obtain ⟨htfree,htoff,htcell⟩ := pbufTake_cell hsize hseg hqrest htot.ge
    have hoff := hagree.trans htoff (List.Subset.refl _) (List.Subset.refl _)
    have hafter : (((pool'.pbufTake q f.data).setNext q none).cell q) = { pool'.cell q with
        next := none, payload := store (pool'.cell q).payload 0 (f.data.take (pool'.cell q).len) } := by
      rw [setNext,modify_cell,htcell]
    refine ⟨q,rest.take (poolCount f.data.length - 1),by rw [halloc],?_⟩
    rw [halloc]
    refine ⟨?_,?_,hoff.trans (agreesOff_modify _ q _) (List.Subset.refl _) (by simp),?_,?_,?_,?_,?_⟩
    · rw [setNext,modify_free,htfree,hfree,List.cons_append,List.take_append_drop,hq]
    · simp only [List.length_cons,List.length_take]
      omega
    · rw [Pool.next,hafter]
    · rw [hafter,htot]
    · rw [hafter,hlen]
    · rw [hafter,hlen]
      have hl : (f.data.take (min f.data.length pbufPoolBufsize)).length =
          min f.data.length pbufPoolBufsize := by
        simp
      have hload := load_store_self (pool'.cell q).payload 0
        (f.data.take (min f.data.length pbufPoolBufsize))
      rw [hl] at hload
      rw [hload,take_min_length]
    · rw [hafter,hcell]

def linked (s : State) (pool : Pool) (slot q : ℕ) : State :=
  match s.pStart with
  | none => { s with
      pool := pool, rxBufInUse := s.rxBufInUse.set slot false, pStart := some q, pEnd := some q }
  | some h => { s with
      pool := pool.pbufChain h q, rxBufInUse := s.rxBufInUse.set slot false, pEnd := some q }

theorem link_cases {s : State} (hw : WellFormed s.pool) (f : Fragment) :
    (¬ f.Granted s.pool.free.length ∧ ∃ pool', pool'.free.Perm s.pool.free ∧
      AgreesOff s.pool pool' s.pool.free ∧
      (rxLinkCallback s f).1 = { s with pool := pool', rxBufInUse := s.rxBufInUse.set f.slot false }) ∨
    (f.Granted s.pool.free.length ∧ ∃ pool' q extra, Copied s.pool pool' f.data q extra ∧
      (rxLinkCallback s f).1 = linked s pool' f.slot q) := by
  by_cases hg : f.Granted s.pool.free.length
  · obtain ⟨q,extra,halloc,hc⟩ := copied_of_granted hw hg
    refine Or.inr ⟨hg,_,q,extra,hc,?_⟩
    cases hs : s.pStart with
    | none => simp [rxLinkCallback,halloc,hs,linked]
    | some h => simp [rxLinkCallback,halloc,hs,linked]
  · obtain ⟨pool',halloc,hperm,hagree⟩ := pbufAlloc_failure hw f.fits hg
    refine Or.inl ⟨hg,pool',hperm,hagree,?_⟩
    simp [rxLinkCallback,halloc]

theorem Copied.wellFormed {pool pool' : Pool} {data : Bytes} {q : ℕ} {extra : List ℕ}
    (hc : Copied pool pool' data q extra) (hw : WellFormed pool) : WellFormed pool' := by
  have hnodup := hw.nodup
  have hlt := hw.lt
  rw [hc.free] at hnodup hlt
  refine ⟨hnodup.of_append_right,?_⟩
  intro i hi
  rw [hc.agrees.1]
  exact hlt i (by simp [hi])

/-- The elements `ids` carry the texts `ds`, each cut to one element; the totals
count the whole texts, modulo `2^16`. -/
def Carried (cell : ℕ → Pbuf) : List ℕ → List Bytes → Prop
  | [], [] => True
  | i::ids, d::ds => (cell i).len = min d.length pbufPoolBufsize ∧
      load (cell i).payload 0 (cell i).len = d.take pbufPoolBufsize ∧
      (cell i).totLen = (d::ds).flatten.length%2^16 ∧ Carried cell ids ds
  | _, _ => False

theorem Carried.congr {cell cell' : ℕ → Pbuf} {ids : List ℕ} {ds : List Bytes}
    (h : Carried cell ids ds) (hc : ∀ i ∈ ids, cell' i = cell i) : Carried cell' ids ds := by
  induction ids generalizing ds with
  | nil =>
    cases ds with
    | nil => trivial
    | cons d ds => exact h
  | cons i ids ih =>
    cases ds with
    | nil => exact h
    | cons d ds =>
      obtain ⟨hl,hp,ht,hrest⟩ := h
      rw [Carried,hc i (by simp)]
      exact ⟨hl,hp,ht,ih hrest (fun j hj => hc j (by simp [hj]))⟩

theorem Carried.concat {cell cell' : ℕ → Pbuf} {ids : List ℕ} {ds : List Bytes} {t : ℕ} {d : Bytes}
    (h : Carried cell ids ds)
    (hids : ∀ i ∈ ids, (cell' i).len = (cell i).len ∧ (cell' i).payload = (cell i).payload ∧
      (cell' i).totLen = ((cell i).totLen + d.length)%2^16)
    (ht : Carried cell' [t] [d]) : Carried cell' (ids++[t]) (ds++[d]) := by
  induction ids generalizing ds with
  | nil =>
    cases ds with
    | nil => exact ht
    | cons e ds => exact absurd h (by simp [Carried])
  | cons i ids ih =>
    cases ds with
    | nil => exact absurd h (by simp [Carried])
    | cons e ds =>
      obtain ⟨hl,hp,htot,hrest⟩ := h
      obtain ⟨hl',hp',htot'⟩ := hids i (by simp)
      refine ⟨by rw [hl',hl],by rw [hl',hp',hp],?_,ih hrest (fun j hj => hids j (by simp [hj]))⟩
      rw [htot',htot,Nat.mod_add_mod]
      congr 1
      simp
      omega

/-- The frame under assembly: a chain off the free list that carries the texts. -/
structure Assembled (s : State) (ids : List ℕ) (ds : List Bytes) : Prop where
  linked : Segment s.pool.next s.pStart ids none
  nodup : (ids++s.pool.free).Nodup
  lt : ∀ i ∈ ids++s.pool.free, i < s.pool.size
  carried : Carried s.pool.cell ids ds

theorem Assembled.wellFormed {s : State} {ids : List ℕ} {ds : List Bytes} (h : Assembled s ids ds) :
    WellFormed s.pool :=
  ⟨h.nodup.of_append_right,fun i hi => h.lt i (by simp [hi])⟩

theorem Assembled.of_failure {s : State} {ids : List ℕ} {ds : List Bytes} (h : Assembled s ids ds)
    {pool : Pool} (hperm : pool.free.Perm s.pool.free) (hagree : AgreesOff s.pool pool s.pool.free)
    (marks : List Bool) : Assembled { s with pool := pool, rxBufInUse := marks } ids ds := by
  have hcell : ∀ i ∈ ids, pool.cell i = s.pool.cell i := fun i hi =>
    hagree.2 i (fun hf => List.disjoint_of_nodup_append h.nodup hi hf)
  have hp : (ids++pool.free).Perm (ids++s.pool.free) := hperm.append_left ids
  refine ⟨h.linked.congr (next_congr hcell),hp.nodup_iff.mpr h.nodup,?_,h.carried.congr hcell⟩
  intro i hi
  show i < pool.size
  rw [hagree.1]
  exact h.lt i (hp.mem_iff.mp hi)

theorem Assembled.of_copied {s : State} {ids : List ℕ} {ds : List Bytes} (h : Assembled s ids ds)
    {pool : Pool} {q : ℕ} {extra : List ℕ} {f : Fragment} (hc : Copied s.pool pool f.data q extra) :
    Assembled (EthernetIf.linked s pool f.slot q) (ids++[q]) (ds++[f.data]) := by
  have hnodup := h.nodup
  have hlt := h.lt
  rw [hc.free] at hnodup hlt
  have hsub : (ids++[q]++pool.free).Sublist (ids++(q::extra++pool.free)) := by simp
  have hnodup' : (ids++[q]++pool.free).Nodup := hnodup.sublist hsub
  have hlt' : ∀ i ∈ ids++[q]++pool.free, i < pool.size := by
    intro i hi
    rw [hc.agrees.1]
    exact hlt i (hsub.subset hi)
  have hnew : Carried pool.cell [q] [f.data] := by
    have htot : (pool.cell q).totLen = [f.data].flatten.length%2^16 := by
      rw [hc.totLen,List.flatten_singleton,Nat.mod_eq_of_lt f.fits]
    exact ⟨hc.len,by rw [hc.len,hc.payload],htot,trivial⟩
  cases hs : s.pStart with
  | none =>
    obtain rfl : ids = [] := by
      have hhead := h.linked.start_eq
      rw [hs] at hhead
      simpa using hhead.symm
    obtain rfl : ds = [] := by
      cases ds with
      | nil => rfl
      | cons d ds => exact absurd h.carried (by simp [Carried])
    simp only [EthernetIf.linked,hs]
    exact ⟨⟨rfl,hc.next⟩,hnodup',hlt',hnew⟩
  | some p =>
    have hold : ∀ i ∈ ids, pool.cell i = s.pool.cell i := by
      intro i hi
      refine hc.agrees.2 i (fun hmem => ?_)
      exact List.disjoint_of_nodup_append hnodup hi (List.mem_append_left _ hmem)
    have hids : (ids++[q]).Nodup := hnodup'.of_append_left
    have hq : q ∉ ids := fun hmem => List.disjoint_of_nodup_append hids hmem (by simp)
    have hseg : Segment pool.next (some p) ids none := by
      rw [← hs]
      exact h.linked.congr (next_congr hold)
    have hlen : ids.length ≤ pool.size := length_le_of_lt hids.of_append_left
      (fun i hi => hlt' i (by simp [hi]))
    obtain ⟨⟨hsize,-⟩,hin,hcell⟩ := pbufChain_cell hseg hids.of_append_left hq hlen
    have hlinked := pbufChain_linked hseg hids.of_append_left hq hlen hc.next
    simp only [EthernetIf.linked,hs]
    refine ⟨hlinked,by rwa [pbufChain_free],by rwa [pbufChain_free,hsize],?_⟩
    refine (h.carried.congr hold).concat ?_ ?_
    · intro i hi
      rw [hin i hi,hc.totLen]
      exact ⟨rfl,rfl,rfl⟩
    · obtain ⟨hl,hp,ht,-⟩ := hnew
      exact ⟨by rw [hcell]; exact hl,by rw [hcell]; exact hp,by rw [hcell]; exact ht,trivial⟩

/-- The texts that get their buffers from a pool with `free` elements, and those
that do not. -/
def kept : ℕ → List Fragment → List Bytes
  | _, [] => []
  | free, f::fs =>
    if f.Granted free then f.data::kept (free-poolCount f.data.length) fs else kept free fs

def lost : ℕ → List Fragment → List Bytes
  | _, [] => []
  | free, f::fs =>
    if f.Granted free then lost (free-poolCount f.data.length) fs else f.data::lost free fs

theorem Copied.length_free {pool pool' : Pool} {data : Bytes} {q : ℕ} {extra : List ℕ}
    (hc : Copied pool pool' data q extra) :
    pool.free.length = poolCount data.length + pool'.free.length := by
  rw [hc.free,List.length_append,hc.count]

@[simp] theorem linked_free (s : State) (pool : Pool) (slot q : ℕ) :
    (linked s pool slot q).pool.free = pool.free := by
  cases h : s.pStart with
  | none => simp [linked,h]
  | some p => simp [linked,h]

theorem assembled_run {s : State} {ids : List ℕ} {ds : List Bytes} (h : Assembled s ids ds)
    (frags : List Fragment) :
    ∃ ids', Assembled (run rxLinkCallback s frags) ids' (ds ++ kept s.pool.free.length frags) := by
  induction frags generalizing s ids ds with
  | nil => exact ⟨ids,by simpa [kept] using h⟩
  | cons f fs ih =>
    rw [run_cons]
    rcases link_cases h.wellFormed f with ⟨hg,pool,hperm,hagree,he⟩ | ⟨hg,pool,q,extra,hc,he⟩
    · rw [he,kept,if_neg hg,← hperm.length_eq]
      exact ih (h.of_failure hperm hagree _)
    · have hfree : (linked s pool f.slot q).pool.free.length =
          s.pool.free.length - poolCount f.data.length := by
        rw [linked_free,hc.length_free,Nat.add_sub_cancel_left]
      have hnext := ih (h.of_copied hc)
      rw [he,kept,if_pos hg,← hfree]
      simpa using hnext

/-- The total of each element is its length and the total of its successor. -/
def TotalsMatch (cell : ℕ → Pbuf) : List ℕ → Prop
  | [] => True
  | [i] => (cell i).totLen = (cell i).len
  | i::j::ids => (cell i).totLen = (cell i).len + (cell j).totLen ∧ TotalsMatch cell (j::ids)

instance decidableTotalsMatch (cell : ℕ → Pbuf) : (ids : List ℕ) → Decidable (TotalsMatch cell ids)
  | [] => isTrue trivial
  | [i] => inferInstanceAs (Decidable ((cell i).totLen = (cell i).len))
  | i::j::ids =>
    haveI := decidableTotalsMatch cell (j::ids)
    inferInstanceAs (Decidable ((cell i).totLen = (cell i).len + (cell j).totLen ∧ TotalsMatch cell (j::ids)))

def chainText (cell : ℕ → Pbuf) (ids : List ℕ) : Bytes :=
  ids.flatMap fun i => load (cell i).payload 0 (cell i).len

/-- No frame, or a well-formed chain with all the fragments in it. -/
def WholeOrNothing (s : State) (frags : List Fragment) : Prop :=
  s.pStart = none ∨ ∃ ids, Segment s.pool.next s.pStart ids none ∧ TotalsMatch s.pool.cell ids ∧
    chainText s.pool.cell ids = frags.flatMap Fragment.data

theorem Carried.eq_nil_iff {cell : ℕ → Pbuf} {ids : List ℕ} {ds : List Bytes}
    (h : Carried cell ids ds) : ids = [] ↔ ds = [] := by
  cases ids with
  | nil =>
    cases ds with
    | nil => simp
    | cons d ds => exact absurd h (by simp [Carried])
  | cons i ids =>
    cases ds with
    | nil => exact absurd h (by simp [Carried])
    | cons d ds => simp

theorem Carried.chainText_eq {cell : ℕ → Pbuf} {ids : List ℕ} {ds : List Bytes}
    (h : Carried cell ids ds) : chainText cell ids = (ds.map (List.take pbufPoolBufsize)).flatten := by
  induction ids generalizing ds with
  | nil =>
    rw [h.eq_nil_iff.mp rfl]
    rfl
  | cons i ids ih =>
    cases ds with
    | nil => exact absurd h (by simp [Carried])
    | cons d ds =>
      obtain ⟨-,hp,-,hrest⟩ := h
      have htail := ih hrest
      rw [chainText] at htail
      rw [chainText,List.flatMap_cons,hp,htail,List.map_cons,List.flatten_cons]

/-- The totals match exactly when no text was cut and the sum fits 16 bits. -/
theorem Carried.totalsMatch_iff {cell : ℕ → Pbuf} {ids : List ℕ} {ds : List Bytes}
    (h : Carried cell ids ds) (hd : ∀ d ∈ ds, d.length < 2^16) : TotalsMatch cell ids ↔
      (∀ d ∈ ds, d.length ≤ pbufPoolBufsize) ∧ ds.flatten.length < 2^16 := by
  have hsize : pbufPoolBufsize = 1528 := rfl
  induction ids generalizing ds with
  | nil =>
    rw [h.eq_nil_iff.mp rfl]
    simp [TotalsMatch]
  | cons i ids ih =>
    cases ds with
    | nil => exact absurd h (by simp [Carried])
    | cons d ds =>
      have hlt := hd d (by simp)
      obtain ⟨hl,-,ht,hrest⟩ := h
      rw [List.flatten_cons,List.length_append] at ht
      rw [List.forall_mem_cons,List.flatten_cons,List.length_append]
      cases ids with
      | nil =>
        rw [hrest.eq_nil_iff.mp rfl] at ht ⊢
        rw [TotalsMatch,ht,hl]
        simp only [List.flatten_nil,List.length_nil,List.not_mem_nil,false_imp_iff,implies_true,and_true]
        omega
      | cons k ids =>
        cases ds with
        | nil => exact absurd hrest (by simp [Carried])
        | cons e ds =>
          have hih := ih hrest (fun x hx => hd x (List.mem_cons_of_mem d hx))
          refine (and_congr Iff.rfl hih).trans ?_
          rw [ht,hl,hrest.2.2.1]
          generalize (e::ds).flatten.length = total
          constructor
          · rintro ⟨hsum,hall,htotal⟩
            refine ⟨⟨?_,hall⟩,?_⟩
            · omega
            · omega
          · rintro ⟨⟨hcut,hall⟩,htotal⟩
            refine ⟨?_,hall,?_⟩
            · omega
            · omega

theorem kept_lt (free : ℕ) (frags : List Fragment) : ∀ d ∈ kept free frags, d.length < 2^16 := by
  induction frags generalizing free with
  | nil => simp [kept]
  | cons f fs ih =>
    by_cases hg : f.Granted free
    · rw [kept,if_pos hg,List.forall_mem_cons]
      exact ⟨f.fits,ih _⟩
    · rw [kept,if_neg hg]
      exact ih _

theorem length_kept_lost (free : ℕ) (frags : List Fragment) :
    (frags.flatMap Fragment.data).length =
      (kept free frags).flatten.length + (lost free frags).flatten.length := by
  induction frags generalizing free with
  | nil => rfl
  | cons f fs ih =>
    rw [List.flatMap_cons,List.length_append]
    by_cases hg : f.Granted free
    · rw [kept,lost,if_pos hg,if_pos hg,ih (free-poolCount f.data.length),List.flatten_cons,
        List.length_append]
      omega
    · rw [kept,lost,if_neg hg,if_neg hg,ih free,List.flatten_cons,List.length_append]
      omega

theorem flatten_kept {free : ℕ} {frags : List Fragment} (h : ∀ d ∈ lost free frags, d = []) :
    (kept free frags).flatten = frags.flatMap Fragment.data := by
  induction frags generalizing free with
  | nil => rfl
  | cons f fs ih =>
    by_cases hg : f.Granted free
    · rw [lost,if_pos hg] at h
      rw [kept,if_pos hg,List.flatten_cons,ih h,List.flatMap_cons]
    · rw [lost,if_neg hg,List.forall_mem_cons] at h
      rw [kept,if_neg hg,ih h.2,List.flatMap_cons,h.1,List.nil_append]

theorem map_take_eq_self {ds : List Bytes} (h : ∀ d ∈ ds, d.length ≤ pbufPoolBufsize) :
    ds.map (List.take pbufPoolBufsize) = ds := by
  have hcongr : ds.map (List.take pbufPoolBufsize) = ds.map id :=
    List.map_congr_left (fun d hd => List.take_of_length_le (h d hd))
  rw [hcongr,List.map_id]

/-- A frame is delivered whole or not at all exactly when none of its fragments
gets a buffer, or all that carry data do, none of them is longer than a pool
element, and together they are shorter than 64 KB. -/
theorem whole_or_nothing_iff {s : State} (hw : WellFormed s.pool) (hs : s.pStart = none)
    (frags : List Fragment) : WholeOrNothing (run rxLinkCallback s frags) frags ↔
      kept s.pool.free.length frags = [] ∨
      ((∀ d ∈ lost s.pool.free.length frags, d = []) ∧
        (∀ d ∈ kept s.pool.free.length frags, d.length ≤ pbufPoolBufsize) ∧
        (kept s.pool.free.length frags).flatten.length < 2^16) := by
  have hstart : Assembled s [] [] := ⟨hs,by simpa using hw.nodup,by simpa using hw.lt,trivial⟩
  obtain ⟨ids,ha⟩ := assembled_run hstart frags
  rw [List.nil_append] at ha
  have hnone : (run rxLinkCallback s frags).pStart = none ↔ kept s.pool.free.length frags = [] := by
    rw [ha.linked.start_eq,List.head?_eq_none_iff,ha.carried.eq_nil_iff]
  have htotals := ha.carried.totalsMatch_iff (kept_lt _ frags)
  have htext := ha.carried.chainText_eq
  rw [WholeOrNothing,hnone]
  refine or_congr Iff.rfl ?_
  constructor
  · rintro ⟨ids',hseg,hmatch,hall⟩
    obtain rfl := hseg.unique ha.linked
    obtain ⟨hcut,hsum⟩ := htotals.mp hmatch
    refine ⟨?_,hcut,hsum⟩
    rw [htext,map_take_eq_self hcut] at hall
    have hlen := length_kept_lost s.pool.free.length frags
    rw [← hall] at hlen
    have hzero : (lost s.pool.free.length frags).flatten = [] :=
      List.length_eq_zero_iff.mp (by omega)
    exact List.flatten_eq_nil_iff.mp hzero
  · rintro ⟨hlost,hcut,hsum⟩
    refine ⟨ids,ha.linked,htotals.mpr ⟨hcut,hsum⟩,?_⟩
    rw [htext,map_take_eq_self hcut,flatten_kept hlost]

def idle (size : ℕ) : State :=
  ⟨⟨size,List.range size,fun _ => ⟨none,fun _ => 0,0,0,0⟩⟩,[],0,0,none,none,[]⟩

theorem idle_wellFormed (size : ℕ) : WellFormed (idle size).pool :=
  ⟨List.nodup_range,fun _ hi => List.mem_range.mp hi⟩

def threeFragments (avail : ℕ) : List Fragment :=
  [⟨0,[1],8,by decide⟩,⟨1,[2],avail,by decide⟩,⟨2,[3],8,by decide⟩]

theorem whole_frame_of_three :
    WholeOrNothing (run rxLinkCallback (idle 8) (threeFragments 8)) (threeFragments 8) :=
  (whole_or_nothing_iff (idle_wellFormed 8) rfl _).mpr (by decide)

/-- The middle fragment gets no buffer: the frame is passed on with a hole. -/
theorem frame_with_hole :
    (run rxLinkCallback (idle 8) (threeFragments 0)).pStart = some 0 ∧
    chainText (run rxLinkCallback (idle 8) (threeFragments 0)).pool.cell [0,1] = [1,3] ∧
    TotalsMatch (run rxLinkCallback (idle 8) (threeFragments 0)).pool.cell [0,1] ∧
    ¬ WholeOrNothing (run rxLinkCallback (idle 8) (threeFragments 0)) (threeFragments 0) := by
  refine ⟨by decide,by decide,by decide,?_⟩
  rintro (h | ⟨ids,hseg,-,htext⟩)
  · exact absurd h (by decide)
  · have hids : Segment (run rxLinkCallback (idle 8) (threeFragments 0)).pool.next
        (run rxLinkCallback (idle 8) (threeFragments 0)).pStart [0,1] none := by decide
    rw [hseg.unique hids] at htext
    exact absurd htext (by decide)

end EthernetIf
end EmbeddedShell
