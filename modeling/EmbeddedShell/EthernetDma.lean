import EmbeddedShell.EthernetRuns

/-!
# The DMA receive buffers

The HAL takes buffers from the allocate callback and hands each of them back
through the link callback. `Hal` is the driver together with the HAL's own book
of the buffers it holds. Every call keeps `rxBufInUse` equal to that book, the
failing exit of the link callback included, so no buffer is given out twice and
none is forgotten. Frames may be delivered and released between the calls.
-/

namespace EmbeddedShell
namespace EthernetIf

open CString Execution

def outOfBuffers : Bytes := ethLog (chars "[eth] RxAllocate: OUT OF BUFFERS\r\n")

/-- `HAL_ETH_RxAllocateCallback`: the first buffer that is not in use, or NULL. -/
def rxAllocateCallback (s : State) : Option ℕ × State × List Bytes :=
  match s.rxBufInUse.findIdx? (!·) with
  | some i => (some i,{ s with rxBufInUse := s.rxBufInUse.set i true },[])
  | none => (none,s,[outOfBuffers])

/-- The driver and the buffers that the HAL holds. -/
structure Hal where
  driver : State
  outstanding : List ℕ

inductive Callback
  | allocate
  | event (e : Event)

def Event.outstanding (out : List ℕ) : Event → List ℕ
  | .link f => out.erase f.slot
  | _ => out

def hal : Machine Hal Callback Bytes
  | h, .allocate =>
    let r := rxAllocateCallback h.driver
    (⟨r.2.1,h.outstanding ++ r.1.toList⟩,r.2.2)
  | h, .event e => (⟨(driver h.driver e).1,e.outstanding h.outstanding⟩,(driver h.driver e).2)

/-- The marks of `n` buffers are exactly the buffers of the book. -/
structure Marks (n : ℕ) (inUse : List Bool) (out : List ℕ) : Prop where
  length : inUse.length = n
  nodup : out.Nodup
  mark : ∀ i, inUse[i]? = some true ↔ i ∈ out

theorem Marks.lt {n : ℕ} {inUse : List Bool} {out : List ℕ} (h : Marks n inUse out) {i : ℕ}
    (hi : i ∈ out) : i < n := by
  rw [← h.length]
  exact (List.getElem?_eq_some_iff.mp ((h.mark i).mpr hi)).1

theorem marks_replicate (n : ℕ) : Marks n (List.replicate n false) [] := by
  refine ⟨by simp,by simp,fun i => ?_⟩
  simp [List.getElem?_replicate]

theorem Marks.give {n : ℕ} {inUse : List Bool} {out : List ℕ} (h : Marks n inUse out) {i : ℕ}
    (hi : i < n) (hout : i ∉ out) : Marks n (inUse.set i true) (out++[i]) := by
  have hlen : i < inUse.length := by rwa [h.length]
  refine ⟨by rw [List.length_set,h.length],?_,fun j => ?_⟩
  · refine h.nodup.append (by simp) ?_
    simpa [List.disjoint_singleton] using hout
  · by_cases hj : i = j
    · subst hj
      simp [hlen]
    · rw [List.getElem?_set_ne hj,h.mark j]
      simp [Ne.symm hj]

theorem Marks.take {n : ℕ} {inUse : List Bool} {out : List ℕ} (h : Marks n inUse out) (i : ℕ) :
    Marks n (inUse.set i false) (out.erase i) := by
  refine ⟨by rw [List.length_set,h.length],h.nodup.erase i,fun j => ?_⟩
  by_cases hj : i = j
  · subst hj
    have hset : (inUse.set i false)[i]? ≠ some true := by
      rw [List.getElem?_set_self']
      cases inUse[i]? <;> simp
    simp [hset,h.nodup.mem_erase_iff]
  · rw [List.getElem?_set_ne hj,h.mark j,h.nodup.mem_erase_iff]
    simp [Ne.symm hj]

theorem Marks.allocate_some {n : ℕ} {s : State} {out : List ℕ} (h : Marks n s.rxBufInUse out)
    {i : ℕ} (ha : (rxAllocateCallback s).1 = some i) : i < n ∧ i ∉ out := by
  cases hf : s.rxBufInUse.findIdx? (!·) with
  | none => simp [rxAllocateCallback,hf] at ha
  | some k =>
    obtain rfl : k = i := by simpa [rxAllocateCallback,hf] using ha
    obtain ⟨hk,hfree,-⟩ := List.findIdx?_eq_some_iff_getElem.mp hf
    refine ⟨by rwa [← h.length],fun hout => ?_⟩
    have hm := (h.mark k).mpr hout
    rw [List.getElem?_eq_getElem hk,Option.some.injEq] at hm
    simp [hm] at hfree

theorem Marks.allocate_none {n : ℕ} {s : State} {out : List ℕ} (h : Marks n s.rxBufInUse out)
    (ha : (rxAllocateCallback s).1 = none) : out.Perm (List.range n) := by
  refine (List.perm_ext_iff_of_nodup h.nodup List.nodup_range).mpr fun i => ?_
  rw [List.mem_range]
  refine ⟨h.lt,fun hi => ?_⟩
  cases hf : s.rxBufInUse.findIdx? (!·) with
  | some k => simp [rxAllocateCallback,hf] at ha
  | none =>
    have hlen : i < s.rxBufInUse.length := by rwa [h.length]
    have hall := List.findIdx?_eq_none_iff.mp hf s.rxBufInUse[i] (List.getElem_mem hlen)
    refine (h.mark i).mp ?_
    rw [List.getElem?_eq_getElem hlen]
    simpa using hall

theorem Marks.allocate {n : ℕ} {s : State} {out : List ℕ} (h : Marks n s.rxBufInUse out) :
    Marks n (rxAllocateCallback s).2.1.rxBufInUse (out ++ (rxAllocateCallback s).1.toList) := by
  cases hf : s.rxBufInUse.findIdx? (!·) with
  | none => simpa [rxAllocateCallback,hf] using h
  | some i =>
    have hi := h.allocate_some (i:=i) (by simp [rxAllocateCallback,hf])
    simpa [rxAllocateCallback,hf] using h.give hi.1 hi.2

/-- Both exits of the link callback release the DMA buffer. -/
theorem rxBufInUse_link (s : State) (f : Fragment) :
    (rxLinkCallback s f).1.rxBufInUse = s.rxBufInUse.set f.slot false := by
  simp only [rxLinkCallback]
  cases (s.pool.pbufAlloc f.avail f.data.length).2 with
  | none => rfl
  | some p =>
    cases s.pStart with
    | none => rfl
    | some h => rfl

theorem rxBufInUse_deliver (s : State) (err : ℤ) : (deliver s err).1.rxBufInUse = s.rxBufInUse := by
  simp only [deliver]
  cases s.pStart with
  | none => rfl
  | some p =>
    simp only
    split <;> rfl

theorem rxBufInUse_release (s : State) (head : ℕ) : (release s head).rxBufInUse = s.rxBufInUse := by
  simp only [release]
  split <;> rfl

theorem marks_step {n : ℕ} {h : Hal} (hm : Marks n h.driver.rxBufInUse h.outstanding)
    (c : Callback) : Marks n (hal h c).1.driver.rxBufInUse (hal h c).1.outstanding := by
  cases c with
  | allocate => exact hm.allocate
  | event e =>
    cases e with
    | link f =>
      show Marks n (rxLinkCallback h.driver f).1.rxBufInUse (h.outstanding.erase f.slot)
      rw [rxBufInUse_link]
      exact hm.take f.slot
    | deliver err =>
      show Marks n (deliver h.driver err).1.rxBufInUse h.outstanding
      rwa [rxBufInUse_deliver]
    | release head =>
      show Marks n (release h.driver head).rxBufInUse h.outstanding
      rwa [rxBufInUse_release]

theorem marks_run {n : ℕ} {h : Hal} (hm : Marks n h.driver.rxBufInUse h.outstanding)
    (callbacks : List Callback) :
    Marks n (run hal h callbacks).driver.rxBufInUse (run hal h callbacks).outstanding :=
  run_invariant (C:=fun _ _ => True)
    (P:=fun h : Hal => Marks n h.driver.rxBufInUse h.outstanding)
    (fun _ c hm _ => marks_step hm c) hm (along_of_forall fun _ _ => trivial)

/-- After any run on any number of buffers the marks are the buffers that the HAL
holds; the next allocation gives out a buffer that it does not hold, and fails
only when it holds all of them. -/
theorem dma_buffers_accounted (s : State) (n : ℕ) (callbacks : List Callback) :
    let h := run hal ⟨{ s with rxBufInUse := List.replicate n false },[]⟩ callbacks
    Marks n h.driver.rxBufInUse h.outstanding ∧
    (∀ i, (rxAllocateCallback h.driver).1 = some i → i < n ∧ i ∉ h.outstanding) ∧
    ((rxAllocateCallback h.driver).1 = none → h.outstanding.Perm (List.range n)) := by
  intro h
  have hm : Marks n h.driver.rxBufInUse h.outstanding := marks_run (marks_replicate n) callbacks
  exact ⟨hm,fun i => hm.allocate_some,hm.allocate_none⟩

end EthernetIf
end EmbeddedShell
