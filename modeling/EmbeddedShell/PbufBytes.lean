import Mathlib.Data.List.TakeDrop
import Mathlib.Data.List.Infix
import Mathlib.Algebra.Order.Ring.Nat
import EmbeddedShell.CString
import EmbeddedShell.Execution
import EmbeddedShell.Memory
import EmbeddedShell.Pbuf

/-!
# The bytes of a pbuf chain

A packet lies in the payloads of a chain of pbufs, and the functions of `pbuf.c`
that read, write, shorten and concatenate packets walk along the chain. `Chain`
lists the pbufs from one of them on, so that the empty list is `NULL`; `bytes` is
the packet. Reference counts and the pools are the subject of `Pbuf`.
-/

namespace EmbeddedShell
namespace PbufBytes

open CString Execution

structure Seg where
  payload : Bytes
  totLen : ℕ
  deriving DecidableEq

abbrev Chain := List Seg

inductive ErrT
  | ok | mem | arg
  deriving DecidableEq

namespace Seg

def len (s : Seg) : ℕ := s.payload.length

end Seg

def bytes (c : Chain) : Bytes := (c.map Seg.payload).flatten

def totLen : Chain → ℕ
  | [] => 0
  | s::_ => s.totLen

/-- `pbuf_skip_const`: the chain from the pbuf that holds the offset, and the offset in it. -/
def pbufSkip : Chain → ℕ → Chain × ℕ
  | [], n => ([],n)
  | s::rest, n => if s.len ≤ n then pbufSkip rest (n-s.len) else (s::rest,n)

/-- `pbuf_copy_partial`: the bytes that are copied to the caller. -/
def pbufCopyPartial : Chain → ℕ → ℕ → Bytes
  | [], _, _ => []
  | s::rest, len, offset =>
    if len = 0 then []
    else if offset ≠ 0 ∧ s.len ≤ offset then pbufCopyPartial rest len (offset-s.len)
    else
      let bufCopyLen := min (s.len-offset) len
      (s.payload.drop offset).take bufCopyLen ++ pbufCopyPartial rest (len-bufCopyLen) 0

/-- `pbuf_try_get_at`, where `none` is a negative answer. -/
def pbufTryGetAt (p : Chain) (offset : ℕ) : Option UInt8 :=
  match pbufSkip p offset with
  | ([],_) => none
  | (q::_,i) => if i < q.len then q.payload[i]? else none

def pbufGetAt (p : Chain) (offset : ℕ) : UInt8 := (pbufTryGetAt p offset).getD 0

/-- `pbuf_put_at`: the pbuf at which `pbuf_skip` stops is written in place. -/
def pbufPutAt : Chain → ℕ → UInt8 → Chain
  | [], _, _ => []
  | s::rest, n, b =>
    if s.len ≤ n then s::pbufPutAt rest (n-s.len) b
    else { s with payload := s.payload.set n b }::rest

def pbufMemcmpLoop (q : Chain) (start : ℕ) : ℕ → Bytes → ℕ
  | _, [] => 0
  | i, b::s2 =>
    if pbufGetAt q (wrap 16 ((start+i : ℕ) : ℤ)) ≠ b then min (i+1) 0xffff
    else pbufMemcmpLoop q start (i+1) s2

def pbufMemcmp (p : Chain) (offset : ℕ) (s2 : Bytes) : ℕ :=
  if totLen p < offset+s2.length then 0xffff
  else pbufMemcmpLoop (pbufSkip p offset).1 (pbufSkip p offset).2 0 s2

/-- The loop of `pbuf_memfind`; `none` is a search that does not end. -/
def pbufMemfindLoop (p : Chain) (mem : Bytes) (maxCmpStart : ℕ) : ℕ → ℕ → Option ℕ
  | 0, _ => none
  | fuel+1, i =>
    if maxCmpStart < i then some 0xffff
    else if pbufMemcmp p i mem = 0 then some i
    else pbufMemfindLoop p mem maxCmpStart fuel (wrap 16 ((i+1 : ℕ) : ℤ))

def pbufMemfind (p : Chain) (mem : Bytes) (startOffset : ℕ) : Option ℕ :=
  if mem.length+startOffset ≤ totLen p then
    pbufMemfindLoop p mem (wrap 16 ((totLen p : ℤ)-mem.length)) (totLen p+2) startOffset
  else some 0xffff

def pbufTakeLoop : Chain → Bytes → Chain
  | [], _ => []
  | s::rest, data =>
    if data = [] then s::rest
    else
      let bufCopyLen := min data.length s.len
      { s with payload := data.take bufCopyLen ++ s.payload.drop bufCopyLen }::
        pbufTakeLoop rest (data.drop bufCopyLen)

def pbufTake : Chain → Bytes → Chain × ErrT
  | [], _ => ([],.arg)
  | s::rest, data => if s.totLen < data.length then (s::rest,.mem) else (pbufTakeLoop (s::rest) data,.ok)

/-- `pbuf_take_at`: the pbuf at which `pbuf_skip` stops takes the first part. -/
def pbufTakeAt : Chain → Bytes → ℕ → Chain × ErrT
  | [], _, _ => ([],.mem)
  | s::rest, data, n =>
    if s.len ≤ n then
      let r := pbufTakeAt rest data (n-s.len)
      (s::r.1,r.2)
    else if n+data.length ≤ s.totLen then
      let firstCopyLen := min (s.len-n) data.length
      let written := s.payload.take n ++ data.take firstCopyLen ++ s.payload.drop (n+firstCopyLen)
      let s' := { s with payload := written }
      if data.length-firstCopyLen = 0 then (s'::rest,.ok)
      else
        let r := pbufTake rest (data.drop firstCopyLen)
        (s'::r.1,r.2)
    else (s::rest,.mem)

def pbufReallocLoop (shrink : ℕ) : Chain → ℕ → Chain
  | [], _ => []
  | s::rest, remLen =>
    if s.len < remLen then
      { s with totLen := wrap 16 ((s.totLen : ℤ)-shrink) }::pbufReallocLoop shrink rest (remLen-s.len)
    else [⟨s.payload.take remLen,remLen⟩]

def pbufRealloc (p : Chain) (newLen : ℕ) : Chain :=
  if totLen p ≤ newLen then p
  else pbufReallocLoop (wrap 16 ((totLen p : ℤ)-newLen)) p newLen

def pbufRemoveHeader : Chain → ℕ → Chain × ErrT
  | [], _ => ([],.arg)
  | s::rest, n =>
    if 0xffff < n then (s::rest,.arg)
    else if n = 0 then (s::rest,.ok)
    else if s.len < n then (s::rest,.arg)
    else (⟨s.payload.drop n,wrap 16 ((s.totLen : ℤ)-n)⟩::rest,.ok)

def pbufFreeHeader : Chain → ℕ → Chain
  | [], _ => []
  | s::rest, n =>
    if n = 0 then s::rest
    else if s.len ≤ n then pbufFreeHeader rest (n-s.len)
    else (pbufRemoveHeader (s::rest) n).1

def pbufCat (h t : Chain) : Chain :=
  (h.map fun s => { s with totLen := wrap 16 ((s.totLen+totLen t : ℕ) : ℤ) }) ++ t

@[simp] theorem bytes_nil : bytes [] = [] := rfl

@[simp] theorem bytes_cons (s : Seg) (rest : Chain) : bytes (s::rest) = s.payload ++ bytes rest := rfl

@[simp] theorem bytes_append (c t : Chain) : bytes (c++t) = bytes c ++ bytes t := by simp [bytes]

theorem length_bytes_cons (s : Seg) (rest : Chain) :
    (bytes (s::rest)).length = s.len + (bytes rest).length := List.length_append

/-- Every `tot_len` counts the bytes from its pbuf to the end of the chain. -/
def Counted : Chain → Prop
  | [] => True
  | s::rest => s.totLen = s.len + (bytes rest).length ∧ Counted rest

instance decidableCounted : (c : Chain) → Decidable (Counted c)
  | [] => isTrue trivial
  | s::rest =>
    haveI := decidableCounted rest
    inferInstanceAs (Decidable (s.totLen = s.len + (bytes rest).length ∧ Counted rest))

theorem Counted.totLen_eq {c : Chain} (h : Counted c) : totLen c = (bytes c).length := by
  cases c with
  | nil => rfl
  | cons s rest => rw [length_bytes_cons]; exact h.1

/-- The chain carries the packet `xs`, and its length fields are right. -/
structure Packet (c : Chain) (xs : Bytes) : Prop where
  carries : bytes c = xs
  counted : Counted c
  fits : xs.length < 2^16

theorem Packet.totLen_eq {c : Chain} {xs : Bytes} (h : Packet c xs) : totLen c = xs.length := by
  rw [h.counted.totLen_eq,h.carries]

theorem drop_bytes_skip (c : Chain) (n : ℕ) :
    (bytes (pbufSkip c n).1).drop (pbufSkip c n).2 = (bytes c).drop n := by
  induction c generalizing n with
  | nil => simp [pbufSkip]
  | cons s rest ih =>
    by_cases hn : s.len ≤ n
    · rw [pbufSkip,if_pos hn,ih,bytes_cons,List.drop_append,List.drop_of_length_le hn]
      rfl
    · rw [pbufSkip,if_neg hn]

/-- `pbuf_skip` stops inside a pbuf, unless the packet is too short. -/
theorem skip_cases (c : Chain) (n : ℕ) :
    ((pbufSkip c n).1 = [] ∧ (bytes c).length ≤ n) ∨
      ∃ s rest, (pbufSkip c n).1 = s::rest ∧ (pbufSkip c n).2 < s.len ∧ n < (bytes c).length := by
  induction c generalizing n with
  | nil => exact Or.inl ⟨rfl,Nat.zero_le n⟩
  | cons s rest ih =>
    by_cases hn : s.len ≤ n
    · rw [pbufSkip,if_pos hn,length_bytes_cons]
      refine (ih (n-s.len)).imp (fun h => ⟨h.1,by omega⟩) ?_
      rintro ⟨s',rest',hq,hi,hlt⟩
      exact ⟨s',rest',hq,hi,by omega⟩
    · rw [pbufSkip,if_neg hn,length_bytes_cons]
      exact Or.inr ⟨s,rest,rfl,by simpa using hn,by omega⟩

theorem length_bytes_skip_le (c : Chain) (n : ℕ) : (bytes (pbufSkip c n).1).length ≤ (bytes c).length := by
  induction c generalizing n with
  | nil => simp [pbufSkip]
  | cons s rest ih =>
    by_cases hn : s.len ≤ n
    · rw [pbufSkip,if_pos hn,length_bytes_cons]
      exact (ih (n-s.len)).trans (by omega)
    · rw [pbufSkip,if_neg hn]

theorem tryGetAt_eq (c : Chain) (n : ℕ) : pbufTryGetAt c n = (bytes c)[n]? := by
  have hdrop := drop_bytes_skip c n
  have hget : (bytes c)[n]? = ((bytes c).drop n)[0]? := by simp
  rw [hget,← hdrop,pbufTryGetAt]
  rcases skip_cases c n with ⟨hq,-⟩ | ⟨s,rest,hq,hi,-⟩
  · cases hk : pbufSkip c n with
    | mk q i =>
      rw [hk] at hq
      subst hq
      simp
  · cases hk : pbufSkip c n with
    | mk q i =>
      rw [hk] at hq hi
      subst hq
      simp only [if_pos hi]
      rw [bytes_cons,List.getElem?_drop,Nat.add_zero,List.getElem?_append_left hi]

theorem copyPartial_eq (c : Chain) (len offset : ℕ) :
    pbufCopyPartial c len offset = ((bytes c).drop offset).take len := by
  induction c generalizing len offset with
  | nil => simp [pbufCopyPartial]
  | cons s rest ih =>
    rw [pbufCopyPartial]
    by_cases hlen : len = 0
    · simp [hlen]
    rw [if_neg hlen]
    by_cases hoff : offset ≠ 0 ∧ s.len ≤ offset
    · rw [if_pos hoff,ih,bytes_cons,List.drop_append,List.drop_of_length_le hoff.2]
      rfl
    · have hle : offset ≤ s.payload.length := by
        change offset ≤ s.len
        omega
      have hl : (s.payload.drop offset).length = s.len-offset := List.length_drop
      have hsplit : len-min (s.len-offset) len = len-(s.len-offset) := by omega
      have htake : (s.payload.drop offset).take (min (s.len-offset) len) =
          (s.payload.drop offset).take len := by
        rw [← hl]
        exact Pool.take_min_length _ _
      rw [if_neg hoff,bytes_cons,List.drop_append_of_le_length hle,List.take_append,hl]
      simp only [ih,hsplit,htake,List.drop_zero]

/-- The position of the first byte in which `ys` does not continue like `s2`. -/
def diffAt : Bytes → Bytes → Option ℕ
  | _, [] => none
  | [], _::_ => some 0
  | y::ys, b::s2 => if y = b then (diffAt ys s2).map (·+1) else some 0

theorem diffAt_eq_none {ys s2 : Bytes} : diffAt ys s2 = none ↔ s2 <+: ys := by
  induction s2 generalizing ys with
  | nil => simp [diffAt]
  | cons b s2 ih =>
    cases ys with
    | nil => simp [diffAt]
    | cons y ys =>
      by_cases hy : y = b
      · simp [diffAt,hy,ih,List.cons_prefix_cons]
      · simp [diffAt,hy,List.cons_prefix_cons,Ne.symm hy]

theorem memcmpLoop_eq {q : Chain} {start i : ℕ} {ys s2 : Bytes} (hq : ys = (bytes q).drop (start+i))
    (hl : s2.length ≤ ys.length) (hw : (bytes q).length < 2^16) :
    pbufMemcmpLoop q start i s2 = ((diffAt ys s2).map fun d => min (i+d+1) 0xffff).getD 0 := by
  induction s2 generalizing i ys with
  | nil => simp [pbufMemcmpLoop,diffAt]
  | cons b s2 ih =>
    cases ys with
    | nil => simp at hl
    | cons y ys =>
      have hget : (bytes q)[start+i]? = some y := by
        have h0 := congrArg (fun l : Bytes => l[0]?) hq
        simpa using h0.symm
      have hlt : start+i < (bytes q).length := (List.getElem?_eq_some_iff.mp hget).1
      have hnext : ys = (bytes q).drop (start+(i+1)) := by
        rw [← Nat.add_assoc,← List.drop_drop,← hq]
        rfl
      rw [pbufMemcmpLoop,wrap_natCast,Nat.mod_eq_of_lt (by omega),pbufGetAt,tryGetAt_eq,hget,
        ih hnext (by simpa using hl)]
      by_cases hy : y = b
      · cases hd : diffAt ys s2 with
        | none => simp [diffAt,hy,hd]
        | some d => simp [diffAt,hy,hd,show i+1+d = i+(d+1) by omega]
      · simp [diffAt,hy]

theorem Packet.memcmp_eq {c : Chain} {xs : Bytes} (h : Packet c xs) (offset : ℕ) (s2 : Bytes) :
    pbufMemcmp c offset s2 = if xs.length < offset+s2.length then 0xffff
      else ((diffAt (xs.drop offset) s2).map fun d => min (d+1) 0xffff).getD 0 := by
  rw [pbufMemcmp,h.totLen_eq]
  by_cases hs : xs.length < offset+s2.length
  · rw [if_pos hs,if_pos hs]
  · have hdrop := drop_bytes_skip c offset
    rw [h.carries] at hdrop
    have hle := length_bytes_skip_le c offset
    rw [h.carries] at hle
    have hfits := h.fits
    have hq : xs.drop offset = (bytes (pbufSkip c offset).1).drop ((pbufSkip c offset).2+0) := by
      simpa using hdrop.symm
    rw [if_neg hs,if_neg hs,memcmpLoop_eq hq (by rw [List.length_drop]; omega) (by omega)]
    simp

def Occurs (xs mem : Bytes) (i : ℕ) : Prop := i+mem.length ≤ xs.length ∧ mem <+: xs.drop i

/-- The first occurrence from an offset on, or the value that says there is none. -/
def IsFirst (xs mem : Bytes) (start r : ℕ) : Prop :=
  (Occurs xs mem r ∧ start ≤ r ∧ ∀ j, start ≤ j → j < r → ¬ Occurs xs mem j) ∨
    (r = 0xffff ∧ ∀ j, start ≤ j → ¬ Occurs xs mem j)

theorem Packet.memcmp_eq_zero {c : Chain} {xs : Bytes} (h : Packet c xs) (i : ℕ) (mem : Bytes) :
    pbufMemcmp c i mem = 0 ↔ Occurs xs mem i := by
  rw [h.memcmp_eq]
  by_cases hs : xs.length < i+mem.length
  · simp only [if_pos hs,Occurs]
    omega
  · rw [if_neg hs,Occurs,← diffAt_eq_none]
    cases hd : diffAt (xs.drop i) mem with
    | none => simpa using hs
    | some d => simp

theorem Packet.memfindLoop_first {c : Chain} {xs mem : Bytes} (h : Packet c xs)
    (hm : mem.length ≤ xs.length) {fuel i : ℕ} (hi : i ≤ xs.length-mem.length+1)
    (hf : xs.length-mem.length+1 < fuel+i) :
    ∃ r, pbufMemfindLoop c mem (xs.length-mem.length) fuel i = some r ∧ IsFirst xs mem i r := by
  induction fuel generalizing i with
  | zero => omega
  | succ fuel ih =>
    rw [pbufMemfindLoop]
    by_cases hend : xs.length-mem.length < i
    · refine ⟨0xffff,if_pos hend,Or.inr ⟨rfl,?_⟩⟩
      intro j hj hocc
      have := hocc.1
      omega
    rw [if_neg hend]
    by_cases hocc : Occurs xs mem i
    · refine ⟨i,if_pos ((h.memcmp_eq_zero i mem).mpr hocc),Or.inl ⟨hocc,le_rfl,?_⟩⟩
      intro j hj hlt
      omega
    · have hne : mem ≠ [] := by
        rintro rfl
        exact hocc ⟨by simpa using hend,List.nil_prefix⟩
      have hpos := List.length_pos_iff.mpr hne
      have hfits := h.fits
      have hwrap : wrap 16 ((i+1 : ℕ) : ℤ) = i+1 := by
        rw [wrap_natCast,Nat.mod_eq_of_lt (by omega)]
      obtain ⟨r,hr,hfirst⟩ := ih (i:=i+1) (by omega) (by omega)
      rw [if_neg (mt (h.memcmp_eq_zero i mem).mp hocc),hwrap]
      refine ⟨r,hr,?_⟩
      rcases hfirst with ⟨ho,hle,hmin⟩ | ⟨hr0,hnone⟩
      · refine Or.inl ⟨ho,by omega,?_⟩
        intro j hj hlt
        rcases Nat.eq_or_lt_of_le hj with rfl | hj
        · exact hocc
        · exact hmin j hj hlt
      · refine Or.inr ⟨hr0,?_⟩
        intro j hj
        rcases Nat.eq_or_lt_of_le hj with rfl | hj
        · exact hocc
        · exact hnone j hj

theorem Packet.memfind_first {c : Chain} {xs : Bytes} (h : Packet c xs) (mem : Bytes) (start : ℕ) :
    ∃ r, pbufMemfind c mem start = some r ∧ IsFirst xs mem start r := by
  have hfits := h.fits
  rw [pbufMemfind,h.totLen_eq]
  by_cases hs : mem.length+start ≤ xs.length
  · rw [if_pos hs,wrap_sub (by omega) hfits]
    exact h.memfindLoop_first (by omega) (by omega) (by omega)
  · refine ⟨0xffff,if_neg hs,Or.inr ⟨rfl,?_⟩⟩
    intro j hj hocc
    have := hocc.1
    omega

/-- Replacing the bytes from `n` on by `data`. -/
def splice (xs data : Bytes) (n : ℕ) : Bytes := xs.take n ++ data ++ xs.drop (n+data.length)

theorem length_splice {xs data : Bytes} {n : ℕ} (h : n+data.length ≤ xs.length) :
    (splice xs data n).length = xs.length := by
  simp only [splice,List.length_append,List.length_take,List.length_drop]
  omega

/-- A payload is overwritten from the front by as much of `data` as it can hold. -/
theorem length_overwrite (s : Seg) (data : Bytes) :
    (data.take (min data.length s.len) ++ s.payload.drop (min data.length s.len)).length = s.len := by
  simp only [List.length_append,List.length_take,List.length_drop,Seg.len]
  omega

theorem takeLoop_packet {c : Chain} {data : Bytes} (h : data.length ≤ (bytes c).length)
    (hc : Counted c) :
    bytes (pbufTakeLoop c data) = data ++ (bytes c).drop data.length ∧ Counted (pbufTakeLoop c data) := by
  induction c generalizing data with
  | nil =>
    have hd : data = [] := List.length_eq_zero_iff.mp (by simpa using h)
    simp [hd,pbufTakeLoop,Counted]
  | cons s rest ih =>
    rw [pbufTakeLoop]
    by_cases hd : data = []
    · rw [if_pos hd]
      exact ⟨by simp [hd],hc⟩
    rw [if_neg hd]
    rw [length_bytes_cons] at h
    have hfit : (data.drop (min data.length s.len)).length ≤ (bytes rest).length := by
      rw [List.length_drop]
      omega
    obtain ⟨hb,hcr⟩ := ih hfit hc.2
    have hlen : (bytes (pbufTakeLoop rest (data.drop (min data.length s.len)))).length =
        (bytes rest).length := by
      rw [hb,List.length_append,List.length_drop,List.length_drop]
      omega
    refine ⟨?_,?_,hcr⟩
    · rw [bytes_cons,hb,bytes_cons]
      rcases Nat.le_total data.length s.len with hle | hle
      · have hle' : data.length ≤ s.payload.length := hle
        simp [Nat.min_eq_left hle,List.drop_append_of_le_length hle']
      · have hle' : s.payload.length ≤ data.length := hle
        have hnone : s.payload.drop s.len = [] := List.drop_of_length_le le_rfl
        simp only [Nat.min_eq_right hle,hnone,List.drop_append,List.length_drop,
          List.drop_of_length_le hle',List.append_nil,List.nil_append]
        rw [← List.append_assoc,List.take_append_drop]
        rfl
    · have hs := hc.1
      change s.totLen = List.length _ + _
      rw [hlen,length_overwrite]
      exact hs

theorem splice_append_right {xs ys data : Bytes} {n : ℕ} (h : xs.length ≤ n) :
    splice (xs++ys) data n = xs ++ splice ys data (n-xs.length) := by
  simp only [splice,List.take_append,List.drop_append,List.take_of_length_le h,
    List.drop_of_length_le (show xs.length ≤ n+data.length by omega),List.nil_append,List.append_assoc]
  congr 4
  omega

theorem splice_append_left {xs ys data : Bytes} {n : ℕ} (h : n+data.length ≤ xs.length) :
    splice (xs++ys) data n = splice xs data n ++ ys := by
  simp only [splice,List.take_append_of_le_length (show n ≤ xs.length by omega),
    List.drop_append_of_le_length h,List.append_assoc]

/-- A replacement that starts in `xs` and ends in what follows. -/
theorem splice_append_across {xs ys data : Bytes} {n : ℕ} (hn : n ≤ xs.length)
    (h : xs.length ≤ n+data.length) :
    splice (xs++ys) data n = xs.take n ++ data.take (xs.length-n) ++
      (data.drop (xs.length-n) ++ ys.drop (data.length-(xs.length-n))) := by
  have hd : n+data.length-xs.length = data.length-(xs.length-n) := by omega
  simp only [splice,List.take_append_of_le_length hn,List.drop_append,List.drop_of_length_le h,hd,
    List.nil_append]
  rw [List.append_assoc (xs.take n) (data.take _),← List.append_assoc (data.take _),
    List.take_append_drop,List.append_assoc]

theorem length_splice_part {s : Seg} (data : Bytes) {n : ℕ} (h : n < s.len) :
    (s.payload.take n ++ data.take (min (s.len-n) data.length) ++
      s.payload.drop (n+min (s.len-n) data.length)).length = s.len := by
  simp only [List.length_append,List.length_take,List.length_drop,Seg.len] at h ⊢
  omega

theorem take_packet {c : Chain} {data : Bytes} (hc : Counted c) (h : data.length ≤ (bytes c).length)
    (hne : c ≠ []) : pbufTake c data = (pbufTakeLoop c data,.ok) := by
  cases c with
  | nil => exact absurd rfl hne
  | cons s rest =>
    have ht := hc.totLen_eq
    rw [pbufTake,if_neg (show ¬ s.totLen < data.length by rw [show s.totLen = _ from ht]; omega)]

/-- `pbuf_take_at` replaces the bytes of the packet, over as many pbufs as it takes. -/
theorem takeAt_fits {c : Chain} {data : Bytes} {n : ℕ} (hc : Counted c) (hn : n < (bytes c).length)
    (h : n+data.length ≤ (bytes c).length) :
    (pbufTakeAt c data n).2 = .ok ∧ bytes (pbufTakeAt c data n).1 = splice (bytes c) data n ∧
      Counted (pbufTakeAt c data n).1 := by
  induction c generalizing n with
  | nil => simp at hn
  | cons s rest ih =>
    rw [length_bytes_cons] at hn h
    by_cases hs : s.len ≤ n
    · obtain ⟨hok,hb,hcr⟩ := ih hc.2 (n:=n-s.len) (by omega) (by omega)
      have hlen := length_splice (show n-s.len+data.length ≤ (bytes rest).length by omega)
      have h1 := hc.1
      rw [pbufTakeAt,if_pos hs]
      refine ⟨hok,?_,?_,hcr⟩
      · rw [bytes_cons,hb,bytes_cons,splice_append_right hs]
        rfl
      · rw [hb,hlen]
        exact h1
    · have hs' : n < s.len := by omega
      have hpart := length_splice_part data hs'
      have h1 := hc.1
      rw [pbufTakeAt,if_neg hs,if_pos (by rw [h1]; exact h)]
      by_cases hdone : data.length-min (s.len-n) data.length = 0
      · have hfirst : min (s.len-n) data.length = data.length := by omega
        have hle : n+data.length ≤ s.payload.length := by
          change n+data.length ≤ s.len
          omega
        simp only [if_pos hdone]
        refine ⟨trivial,?_,?_,hc.2⟩
        · rw [bytes_cons,bytes_cons,splice_append_left hle,hfirst,List.take_length]
          rfl
        · change s.totLen = List.length _ + _
          rw [hpart]
          exact h1
      · have hfirst : min (s.len-n) data.length = s.len-n := by omega
        have hrest : (data.drop (s.len-n)).length ≤ (bytes rest).length := by
          rw [List.length_drop]
          omega
        have hne : rest ≠ [] := by
          rintro rfl
          simp at hrest
          omega
        obtain ⟨hb,hcr⟩ := takeLoop_packet hrest hc.2
        rw [hfirst] at hpart hdone
        simp only [hfirst,if_neg hdone,take_packet hc.2 hrest hne]
        refine ⟨trivial,?_,?_,hcr⟩
        · rw [bytes_cons,bytes_cons,hb,splice_append_across hs'.le (show s.len ≤ n+data.length by omega)]
          have hnone : s.payload.drop (n+(s.len-n)) = [] :=
            List.drop_of_length_le (show s.len ≤ n+(s.len-n) by omega)
          simp only [hnone,List.append_nil,List.length_drop]
          rfl
        · change s.totLen = List.length _ + _
          rw [hpart,hb,List.length_append,List.length_drop]
          rw [List.length_drop] at hrest ⊢
          omega

theorem takeAt_too_long {c : Chain} {data : Bytes} {n : ℕ} (hc : Counted c)
    (h : (bytes c).length ≤ n ∨ (bytes c).length < n+data.length) : pbufTakeAt c data n = (c,.mem) := by
  induction c generalizing n with
  | nil => rfl
  | cons s rest ih =>
    rw [length_bytes_cons] at h
    by_cases hs : s.len ≤ n
    · rw [pbufTakeAt,if_pos hs,ih hc.2 (by omega)]
    · have h1 := hc.1
      rw [pbufTakeAt,if_neg hs,if_neg (by omega)]

theorem putAt_packet {c : Chain} (hc : Counted c) (n : ℕ) (b : UInt8) :
    bytes (pbufPutAt c n b) = (bytes c).set n b ∧ Counted (pbufPutAt c n b) := by
  induction c generalizing n with
  | nil => exact ⟨rfl,trivial⟩
  | cons s rest ih =>
    by_cases hs : s.len ≤ n
    · obtain ⟨hb,hcr⟩ := ih hc.2 (n-s.len)
      have h1 := hc.1
      rw [pbufPutAt,if_pos hs]
      refine ⟨?_,?_,hcr⟩
      · rw [bytes_cons,hb,bytes_cons,List.set_append_right n b hs]
        rfl
      · rw [hb,List.length_set]
        exact h1
    · rw [pbufPutAt,if_neg hs]
      refine ⟨?_,?_,hc.2⟩
      · rw [bytes_cons,bytes_cons,List.set_append_left n b (show n < s.len by omega)]
      · have h1 := hc.1
        change s.totLen = List.length _ + _
        rw [List.length_set]
        exact h1

theorem reallocLoop_packet {shrink : ℕ} {c : Chain} {remLen : ℕ} (hc : Counted c)
    (hr : remLen+shrink = (bytes c).length) (hw : (bytes c).length < 2^16) :
    bytes (pbufReallocLoop shrink c remLen) = (bytes c).take remLen ∧
      Counted (pbufReallocLoop shrink c remLen) := by
  induction c generalizing remLen with
  | nil => simp [pbufReallocLoop,Counted]
  | cons s rest ih =>
    have h1 := hc.1
    rw [length_bytes_cons] at hr hw
    rw [pbufReallocLoop]
    by_cases hs : s.len < remLen
    · obtain ⟨hb,hcr⟩ := ih hc.2 (show remLen-s.len+shrink = (bytes rest).length by omega) (by omega)
      rw [if_pos hs]
      refine ⟨?_,?_,hcr⟩
      · rw [bytes_cons,hb,bytes_cons,List.take_append,
          List.take_of_length_le (show s.payload.length ≤ remLen from hs.le)]
        rfl
      · change wrap 16 _ = s.len + _
        rw [hb,List.length_take,wrap_sub (by omega) (by omega)]
        omega
    · have hle : remLen ≤ s.payload.length := by
        change remLen ≤ s.len
        omega
      rw [if_neg hs]
      refine ⟨by rw [bytes_cons,bytes_cons,List.take_append_of_le_length hle]; simp,?_,trivial⟩
      change remLen = (s.payload.take remLen).length + 0
      rw [List.length_take]
      omega

theorem realloc_packet {c : Chain} (hc : Counted c) (hw : (bytes c).length < 2^16) (newLen : ℕ) :
    bytes (pbufRealloc c newLen) = (bytes c).take newLen ∧ Counted (pbufRealloc c newLen) := by
  rw [pbufRealloc,hc.totLen_eq]
  by_cases hn : (bytes c).length ≤ newLen
  · rw [if_pos hn,List.take_of_length_le hn]
    exact ⟨rfl,hc⟩
  · rw [if_neg hn,wrap_sub (by omega) hw]
    exact reallocLoop_packet hc (by omega) hw

theorem removeHeader_packet {c : Chain} (hc : Counted c) (hw : (bytes c).length < 2^16) (n : ℕ) :
    ((pbufRemoveHeader c n).2 = .ok → bytes (pbufRemoveHeader c n).1 = (bytes c).drop n) ∧
      ((pbufRemoveHeader c n).2 ≠ .ok → (pbufRemoveHeader c n).1 = c) ∧
      Counted (pbufRemoveHeader c n).1 := by
  cases c with
  | nil => exact ⟨by simp [pbufRemoveHeader],fun _ => rfl,trivial⟩
  | cons s rest =>
    rw [pbufRemoveHeader]
    by_cases hbig : 0xffff < n
    · rw [if_pos hbig]
      exact ⟨by simp,fun _ => rfl,hc⟩
    rw [if_neg hbig]
    by_cases hz : n = 0
    · rw [if_pos hz]
      exact ⟨fun _ => by rw [hz,List.drop_zero],fun _ => rfl,hc⟩
    rw [if_neg hz]
    by_cases hs : s.len < n
    · rw [if_pos hs]
      exact ⟨by simp,fun _ => rfl,hc⟩
    rw [if_neg hs]
    have hle : n ≤ s.payload.length := by
      change n ≤ s.len
      omega
    have h1 := hc.1
    rw [length_bytes_cons] at hw
    refine ⟨fun _ => ?_,fun h => absurd rfl h,?_,hc.2⟩
    · rw [bytes_cons,bytes_cons,List.drop_append_of_le_length hle]
    · change wrap 16 _ = (s.payload.drop n).length + _
      rw [wrap_sub (by omega) (by omega),List.length_drop]
      have hlen : s.payload.length = s.len := rfl
      omega

theorem removeHeader_ok {s : Seg} {rest : Chain} {n : ℕ} (hn : n ≤ s.len) (hb : n < 2^16) :
    (pbufRemoveHeader (s::rest) n).2 = .ok := by
  rw [pbufRemoveHeader,if_neg (by omega)]
  by_cases hz : n = 0
  · rw [if_pos hz]
  · rw [if_neg hz,if_neg (by omega)]

theorem removeHeader_arg {s : Seg} {rest : Chain} {n : ℕ} (h : s.len < n) :
    (pbufRemoveHeader (s::rest) n).2 = .arg := by
  rw [pbufRemoveHeader]
  by_cases hb : 0xffff < n
  · rw [if_pos hb]
  · rw [if_neg hb,if_neg (by omega),if_pos h]

theorem freeHeader_packet {c : Chain} (hc : Counted c) (hw : (bytes c).length < 2^16) (n : ℕ) :
    bytes (pbufFreeHeader c n) = (bytes c).drop n ∧ Counted (pbufFreeHeader c n) := by
  induction c generalizing n with
  | nil => simp [pbufFreeHeader,Counted]
  | cons s rest ih =>
    rw [pbufFreeHeader]
    by_cases hz : n = 0
    · rw [if_pos hz,hz]
      exact ⟨rfl,hc⟩
    rw [if_neg hz]
    by_cases hs : s.len ≤ n
    · have hw' := hw
      rw [length_bytes_cons] at hw'
      obtain ⟨hb,hcr⟩ := ih hc.2 (by omega) (n-s.len)
      rw [if_pos hs]
      refine ⟨?_,hcr⟩
      rw [hb,bytes_cons,List.drop_append,List.drop_of_length_le (show s.payload.length ≤ n from hs)]
      rfl
    · obtain ⟨hok,-,hcr⟩ := removeHeader_packet hc hw n
      have hlen := length_bytes_cons s rest
      rw [if_neg hs]
      exact ⟨hok (removeHeader_ok (by omega) (by omega)),hcr⟩

theorem cat_packet {h t : Chain} (hh : Counted h) (ht : Counted t)
    (hw : (bytes h).length+(bytes t).length < 2^16) :
    bytes (pbufCat h t) = bytes h ++ bytes t ∧ Counted (pbufCat h t) := by
  induction h with
  | nil => exact ⟨rfl,ht⟩
  | cons s rest ih =>
    have h1 := hh.1
    rw [length_bytes_cons] at hw
    obtain ⟨hb,hcr⟩ := ih hh.2 (by omega)
    have hcons : pbufCat (s::rest) t =
        { s with totLen := wrap 16 ((s.totLen+totLen t : ℕ) : ℤ) }::pbufCat rest t := rfl
    rw [hcons]
    refine ⟨by rw [bytes_cons,hb,bytes_cons,List.append_assoc],?_,hcr⟩
    change wrap 16 ((s.totLen+totLen t : ℕ) : ℤ) = s.len + (bytes (pbufCat rest t)).length
    rw [hb,List.length_append,wrap_natCast,ht.totLen_eq,Nat.mod_eq_of_lt (by omega)]
    omega

inductive Edit
  | takeAt (data : Bytes) (offset : ℕ)
  | putAt (offset : ℕ) (b : UInt8)
  | removeHeader (n : ℕ)
  | freeHeader (n : ℕ)
  | realloc (n : ℕ)
  | cat (t : Chain)

def editor : Machine Chain Edit ErrT
  | c, .takeAt data n => ((pbufTakeAt c data n).1,[(pbufTakeAt c data n).2])
  | c, .putAt n b => (pbufPutAt c n b,[.ok])
  | c, .removeHeader n => ((pbufRemoveHeader c n).1,[(pbufRemoveHeader c n).2])
  | c, .freeHeader n => (pbufFreeHeader c n,[.ok])
  | c, .realloc n => (pbufRealloc c n,[.ok])
  | c, .cat t => (pbufCat c t,[.ok])

/-- What a call that returned this makes of the packet. -/
def onBytes (xs : Bytes) : Edit → ErrT → Bytes
  | .takeAt data n, .ok => splice xs data n
  | .putAt n b, .ok => xs.set n b
  | .removeHeader n, .ok => xs.drop n
  | .freeHeader n, .ok => xs.drop n
  | .realloc n, .ok => xs.take n
  | .cat t, .ok => xs ++ bytes t
  | _, _ => xs

/-- What a call returns for a packet whose first pbuf has `front` bytes. A header is
removed from the first pbuf alone, a write goes across all of them. -/
def answer (front : ℕ) (xs : Bytes) : Edit → ErrT
  | .takeAt data n => if n < xs.length ∧ n+data.length ≤ xs.length then .ok else .mem
  | .removeHeader n => if n ≤ front then .ok else .arg
  | _ => .ok

def plain : Machine Bytes (ℕ × Edit) ErrT := fun xs x =>
  (onBytes xs x.2 (answer x.1 xs x.2),[answer x.1 xs x.2])

def front : Chain → ℕ
  | [] => 0
  | s::_ => s.len

/-- The calls, each with the length of the pbuf that is the first one then. -/
def fronted : Chain → List Edit → List (ℕ × Edit)
  | _, [] => []
  | c, e::es => (front c,e)::fronted (editor c e).1 es

/-- The call gets a packet, and what is appended leaves the length a 16 bit number. -/
def Fits (c : Chain) : Edit → Prop
  | .cat t => c ≠ [] ∧ Counted t ∧ (bytes c).length+(bytes t).length < 2^16
  | _ => c ≠ []

instance decidableFits (c : Chain) : (e : Edit) → Decidable (Fits c e)
  | .cat t => inferInstanceAs (Decidable (c ≠ [] ∧ Counted t ∧ _))
  | .takeAt _ _ | .putAt _ _ | .removeHeader _ | .freeHeader _ | .realloc _ =>
    inferInstanceAs (Decidable (c ≠ []))

structure Reads (c : Chain) (xs : Bytes) : Prop where
  byte : ∀ n, pbufTryGetAt c n = xs[n]?
  copy : ∀ len offset, pbufCopyPartial c len offset = (xs.drop offset).take len
  compare : c ≠ [] → ∀ offset s2, pbufMemcmp c offset s2 = if xs.length < offset+s2.length then 0xffff
    else ((diffAt (xs.drop offset) s2).map fun d => min (d+1) 0xffff).getD 0
  find : c ≠ [] → ∀ mem start, ∃ r, pbufMemfind c mem start = some r ∧ IsFirst xs mem start r

theorem Packet.reads {c : Chain} {xs : Bytes} (h : Packet c xs) : Reads c xs where
  byte n := by rw [tryGetAt_eq,h.carries]
  copy len offset := by rw [copyPartial_eq,h.carries]
  compare _ offset s2 := h.memcmp_eq offset s2
  find _ mem start := h.memfind_first mem start

theorem Packet.step {c : Chain} {xs : Bytes} (h : Packet c xs) {e : Edit} (hf : Fits c e) :
    Packet (editor c e).1 (plain xs (front c,e)).1 ∧ (editor c e).2 = (plain xs (front c,e)).2 := by
  obtain ⟨rfl,hc,hw⟩ := h
  cases e with
  | takeAt data n =>
    by_cases hn : n < (bytes c).length ∧ n+data.length ≤ (bytes c).length
    · obtain ⟨hok,hb,hcr⟩ := takeAt_fits hc hn.1 hn.2
      have ha : answer (front c) (bytes c) (.takeAt data n) = .ok := if_pos hn
      simp only [plain,ha]
      refine ⟨⟨hb,hcr,?_⟩,by rw [editor,hok]⟩
      rw [onBytes,length_splice hn.2]
      exact hw
    · have hlong : pbufTakeAt c data n = (c,.mem) := takeAt_too_long hc (by omega)
      have ha : answer (front c) (bytes c) (.takeAt data n) = .mem := if_neg hn
      simp only [plain,ha,editor,hlong]
      exact ⟨⟨rfl,hc,hw⟩,trivial⟩
  | putAt n b =>
    obtain ⟨hb,hcr⟩ := putAt_packet hc n b
    refine ⟨⟨hb,hcr,?_⟩,rfl⟩
    simp only [plain,answer,onBytes,List.length_set]
    exact hw
  | removeHeader n =>
    obtain ⟨hok,herr,hcr⟩ := removeHeader_packet hc hw n
    cases c with
    | nil => exact absurd rfl hf
    | cons s rest =>
      have hlen := length_bytes_cons s rest
      by_cases hn : n ≤ s.len
      · have ha : answer (front (s::rest)) (bytes (s::rest)) (.removeHeader n) = .ok := if_pos hn
        have hans : (pbufRemoveHeader (s::rest) n).2 = .ok := removeHeader_ok hn (by omega)
        simp only [plain,ha]
        refine ⟨⟨hok hans,hcr,?_⟩,by rw [editor,hans]⟩
        rw [onBytes,List.length_drop]
        omega
      · have ha : answer (front (s::rest)) (bytes (s::rest)) (.removeHeader n) = .arg := if_neg hn
        have hans : (pbufRemoveHeader (s::rest) n).2 = .arg := removeHeader_arg (by omega)
        have hsame := herr (by simp [hans])
        simp only [plain,ha]
        exact ⟨⟨by rw [editor,hsame]; rfl,hcr,hw⟩,by rw [editor,hans]⟩
  | freeHeader n =>
    obtain ⟨hb,hcr⟩ := freeHeader_packet hc hw n
    refine ⟨⟨hb,hcr,?_⟩,rfl⟩
    simp only [plain,answer,onBytes,List.length_drop]
    omega
  | realloc n =>
    obtain ⟨hb,hcr⟩ := realloc_packet hc hw n
    refine ⟨⟨hb,hcr,?_⟩,rfl⟩
    simp only [plain,answer,onBytes,List.length_take]
    omega
  | cat t =>
    obtain ⟨-,ht,hl⟩ := hf
    obtain ⟨hb,hcr⟩ := cat_packet hc ht hl
    refine ⟨⟨hb,hcr,?_⟩,rfl⟩
    simp only [plain,answer,onBytes,List.length_append]
    exact hl

/-- However a packet is cut into pbufs, every series of writes, header removals,
truncations and concatenations does to it and returns what it does to the plain bytes,
keeps every `tot_len` exact, and leaves a chain that reads as these bytes. -/
theorem packet_edits {c : Chain} {xs : Bytes} (h : Packet c xs) (edits : List Edit)
    (hf : Along editor Fits c edits) :
    trace editor c edits = trace plain xs (fronted c edits) ∧
      Packet (run editor c edits) (run plain xs (fronted c edits)) ∧
      Reads (run editor c edits) (run plain xs (fronted c edits)) := by
  have hp : trace editor c edits = trace plain xs (fronted c edits) ∧
      Packet (run editor c edits) (run plain xs (fronted c edits)) := by
    induction edits generalizing c xs with
    | nil => exact ⟨rfl,h⟩
    | cons e edits ih =>
      obtain ⟨hstep,ha⟩ := h.step hf.1
      obtain ⟨htrace,hrun⟩ := ih hstep hf.2
      exact ⟨by rw [fronted,trace_cons,trace_cons,ha,htrace],hrun⟩
  exact ⟨hp.1,hp.2,hp.2.reads⟩

/-- A write across two pbufs, a header removed, a header that is longer than the first
pbuf, a third pbuf appended and cut off again. -/
theorem packet_edits_two :
    trace editor [⟨[1,2],5⟩,⟨[3,4,5],3⟩]
        [.takeAt [8,9] 1,.removeHeader 1,.removeHeader 2,.cat [⟨[7],1⟩],.realloc 4] =
      [.ok,.ok,.arg,.ok,.ok] ∧
    Reads (run editor [⟨[1,2],5⟩,⟨[3,4,5],3⟩]
      [.takeAt [8,9] 1,.removeHeader 1,.removeHeader 2,.cat [⟨[7],1⟩],.realloc 4]) [8,9,4,5] := by
  obtain ⟨htrace,-,hreads⟩ :=
    packet_edits (show Packet [⟨[1,2],5⟩,⟨[3,4,5],3⟩] [1,2,3,4,5] from ⟨by decide,by decide,by decide⟩)
      [.takeAt [8,9] 1,.removeHeader 1,.removeHeader 2,.cat [⟨[7],1⟩],.realloc 4] (by decide)
  exact ⟨htrace.trans (by decide),hreads⟩

end PbufBytes
end EmbeddedShell
