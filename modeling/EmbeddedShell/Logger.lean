import EmbeddedShell.Execution
import EmbeddedShell.Memory
import EmbeddedShell.Uart

/-!
# The circular log buffer

`State` carries the four static members of `Logger`. `write` and `flush` follow
`Logger.cpp` statement by statement; positions are unsigned 16-bit words. The
specification is a `journal` that remembers every byte written since the last
`init`, `flush` or `clear`, and `Represents` ties the ring to it. The relation
holds in every reachable state, also long after the ring has been lapped.
-/

namespace EmbeddedShell
namespace Logger

open CString Memory Execution

def logBufferSize : ℕ := 4096
def maxLogMsg : ℕ := 256

structure State where
  buffer : ℕ → UInt8
  writePos : ℕ
  readPos : ℕ
  bufferFull : Bool

def boot : State := ⟨fun _ => 0,0,0,false⟩

def init (s : State) : State where
  buffer := store s.buffer 0 (List.replicate logBufferSize 0)
  writePos := 0
  readPos := 0
  bufferFull := false

def clear (s : State) : State where
  buffer := store s.buffer 0 (List.replicate logBufferSize 0)
  writePos := 0
  readPos := 0
  bufferFull := false

/-- `_write`: one copy, or two when the record meets the end of the buffer. -/
def write (s : State) (data : Bytes) : State :=
  if data.length = 0 then s
  else if logBufferSize ≤ s.writePos + data.length then
    let firstPart := wrap 16 ((logBufferSize : ℤ) - s.writePos)
    let buffer := if 0 < firstPart then store s.buffer s.writePos (data.take firstPart) else s.buffer
    let secondPart := wrap 16 ((data.length : ℤ) - firstPart)
    { s with
      buffer := store buffer 0 ((data.drop firstPart).take secondPart)
      writePos := secondPart
      bufferFull := true }
  else
    { s with
      buffer := store s.buffer s.writePos data
      writePos := wrap 16 ((s.writePos : ℤ) + data.length) }

def getUnreadCount (s : State) : ℕ :=
  if s.bufferFull then logBufferSize
  else if s.readPos ≤ s.writePos then wrap 16 ((s.writePos : ℤ) - s.readPos)
  else wrap 16 ((logBufferSize : ℤ) - s.readPos + s.writePos)

def tempBufSize : ℕ := 256

/-- The first `tempLen` bytes of `tempBuf`, and what was printed so far. -/
structure Staging where
  tempBuf : Bytes
  sent : Bytes

/-- Loop body of `flush`: a full `tempBuf` is terminated and printed. -/
def Staging.push (t : Staging) (b : UInt8) : Staging :=
  let tempBuf := t.tempBuf ++ [b]
  if tempBufSize-1 ≤ tempBuf.length then ⟨[],t.sent ++ Uart.print tempBuf⟩ else ⟨tempBuf,t.sent⟩

/-- `for (i = lo; i < hi; i++)` over the loop body. -/
def Staging.copy (buffer : ℕ → UInt8) (lo hi : ℕ) (t : Staging) : Staging :=
  (List.range' lo (hi-lo)).foldl (fun t i => t.push (buffer i)) t

def Staging.finish (t : Staging) : Bytes :=
  if 0 < t.tempBuf.length then t.sent ++ Uart.print t.tempBuf else t.sent

/-- What `flush` prints between its header and its footer. -/
def flushLog (s : State) : Bytes :=
  if s.bufferFull = false then
    if s.readPos < s.writePos then (Staging.copy s.buffer s.readPos s.writePos ⟨[],[]⟩).finish
    else (⟨[],[]⟩ : Staging).finish
  else (Staging.copy s.buffer 0 s.writePos
    (Staging.copy s.buffer s.readPos logBufferSize ⟨[],[]⟩)).finish

def flushHeader : Bytes := Uart.println (chars "\r\n=== LOGS ===")
def flushFooter : Bytes := Uart.println (chars "\r\n=== END ===\r\n")
def noLogs : Bytes := Uart.println (chars "--- No logs ---")

def flush (s : State) : State × Bytes :=
  if getUnreadCount s = 0 then (s,noLogs)
  else ({ s with readPos := s.writePos, bufferFull := false },flushHeader ++ flushLog s ++ flushFooter)

inductive Op
  | init | write (data : Bytes) | flush | clear
  deriving DecidableEq

def logger : Machine State Op Bytes
  | s, .init => (init s,[])
  | s, .write data => (write s data,[])
  | s, .flush => ((flush s).1,[(flush s).2])
  | s, .clear => (clear s,[])

/-- What a flush is for: everything in between header and footer, or the no-logs line. -/
def report (q : Bytes) : Bytes :=
  if q = [] then noLogs else flushHeader ++ q ++ flushFooter

/-- The unbounded log: all bytes written since the last `init`, `flush` or `clear`. -/
def journal : Machine Bytes Op Bytes
  | _, .init => ([],[])
  | q, .write data => (q ++ data,[])
  | q, .flush => ([],[report q])
  | _, .clear => ([],[])

/-- No record is pending, wherever in the ring the two positions meet. -/
structure Drained (s : State) : Prop where
  pos : s.readPos = s.writePos
  lt : s.writePos < logBufferSize
  full : s.bufferFull = false

/-- The ring after the bytes `q` have been written from the read position on. -/
structure Represents (s : State) (q : Bytes) : Prop where
  lt : s.readPos < logBufferSize
  pos : s.writePos = (s.readPos + q.length) % logBufferSize
  full : s.bufferFull = decide (logBufferSize ≤ s.readPos + q.length)
  holds : Ring.Holds logBufferSize s.buffer s.readPos q

theorem Drained.represents {s : State} (h : Drained s) : Represents s [] where
  lt := h.pos ▸ h.lt
  pos := by simp [h.pos,Nat.mod_eq_of_lt h.lt]
  full := by
    have hlt := h.lt
    simp [h.full,h.pos]; omega
  holds := Ring.holds_nil _ _ _

theorem Represents.writePos_lt {s : State} {q : Bytes} (h : Represents s q) :
    s.writePos < logBufferSize := by
  rw [h.pos]
  exact Nat.mod_lt _ (by decide)

theorem represents_init (s : State) : Represents (init s) [] :=
  Drained.represents ⟨rfl,(by decide : 0 < logBufferSize),rfl⟩

theorem represents_clear (s : State) : Represents (clear s) [] :=
  Drained.represents ⟨rfl,(by decide : 0 < logBufferSize),rfl⟩

theorem drained_boot : Drained boot := ⟨rfl,by decide,rfl⟩

/-- The two parts of a record that meets the end of the ring. -/
theorem firstPart_eq {w : ℕ} (hw : w < logBufferSize) :
    wrap 16 ((logBufferSize : ℤ) - w) = logBufferSize - w :=
  wrap_sub hw.le (by decide)

theorem secondPart_eq {w n : ℕ} (hw : w < logBufferSize) (hn : n ≤ maxLogMsg)
    (hend : logBufferSize ≤ w + n) :
    wrap 16 ((n : ℤ) - (logBufferSize - w : ℕ)) = w + n - logBufferSize := by
  have hm : maxLogMsg < 2^16 := by decide
  rw [wrap_sub (by omega) (by omega)]
  omega

/-- The split copy of `_write` is a circular put; no 16-bit operation wraps. -/
theorem write_of_wrap {s : State} {data : Bytes} (hw : s.writePos < logBufferSize)
    (hd : data.length ≤ maxLogMsg) (hend : logBufferSize ≤ s.writePos + data.length) :
    write s data = { s with
      buffer := Ring.put logBufferSize s.buffer s.writePos data
      writePos := s.writePos + data.length - logBufferSize
      bufferFull := true } := by
  have htake : (data.drop (logBufferSize-s.writePos)).take (s.writePos+data.length-logBufferSize) =
      data.drop (logBufferSize-s.writePos) := List.take_of_length_le (by simp; omega)
  have hpos : 0 < logBufferSize - s.writePos := by omega
  simp only [write,firstPart_eq hw,secondPart_eq hw hd hend,htake]
  rw [if_neg (by omega),if_pos hend]
  simp only [hpos,if_true,Ring.put,if_pos hend]

theorem write_of_fit {s : State} {data : Bytes} (hd : 0 < data.length)
    (hend : s.writePos + data.length < logBufferSize) :
    write s data = { s with
      buffer := Ring.put logBufferSize s.buffer s.writePos data
      writePos := s.writePos + data.length } := by
  have hpos : wrap 16 ((s.writePos : ℤ) + data.length) = s.writePos + data.length := by
    rw [← Nat.cast_add,wrap_natCast,Nat.mod_eq_of_lt (by simp only [logBufferSize] at hend; omega)]
  simp only [write,hpos,Ring.put]
  rw [if_neg (by omega),if_neg (by omega),if_neg (by omega)]

theorem represents_write {s : State} {q data : Bytes} (h : Represents s q)
    (hd : data.length ≤ maxLogMsg) : Represents (write s data) (q++data) := by
  by_cases h0 : data.length = 0
  · have he : data = [] := List.length_eq_zero_iff.mp h0
    subst data
    simpa [write] using h
  have hw := h.writePos_lt
  have hm : maxLogMsg ≤ logBufferSize := by decide
  have hholds : Ring.Holds logBufferSize (Ring.put logBufferSize s.buffer s.writePos data)
      s.readPos (q++data) := by
    rw [h.pos]
    exact Ring.holds_put (by decide) h.holds (by omega)
  have hpos : (s.readPos + (q++data).length) % logBufferSize =
      (s.writePos + data.length) % logBufferSize := by
    rw [h.pos,Nat.mod_add_mod,List.length_append,Nat.add_assoc]
  have hle : s.writePos ≤ s.readPos + q.length := h.pos ▸ Nat.mod_le _ _
  by_cases hend : logBufferSize ≤ s.writePos + data.length
  · rw [write_of_wrap hw hd hend]
    refine ⟨h.lt,?_,?_,hholds⟩
    · rw [hpos,Nat.mod_eq_sub_mod hend,Nat.mod_eq_of_lt (by omega)]
    · simp; omega
  · rw [write_of_fit (by omega) (by omega)]
    refine ⟨h.lt,?_,?_,hholds⟩
    · rw [hpos,Nat.mod_eq_of_lt (by omega)]
    · simp only [h.full,List.length_append,decide_eq_decide]
      by_cases hlap : logBufferSize ≤ s.readPos + q.length
      · omega
      · have hp := h.pos
        rw [Nat.mod_eq_of_lt (by omega)] at hp
        omega

/-- The unread cells in the order in which the loops of `flush` visit them. -/
def unread (s : State) : Bytes :=
  if s.bufferFull then load s.buffer s.readPos (logBufferSize-s.readPos) ++ load s.buffer 0 s.writePos
  else load s.buffer s.readPos (s.writePos-s.readPos)

theorem Staging.copy_eq (buffer : ℕ → UInt8) (lo hi : ℕ) (t : Staging) :
    t.copy buffer lo hi = (load buffer lo (hi-lo)).foldl Staging.push t := by
  simp [Staging.copy,load,List.range'_eq_map_range,List.foldl_map]

theorem Staging.finish_foldl (t : Staging) (xs : Bytes) (ht : t.tempBuf.length < tempBufSize-1) :
    (xs.foldl Staging.push t).finish = t.sent ++ chunked (tempBufSize-2) (t.tempBuf++xs) := by
  induction xs generalizing t with
  | nil =>
    rw [List.foldl_nil,List.append_nil,
      chunked_of_length_le (by simp only [tempBufSize] at *; omega),Staging.finish]
    split
    · rfl
    · have he : t.tempBuf = [] := List.length_eq_zero_iff.mp (by omega)
      simp [he,cstr]
  | cons b xs ih =>
    rw [List.foldl_cons]
    by_cases hfull : tempBufSize-1 ≤ (t.tempBuf++[b]).length
    · have hp : t.push b = ⟨[],t.sent ++ Uart.print (t.tempBuf++[b])⟩ := by
        simp only [Staging.push,if_pos hfull]
      have hb : (t.tempBuf++[b]).length = tempBufSize-2+1 := by
        simp only [tempBufSize,List.length_append,List.length_singleton] at *
        omega
      rw [hp,ih _ (by simp [tempBufSize]),show t.tempBuf ++ b::xs = (t.tempBuf++[b])++xs by simp,
        chunked_append xs hb]
      simp [Uart.print]
    · have hp : t.push b = ⟨t.tempBuf++[b],t.sent⟩ := by
        simp only [Staging.push,if_neg hfull]
      rw [hp,ih _ (Nat.lt_of_not_le hfull)]
      simp

theorem flushLog_eq (s : State) : flushLog s = chunked (tempBufSize-2) (unread s) := by
  have hz : (⟨[],[]⟩ : Staging).tempBuf.length < tempBufSize-1 := by decide
  cases hf : s.bufferFull with
  | true =>
    have hs := Staging.finish_foldl ⟨[],[]⟩ (unread s) hz
    simpa only [flushLog,unread,hf,Staging.copy_eq,← List.foldl_append,Nat.sub_zero,
      Bool.true_eq_false,if_true,if_false,List.nil_append] using hs
  | false =>
    have hs := Staging.finish_foldl ⟨[],[]⟩ (unread s) hz
    by_cases hlt : s.readPos < s.writePos
    · simpa only [flushLog,unread,hf,Staging.copy_eq,hlt,Bool.false_eq_true,if_true,if_false,
        List.nil_append] using hs
    · have hnil : unread s = [] := by
        simp [unread,hf,Nat.sub_eq_zero_of_le (Nat.not_lt.mp hlt)]
      simp [flushLog,hf,hlt,hnil,Staging.finish]

end Logger
end EmbeddedShell
