import EmbeddedShell.Logger

/-!
# The positions of the log buffer

`Consistent` ties the full flag to the order of the two positions. Every call keeps
it, for records with any bytes and however often the ring is lapped. In a consistent
state the calls of `memcpy` stay inside the record and the ring, the subtractions
of 16-bit words do not wrap, and `flush` stores inside of its `tempBuf`.
-/

namespace EmbeddedShell
namespace Logger

open CString Memory Execution

/-- A `memcpy` of `_write`: an offset into the ring, one into the record, a length. -/
structure Memcpy where
  dest : ℕ
  src : ℕ
  len : ℕ

def Memcpy.perform (data : Bytes) (buffer : ℕ → UInt8) (m : Memcpy) : ℕ → UInt8 :=
  store buffer m.dest ((data.drop m.src).take m.len)

def copies (s : State) (data : Bytes) : List Memcpy :=
  if data.length = 0 then []
  else if logBufferSize ≤ s.writePos + data.length then
    let firstPart := wrap 16 ((logBufferSize : ℤ) - s.writePos)
    let secondPart := wrap 16 ((data.length : ℤ) - firstPart)
    (if 0 < firstPart then [⟨s.writePos,0,firstPart⟩] else []) ++ [⟨0,firstPart,secondPart⟩]
  else [⟨s.writePos,0,data.length⟩]

/-- The exact values of the 16-bit subtractions in a call. -/
def differences (s : State) : Op → List ℤ
  | .write data =>
    if data.length = 0 then []
    else if logBufferSize ≤ s.writePos + data.length then
      [(logBufferSize : ℤ) - s.writePos,
        (data.length : ℤ) - wrap 16 ((logBufferSize : ℤ) - s.writePos)]
    else []
  | .flush =>
    if s.bufferFull then []
    else if s.readPos ≤ s.writePos then [(s.writePos : ℤ) - s.readPos]
    else [(logBufferSize : ℤ) - s.readPos]
  | .init | .clear => []

/-- The cells of `tempBuf` that the loop body of `flush` stores to. -/
def Staging.cells (t : Staging) : List ℕ :=
  if tempBufSize-1 ≤ t.tempBuf.length+1 then [t.tempBuf.length,t.tempBuf.length+1]
  else [t.tempBuf.length]

def tempCells : Staging → Bytes → List ℕ
  | t, [] => if 0 < t.tempBuf.length then [t.tempBuf.length] else []
  | t, b::bs => t.cells ++ tempCells (t.push b) bs

/-- The order of the positions, as long as the flag does not say that it is lost. -/
structure Consistent (s : State) : Prop where
  writePos_lt : s.writePos < logBufferSize
  readPos_lt : s.readPos < logBufferSize
  ordered : s.bufferFull = false → s.readPos ≤ s.writePos

/-- Records of at most `MAX_LOG_MSG` bytes, empty ones included. -/
def Op.Sized : Op → Prop
  | .init | .flush | .clear => True
  | .write data => data.length ≤ maxLogMsg

instance : (op : Op) → Decidable op.Sized
  | .init | .flush | .clear => inferInstanceAs (Decidable True)
  | .write data => inferInstanceAs (Decidable (data.length ≤ maxLogMsg))

theorem write_buffer (s : State) (data : Bytes) :
    (write s data).buffer = (copies s data).foldl (Memcpy.perform data) s.buffer := by
  simp only [write,copies]
  split
  · rfl
  · split
    · split <;> simp [Memcpy.perform]
    · simp [Memcpy.perform]

theorem Consistent.write {s : State} (h : Consistent s) {data : Bytes} (hd : data.length ≤ maxLogMsg) :
    Consistent (write s data) := by
  have hw := h.writePos_lt
  have hm : maxLogMsg ≤ logBufferSize := by decide
  by_cases h0 : data.length = 0
  · simpa [Logger.write,h0] using h
  · by_cases hend : logBufferSize ≤ s.writePos + data.length
    · rw [write_of_wrap hw hd hend]
      exact ⟨by simp only; omega,h.readPos_lt,by simp⟩
    · rw [write_of_fit (by omega) (by omega)]
      refine ⟨Nat.lt_of_not_le hend,h.readPos_lt,fun hf => ?_⟩
      exact (h.ordered hf).trans (Nat.le_add_right _ _)

theorem Consistent.flush {s : State} (h : Consistent s) : Consistent (flush s).1 := by
  unfold Logger.flush
  split
  · exact h
  · exact ⟨h.writePos_lt,h.writePos_lt,fun _ => le_rfl⟩

theorem consistent_init (s : State) : Consistent (init s) :=
  ⟨(by decide : 0 < logBufferSize),(by decide : 0 < logBufferSize),fun _ => le_rfl⟩

theorem consistent_clear (s : State) : Consistent (clear s) :=
  ⟨(by decide : 0 < logBufferSize),(by decide : 0 < logBufferSize),fun _ => le_rfl⟩

theorem consistent_boot : Consistent boot := ⟨by decide,by decide,by decide⟩

theorem consistent_step {s : State} (h : Consistent s) {op : Op} (hop : op.Sized) :
    Consistent (logger s op).1 := by
  cases op with
  | init => exact consistent_init s
  | clear => exact consistent_clear s
  | flush => exact h.flush
  | write data => exact h.write hop

theorem consistent_run {ops : List Op} (hops : ∀ op ∈ ops, op.Sized) :
    Consistent (run logger boot ops) :=
  run_invariant (P:=Consistent) (C:=fun _ op => op.Sized) (fun _ _ h hop => consistent_step h hop)
    consistent_boot (along_of_forall hops)

theorem copies_of_wrap {s : State} {data : Bytes} (hw : s.writePos < logBufferSize)
    (hd : data.length ≤ maxLogMsg) (hend : logBufferSize ≤ s.writePos + data.length) :
    copies s data = [⟨s.writePos,0,logBufferSize-s.writePos⟩,
      ⟨0,logBufferSize-s.writePos,s.writePos+data.length-logBufferSize⟩] := by
  have hpos : 0 < logBufferSize - s.writePos := by omega
  simp only [copies,firstPart_eq hw,secondPart_eq hw hd hend]
  rw [if_neg (by omega),if_pos hend]
  simp [hpos]

/-- The copies of a record: inside of it and of the ring, each to a place of its own. -/
structure SafeWrite (s : State) (data : Bytes) : Prop where
  performed : (write s data).buffer = (copies s data).foldl (Memcpy.perform data) s.buffer
  inside : ∀ m ∈ copies s data, m.dest+m.len ≤ logBufferSize ∧ m.src+m.len ≤ data.length
  disjoint : (copies s data).Pairwise fun m m' => m.dest+m.len ≤ m'.dest ∨ m'.dest+m'.len ≤ m.dest
  exact : ∀ d ∈ differences s (.write data), 0 ≤ d ∧ d < 2^16

theorem Consistent.safeWrite {s : State} (h : Consistent s) {data : Bytes}
    (hd : data.length ≤ maxLogMsg) : SafeWrite s data := by
  have hw := h.writePos_lt
  have hm : maxLogMsg ≤ logBufferSize := by decide
  have hsize : logBufferSize < 2^16 := by decide
  by_cases h0 : data.length = 0
  · refine ⟨write_buffer s data,?_,?_,?_⟩
    · simp [copies,h0]
    · simp [copies,h0]
    · simp [differences,h0]
  · by_cases hend : logBufferSize ≤ s.writePos + data.length
    · have hc := copies_of_wrap hw hd hend
      refine ⟨write_buffer s data,?_,?_,?_⟩
      · simp only [hc,List.mem_cons,List.not_mem_nil,or_false]
        rintro m (rfl | rfl)
        · simp only
          omega
        · simp only
          omega
      · simp only [hc,List.pairwise_cons,List.mem_singleton,forall_eq,List.not_mem_nil]
        simp
        omega
      · simp only [differences,h0,hend,if_false,if_true,firstPart_eq hw,List.mem_cons,List.not_mem_nil,
          or_false]
        rintro d (rfl | rfl)
        · omega
        · omega
    · have hc : copies s data = [⟨s.writePos,0,data.length⟩] := by simp [copies,h0,hend]
      refine ⟨write_buffer s data,?_,?_,?_⟩
      · simp only [hc,List.mem_singleton,forall_eq]
        omega
      · simp [hc]
      · simp [differences,h0,hend]

theorem Staging.push_length (t : Staging) (b : UInt8) :
    (t.push b).tempBuf.length < tempBufSize-1 := by
  simp only [Staging.push]
  split
  · simp [tempBufSize]
  · rename_i hlt
    exact Nat.lt_of_not_le hlt

theorem tempCells_lt {t : Staging} (h : t.tempBuf.length < tempBufSize-1) (xs : Bytes) :
    ∀ i ∈ tempCells t xs, i < tempBufSize := by
  have hsize : 0 < tempBufSize := by decide
  induction xs generalizing t with
  | nil =>
    intro i hi
    simp only [tempCells] at hi
    split at hi
    · obtain rfl : i = t.tempBuf.length := by simpa using hi
      omega
    · simp at hi
  | cons b xs ih =>
    intro i hi
    rcases List.mem_append.mp hi with hi | hi
    · simp only [Staging.cells] at hi
      split at hi
      · simp at hi
        omega
      · simp at hi
        omega
    · exact ih (t.push_length b) i hi

/-- The loops of `flush` meet all that is unread, and store inside of `tempBuf`. -/
structure SafeFlush (s : State) : Prop where
  count : getUnreadCount s = if s.bufferFull then logBufferSize else s.writePos - s.readPos
  loops : s.bufferFull = false → getUnreadCount s ≠ 0 → s.readPos < s.writePos
  exact : ∀ d ∈ differences s .flush, 0 ≤ d ∧ d < 2^16
  staged : ∀ i ∈ tempCells ⟨[],[]⟩ (unread s), i < tempBufSize

theorem Consistent.safeFlush {s : State} (h : Consistent s) : SafeFlush s := by
  have hw := h.writePos_lt
  have hsize : logBufferSize < 2^16 := by decide
  have hstaged : ∀ i ∈ tempCells ⟨[],[]⟩ (unread s), i < tempBufSize :=
    tempCells_lt (by decide) (unread s)
  cases hf : s.bufferFull with
  | true => exact ⟨by simp [getUnreadCount,hf],by simp [hf],by simp [differences,hf],hstaged⟩
  | false =>
    have hle := h.ordered hf
    have hcount : getUnreadCount s = s.writePos - s.readPos := by
      simp only [getUnreadCount,hf,hle,Bool.false_eq_true,if_false,if_true]
      exact wrap_sub hle (by omega)
    refine ⟨by simp [hcount,hf],fun _ hne => ?_,?_,hstaged⟩
    · rw [hcount] at hne
      omega
    · simp only [differences,hf,hle,Bool.false_eq_true,if_false,if_true,List.mem_singleton,forall_eq]
      omega

/-- In every state that the logger reaches the positions are consistent, and the
next record and the next flush are safe. -/
theorem logger_invariant {ops : List Op} (hops : ∀ op ∈ ops, op.Sized) :
    Consistent (run logger boot ops) ∧
    (∀ data : Bytes, data.length ≤ maxLogMsg → SafeWrite (run logger boot ops) data) ∧
    SafeFlush (run logger boot ops) :=
  have h := consistent_run hops
  ⟨h,fun _ => h.safeWrite,h.safeFlush⟩

/-- Sixteen records end at the end of the ring; behind them a NUL and an empty record. -/
def exactEnd : List Op :=
  List.replicate 16 (Op.write (List.replicate 256 97)) ++ [Op.write [0],Op.write []]

theorem logger_invariant_exact_end :
    Consistent (run logger boot exactEnd) ∧ SafeWrite (run logger boot exactEnd) (List.replicate 256 98) ∧
    SafeFlush (run logger boot exactEnd) :=
  have h := logger_invariant (show ∀ op ∈ exactEnd, op.Sized by decide +kernel)
  ⟨h.1,h.2.1 _ (by decide +kernel),h.2.2⟩

end Logger
end EmbeddedShell
