import EmbeddedShell.LoggerRuns

/-!
# Formatting of log records

`Logger::log` and `Logger::_logWithLevel` assemble a record in a stack buffer of
`MAX_LOG_MSG` bytes. Each formatting call appends at the untruncated running
length, so the line end of a message of 254 or 255 bytes no longer fits and the
terminating NUL becomes part of the record. A NUL inside the ring cuts off the
rest of the block that `flush` hands to `Uart::print`.
-/

namespace EmbeddedShell
namespace Logger

open CString Memory Execution

/-- `snprintf` to offset `pos` of a buffer: at most `size-1` characters and a NUL. -/
def snprintf (b : ℕ → UInt8) (pos size : ℕ) (text : Bytes) : ℕ → UInt8 :=
  if size = 0 then b else store b pos (text.take (size-1) ++ [0])

/-- `len += snprintf(msgBuffer + len, MAX_LOG_MSG - len, ..)`; the remaining size
is an `int` that is converted to `size_t`. -/
def appendText (b : (ℕ → UInt8) × ℕ) (text : Bytes) : (ℕ → UInt8) × ℕ :=
  (snprintf b.1 b.2 (wrap 32 ((maxLogMsg : ℤ) - b.2)) text,b.2 + text.length)

/-- The bytes handed to `_write`, after the length has been clamped. -/
def clampRecord (b : (ℕ → UInt8) × ℕ) : Bytes :=
  load b.1 0 (if maxLogMsg < b.2 then maxLogMsg else b.2)

inductive Level
  | error | warn | info | debug
  deriving DecidableEq

def Level.tag : Level → Bytes
  | .error => chars "ERR"
  | .warn => chars "WRN"
  | .info => chars "INF"
  | .debug => chars "DBG"

/-- One logging call: `none` for `Logger::log`, the formatted text, the tick
count, and what the stack held in `msgBuffer` before the call. -/
structure Call where
  level : Option Level
  timestamp : ℕ
  text : Bytes
  stale : ℕ → UInt8

def Call.header (c : Call) : Bytes :=
  match c.level with
  | none => []
  | some l => chars "[" ++ l.tag ++ chars "][" ++ decimal c.timestamp ++ chars "] "

def logWithLevel (s : State) (l : Level) (timestamp : ℕ) (text : Bytes) (stale : ℕ → UInt8) :
    State :=
  let b := appendText (stale,0) (chars "[" ++ l.tag ++ chars "][" ++ decimal timestamp ++ chars "] ")
  if 0 < b.2 then write s (clampRecord (appendText (appendText b text) (chars "\r\n"))) else s

def log (s : State) (text : Bytes) (stale : ℕ → UInt8) : State :=
  write s (clampRecord (appendText (appendText (stale,0) text) (chars "\r\n")))

/-- `error`, `warn`, `info` and `debug` differ in the tag only. -/
def logCall : Machine State Call Bytes
  | s, c =>
    match c.level with
    | none => (log s c.text c.stale,[])
    | some l => (logWithLevel s l c.timestamp c.text c.stale,[])

def Call.size (c : Call) : ℕ := c.header.length + c.text.length

def Call.line (c : Call) : Bytes := c.header ++ c.text ++ chars "\r\n"

def Call.record (c : Call) : Bytes :=
  let b := match c.level with
    | none => (c.stale,0)
    | some _ => appendText (c.stale,0) c.header
  clampRecord (appendText (appendText b c.text) (chars "\r\n"))

theorem Call.nulFree_header (c : Call) : NulFree c.header := by
  rcases c with ⟨level,timestamp,text,stale⟩
  cases level with
  | none => exact nulFree_nil
  | some l =>
    have ht : NulFree l.tag := by cases l <;> decide
    simp only [Call.header,nulFree_append]
    exact ⟨⟨⟨⟨by decide,ht⟩,by decide⟩,nulFree_decimal timestamp⟩,by decide⟩

theorem logCall_eq (s : State) (c : Call) : (logCall s c).1 = write s c.record := by
  rcases c with ⟨level,timestamp,text,stale⟩
  cases level with
  | none => rfl
  | some l =>
    have hpos : 0 < (appendText (stale,0) (chars "[" ++ l.tag ++ chars "][" ++
        decimal timestamp ++ chars "] ")).2 := by
      simp [appendText,chars]
    simp only [logCall,logWithLevel,if_pos hpos]
    rfl

/-- The buffer carries exactly the text `p` in front of its running length. -/
def Carries (b : (ℕ → UInt8) × ℕ) (p : Bytes) : Prop := b.2 = p.length ∧ load b.1 0 p.length = p

theorem carries_nil (b : ℕ → UInt8) : Carries (b,0) [] := ⟨rfl,rfl⟩

theorem Carries.load_append {b : (ℕ → UInt8) × ℕ} {p : Bytes} (h : Carries b p) (text : Bytes) {k : ℕ}
    (hp : p.length < maxLogMsg) (hk : k ≤ (text.take (maxLogMsg-p.length-1) ++ [0]).length) :
    load (appendText b text).1 0 (p.length+k) =
      p ++ (text.take (maxLogMsg-p.length-1) ++ [0]).take k := by
  have hsize : wrap 32 ((maxLogMsg : ℤ) - p.length) = maxLogMsg-p.length :=
    wrap_sub hp.le (by decide)
  have hs := load_store_extend b.1 h.2 hk
  rw [Nat.zero_add] at hs
  simp only [appendText,snprintf,h.1,hsize]
  rwa [if_neg (by omega)]

theorem Carries.append {b : (ℕ → UInt8) × ℕ} {p : Bytes} (h : Carries b p) (text : Bytes)
    (hfit : p.length + text.length < maxLogMsg) : Carries (appendText b text) (p++text) := by
  have ht : text.take (maxLogMsg-p.length-1) = text := List.take_of_length_le (by omega)
  have hl := h.load_append text (k:=text.length) (by omega) (by simp [ht])
  refine ⟨by simp [appendText,h.1],?_⟩
  rw [List.length_append,hl,ht]
  simp

/-- What is stored behind the message text of a call of the given size. -/
def storedEnd (size : ℕ) : Bytes :=
  if size ≤ 253 then chars "\r\n" else if size = 254 then [13,0] else [0]

theorem Call.exists_carries {c : Call} (h : c.size ≤ 255) : ∃ b, Carries b (c.header++c.text) ∧
    c.record = clampRecord (appendText b (chars "\r\n")) := by
  have hm : maxLogMsg = 256 := rfl
  simp only [Call.size] at h
  cases hl : c.level with
  | none =>
    have hh : c.header = [] := by simp [Call.header,hl]
    have hc := (carries_nil c.stale).append c.text (by rw [List.length_nil]; omega)
    exact ⟨_,by simpa [hh] using hc,by simp only [Call.record,hl]⟩
  | some l =>
    have hc := (carries_nil c.stale).append c.header (by rw [List.length_nil]; omega)
    rw [List.nil_append] at hc
    exact ⟨_,hc.append c.text (by omega),by simp only [Call.record,hl]⟩

/-- Up to 253 bytes the line end fits; 254 and 255 bytes leave room for the
carriage return and the NUL, or for the NUL alone. -/
theorem Call.record_eq {c : Call} (h : c.size ≤ 255) :
    c.record = c.header ++ c.text ++ storedEnd c.size := by
  have hm : maxLogMsg = 256 := rfl
  have hcrlf : (chars "\r\n").length = 2 := rfl
  have hsize : (c.header++c.text).length = c.size := by simp [Call.size]
  obtain ⟨b,hb,hrec⟩ := Call.exists_carries h
  have hlen : (appendText b (chars "\r\n")).2 = c.size+2 := by
    simp only [appendText,hb.1,hsize,hcrlf]
  rw [hrec,clampRecord,hlen]
  by_cases h253 : c.size ≤ 253
  · have hc := hb.append (chars "\r\n") (by omega)
    rw [if_neg (by omega),storedEnd,if_pos h253,← hsize,← hcrlf,← List.length_append]
    exact hc.2
  · have hroom : maxLogMsg - (c.header++c.text).length - 1 = 255 - c.size := by omega
    by_cases h254 : c.size = 254
    · have hl := hb.load_append (chars "\r\n") (k:=2) (by omega)
        (by rw [hroom,h254]; decide)
      rw [hroom,hsize,h254] at hl
      simpa [storedEnd,h254,hm,chars] using hl
    · have h255 : c.size = 255 := by omega
      have hl := hb.load_append (chars "\r\n") (k:=1) (by omega)
        (by rw [hroom,h255]; decide)
      rw [hroom,hsize,h255] at hl
      simpa [storedEnd,h255,hm,chars] using hl

/-- Formatted texts without NUL whose header and text fit in front of the terminator. -/
structure Call.Fits (c : Call) : Prop where
  nulFree : NulFree c.text
  size : c.size ≤ 255

theorem Call.Fits.record_length_le {c : Call} (h : c.Fits) : c.record.length ≤ maxLogMsg := by
  have hs := h.size
  have hm : maxLogMsg = 256 := rfl
  rw [Call.record_eq h.size,List.length_append,List.length_append]
  simp only [Call.size] at hs ⊢
  simp only [storedEnd]
  split_ifs <;> simp [chars] <;> omega

theorem Call.Fits.record_head {c : Call} (h : c.Fits) : ∃ x xs, x ≠ 0 ∧ c.record = x::xs := by
  have hn : NulFree (c.header++c.text) := nulFree_append.mpr ⟨c.nulFree_header,h.nulFree⟩
  rw [Call.record_eq h.size]
  cases hb : c.header++c.text with
  | nil =>
    have hz : c.size = 0 := by simpa [Call.size] using congrArg List.length hb
    exact ⟨13,[10],by decide,by simp [hz,storedEnd]; rfl⟩
  | cons x xs =>
    refine ⟨x,xs++storedEnd c.size,?_,by simp⟩
    rintro rfl
    exact hn (by simp [hb])

/-- The only NUL of a record is its last byte, and only long messages have one. -/
theorem Call.Fits.record_nul {c : Call} (h : c.Fits) (i : ℕ) :
    c.record[i]? = some 0 ↔ 253 < c.size ∧ i+1 = c.record.length := by
  have hs := h.size
  have hn : NulFree (c.header++c.text) := nulFree_append.mpr ⟨c.nulFree_header,h.nulFree⟩
  have hsize : (c.header++c.text).length = c.size := by simp [Call.size]
  rw [Call.record_eq h.size,List.length_append,hsize]
  by_cases hi : i < c.size
  · have hne : (c.header++c.text)[i]? ≠ some 0 := fun h0 => hn (List.mem_of_getElem? h0)
    have hpos : 0 < (storedEnd c.size).length := by
      simp only [storedEnd]
      split_ifs <;> simp [chars]
    rw [List.getElem?_append_left (by omega)]
    simp only [hne,false_iff]
    omega
  · rw [List.getElem?_append_right (by omega),hsize]
    obtain ⟨k,rfl⟩ : ∃ k, i = c.size+k := ⟨i-c.size,by omega⟩
    rw [Nat.add_sub_cancel_left]
    simp only [storedEnd]
    split_ifs with h253 h254
    · have hcrlf : NulFree (chars "\r\n") := by decide
      have hne : (chars "\r\n")[k]? ≠ some 0 := fun h0 => hcrlf (List.mem_of_getElem? h0)
      simp only [hne,false_iff]
      omega
    · cases k with
      | zero => simp
      | succ k =>
        cases k with
        | zero => simp [h254]
        | succ k => simp [h254]; omega
    · cases k with
      | zero => simp; omega
      | succ k => simp

def stored (calls : List Call) : Bytes := calls.flatMap Call.record

theorem stored_append (xs ys : List Call) : stored (xs++ys) = stored xs ++ stored ys := by
  simp [stored]

/-- The NULs of the stored bytes are the ends of the long records. -/
theorem stored_nul {calls : List Call} (hc : ∀ c ∈ calls, c.Fits) (i : ℕ) :
    (stored calls)[i]? = some 0 ↔ ∃ pre c post, calls = pre ++ c::post ∧ 253 < c.size ∧
      i+1 = (stored (pre++[c])).length := by
  constructor
  · intro h0
    induction calls generalizing i with
    | nil => simp [stored] at h0
    | cons c cs ih =>
      change (c.record ++ stored cs)[i]? = some 0 at h0
      by_cases hi : i < c.record.length
      · rw [List.getElem?_append_left hi] at h0
        obtain ⟨hlong,hend⟩ := ((hc c (by simp)).record_nul i).mp h0
        exact ⟨[],c,cs,rfl,hlong,by simpa [stored] using hend⟩
      · rw [List.getElem?_append_right (by omega)] at h0
        obtain ⟨pre,d,post,rfl,hlong,hend⟩ := ih (fun d hd => hc d (by simp [hd])) _ h0
        refine ⟨c::pre,d,post,rfl,hlong,?_⟩
        simp only [stored,List.cons_append,List.flatMap_cons,List.length_append] at hend ⊢
        omega
  · rintro ⟨pre,c,post,rfl,hlong,hend⟩
    have hfit : c.Fits := hc c (by simp)
    obtain ⟨x,xs,-,hrec⟩ := hfit.record_head
    have hlen : 0 < c.record.length := by simp [hrec]
    have hlast := (hfit.record_nul (c.record.length-1)).mpr ⟨hlong,by omega⟩
    have hstored : stored (pre ++ c::post) = stored pre ++ (c.record ++ stored post) := by
      simp [stored]
    have hpos : i = (stored pre).length + (c.record.length-1) := by
      simp only [stored_append,List.length_append] at hend
      have hone : (stored [c]).length = c.record.length := by simp [stored]
      omega
    rw [hstored,hpos,List.getElem?_append_right (by omega),Nat.add_sub_cancel_left,
      List.getElem?_append_left (by omega)]
    exact hlast

/-- Every message of 254 or 255 bytes is the newest one or ends a 255-byte block. -/
def LongEndBlock (calls : List Call) : Prop :=
  ∀ pre c post, calls = pre ++ c::post → 253 < c.size →
    post = [] ∨ 255 ∣ (stored (pre++[c])).length

theorem intact_stored_iff {calls : List Call} (hc : ∀ c ∈ calls, c.Fits) :
    Intact 254 (stored calls) ↔ LongEndBlock calls := by
  constructor
  · rintro hi pre c post rfl hlong
    cases post with
    | nil => exact Or.inl rfl
    | cons d ds =>
      right
      obtain ⟨x,xs,hx,hrec⟩ := (hc d (by simp)).record_head
      obtain ⟨y,ys,-,hrecc⟩ := (hc c (by simp)).record_head
      have hsplit : stored (pre ++ c::d::ds) = stored (pre++[c]) ++ x::(xs ++ stored ds) := by
        simp [stored,hrec]
      have hpos : 0 < (stored (pre++[c])).length := by simp [stored,hrecc]
      have hnul := (stored_nul hc ((stored (pre++[c])).length-1)).mpr
        ⟨pre,c,d::ds,rfl,hlong,by omega⟩
      have hnext : (stored (pre ++ c::d::ds))[(stored (pre++[c])).length]? = some x := by
        rw [hsplit,List.getElem?_append_right le_rfl]
        simp
      by_contra hdvd
      exact hx (hi _ _ (by omega) (by omega) hnul x hnext)
  · intro h i j hij hblock h0 b hb
    obtain ⟨pre,c,post,rfl,hlong,hend⟩ := (stored_nul hc i).mp h0
    have hj : j < (stored (pre ++ c::post)).length := (List.getElem?_eq_some_iff.mp hb).1
    rcases h pre c post rfl hlong with rfl | hdvd
    · omega
    · omega

theorem represents_calls {s : State} {q : Bytes} {calls : List Call} (h : Represents s q)
    (hc : ∀ c ∈ calls, c.Fits) : Represents (run logCall s calls) (q ++ stored calls) := by
  induction calls generalizing s q with
  | nil => simpa [stored] using h
  | cons c cs ih =>
    have hw := represents_write h (hc c (by simp)).record_length_le
    have ht := ih (s:=(logCall s c).1) (q:=q++c.record) (by rwa [logCall_eq])
      fun d hd => hc d (by simp [hd])
    simpa [stored] using ht

theorem printable_stored_eq_nil {calls : List Call} (hc : ∀ c ∈ calls, c.Fits) :
    printable (stored calls) = [] ↔ stored calls = [] := by
  cases calls with
  | nil => simp [stored,printable]
  | cons c cs =>
    obtain ⟨x,xs,hx,hrec⟩ := (hc c (by simp)).record_head
    simp [stored,hrec,printable,hx]

theorem short_lines_sublist {calls : List Call} (hc : ∀ c ∈ calls, c.Fits) :
    ((calls.filter (·.size ≤ 253)).flatMap Call.line).Sublist (printable (stored calls)) := by
  induction calls with
  | nil => simp [stored,printable]
  | cons c cs ih =>
    have ht := ih fun d hd => hc d (by simp [hd])
    have hfit := hc c (by simp)
    have hsplit : printable (stored (c::cs)) = printable c.record ++ printable (stored cs) := by
      simp [stored]
    rw [hsplit]
    by_cases hshort : c.size ≤ 253
    · have hline : printable c.record = c.line := by
        have hrec : c.record = c.line := by simp [Call.record_eq hfit.size,storedEnd,hshort,Call.line]
        rw [hrec]
        apply printable_of_nulFree
        simp only [Call.line,nulFree_append]
        exact ⟨⟨c.nulFree_header,hfit.nulFree⟩,by decide⟩
      simp only [List.filter_cons,hshort,decide_true,if_true,List.flatMap_cons,hline]
      exact List.Sublist.append_left ht _
    · simp only [List.filter_cons,hshort,decide_false,Bool.false_eq_true,if_false]
      exact ht.trans (List.sublist_append_right _ _)

theorem flushLog_calls {s : State} (hs : Drained s) {calls : List Call}
    (hc : ∀ c ∈ calls, c.Fits) (hcap : (stored calls).length ≤ logBufferSize) :
    flushLog (run logCall s calls) = chunked 254 (stored calls) := by
  have h : Represents (run logCall s calls) (stored calls) := by
    simpa using represents_calls hs.represents hc
  rw [flushLog_eq,unread_of_length_le h hcap]
  rfl

/-- A flush transmits every byte of every message but the stored NULs, and so
every short message whole, exactly when no long message cuts a block. -/
theorem flush_hides_nothing_iff {s : State} (hs : Drained s) {calls : List Call}
    (hc : ∀ c ∈ calls, c.Fits) (hcap : (stored calls).length ≤ logBufferSize) :
    ((flush (run logCall s calls)).2 = report (printable (stored calls)) ∧
      ((calls.filter (·.size ≤ 253)).flatMap Call.line).Sublist
        (flushLog (run logCall s calls))) ↔ LongEndBlock calls := by
  have h : Represents (run logCall s calls) (stored calls) := by
    simpa using represents_calls hs.represents hc
  have hlog := flushLog_calls hs hc hcap
  have hz := getUnreadCount_eq_zero_iff h
  rw [← intact_stored_iff hc,← chunked_eq_printable_iff]
  constructor
  · rintro ⟨hf,-⟩
    by_cases h0 : stored calls = []
    · simp [h0,printable]
    · have hp : ¬ printable (stored calls) = [] := fun h1 => h0 ((printable_stored_eq_nil hc).mp h1)
      rw [flush,if_neg fun hc => h0 (hz.mp hc),report,if_neg hp,List.append_left_inj,
        List.append_right_inj] at hf
      rw [← hlog]
      exact hf
  · intro hi
    rw [hlog,hi]
    refine ⟨?_,short_lines_sublist hc⟩
    by_cases h0 : stored calls = []
    · rw [flush,if_pos (hz.mpr h0),report,if_pos ((printable_stored_eq_nil hc).mpr h0)]
    · have hp : ¬ printable (stored calls) = [] := fun h1 => h0 ((printable_stored_eq_nil hc).mp h1)
      rw [flush,if_neg fun hc => h0 (hz.mp hc),report,if_neg hp,hlog,hi]

def shortCall : Call := ⟨some .info,12,chars "rm a: OK",fun _ => 0⟩
def longCall : Call := ⟨none,12,List.replicate 255 97,fun _ => 0⟩

theorem shortCall_fits : shortCall.Fits := ⟨by decide,by decide⟩
theorem longCall_fits : longCall.Fits := ⟨by decide +kernel,by decide +kernel⟩

theorem flush_hides_nothing_long_last :
    (flush (run logCall boot [shortCall,longCall])).2 =
        report (printable (stored [shortCall,longCall])) ∧
      shortCall.line.Sublist (flushLog (run logCall boot [shortCall,longCall])) := by
  have hfit : ∀ c ∈ [shortCall,longCall], c.Fits := by
    simp [shortCall_fits,longCall_fits]
  have h := (flush_hides_nothing_iff drained_boot hfit (by decide +kernel)).mpr ?_
  · have hline : ([shortCall,longCall].filter (·.size ≤ 253)).flatMap Call.line = shortCall.line := by
      decide +kernel
    rwa [hline] at h
  · rintro pre c post he hlong
    rcases pre with _ | ⟨a,_ | ⟨b,pre⟩⟩
    · simp only [List.nil_append,List.cons.injEq] at he
      rw [← he.1] at hlong
      exact absurd hlong (by decide)
    · simp only [List.cons_append,List.nil_append,List.cons.injEq] at he
      exact Or.inl he.2.2.symm
    · simp at he

/-- In the other order the line of the short message never reaches the terminal. -/
theorem flush_hides_short_after_long :
    (∀ c ∈ [longCall,shortCall], c.Fits) ∧
    (stored [longCall,shortCall]).length ≤ logBufferSize ∧
    ([longCall,shortCall].filter (·.size ≤ 253)).flatMap Call.line = shortCall.line ∧
    flushLog (run logCall boot [longCall,shortCall]) = List.replicate 255 97 ∧
    ¬ shortCall.line.Sublist (flushLog (run logCall boot [longCall,shortCall])) := by
  have hfit : ∀ c ∈ [longCall,shortCall], c.Fits := by
    simp [shortCall_fits,longCall_fits]
  have hcap : (stored [longCall,shortCall]).length ≤ logBufferSize := by decide +kernel
  have hst : stored [longCall,shortCall] = (List.replicate 255 97) ++ 0::shortCall.line := by
    rw [stored,List.flatMap_cons,List.flatMap_singleton,Call.record_eq longCall_fits.size,
      Call.record_eq shortCall_fits.size]
    decide +kernel
  have hlog : flushLog (run logCall boot [longCall,shortCall]) = List.replicate 255 97 := by
    rw [flushLog_calls drained_boot hfit hcap,hst,chunked_append _ (List.length_replicate ..),
      chunked_of_length_le (by decide)]
    decide +kernel
  refine ⟨hfit,hcap,by decide +kernel,hlog,?_⟩
  rw [hlog]
  intro hs
  exact absurd (List.eq_of_mem_replicate (hs.subset (show (114 : UInt8) ∈ _ by decide))) (by decide)

end Logger
end EmbeddedShell
