import EmbeddedShell.Shell

/-!
# Bounds of the record buffer

The formatting calls behind one log call, with the cells of `msgBuffer` each of
them stores to. The third call is made at the untruncated length of header and
text, so everything depends on that length: up to `MAX_LOG_MSG` bytes the stores
stay inside and the whole record is fresh, beyond it the size argument wraps
around and the line end is stored behind the buffer.
-/

namespace EmbeddedShell

open CString Memory Execution

namespace Logger

/-- A formatting call: its offset into `msgBuffer` and the text. -/
structure Format where
  pos : ℕ
  text : Bytes

/-- `MAX_LOG_MSG - len`, before it is converted to `size_t`. -/
def Format.size (f : Format) : ℤ := (maxLogMsg : ℤ) - f.pos

/-- The cells that are stored to: the characters that fit, and a NUL. -/
def Format.cells (f : Format) : List ℕ :=
  if wrap 32 f.size = 0 then []
  else List.range' f.pos ((f.text.take (wrap 32 f.size - 1)).length+1)

def formats : ℕ → List Bytes → List Format
  | _, [] => []
  | pos, text::texts => ⟨pos,text⟩::formats (pos+text.length) texts

def Call.texts (c : Call) : List Bytes :=
  match c.level with
  | none => [c.text,chars "\r\n"]
  | some _ => [c.header,c.text,chars "\r\n"]

def Call.buffer (c : Call) : (ℕ → UInt8) × ℕ := c.texts.foldl appendText (c.stale,0)

theorem Call.record_eq_clampRecord (c : Call) : c.record = clampRecord c.buffer := by
  rcases c with ⟨level,timestamp,text,stale⟩
  cases level with
  | none => rfl
  | some l => rfl

theorem snprintf_outside {b : ℕ → UInt8} {f : Format} {i : ℕ} (h : i ∉ f.cells) :
    snprintf b f.pos (wrap 32 f.size) f.text i = b i := by
  simp only [snprintf]
  split
  · rfl
  · rename_i hs
    rw [Format.cells,if_neg hs,List.mem_range'_1] at h
    refine store_outside _ _ ?_
    rw [List.length_append,List.length_singleton]
    omega

theorem snprintf_inside {b b' : ℕ → UInt8} {f : Format} {i : ℕ} (h : i ∈ f.cells) :
    snprintf b f.pos (wrap 32 f.size) f.text i = snprintf b' f.pos (wrap 32 f.size) f.text i := by
  rw [Format.cells] at h
  split at h
  · simp at h
  · rename_i hs
    rw [List.mem_range'_1] at h
    obtain ⟨k,rfl⟩ : ∃ k, i = f.pos+k := ⟨i-f.pos,by omega⟩
    have hk : k < (f.text.take (wrap 32 f.size - 1) ++ [0]).length := by
      rw [List.length_append,List.length_singleton]
      omega
    simp only [snprintf,if_neg hs]
    rw [store_inside _ _ _ _ hk,store_inside _ _ _ _ hk]

theorem foldl_appendText_outside {texts : List Bytes} {b : (ℕ → UInt8) × ℕ} {i : ℕ}
    (h : ∀ f ∈ formats b.2 texts, i ∉ f.cells) : (texts.foldl appendText b).1 i = b.1 i := by
  induction texts generalizing b with
  | nil => rfl
  | cons text texts ih =>
    rw [List.foldl_cons,ih fun f hf => h f (List.mem_cons_of_mem _ hf)]
    exact snprintf_outside (f:=⟨b.2,text⟩) (h _ (by simp [formats]))

theorem foldl_appendText_congr {texts : List Bytes} {b b' : ℕ → UInt8} {n i : ℕ}
    (h : b i = b' i) : (texts.foldl appendText (b,n)).1 i = (texts.foldl appendText (b',n)).1 i := by
  induction texts generalizing b b' n with
  | nil => exact h
  | cons text texts ih =>
    rw [List.foldl_cons,List.foldl_cons]
    refine ih ?_
    by_cases hi : i ∈ Format.cells ⟨n,text⟩
    · exact snprintf_inside hi
    · exact (snprintf_outside (f:=⟨n,text⟩) hi).trans (h.trans (snprintf_outside (f:=⟨n,text⟩) hi).symm)

theorem foldl_appendText_inside {texts : List Bytes} {b b' : ℕ → UInt8} {n i : ℕ}
    (h : ∃ f ∈ formats n texts, i ∈ f.cells) :
    (texts.foldl appendText (b,n)).1 i = (texts.foldl appendText (b',n)).1 i := by
  induction texts generalizing b b' n with
  | nil => simp [formats] at h
  | cons text texts ih =>
    rw [List.foldl_cons,List.foldl_cons]
    obtain ⟨f,hf,hi⟩ := h
    rcases List.mem_cons.mp hf with rfl | hf
    · exact foldl_appendText_congr (snprintf_inside hi)
    · exact ih ⟨f,hf,hi⟩

/-- No size argument wraps, every store hits `msgBuffer`, and every byte that is
handed to `_write` was stored by this call. -/
structure Call.InBounds (c : Call) : Prop where
  sizes : ∀ f ∈ formats 0 c.texts, (wrap 32 f.size : ℤ) = f.size
  stores : ∀ f ∈ formats 0 c.texts, ∀ i ∈ f.cells, i < maxLogMsg
  handed : ∀ i < c.record.length, ∃ f ∈ formats 0 c.texts, i ∈ f.cells

theorem Call.InBounds.buffer_outside {c : Call} (h : c.InBounds) {i : ℕ} (hi : maxLogMsg ≤ i) :
    c.buffer.1 i = c.stale i :=
  foldl_appendText_outside fun f hf hmem => absurd (h.stores f hf i hmem) (by omega)

theorem foldl_appendText_snd (texts : List Bytes) (b : (ℕ → UInt8) × ℕ) :
    (texts.foldl appendText b).2 = b.2 + (texts.map List.length).sum := by
  induction texts generalizing b with
  | nil => rfl
  | cons text texts ih =>
    rw [List.foldl_cons,ih,List.map_cons,List.sum_cons,← Nat.add_assoc]
    rfl

theorem Call.InBounds.record_fresh {c : Call} (h : c.InBounds) (stale : ℕ → UInt8) :
    ({ c with stale := stale } : Call).record = c.record := by
  have hlen : ({ c with stale := stale } : Call).buffer.2 = c.buffer.2 := by
    rw [Call.buffer,Call.buffer,foldl_appendText_snd,foldl_appendText_snd]
    rfl
  have hhand := h.handed
  rw [Call.record_eq_clampRecord,clampRecord,load_length] at hhand
  rw [Call.record_eq_clampRecord,Call.record_eq_clampRecord,clampRecord,clampRecord,hlen]
  refine load_congr fun i hi => ?_
  rw [Nat.zero_add]
  exact foldl_appendText_inside (hhand i hi)

theorem wrap_size_iff (f : Format) : (wrap 32 f.size : ℤ) = f.size ↔ f.pos ≤ maxLogMsg := by
  constructor
  · intro h
    have hnonneg : 0 ≤ f.size := by omega
    simp only [Format.size] at hnonneg
    omega
  · intro h
    rw [Format.size,wrap_sub h (by decide)]
    omega

theorem mem_cells_iff {f : Format} (h : f.pos ≤ maxLogMsg) {i : ℕ} : i ∈ f.cells ↔
    f.pos ≤ i ∧ i ≤ f.pos+f.text.length ∧ i < maxLogMsg := by
  have hw : wrap 32 f.size = maxLogMsg - f.pos := wrap_sub h (by decide)
  rw [Format.cells,hw]
  split
  · simp only [List.not_mem_nil,false_iff]
    omega
  · rw [List.mem_range'_1,List.length_take]
    omega

theorem formats_cover {texts : List Bytes} {pos i : ℕ}
    (hp : ∀ f ∈ formats pos texts, f.pos ≤ maxLogMsg) (hi : pos ≤ i) (hm : i < maxLogMsg)
    (hlen : i < pos + (texts.map List.length).sum) : ∃ f ∈ formats pos texts, i ∈ f.cells := by
  induction texts generalizing pos with
  | nil => simp at hlen; omega
  | cons text texts ih =>
    by_cases hin : i < pos+text.length
    · refine ⟨⟨pos,text⟩,by simp [formats],?_⟩
      rw [mem_cells_iff (hp _ (by simp [formats]))]
      exact ⟨hi,hin.le,hm⟩
    · rw [List.map_cons,List.sum_cons] at hlen
      have htail : ∀ f ∈ formats (pos+text.length) texts, f.pos ≤ maxLogMsg := fun f hf =>
        hp f (List.mem_cons_of_mem _ hf)
      obtain ⟨f,hf,hmem⟩ := ih htail (by omega) (by omega)
      exact ⟨f,List.mem_cons_of_mem _ hf,hmem⟩

theorem formats_pos_iff (c : Call) :
    (∀ f ∈ formats 0 c.texts, f.pos ≤ maxLogMsg) ↔ c.size ≤ maxLogMsg := by
  cases hl : c.level with
  | none => simp [Call.texts,Call.size,Call.header,hl,formats]
  | some l =>
    simp [Call.texts,Call.size,hl,formats]
    omega

/-- Formatting stays inside the buffer exactly when header and text have at most
`MAX_LOG_MSG` bytes. -/
theorem Call.inBounds_iff (c : Call) : c.InBounds ↔ c.size ≤ maxLogMsg := by
  rw [← formats_pos_iff]
  constructor
  · exact fun h f hf => (wrap_size_iff f).mp (h.sizes f hf)
  · intro h
    refine ⟨fun f hf => (wrap_size_iff f).mpr (h f hf),fun f hf i hi => ?_,fun i hi => ?_⟩
    · exact ((mem_cells_iff (h f hf)).mp hi).2.2
    · rw [Call.record_eq_clampRecord,clampRecord,load_length,Call.buffer,foldl_appendText_snd] at hi
      refine formats_cover h (Nat.zero_le i) ?_ ?_
      · split at hi <;> omega
      · split at hi <;> omega

end Logger

namespace Shell

variable {σ φ δ : Type}

/-- Level and text of the log call that a command makes on a mounted filesystem. -/
def Command.message (lfs : Lfs σ φ δ) (s : State σ) (c : Call) :
    Command → Option (Logger.Level × Bytes)
  | .ls => some (.info,chars "ls output:")
  | .read name =>
    if (Filesystem.read lfs s.fs name c.out outSize).1 then
      some (.info,chars "read " ++ name ++ chars ": OK")
    else some (.error,chars "read: not found: " ++ name)
  | .rm name => some (.info,chars "rm " ++ name ++ chars ": " ++
      if (Filesystem.remove lfs s.fs name).1 then chars "OK" else chars "FAIL")
  | .write name data => some (.info,chars "write " ++ name ++ chars ": " ++
      if (Filesystem.write lfs s.fs name data).1 then chars "OK" else chars "FAIL")
  | .unknown _ => some (.warn,chars "Unknown command: " ++ c.line)
  | .logs | .logsClear | .help | .writeUsage _ => none

def Command.messageUnmounted (c : Call) : Command → Option (Logger.Level × Bytes)
  | .ls => some (.error,chars "ls" ++ chars ": FS not mounted")
  | .read _ => some (.error,chars "read" ++ chars ": FS not mounted")
  | .rm _ => some (.error,chars "rm" ++ chars ": FS not mounted")
  | .write _ _ | .writeUsage _ => some (.error,chars "write" ++ chars ": FS not mounted")
  | .unknown _ => some (.warn,chars "Unknown command: " ++ c.line)
  | .logs | .logsClear | .help => none

def message (lfs : Lfs σ φ δ) (fsMounted : Bool) (s : State σ) (c : Call) :
    Option (Logger.Level × Bytes) :=
  if fsMounted then (command c.line).message lfs s c else (command c.line).messageUnmounted c

def Call.logCall (c : Call) (m : Logger.Level × Bytes) : Logger.Call := ⟨some m.1,c.tick,m.2,c.msgBuffer⟩

/-- What `parse_cmd` echoes into the log is one log call. -/
theorem parseCmd_log (lfs : Lfs σ φ δ) (fsMounted : Bool) (s : State σ) (c : Call)
    {m : Logger.Level × Bytes} (h : message lfs fsMounted s c = some m) :
    (parseCmd lfs fsMounted s c).1.log = (Logger.logCall s.log (c.logCall m)).1 := by
  cases fsMounted with
  | true =>
    rw [parseCmd_eq]
    replace h : (command c.line).message lfs s c = some m := h
    cases hk : command c.line with
    | read name =>
      rw [hk,Command.message] at h
      simp only [Command.perform,readCommand]
      split at h
      · rename_i hread
        obtain rfl := Option.some.inj h
        rw [if_pos hread]
        rfl
      · rename_i hread
        obtain rfl := Option.some.inj h
        rw [if_neg hread]
        rfl
    | logs | logsClear | help | writeUsage => simp [hk,Command.message] at h
    | ls | rm | write | unknown =>
      rw [hk] at h
      obtain rfl := Option.some.inj h
      rfl
  | false =>
    rw [parseCmd_eq_refuse]
    replace h : (command c.line).messageUnmounted c = some m := h
    cases hk : command c.line with
    | logs | logsClear | help => simp [hk,Command.messageUnmounted] at h
    | ls | read | rm | write | writeUsage | unknown =>
      rw [hk] at h
      obtain rfl := Option.some.inj h
      rfl

/-- Log records stay inside their buffer exactly when header and text have at most
`MAX_LOG_MSG` bytes, whoever formats them; then nothing behind the buffer changes
and the record has nothing of the old stack contents. -/
theorem log_in_bounds_iff (lfs : Lfs σ φ δ) :
    (∀ c : Logger.Call, c.InBounds ↔ c.size ≤ Logger.maxLogMsg) ∧
    (∀ c : Logger.Call, c.InBounds → (∀ i, Logger.maxLogMsg ≤ i → c.buffer.1 i = c.stale i) ∧
      ∀ stale, ({ c with stale := stale } : Logger.Call).record = c.record) ∧
    (∀ fsMounted s c m, message lfs fsMounted s c = some m →
      (parseCmd lfs fsMounted s c).1.log = (Logger.logCall s.log (c.logCall m)).1 ∧
      ((c.logCall m).InBounds ↔ (c.logCall m).size ≤ Logger.maxLogMsg)) :=
  ⟨Logger.Call.inBounds_iff,fun _ h => ⟨fun _ => h.buffer_outside,h.record_fresh⟩,
    fun fsMounted s c _ h => ⟨parseCmd_log lfs fsMounted s c h,Logger.Call.inBounds_iff _⟩⟩

theorem log_in_bounds_full :
    Logger.Call.InBounds ⟨none,0,List.replicate 256 97,fun _ => 0⟩ :=
  ((log_in_bounds_iff (Filesystem.memoryLfs fun _ => true)).1 _).mpr (by decide +kernel)

/-- A command line of 231 letters: the line end of its record is stored at 257. -/
def longLine : Call := ⟨List.replicate 231 97,0,fun _ => 0,fun _ => 0⟩

theorem long_line_out_of_bounds :
    NulFree longLine.line ∧
    message (Filesystem.memoryLfs fun _ => true) true ⟨fun _ => none,Logger.boot⟩ longLine =
      some (.warn,chars "Unknown command: " ++ longLine.line) ∧
    (Logger.formats 0 (longLine.logCall (.warn,chars "Unknown command: " ++ longLine.line)).texts).map
      (fun f => (f.pos,wrap 32 f.size)) = [(0,256),(9,247),(257,4294967295)] ∧
    (Logger.Format.mk 257 (chars "\r\n")).cells = [257,258,259] ∧
    ¬ (longLine.logCall (.warn,chars "Unknown command: " ++ longLine.line)).InBounds := by
  refine ⟨by decide +kernel,by decide +kernel,by decide +kernel,by decide +kernel,?_⟩
  rw [Logger.Call.inBounds_iff]
  decide +kernel

end Shell
end EmbeddedShell
