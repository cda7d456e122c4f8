import Mathlib.Data.List.Induction
import EmbeddedShell.LogBounds

/-!
# The shell as a file map

On a LittleFS that acts as a map, every line moves the map from paths to texts by
`Command.apply`. What a history of lines leaves in it is the latest write of each
path, unless the path was removed since. `parseCmdOnStack` is `parse_cmd` with the
stores of its log record: a record that leaves `msgBuffer` hits the frames of the
callers, and nothing is known of the call. So the shell is a file map exactly as
long as the records stay short.
-/

namespace EmbeddedShell
namespace Shell

open CString Memory Execution

variable {σ φ δ κ : Type}

/-- What a command does to the map from paths to texts. -/
def Command.apply [DecidableEq κ] (resolve : Bytes → Option κ) (m : κ → Option Bytes) :
    Command → κ → Option Bytes
  | .write name data =>
    match resolve name with
    | some k => Function.update m k (some data)
    | none => m
  | .rm name =>
    match resolve name with
    | some k => Function.update m k none
    | none => m
  | _ => m

def Writes (resolve : Bytes → Option κ) (line : Bytes) (k : κ) (data : Bytes) : Prop :=
  ∃ name, (32 : UInt8) ∉ name ∧ line = writeLine name data ∧ resolve name = some k

def Removes (resolve : Bytes → Option κ) (line : Bytes) (k : κ) : Prop :=
  ∃ name, line = rmLine name ∧ resolve name = some k

def Touches (resolve : Bytes → Option κ) (line : Bytes) (k : κ) : Prop :=
  (∃ data, Writes resolve line k data) ∨ Removes resolve line k

/-- The latest write of the file in a history, with no removal since. -/
def Latest (resolve : Bytes → Option κ) (lines : List Bytes) (k : κ) (data : Bytes) : Prop :=
  ∃ pre line post, lines = pre ++ line::post ∧ Writes resolve line k data ∧
    ∀ l ∈ post, ¬ Touches resolve l k

def Untouched (resolve : Bytes → Option κ) (lines : List Bytes) (k : κ) : Prop :=
  ∀ l ∈ lines, ¬ Touches resolve l k

theorem latest_concat (resolve : Bytes → Option κ) (lines : List Bytes) (line : Bytes) (k : κ)
    (data : Bytes) : Latest resolve (lines++[line]) k data ↔
      Writes resolve line k data ∨ (¬ Touches resolve line k ∧ Latest resolve lines k data) := by
  constructor
  · rintro ⟨pre,l,post,he,hw,hpost⟩
    rcases List.eq_nil_or_concat post with rfl | ⟨rest,last,rfl⟩
    · obtain ⟨-,hl⟩ := List.append_inj' he rfl
      obtain rfl : line = l := by simpa using hl
      exact Or.inl hw
    · have he' : lines ++ [line] = (pre ++ l::rest) ++ [last] := by simpa using he
      obtain ⟨hlines,hl⟩ := List.append_inj' he' rfl
      obtain rfl : line = last := by simpa using hl
      refine Or.inr ⟨hpost line (by simp),pre,l,rest,hlines,hw,?_⟩
      intro x hx
      exact hpost x (by simp [hx])
  · rintro (hw | ⟨ht,pre,l,post,rfl,hw,hpost⟩)
    · exact ⟨lines,line,[],rfl,hw,by simp⟩
    · refine ⟨pre,l,post++[line],by simp,hw,?_⟩
      intro x hx
      rcases List.mem_append.mp hx with hx | hx
      · exact hpost x hx
      · obtain rfl : x = line := by simpa using hx
        exact ht

section Map

variable [DecidableEq κ] {resolve : Bytes → Option κ}

theorem apply_of_writes {line data : Bytes} {k : κ} (h : Writes resolve line k data)
    (m : κ → Option Bytes) : (command line).apply resolve m k = some data := by
  obtain ⟨name,hs,rfl,hk⟩ := h
  simp [command_writeLine hs,Command.apply,hk]

theorem apply_of_removes {line : Bytes} {k : κ} (h : Removes resolve line k) (m : κ → Option Bytes) :
    (command line).apply resolve m k = none := by
  obtain ⟨name,rfl,hk⟩ := h
  simp [command_rmLine,Command.apply,hk]

theorem apply_of_not_touches {line : Bytes} {k : κ} (h : ¬ Touches resolve line k)
    (m : κ → Option Bytes) : (command line).apply resolve m k = m k := by
  have hline := render_command line
  cases hc : command line with
  | write name data =>
    cases hr : resolve name with
    | none => simp [Command.apply,hr]
    | some j =>
      have hj : k ≠ j := by
        rintro rfl
        rw [hc] at hline
        exact h (Or.inl ⟨data,name,space_notMem_of_command hc,hline.symm,hr⟩)
      simp [Command.apply,hr,hj]
  | rm name =>
    cases hr : resolve name with
    | none => simp [Command.apply,hr]
    | some j =>
      have hj : k ≠ j := by
        rintro rfl
        rw [hc] at hline
        exact h (Or.inr ⟨name,hline.symm,hr⟩)
      simp [Command.apply,hr,hj]
  | _ => rfl

omit [DecidableEq κ] in
theorem resolve_of_touches {line name : Bytes} {k : κ} (h : Touches resolve line k)
    (hl : ((32 : UInt8) ∉ name ∧ ∃ data, line = writeLine name data) ∨ line = rmLine name) :
    resolve name = some k := by
  rcases h with ⟨data,n,hs,rfl,hk⟩ | ⟨n,rfl,hk⟩
  · have hc := command_writeLine hs data
    rcases hl with ⟨hs',data',he⟩ | he
    · rw [he,command_writeLine hs'] at hc
      rw [(Command.write.inj hc).1,hk]
    · rw [he,command_rmLine] at hc
      cases hc
  · have hc := command_rmLine n
    rcases hl with ⟨hs',data',he⟩ | he
    · rw [he,command_writeLine hs'] at hc
      cases hc
    · rw [he,command_rmLine] at hc
      rw [Command.rm.inj hc,hk]

def mapAfter (resolve : Bytes → Option κ) (m : κ → Option Bytes) (lines : List Bytes) :
    κ → Option Bytes :=
  lines.foldl (fun m line => (command line).apply resolve m) m

theorem mapAfter_eq_some_iff (m : κ → Option Bytes) (lines : List Bytes) (k : κ) (data : Bytes) :
    mapAfter resolve m lines k = some data ↔
      Latest resolve lines k data ∨ (m k = some data ∧ Untouched resolve lines k) := by
  induction lines using List.reverseRecOn with
  | nil => simp [mapAfter,Latest,Untouched]
  | append_singleton lines line ih =>
    have hlast : mapAfter resolve m (lines++[line]) k =
        (command line).apply resolve (mapAfter resolve m lines) k := by
      simp [mapAfter]
    have hun : Untouched resolve (lines++[line]) k ↔
        Untouched resolve lines k ∧ ¬ Touches resolve line k := by
      simp [Untouched,or_imp,forall_and]
    rw [hlast,latest_concat,hun]
    by_cases ht : Touches resolve line k
    · rcases ht with ⟨d,hw⟩ | hr
      · rw [apply_of_writes hw]
        have hd : some d = some data ↔ Writes resolve line k data := by
          constructor
          · intro he
            rwa [← Option.some.inj he]
          · intro hw'
            rw [← apply_of_writes hw m,apply_of_writes hw' m]
        have ht : Touches resolve line k := Or.inl ⟨d,hw⟩
        simp [hd,ht]
      · rw [apply_of_removes hr]
        have hw : ¬ Writes resolve line k data := by
          intro hw
          have he := (apply_of_writes hw m).symm.trans (apply_of_removes hr m)
          simp at he
        have ht : Touches resolve line k := Or.inr hr
        simp [hw,ht]
    · rw [apply_of_not_touches ht,ih]
      have hw : ¬ Writes resolve line k data := fun hw => ht (Or.inl ⟨data,hw⟩)
      simp [hw,ht]

variable {lfs : Lfs σ φ δ} {files : σ → κ → Option Bytes} {handle : σ → φ → Filesystem.Handle κ}

theorem outSize_pos : 0 < outSize := by decide
theorem outSize_lt : outSize < 2^32 := by decide

/-- Each command moves the files of the volume as it moves the map. -/
theorem files_perform (hm : Filesystem.ActsAsMap lfs resolve files handle) (s : State σ) (c : Call)
    (cmd : Command) : files (cmd.perform lfs s c).1.fs = cmd.apply resolve (files s.fs) := by
  cases cmd with
  | ls => exact Filesystem.ls_files hm s.fs c.out outSize
  | read name =>
    have hf := Filesystem.read_files hm s.fs name c.out outSize_pos outSize_lt
    cases hr : (Filesystem.read lfs s.fs name c.out outSize).1 with
    | true => simpa [Command.perform,readCommand,hr,logged,Command.apply] using hf
    | false => simpa [Command.perform,readCommand,hr,logged,Command.apply] using hf
  | rm name =>
    simp only [Command.perform,rmCommand,logged,Command.apply]
    cases hk : resolve name with
    | none => exact (Filesystem.remove_absent hm (by simp [hk])).2
    | some k =>
      cases hf : files s.fs k with
      | none =>
        rw [(Filesystem.remove_absent hm (by simp [hk,hf])).2]
        exact (Function.update_eq_self_iff.mpr hf.symm).symm
      | some content => exact (Filesystem.remove_present hm hk hf).2
  | write name data =>
    simp only [Command.perform,writeCommand,logged,Command.apply]
    cases hk : resolve name with
    | none => exact (Filesystem.write_unresolved hm s.fs hk data).2
    | some k => exact (Filesystem.write_resolved hm s.fs hk data).2
  | _ => rfl

theorem files_parseCmd (hm : Filesystem.ActsAsMap lfs resolve files handle) (s : State σ) (c : Call) :
    files (parseCmd lfs true s c).1.fs = (command c.line).apply resolve (files s.fs) := by
  rw [parseCmd_eq]
  exact files_perform hm s c _

theorem files_run (hm : Filesystem.ActsAsMap lfs resolve files handle) (s : State σ)
    (calls : List Call) : files (run (parseCmd lfs true) s calls).fs =
      mapAfter resolve (files s.fs) (calls.map Call.line) := by
  induction calls generalizing s with
  | nil => rfl
  | cons c calls ih =>
    rw [run_cons,ih,files_parseCmd hm]
    rfl

theorem parseCmd_read_present (hm : Filesystem.ActsAsMap lfs resolve files handle) {s : State σ}
    {c : Call} {name content : Bytes} {k : κ} (hc : c.line = readLine name) (hk : resolve name = some k)
    (hf : files s.fs k = some content) :
    (parseCmd lfs true s c).2 = [Uart.println (content.take 511)] := by
  obtain ⟨hr,hout,-⟩ := Filesystem.read_present hm hk hf c.out outSize_pos outSize_lt
  have hlen : (content.take (outSize-1)).length < outSize :=
    lt_of_le_of_lt (List.length_take_le _ _) (by decide)
  have htext := Filesystem.cstr_load_terminated c.out hlen
  rw [parseCmd_eq,hc,command_readLine]
  simp only [Command.perform,readCommand,hr,if_true,hout,Uart.println,Uart.print,htext]
  rfl

theorem parseCmd_read_absent (hm : Filesystem.ActsAsMap lfs resolve files handle) {s : State σ}
    {c : Call} {name : Bytes} (hc : c.line = readLine name)
    (hk : (resolve name).bind (files s.fs) = none) :
    (parseCmd lfs true s c).2 = [Uart.println (chars "ERR: file not found")] := by
  obtain ⟨hr,-⟩ := Filesystem.read_absent hm hk c.out outSize
  rw [parseCmd_eq,hc,command_readLine]
  simp only [Command.perform,readCommand,hr,Bool.false_eq_true,if_false]

theorem parseCmd_rm (hm : Filesystem.ActsAsMap lfs resolve files handle) {s : State σ} {c : Call}
    {name : Bytes} (hc : c.line = rmLine name) :
    (parseCmd lfs true s c).2 = [Uart.println (chars "OK")] ↔
      ∃ k, resolve name = some k ∧ files s.fs k ≠ none := by
  rw [parseCmd_eq,hc,command_rmLine]
  simp only [Command.perform,rmCommand]
  cases hb : (resolve name).bind (files s.fs) with
  | some content =>
    obtain ⟨k,hk,hf⟩ := Option.bind_eq_some_iff.mp hb
    rw [(Filesystem.remove_present hm hk hf).1]
    simp [hk,hf]
  | none =>
    rw [(Filesystem.remove_absent hm hb).1]
    have hne : Uart.println (chars "ERR: cannot remove") ≠ Uart.println (chars "OK") := by decide
    have hnone : ¬ ∃ k, resolve name = some k ∧ files s.fs k ≠ none := by
      rintro ⟨k,hk,hf⟩
      rw [hk] at hb
      exact hf hb
    simp [hne,hnone]

end Map

instance (c : Logger.Call) : Decidable c.InBounds := decidable_of_iff _ (Logger.Call.inBounds_iff c).symm

def LogInBounds (lfs : Lfs σ φ δ) (fsMounted : Bool) (s : State σ) (c : Call) : Prop :=
  ∀ m ∈ message lfs fsMounted s c, (c.logCall m).InBounds

instance (lfs : Lfs σ φ δ) (fsMounted : Bool) (s : State σ) (c : Call) :
    Decidable (LogInBounds lfs fsMounted s c) :=
  inferInstanceAs (Decidable (∀ m ∈ message lfs fsMounted s c, (c.logCall m).InBounds))

/-- `parse_cmd` on the stack that holds `msgBuffer` below `out` and the frames of the
callers: a store that leaves `msgBuffer` may hit any of them, so the call has no
outcome. -/
def parseCmdOnStack (lfs : Lfs σ φ δ) (fsMounted : Bool) :
    State σ → Call → Option (State σ × List Bytes) :=
  guarded (parseCmd lfs fsMounted) (LogInBounds lfs fsMounted)

def answer (lfs : Lfs σ φ δ) (fsMounted : Bool) (s : State σ) (pre : List Call) (c : Call) :
    Option (List Bytes) :=
  (reach (parseCmdOnStack lfs fsMounted) s pre).bind fun t =>
    (parseCmdOnStack lfs fsMounted t c).map Prod.snd

def filesAfter (lfs : Lfs σ φ δ) (files : σ → κ → Option Bytes) (s : State σ) (pre : List Call) :
    Option (κ → Option Bytes) :=
  (reach (parseCmdOnStack lfs true) s pre).map fun t => files t.fs

/-- The answers of a mounted shell and what its lines do to the files. -/
structure FileMap (lfs : Lfs σ φ δ) (resolve : Bytes → Option κ) (files : σ → κ → Option Bytes)
    (s : State σ) (calls : List Call) : Prop where
  read_latest : ∀ pre c post name k data, calls = pre ++ c::post → c.line = readLine name →
    resolve name = some k → Latest resolve (pre.map Call.line) k data →
    answer lfs true s pre c = some [data.take 511 ++ chars "\r\n"]
  read_initial : ∀ pre c post name k data, calls = pre ++ c::post → c.line = readLine name →
    resolve name = some k → files s.fs k = some data → Untouched resolve (pre.map Call.line) k →
    answer lfs true s pre c = some [Uart.println (data.take 511)]
  read_absent : ∀ pre c post name, calls = pre ++ c::post → c.line = readLine name →
    (∀ k data, resolve name = some k → ¬ Latest resolve (pre.map Call.line) k data ∧
      (files s.fs k = some data → ¬ Untouched resolve (pre.map Call.line) k)) →
    answer lfs true s pre c = some [Uart.println (chars "ERR: file not found")]
  rm_ok : ∀ pre c post name, calls = pre ++ c::post → c.line = rmLine name →
    (answer lfs true s pre c = some [Uart.println (chars "OK")] ↔
      ∃ k m, resolve name = some k ∧ filesAfter lfs files s pre = some m ∧ m k ≠ none)
  others : ∀ pre c post, calls = pre ++ c::post →
    (∀ name data, (32 : UInt8) ∉ name → c.line ≠ writeLine name data) →
    (∀ name, c.line ≠ rmLine name) →
    ∃ m, filesAfter lfs files s pre = some m ∧ filesAfter lfs files s (pre++[c]) = some m
  own_path : ∀ pre c post name, calls = pre ++ c::post →
    ((32 : UInt8) ∉ name ∧ ∃ data, c.line = writeLine name data) ∨ c.line = rmLine name →
    ∃ m m', filesAfter lfs files s pre = some m ∧ filesAfter lfs files s (pre++[c]) = some m' ∧
      ∀ k, resolve name ≠ some k → m' k = m k

/-- Without a file system nothing is changed, and nothing depends on it. -/
structure Unmounted (lfs : Lfs σ φ δ) (s : State σ) (calls : List Call) : Prop where
  unchanged : ∃ t, reach (parseCmdOnStack lfs false) s calls = some t ∧ t.fs = s.fs
  unread : ∀ fs,
    (∀ pre c post, calls = pre ++ c::post →
      answer lfs false ⟨fs,s.log⟩ pre c = answer lfs false s pre c) ∧
    (reach (parseCmdOnStack lfs false) ⟨fs,s.log⟩ calls).map State.log =
      (reach (parseCmdOnStack lfs false) s calls).map State.log

/-- Header and text of a record have at most `MAX_LOG_MSG` bytes together. -/
def Short (c : Call) (e : Option (Logger.Level × Bytes)) : Prop :=
  ∀ m ∈ e, (c.logCall m).size ≤ Logger.maxLogMsg

instance (c : Call) (e : Option (Logger.Level × Bytes)) : Decidable (Short c e) :=
  inferInstanceAs (Decidable (∀ m ∈ e, (c.logCall m).size ≤ Logger.maxLogMsg))

/-- Level and text of the record of a command, by what the map holds before it. -/
def Command.echo (resolve : Bytes → Option κ) (m : κ → Option Bytes) :
    Command → Option (Logger.Level × Bytes)
  | .ls => some (.info,chars "ls output:")
  | .read name =>
    if ((resolve name).bind m).isSome then some (.info,chars "read " ++ name ++ chars ": OK")
    else some (.error,chars "read: not found: " ++ name)
  | .rm name => some (.info,chars "rm " ++ name ++ chars ": " ++
      if ((resolve name).bind m).isSome then chars "OK" else chars "FAIL")
  | .write name _ => some (.info,chars "write " ++ name ++ chars ": " ++
      if (resolve name).isSome then chars "OK" else chars "FAIL")
  | .unknown line => some (.warn,chars "Unknown command: " ++ line)
  | .logs | .logsClear | .help | .writeUsage _ => none

/-- No record of a run is longer than its buffer, with a file system and without. -/
def ShortRecords [DecidableEq κ] (resolve : Bytes → Option κ) (m : κ → Option Bytes)
    (calls : List Call) : Prop :=
  ∀ pre c post, calls = pre ++ c::post →
    Short c ((command c.line).echo resolve (mapAfter resolve m (pre.map Call.line)))

def ShortRefusals (calls : List Call) : Prop := ∀ c ∈ calls, Short c ((command c.line).messageUnmounted c)

theorem logInBounds_iff (lfs : Lfs σ φ δ) (fsMounted : Bool) (s : State σ) (c : Call) :
    LogInBounds lfs fsMounted s c ↔ Short c (message lfs fsMounted s c) :=
  forall₂_congr fun _ _ => Logger.Call.inBounds_iff _

theorem reach_iff (lfs : Lfs σ φ δ) (fsMounted : Bool) (s t : State σ) (calls : List Call) :
    reach (parseCmdOnStack lfs fsMounted) s calls = some t ↔
      Along (parseCmd lfs fsMounted) (LogInBounds lfs fsMounted) s calls ∧
        run (parseCmd lfs fsMounted) s calls = t :=
  reach_guarded_iff _ _

section Bounded

variable {lfs : Lfs σ φ δ} {fsMounted : Bool} {s : State σ} {calls pre post : List Call} {c : Call}

theorem reach_first (h : Along (parseCmd lfs fsMounted) (LogInBounds lfs fsMounted) s (pre++post)) :
    reach (parseCmdOnStack lfs fsMounted) s pre = some (run (parseCmd lfs fsMounted) s pre) :=
  (reach_iff ..).mpr ⟨((along_append ..).mp h).1,rfl⟩

theorem answer_of_along
    (h : Along (parseCmd lfs fsMounted) (LogInBounds lfs fsMounted) s (pre++c::post)) :
    answer lfs fsMounted s pre c = some (parseCmd lfs fsMounted (run (parseCmd lfs fsMounted) s pre) c).2 := by
  have hc : LogInBounds lfs fsMounted (run (parseCmd lfs fsMounted) s pre) c :=
    ((along_append ..).mp h).2.1
  rw [answer,reach_first h,Option.bind_some,parseCmdOnStack,guarded,if_pos hc]
  rfl

end Bounded

theorem nulFree_of_latest {resolve : Bytes → Option κ} {lines : List Bytes} {k : κ} {data : Bytes}
    (hn : ∀ l ∈ lines, NulFree l) (h : Latest resolve lines k data) : NulFree data := by
  obtain ⟨pre,line,post,rfl,⟨name,-,rfl,-⟩,-⟩ := h
  have hl := hn (writeLine name data) (by simp)
  simp only [writeLine,nulFree_append] at hl
  exact hl.2

section Map

variable [DecidableEq κ] {lfs : Lfs σ φ δ} {resolve : Bytes → Option κ}
  {files : σ → κ → Option Bytes} {handle : σ → φ → Filesystem.Handle κ}

/-- On a map the log call depends on the map alone. -/
theorem message_eq_echo (hm : Filesystem.ActsAsMap lfs resolve files handle) (s : State σ) (c : Call) :
    message lfs true s c = (command c.line).echo resolve (files s.fs) := by
  change (command c.line).message lfs s c = _
  have hline := render_command c.line
  cases hc : command c.line with
  | read name =>
    cases hb : (resolve name).bind (files s.fs) with
    | none => simp [Command.message,Command.echo,hb,(Filesystem.read_absent hm hb c.out outSize).1]
    | some content =>
      obtain ⟨k,hk,hf⟩ := Option.bind_eq_some_iff.mp hb
      simp [Command.message,Command.echo,hb,(Filesystem.read_present hm hk hf c.out outSize_pos outSize_lt).1]
  | rm name =>
    cases hb : (resolve name).bind (files s.fs) with
    | none => simp [Command.message,Command.echo,hb,(Filesystem.remove_absent hm hb).1]
    | some content =>
      obtain ⟨k,hk,hf⟩ := Option.bind_eq_some_iff.mp hb
      simp [Command.message,Command.echo,hb,(Filesystem.remove_present hm hk hf).1]
  | write name data =>
    cases hk : resolve name with
    | none => simp [Command.message,Command.echo,hk,(Filesystem.write_unresolved hm s.fs hk data).1]
    | some k => simp [Command.message,Command.echo,hk,(Filesystem.write_resolved hm s.fs hk data).1]
  | unknown line =>
    rw [hc] at hline
    rw [Command.message,Command.echo,← hline,Command.render]
  | ls | logs | logsClear | help | writeUsage => rfl

theorem shortRecords_iff (hm : Filesystem.ActsAsMap lfs resolve files handle) (s : State σ)
    (calls : List Call) : ShortRecords resolve (files s.fs) calls ↔
      Along (parseCmd lfs true) (LogInBounds lfs true) s calls := by
  rw [along_iff_split]
  refine forall₃_congr fun pre c post => imp_congr_right fun _ => ?_
  rw [logInBounds_iff,message_eq_echo hm,files_run hm]

omit [DecidableEq κ] in
/-- Every line asks for an outcome, so a file map has no record that is too long. -/
theorem FileMap.along {s : State σ} {calls : List Call} (h : FileMap lfs resolve files s calls) :
    Along (parseCmd lfs true) (LogInBounds lfs true) s calls := by
  rcases List.eq_nil_or_concat calls with rfl | ⟨pre,c,rfl⟩
  · trivial
  · rw [List.concat_eq_append] at h ⊢
    have hafter : ∃ m, filesAfter lfs files s (pre++[c]) = some m := by
      by_cases hown : ∃ name,
          ((32 : UInt8) ∉ name ∧ ∃ data, c.line = writeLine name data) ∨ c.line = rmLine name
      · obtain ⟨name,hname⟩ := hown
        obtain ⟨-,m,-,hm,-⟩ := h.own_path pre c [] name rfl hname
        exact ⟨m,hm⟩
      · push Not at hown
        obtain ⟨m,-,hm⟩ := h.others pre c [] rfl (fun name data hs => (hown name).1 hs data)
          fun name => (hown name).2
        exact ⟨m,hm⟩
    obtain ⟨m,hm⟩ := hafter
    obtain ⟨t,ht,-⟩ := Option.map_eq_some_iff.mp hm
    exact ((reach_iff ..).mp ht).1

theorem fileMap_of_along (hm : Filesystem.ActsAsMap lfs resolve files handle) {s : State σ}
    {calls : List Call} (hn : ∀ c ∈ calls, NulFree c.line)
    (h : Along (parseCmd lfs true) (LogInBounds lfs true) s calls) :
    FileMap lfs resolve files s calls := by
  have hmap : ∀ (pre : List Call) (k : κ) (data : Bytes),
      files (run (parseCmd lfs true) s pre).fs k = some data ↔ Latest resolve (pre.map Call.line) k data ∨
        (files s.fs k = some data ∧ Untouched resolve (pre.map Call.line) k) := by
    intro pre k data
    rw [files_run hm]
    exact mapAfter_eq_some_iff (files s.fs) _ k data
  have hnext : ∀ (pre : List Call) (c : Call), files (run (parseCmd lfs true) s (pre++[c])).fs =
      (command c.line).apply resolve (files (run (parseCmd lfs true) s pre).fs) := by
    intro pre c
    rw [run_append]
    exact files_parseCmd hm _ c
  have hafter : ∀ pre post, calls = pre ++ post →
      filesAfter lfs files s pre = some (files (run (parseCmd lfs true) s pre).fs) := by
    rintro pre post rfl
    rw [filesAfter,reach_first h,Option.map_some]
  refine ⟨?_,?_,?_,?_,?_,?_⟩
  · rintro pre c post name k data rfl hc hk hl
    have hd : NulFree data := by
      refine nulFree_of_latest ?_ hl
      intro l hl
      obtain ⟨c',hc',rfl⟩ := List.mem_map.mp hl
      exact hn c' (by simp [hc'])
    rw [answer_of_along h,parseCmd_read_present hm hc hk ((hmap pre k data).mpr (Or.inl hl)),
      Uart.println_of_nulFree (hd.sublist (List.take_sublist _ _))]
  · rintro pre c post name k data rfl hc hk hf hu
    rw [answer_of_along h,parseCmd_read_present hm hc hk ((hmap pre k data).mpr (Or.inr ⟨hf,hu⟩))]
  · rintro pre c post name rfl hc habsent
    rw [answer_of_along h,parseCmd_read_absent hm hc]
    rw [Option.bind_eq_none_iff]
    intro k hk
    rw [Option.eq_none_iff_forall_ne_some]
    intro data hf
    obtain ⟨hlatest,hinit⟩ := habsent k data hk
    rcases (hmap pre k data).mp hf with h | ⟨h,hu⟩
    · exact hlatest h
    · exact hinit h hu
  · rintro pre c post name rfl hc
    rw [answer_of_along h,Option.some_inj,parseCmd_rm hm hc,hafter pre (c::post) rfl]
    simp
  · intro pre c post he hw hr
    refine ⟨_,hafter pre (c::post) he,?_⟩
    rw [hafter (pre++[c]) post (by simp [he]),hnext]
    congr 1
    funext k
    apply apply_of_not_touches
    rintro (⟨data,name,hs,hl,-⟩ | ⟨name,hl,-⟩)
    · exact hw name data hs hl
    · exact hr name hl
  · intro pre c post name he hc
    refine ⟨_,_,hafter pre (c::post) he,hafter (pre++[c]) post (by simp [he]),fun k hk => ?_⟩
    rw [hnext]
    apply apply_of_not_touches
    exact fun ht => hk (resolve_of_touches ht hc)

end Map

theorem parseCmd_unmounted (lfs : Lfs σ φ δ) (s : State σ) (c : Call) (fs : σ) :
    (parseCmd lfs false s c).1.fs = s.fs ∧
    (parseCmd lfs false ⟨fs,s.log⟩ c).1.log = (parseCmd lfs false s c).1.log ∧
    (parseCmd lfs false ⟨fs,s.log⟩ c).2 = (parseCmd lfs false s c).2 := by
  simp only [parseCmd_eq_refuse]
  cases command c.line <;>
    simp only [Command.refuse,notMounted,unknownCommand,logged,and_self]

theorem run_unmounted (lfs : Lfs σ φ δ) (s : State σ) (calls : List Call) (fs : σ) :
    (run (parseCmd lfs false) s calls).fs = s.fs ∧
    (run (parseCmd lfs false) ⟨fs,s.log⟩ calls).log = (run (parseCmd lfs false) s calls).log := by
  have hall : Along (parseCmd lfs false) (fun _ _ => True) s calls := along_of_forall (fun _ _ => trivial)
  refine ⟨?_,?_⟩
  · refine run_invariant (P:=fun t => t.fs = s.fs) ?_ rfl hall
    intro t c ht _
    rw [(parseCmd_unmounted lfs t c s.fs).1,ht]
  · refine run_related (R:=fun t u : State σ => t.log = u.log) ?_ rfl hall
    rintro ⟨g,log⟩ u c rfl _
    exact (parseCmd_unmounted lfs u c g).2.1

theorem shortRefusals_iff (lfs : Lfs σ φ δ) (s : State σ) (calls : List Call) :
    ShortRefusals calls ↔ Along (parseCmd lfs false) (LogInBounds lfs false) s calls := by
  have hstep : ∀ (t : State σ) (c : Call),
      LogInBounds lfs false t c ↔ Short c ((command c.line).messageUnmounted c) :=
    fun t c => logInBounds_iff lfs false t c
  constructor
  · intro h
    refine along_imp (P:=fun _ => True) (fun t c _ hc => ⟨(hstep t c).mpr hc,trivial⟩) trivial
      (along_of_forall h)
  · intro h c hc
    obtain ⟨pre,post,rfl⟩ := List.append_of_mem hc
    exact (hstep _ c).mp (((along_append ..).mp h).2.1)

theorem unmounted_of_short (lfs : Lfs σ φ δ) (s : State σ) {calls : List Call} (h : ShortRefusals calls) :
    Unmounted lfs s calls := by
  have hall : ∀ fs, Along (parseCmd lfs false) (LogInBounds lfs false) ⟨fs,s.log⟩ calls := fun fs =>
    (shortRefusals_iff lfs _ calls).mp h
  have hreach : ∀ fs, reach (parseCmdOnStack lfs false) ⟨fs,s.log⟩ calls =
      some (run (parseCmd lfs false) ⟨fs,s.log⟩ calls) := fun fs => (reach_iff ..).mpr ⟨hall fs,rfl⟩
  refine ⟨⟨_,hreach s.fs,(run_unmounted lfs s calls s.fs).1⟩,fun fs => ⟨?_,?_⟩⟩
  · rintro pre c post rfl
    rw [answer_of_along (hall fs),answer_of_along (hall s.fs)]
    have hlog := (run_unmounted lfs s pre fs).2
    generalize run (parseCmd lfs false) ⟨fs,s.log⟩ pre = t at hlog ⊢
    obtain ⟨g,log⟩ := t
    obtain rfl : log = (run (parseCmd lfs false) s pre).log := hlog
    rw [(parseCmd_unmounted lfs (run (parseCmd lfs false) s pre) c g).2.2]
  · rw [hreach fs,hreach s.fs,Option.map_some,Option.map_some,(run_unmounted lfs s calls fs).2]

/-- For every sequence of lines the shell is a map from paths to texts, and an
unmounted shell keeps away from it, exactly as long as no record of the run is
longer than its buffer. -/
theorem shell_is_file_map_iff [DecidableEq κ] {lfs : Lfs σ φ δ} {resolve : Bytes → Option κ}
    {files : σ → κ → Option Bytes} {handle : σ → φ → Filesystem.Handle κ}
    (hm : Filesystem.ActsAsMap lfs resolve files handle) (s : State σ) (calls : List Call)
    (hn : ∀ c ∈ calls, NulFree c.line) :
    (FileMap lfs resolve files s calls ↔ ShortRecords resolve (files s.fs) calls) ∧
    (Unmounted lfs s calls ↔ ShortRefusals calls) := by
  refine ⟨?_,?_,unmounted_of_short lfs s⟩
  · rw [shortRecords_iff hm]
    exact ⟨FileMap.along,fileMap_of_along hm hn⟩
  · rintro ⟨⟨t,ht,-⟩,-⟩
    exact (shortRefusals_iff lfs s calls).mpr ((reach_iff ..).mp ht).1

def entered (line : String) : Call := ⟨chars line,0,fun _ => 0,fun _ => 0⟩

theorem shell_is_file_map_session :
    FileMap (Filesystem.memoryLfs fun _ => true) Filesystem.memoryPath (fun fs => fs)
      ⟨fun _ => none,Logger.boot⟩
      [entered "write a hello world",entered "read a",entered "rm a",entered "read a"] ∧
    Unmounted (Filesystem.memoryLfs fun _ => true) ⟨fun _ => none,Logger.boot⟩
      [entered "write a hello world",entered "read a",entered "rm a",entered "read a"] := by
  obtain ⟨hmap,hun⟩ := shell_is_file_map_iff Filesystem.memoryLfs_actsAsMap ⟨fun _ => none,Logger.boot⟩
    [entered "write a hello world",entered "read a",entered "rm a",entered "read a"] (by decide)
  refine ⟨hmap.mpr ((shortRecords_iff Filesystem.memoryLfs_actsAsMap _ _).mpr ?_),hun.mpr ?_⟩
  · decide +kernel
  · change ∀ c ∈ _, _
    decide +kernel

/-- A read of an absent file with a name of 231 letters, with room for 255. -/
def longRead : Call := ⟨readLine (List.replicate 231 97),0,fun _ => 0,fun _ => 0⟩

theorem long_read_leaves_buffer :
    NulFree longRead.line ∧
    message (Filesystem.memoryLfs fun _ => true) true ⟨fun _ => none,Logger.boot⟩ longRead =
      some (.error,chars "read: not found: " ++ List.replicate 231 97) ∧
    (Logger.formats 0 (longRead.logCall
      (.error,chars "read: not found: " ++ List.replicate 231 97)).texts).map
      (fun f => (f.pos,wrap 32 f.size)) = [(0,256),(9,247),(257,4294967295)] ∧
    (Logger.Format.mk 257 (chars "\r\n")).cells = [257,258,259] ∧
    answer (Filesystem.memoryLfs fun _ => true) true ⟨fun _ => none,Logger.boot⟩ [] longRead = none ∧
    ¬ FileMap (Filesystem.memoryLfs fun _ => true) Filesystem.memoryPath (fun fs => fs)
      ⟨fun _ => none,Logger.boot⟩ [longRead] := by
  have hnone : answer (Filesystem.memoryLfs fun _ => true) true ⟨fun _ => none,Logger.boot⟩ [] longRead =
      none := by decide +kernel
  refine ⟨by decide +kernel,by decide +kernel,by decide +kernel,by decide +kernel,hnone,fun h => ?_⟩
  have hread := h.read_absent [] longRead [] _ rfl rfl fun k data _ => ⟨?_,by simp⟩
  · rw [hnone] at hread
    cases hread
  · rintro ⟨pre,line,post,he,-⟩
    simp at he

end Shell
end EmbeddedShell
