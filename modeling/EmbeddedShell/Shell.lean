import EmbeddedShell.LogRecord
import EmbeddedShell.Filesystem

/-!
# The command line

`parseCmd` follows the chain of comparisons of `parse_cmd`. `command` reads the
same line as a value, and `parseCmd_eq` says that a mounted shell performs the
command it reads. At most one comparison of the chain matches a line, so `command`
and its inverse `Command.render` do not depend on the order of the chain
(`command_grammar`). `write` ignores two of the three results it gets from
LittleFS, and `honest_write_iff` says when its answer is nevertheless true.
-/

namespace EmbeddedShell
namespace Shell

open CString Memory Execution

variable {σ φ δ κ : Type}

structure State (σ : Type) where
  fs : σ
  log : Logger.State

/-- A line given to `parse_cmd`, with the tick count and with what the stack holds
in `out` and in the buffer of the log record. -/
structure Call where
  line : Bytes
  tick : ℕ
  out : ℕ → UInt8
  msgBuffer : ℕ → UInt8

def logged (s : State σ) (c : Call) (l : Logger.Level) (text : Bytes) : State σ :=
  { s with log := Logger.logWithLevel s.log l c.tick text c.msgBuffer }

def outSize : ℕ := 512

def notMounted (s : State σ) (c : Call) (name : Bytes) : State σ × List Bytes :=
  (logged s c .error (name ++ chars ": FS not mounted"),
    [Uart.println (chars "ERR: Filesystem not mounted")])

def lsCommand (lfs : Lfs σ φ δ) (s : State σ) (c : Call) : State σ × List Bytes :=
  let r := Filesystem.ls lfs s.fs c.out outSize
  (logged { s with fs := r.2.2 } c .info (chars "ls output:"),[Uart.print (load r.2.1 0 outSize)])

def readCommand (lfs : Lfs σ φ δ) (s : State σ) (c : Call) (name : Bytes) : State σ × List Bytes :=
  let r := Filesystem.read lfs s.fs name c.out outSize
  let s := { s with fs := r.2.2 }
  if r.1 then
    (logged s c .info (chars "read " ++ name ++ chars ": OK"),[Uart.println (load r.2.1 0 outSize)])
  else
    (logged s c .error (chars "read: not found: " ++ name),[Uart.println (chars "ERR: file not found")])

def rmCommand (lfs : Lfs σ φ δ) (s : State σ) (c : Call) (name : Bytes) : State σ × List Bytes :=
  let r := Filesystem.remove lfs s.fs name
  (logged { s with fs := r.2 } c .info
      (chars "rm " ++ name ++ chars ": " ++ if r.1 then chars "OK" else chars "FAIL"),
    [Uart.println (if r.1 then chars "OK" else chars "ERR: cannot remove")])

def writeCommand (lfs : Lfs σ φ δ) (s : State σ) (c : Call) (name data : Bytes) :
    State σ × List Bytes :=
  let r := Filesystem.write lfs s.fs name data
  (logged { s with fs := r.2 } c .info
      (chars "write " ++ name ++ chars ": " ++ if r.1 then chars "OK" else chars "FAIL"),
    [Uart.println (if r.1 then chars "OK" else chars "ERR: cannot write")])

def usage : List Bytes := [Uart.println (chars "Usage: write <file> <data>")]

def help : List Bytes :=
  [Uart.println (chars "Commands:"),
    Uart.println (chars "  logs              - show all logs"),
    Uart.println (chars "  logs clear        - clear logs"),
    Uart.println (chars "  ls                - list files"),
    Uart.println (chars "  read <file>       - read file"),
    Uart.println (chars "  write <file> <data>"),
    Uart.println (chars "  rm <file>         - remove file")]

def unknownCommand (s : State σ) (c : Call) : State σ × List Bytes :=
  (logged s c .warn (chars "Unknown command: " ++ c.line),
    [Uart.println (chars "Unknown command. Type 'help'.")])

/-- The text in front of the first space, and the text behind it. -/
def beforeSpace (rest : Bytes) : Bytes := rest.takeWhile (· ≠ 32)
def behindSpace (rest : Bytes) : Bytes := (rest.dropWhile (· ≠ 32)).drop 1

/-- `parse_cmd` on a line without NUL. -/
def parseCmd (lfs : Lfs σ φ δ) (fsMounted : Bool) : Machine (State σ) Call Bytes
  | s, c =>
    if c.line = chars "logs" then ({ s with log := (Logger.flush s.log).1 },[(Logger.flush s.log).2])
    else if c.line = chars "logs clear" then
      ({ s with log := Logger.clear s.log },[Uart.println (chars "Logs cleared")])
    else if c.line = chars "ls" then
      if !fsMounted then notMounted s c (chars "ls") else lsCommand lfs s c
    else if c.line.take 5 = chars "read " then
      if !fsMounted then notMounted s c (chars "read") else readCommand lfs s c (c.line.drop 5)
    else if c.line.take 3 = chars "rm " then
      if !fsMounted then notMounted s c (chars "rm") else rmCommand lfs s c (c.line.drop 3)
    else if c.line.take 6 = chars "write " then
      if !fsMounted then notMounted s c (chars "write")
      else
        let rest := c.line.drop 6
        if (32 : UInt8) ∉ rest then (s,usage)
        else writeCommand lfs s c (beforeSpace rest) (behindSpace rest)
    else if c.line = chars "help" then (s,help)
    else unknownCommand s c

inductive Command
  | logs | logsClear | ls | help
  | read (name : Bytes)
  | rm (name : Bytes)
  | write (name data : Bytes)
  | writeUsage (rest : Bytes)
  | unknown (line : Bytes)
  deriving DecidableEq

def command (line : Bytes) : Command :=
  if line = chars "logs" then .logs
  else if line = chars "logs clear" then .logsClear
  else if line = chars "ls" then .ls
  else if line.take 5 = chars "read " then .read (line.drop 5)
  else if line.take 3 = chars "rm " then .rm (line.drop 3)
  else if line.take 6 = chars "write " then
    let rest := line.drop 6
    if (32 : UInt8) ∉ rest then .writeUsage rest else .write (beforeSpace rest) (behindSpace rest)
  else if line = chars "help" then .help
  else .unknown line

def Command.perform (lfs : Lfs σ φ δ) (s : State σ) (c : Call) : Command → State σ × List Bytes
  | .logs => ({ s with log := (Logger.flush s.log).1 },[(Logger.flush s.log).2])
  | .logsClear => ({ s with log := Logger.clear s.log },[Uart.println (chars "Logs cleared")])
  | .ls => lsCommand lfs s c
  | .help => (s,Shell.help)
  | .read name => readCommand lfs s c name
  | .rm name => rmCommand lfs s c name
  | .write name data => writeCommand lfs s c name data
  | .writeUsage _ => (s,usage)
  | .unknown _ => unknownCommand s c

/-- The same without a filesystem. -/
def Command.refuse (s : State σ) (c : Call) : Command → State σ × List Bytes
  | .logs => ({ s with log := (Logger.flush s.log).1 },[(Logger.flush s.log).2])
  | .logsClear => ({ s with log := Logger.clear s.log },[Uart.println (chars "Logs cleared")])
  | .ls => notMounted s c (chars "ls")
  | .help => (s,Shell.help)
  | .read _ => notMounted s c (chars "read")
  | .rm _ => notMounted s c (chars "rm")
  | .write _ _ | .writeUsage _ => notMounted s c (chars "write")
  | .unknown _ => unknownCommand s c

theorem parseCmd_eq (lfs : Lfs σ φ δ) (s : State σ) (c : Call) :
    parseCmd lfs true s c = (command c.line).perform lfs s c := by
  simp only [parseCmd,command,Bool.not_true,Bool.false_eq_true,if_false,
    apply_ite (Command.perform lfs s c)]
  rfl

theorem parseCmd_eq_refuse (lfs : Lfs σ φ δ) (s : State σ) (c : Call) :
    parseCmd lfs false s c = (command c.line).refuse s c := by
  simp only [parseCmd,command,Bool.not_false,if_true,apply_ite (Command.refuse s c)]
  simp only [Command.refuse,ite_self]

inductive Comparison
  | logs | logsClear | ls | read | rm | write | help
  deriving DecidableEq

def Comparison.Matches (line : Bytes) : Comparison → Prop
  | .logs => line = chars "logs"
  | .logsClear => line = chars "logs clear"
  | .ls => line = chars "ls"
  | .read => line.take 5 = chars "read "
  | .rm => line.take 3 = chars "rm "
  | .write => line.take 6 = chars "write "
  | .help => line = chars "help"

instance (line : Bytes) : (k : Comparison) → Decidable (k.Matches line)
  | .logs | .logsClear | .ls | .read | .rm | .write | .help => inferInstanceAs (Decidable (_ = _))

/-- What the branch behind a comparison does with the line. -/
def Comparison.action (line : Bytes) : Comparison → Command
  | .logs => .logs
  | .logsClear => .logsClear
  | .ls => .ls
  | .read => .read (line.drop 5)
  | .rm => .rm (line.drop 3)
  | .write =>
    let rest := line.drop 6
    if (32 : UInt8) ∉ rest then .writeUsage rest else .write (beforeSpace rest) (behindSpace rest)
  | .help => .help

def comparisons : List Comparison := [.logs,.logsClear,.ls,.read,.rm,.write,.help]

theorem mem_comparisons (k : Comparison) : k ∈ comparisons := by cases k <;> decide

/-- The comparisons are tried in the given order, and the first that matches decides. -/
def firstMatch (order : List Comparison) (line : Bytes) : Command :=
  match order.find? fun k => decide (k.Matches line) with
  | some k => k.action line
  | none => .unknown line

/-- `a` is the action of a comparison that matches, or no comparison matches. -/
def Selects (line : Bytes) (a : Command) : Prop :=
  (∃ k : Comparison, k.Matches line ∧ a = k.action line) ∨
    (∀ k : Comparison, ¬ k.Matches line) ∧ a = .unknown line

theorem firstMatch_cons (k : Comparison) (ks : List Comparison) (line : Bytes) :
    firstMatch (k::ks) line = if k.Matches line then k.action line else firstMatch ks line := by
  by_cases hk : k.Matches line
  · simp [firstMatch,hk]
  · simp [firstMatch,hk]

theorem firstMatch_comparisons (line : Bytes) : firstMatch comparisons line = command line := by
  simp only [comparisons,firstMatch_cons]
  rfl

theorem selects_firstMatch {order : List Comparison} (h : ∀ k, k ∈ order) (line : Bytes) :
    Selects line (firstMatch order line) := by
  rw [firstMatch]
  cases hf : order.find? fun k => decide (k.Matches line) with
  | some k => exact Or.inl ⟨k,by simpa using List.find?_some hf,rfl⟩
  | none => exact Or.inr ⟨fun k => by simpa using List.find?_eq_none.mp hf k (h k),rfl⟩

theorem selects_command (line : Bytes) : Selects line (command line) := by
  rw [← firstMatch_comparisons]
  exact selects_firstMatch mem_comparisons line

def readLine (name : Bytes) : Bytes := chars "read " ++ name
def rmLine (name : Bytes) : Bytes := chars "rm " ++ name
def writeLine (name data : Bytes) : Bytes := chars "write " ++ name ++ chars " " ++ data

theorem space_notMem_beforeSpace (rest : Bytes) : (32 : UInt8) ∉ beforeSpace rest :=
  notMem_takeWhile_ne 32 rest

theorem eq_split {rest : Bytes} (h : (32 : UInt8) ∈ rest) :
    rest = beforeSpace rest ++ chars " " ++ behindSpace rest := by
  induction rest with
  | nil => simp at h
  | cons b rest ih =>
    by_cases hb : b = 32
    · simp [beforeSpace,behindSpace,hb,chars]
    · have hr : (32 : UInt8) ∈ rest := by simpa [Ne.symm hb] using h
      simpa [beforeSpace,behindSpace,hb] using ih hr

theorem beforeSpace_append {name : Bytes} (h : (32 : UInt8) ∉ name) (data : Bytes) :
    beforeSpace (name ++ 32::data) = name ∧ behindSpace (name ++ 32::data) = data := by
  rw [beforeSpace,behindSpace,takeWhile_ne_append h,
    List.dropWhile_append_of_pos (forall_ne_of_notMem h)]
  simp

theorem command_readLine (name : Bytes) : command (readLine name) = .read name := by
  simp [command,readLine,chars]

theorem command_rmLine (name : Bytes) : command (rmLine name) = .rm name := by
  simp [command,rmLine,chars]

theorem command_writeLine {name : Bytes} (h : (32 : UInt8) ∉ name) (data : Bytes) :
    command (writeLine name data) = .write name data := by
  obtain ⟨hb,ha⟩ := beforeSpace_append h data
  simp [command,writeLine,chars,hb,ha]

def Command.render : Command → Bytes
  | .logs => chars "logs"
  | .logsClear => chars "logs clear"
  | .ls => chars "ls"
  | .help => chars "help"
  | .read name => readLine name
  | .rm name => rmLine name
  | .write name data => writeLine name data
  | .writeUsage rest => chars "write " ++ rest
  | .unknown line => line

theorem append_drop_of_take {line word : Bytes} {n : ℕ} (h : line.take n = word) :
    word ++ line.drop n = line := by
  rw [← h,List.take_append_drop]

theorem render_action {line : Bytes} {k : Comparison} (h : k.Matches line) :
    (k.action line).render = line := by
  cases k with
  | logs | logsClear | ls | help => exact Eq.symm h
  | read | rm => exact append_drop_of_take h
  | write =>
    have hline : chars "write " ++ line.drop 6 = line := append_drop_of_take h
    simp only [Comparison.action]
    split
    · exact hline
    · rename_i hs
      have hsplit := eq_split (not_not.mp hs)
      rw [List.append_assoc] at hsplit
      rw [Command.render,writeLine,List.append_assoc,List.append_assoc,← hsplit,hline]

theorem render_command (line : Bytes) : (command line).render = line := by
  rcases selects_command line with ⟨k,hk,h⟩ | ⟨-,h⟩
  · rw [h,render_action hk]
  · rw [h,Command.render]

theorem command_writeRest (rest : Bytes) : command (chars "write " ++ rest) =
    if (32 : UInt8) ∉ rest then .writeUsage rest else .write (beforeSpace rest) (behindSpace rest) := by
  simp [command,chars]

/-- Whichever comparison matches, its branch is the one that `parse_cmd` takes. -/
theorem command_of_matches {line : Bytes} {k : Comparison} (h : k.Matches line) :
    command line = k.action line := by
  cases k with
  | logs => obtain rfl := h; decide
  | logsClear => obtain rfl := h; decide
  | ls => obtain rfl := h; decide
  | help => obtain rfl := h; decide
  | read =>
    rw [← append_drop_of_take h]
    exact command_readLine _
  | rm =>
    rw [← append_drop_of_take h]
    exact command_rmLine _
  | write =>
    rw [← append_drop_of_take h,command_writeRest]
    rfl

/-- At most one comparison matches, so a line selects one action. -/
theorem selects_iff {line : Bytes} {a : Command} : Selects line a ↔ a = command line := by
  constructor
  · rintro (⟨k,hk,rfl⟩ | ⟨hn,rfl⟩)
    · exact (command_of_matches hk).symm
    · rcases selects_command line with ⟨k,hk,-⟩ | ⟨-,h⟩
      · exact absurd hk (hn k)
      · exact h.symm
  · rintro rfl
    exact selects_command line

/-- The commands that a line can spell: names of written files have no space, and
an unknown line is not the spelling of anything else. -/
def Command.Spellable : Command → Prop
  | .write name _ => (32 : UInt8) ∉ name
  | .writeUsage rest => (32 : UInt8) ∉ rest
  | .unknown line => ∀ k : Comparison, ¬ k.Matches line
  | _ => True

theorem command_render {a : Command} (h : a.Spellable) : command a.render = a := by
  cases a with
  | read name => exact command_readLine name
  | rm name => exact command_rmLine name
  | write name data => exact command_writeLine h data
  | writeUsage rest => exact (command_writeRest rest).trans (if_pos h)
  | unknown line => exact (selects_iff.mp (Or.inr ⟨h,rfl⟩)).symm
  | logs => decide
  | logsClear => decide
  | ls => decide
  | help => decide

theorem spellable_action (line : Bytes) (k : Comparison) : (k.action line).Spellable := by
  cases k with
  | write =>
    simp only [Comparison.action]
    split
    · rename_i hs
      exact hs
    · exact space_notMem_beforeSpace _
  | _ => trivial

theorem spellable_command (line : Bytes) : (command line).Spellable := by
  rcases selects_command line with ⟨k,-,h⟩ | ⟨hn,h⟩
  · rw [h]
    exact spellable_action line k
  · rw [h]
    exact hn

theorem space_notMem_of_command {line name data : Bytes} (h : command line = .write name data) :
    (32 : UInt8) ∉ name := by
  have hs := spellable_command line
  rwa [h] at hs

/-- The grammar of the shell: `parse_cmd` performs the one action that its line
selects in whatever order the comparisons are tried, and spelling is its inverse. -/
theorem command_grammar :
    (∀ (lfs : Lfs σ φ δ) s c, parseCmd lfs true s c = (command c.line).perform lfs s c) ∧
    (∀ line, Selects line (command line) ∧ (∃! a, Selects line a) ∧
      (∀ order, order.Perm comparisons → firstMatch order line = command line) ∧
      (command line).Spellable ∧ (command line).render = line) ∧
    (∀ a : Command, a.Spellable → command a.render = a) := by
  refine ⟨parseCmd_eq,?_,fun a => command_render⟩
  intro line
  refine ⟨selects_iff.mpr rfl,⟨command line,selects_iff.mpr rfl,fun a => selects_iff.mp⟩,?_,
    spellable_command line,render_command line⟩
  intro order hp
  exact selects_iff.mp (selects_firstMatch (fun k => hp.mem_iff.mpr (mem_comparisons k)) line)

theorem command_grammar_words :
    command (Command.write (chars "ls") (chars "rm read  help")).render =
      .write (chars "ls") (chars "rm read  help") :=
  (command_grammar (σ:=Unit) (φ:=Unit) (δ:=Unit)).2.2 _ (show (32 : UInt8) ∉ chars "ls" by decide)

/-- The new data is the content of the file, and `read` returns it. -/
def Stores (lfs : Lfs σ φ δ) (content : σ → Bytes → Option Bytes) (fs : σ) (path data : Bytes) : Prop :=
  content fs path = some data ∧
    ∀ out outlen, 0 < outlen → outlen < 2^32 → Filesystem.ReadsBack lfs fs path data out outlen

/-- Neither `Filesystem::write` nor the shell reports a write that did not happen. -/
structure HonestWrite (lfs : Lfs σ φ δ) (content : σ → Bytes → Option Bytes) (fs : σ)
    (path data : Bytes) : Prop where
  returns : (Filesystem.write lfs fs path data).1 = true →
    Stores lfs content (Filesystem.write lfs fs path data).2 path data
  prints : ∀ fsMounted log c, (32 : UInt8) ∉ path → c.line = writeLine path data →
    Uart.println (chars "OK") ∈ (parseCmd lfs fsMounted ⟨fs,log⟩ c).2 →
    Stores lfs content (parseCmd lfs fsMounted ⟨fs,log⟩ c).1.fs path data

theorem parseCmd_writeLine (lfs : Lfs σ φ δ) (s : State σ) {c : Call} {name data : Bytes}
    (h : (32 : UInt8) ∉ name) (hc : c.line = writeLine name data) :
    parseCmd lfs true s c = writeCommand lfs s c name data := by
  rw [parseCmd_eq,hc,command_writeLine h]
  rfl

theorem parseCmd_writeLine_unmounted (lfs : Lfs σ φ δ) (s : State σ) {c : Call} {name data : Bytes}
    (h : (32 : UInt8) ∉ name) (hc : c.line = writeLine name data) :
    parseCmd lfs false s c = notMounted s c (chars "write") := by
  rw [parseCmd_eq_refuse,hc,command_writeLine h]
  rfl

/-- `write` reports the truth exactly when the file could not be opened, or all
the data was written and the file closed without error. -/
theorem honest_write_iff {lfs : Lfs σ φ δ} {content : σ → Bytes → Option Bytes}
    (hc : Filesystem.Commits lfs content) (fs : σ) (path : Bytes) {data : Bytes} (hd : NulFree data) :
    HonestWrite lfs content fs path data ↔ Filesystem.openResult lfs fs path < 0 ∨
      (Filesystem.writeResult lfs fs path data = data.length ∧
        0 ≤ Filesystem.closeResult lfs fs path data) := by
  have hstores : ∀ fs', content fs' path = some data → Stores lfs content fs' path data :=
    fun fs' h => ⟨h,fun out _ h0 hmax => Filesystem.readsBack_of_content hc h hd out h0 hmax⟩
  constructor
  · intro h
    by_cases ho : Filesystem.openResult lfs fs path < 0
    · exact Or.inl ho
    · have hopen : 0 ≤ Filesystem.openResult lfs fs path := not_lt.mp ho
      have hcontent := (h.returns ((Filesystem.write_fst lfs fs path data).mpr hopen)).1
      refine Or.inr ?_
      by_contra hfail
      rw [not_and_or,not_le] at hfail
      exact hc.lost fs path data hopen hfail hcontent
  · intro h
    have hret : (Filesystem.write lfs fs path data).1 = true →
        Stores lfs content (Filesystem.write lfs fs path data).2 path data := by
      intro hw
      have hopen := (Filesystem.write_fst lfs fs path data).mp hw
      rcases h with ho | ⟨hall,hclose⟩
      · omega
      · exact hstores _ (hc.stored fs path data hopen hall hclose)
    refine ⟨hret,?_⟩
    intro fsMounted log c hp hline hprint
    cases fsMounted with
    | false =>
      rw [parseCmd_writeLine_unmounted lfs _ hp hline] at hprint
      simp only [notMounted,List.mem_singleton] at hprint
      exact absurd hprint (by decide)
    | true =>
      rw [parseCmd_writeLine lfs _ hp hline] at hprint ⊢
      cases hw : (Filesystem.write lfs fs path data).1 with
      | true => exact hret hw
      | false =>
        simp only [writeCommand,hw,List.mem_singleton] at hprint
        exact absurd hprint (by decide)

theorem honest_write_fits : HonestWrite (Filesystem.memoryLfs fun data => decide (data.length ≤ 8))
    Filesystem.memoryContent (fun _ => none) (chars "a.txt") (chars "hello") :=
  (honest_write_iff (Filesystem.memoryLfs_commits 8) _ _ (by decide)).mpr (Or.inr ⟨by decide,by decide⟩)

/-- No space for five bytes: the file is left empty and the shell prints OK. -/
theorem dishonest_write_no_space :
    Filesystem.writeResult (Filesystem.memoryLfs fun data => decide (data.length ≤ 4)) (fun _ => none)
      (chars "a.txt") (chars "hello") = -28 ∧
    (Filesystem.write (Filesystem.memoryLfs fun data => decide (data.length ≤ 4)) (fun _ => none)
      (chars "a.txt") (chars "hello")).1 = true ∧
    Filesystem.memoryContent (Filesystem.write (Filesystem.memoryLfs fun data => decide (data.length ≤ 4))
      (fun _ => none) (chars "a.txt") (chars "hello")).2 (chars "a.txt") = some [] ∧
    (parseCmd (Filesystem.memoryLfs fun data => decide (data.length ≤ 4)) true ⟨fun _ => none,Logger.boot⟩
      ⟨chars "write a.txt hello",0,fun _ => 0,fun _ => 0⟩).2 = [Uart.println (chars "OK")] ∧
    ¬ HonestWrite (Filesystem.memoryLfs fun data => decide (data.length ≤ 4)) Filesystem.memoryContent
      (fun _ => none) (chars "a.txt") (chars "hello") := by
  refine ⟨by decide,by decide,by decide,by decide,?_⟩
  intro h
  have hc := (h.returns (by decide)).1
  revert hc
  decide

end Shell
end EmbeddedShell
