import EmbeddedShell.Shell
import EmbeddedShell.Listing

/-!
# What the shell prints of its buffer

`parse_cmd` has 512 bytes on its stack that it does not initialise. `ls` and `read`
fill them, and `printed` is the buffer in the cases in which it is then sent, with the
record of what was stored in this call. The answer of `read` is looked at before,
that of `ls` is not.
-/

namespace EmbeddedShell
namespace Shell

open CString Memory

variable {σ φ δ : Type}

/-- The buffer `out`, if `parse_cmd` prints it. -/
def printed (lfs : Lfs σ φ δ) (fsMounted : Bool) (s : State σ) (c : Call) : Option (Tracked UInt8) :=
  match fsMounted, command c.line with
  | true, .ls => some (Filesystem.lsTracked lfs s.fs c.out outSize).2.1
  | true, .read name =>
    let r := Filesystem.readTracked lfs s.fs name c.out outSize
    if r.1 then some r.2.1 else none
  | _, _ => none

/-- All bytes that are sent, and the NUL behind them, lie in the buffer and were stored
in this call. -/
def Fresh (t : Tracked UInt8) : Prop :=
  ∀ i ≤ Filesystem.strlen t.cells outSize, i < outSize ∧ i ∈ t.stored

def NoStaleOutput (lfs : Lfs σ φ δ) (fsMounted : Bool) (s : State σ) (c : Call) : Prop :=
  ∀ t, printed lfs fsMounted s c = some t → Fresh t

/-- `lfs_file_read` returns the number of bytes that it has stored, at most as many as
were asked for, or an error. -/
def CountsBytes (lfs : Lfs σ φ δ) : Prop := ∀ fs file n, 0 ≤ (lfs.fileRead fs file n).1 →
  (lfs.fileRead fs file n).1 = (lfs.fileRead fs file n).2.1.length ∧
    (lfs.fileRead fs file n).2.1.length ≤ n

/-- `ls` is performed although the root cannot be opened. -/
def ListsUnopened (lfs : Lfs σ φ δ) (fsMounted : Bool) (s : State σ) (c : Call) : Prop :=
  fsMounted = true ∧ c.line = chars "ls" ∧ (lfs.dirOpen s.fs (chars "/")).1 < 0

section Output

variable {lfs : Lfs σ φ δ} {fsMounted : Bool} {s : State σ} {c : Call} {t : Tracked UInt8}

theorem command_eq_ls_iff {line : Bytes} : command line = .ls ↔ line = chars "ls" := by
  constructor
  · intro h
    have hr := render_command line
    rw [h] at hr
    exact hr.symm
  · rintro rfl
    decide

theorem printed_cases (h : printed lfs fsMounted s c = some t) : fsMounted = true ∧
    (command c.line = .ls ∧ t = (Filesystem.lsTracked lfs s.fs c.out outSize).2.1 ∨
      ∃ name, command c.line = .read name ∧
        (Filesystem.readTracked lfs s.fs name c.out outSize).1 = true ∧
        t = (Filesystem.readTracked lfs s.fs name c.out outSize).2.1) := by
  cases fsMounted with
  | false => simp [printed] at h
  | true =>
    cases hc : command c.line with
    | ls =>
      simp only [printed,hc,Option.some.injEq] at h
      exact ⟨rfl,Or.inl ⟨rfl,h.symm⟩⟩
    | read name =>
      simp only [printed,hc] at h
      split at h
      · rename_i hr
        exact ⟨rfl,Or.inr ⟨name,rfl,hr,(Option.some.inj h).symm⟩⟩
      · simp at h
    | logs | logsClear | help | rm _ | write _ _ | writeUsage _ | unknown _ => simp [printed,hc] at h

theorem output_of_printed (h : printed lfs fsMounted s c = some t) :
    ∃ ending, (ending = [] ∨ ending = chars "\r\n") ∧
      (parseCmd lfs fsMounted s c).2 = [cstr (load t.cells 0 outSize) ++ ending] := by
  obtain ⟨rfl,⟨hc,rfl⟩ | ⟨name,hc,hr,rfl⟩⟩ := printed_cases h
  · refine ⟨[],Or.inl rfl,?_⟩
    rw [parseCmd_eq,hc,Command.perform,lsCommand,Filesystem.ls_eq_tracked,List.append_nil]
    rfl
  · refine ⟨chars "\r\n",Or.inr rfl,?_⟩
    rw [parseCmd_eq,hc,Command.perform,readCommand,Filesystem.read_eq_tracked,hr]
    rfl

theorem output_of_not_printed (h : printed lfs fsMounted s c = none) (out : ℕ → UInt8) :
    (parseCmd lfs fsMounted s { c with out := out }).2 = (parseCmd lfs fsMounted s c).2 := by
  cases fsMounted with
  | false =>
    rw [parseCmd_eq_refuse,parseCmd_eq_refuse]
    cases command c.line <;> rfl
  | true =>
    rw [parseCmd_eq,parseCmd_eq]
    cases hc : command c.line with
    | ls => simp [printed,hc] at h
    | read name =>
      have hr : (Filesystem.readTracked lfs s.fs name c.out outSize).1 = false := by
        simpa [printed,hc] using h
      have hr' : (Filesystem.readTracked lfs s.fs name out outSize).1 = false :=
        (Filesystem.readTracked_fst lfs s.fs name out c.out outSize).trans hr
      simp only [Command.perform,readCommand,Filesystem.read_eq_tracked,hr,hr']
      rfl
    | logs | logsClear | help | rm _ | write _ _ | writeUsage _ | unknown _ => rfl

theorem fresh_ls (hopen : 0 ≤ (lfs.dirOpen s.fs (chars "/")).1) :
    Fresh (Filesystem.lsTracked lfs s.fs c.out outSize).2.1 := by
  have hold := Filesystem.lsBuffer_holding c.out (show 0 < outSize by decide) (by decide)
    (Filesystem.listed lfs s.fs)
  rw [(Filesystem.lsTracked_of_open hopen c.out outSize).2]
  intro i hi
  rw [hold.strlen_eq] at hi
  exact ⟨hi.trans_lt hold.fits,hold.fresh i hi⟩

theorem fresh_read (hcount : CountsBytes lfs) {name : Bytes}
    (h : (Filesystem.readTracked lfs s.fs name c.out outSize).1 = true) :
    Fresh (Filesystem.readTracked lfs s.fs name c.out outSize).2.1 := by
  obtain ⟨fs,file,hres,ht⟩ := Filesystem.readTracked_of_true h
  obtain ⟨hlen,hle⟩ := hcount fs file _ hres
  have hasked : wrap 32 ((outSize : ℤ)-1) = 511 := by decide
  rw [hasked] at hle hlen ht
  generalize (lfs.fileRead fs file 511).2.1 = bytes at hle hlen ht
  rw [hlen,Int.toNat_natCast] at ht
  have hstrlen : Filesystem.strlen (store (store c.out 0 bytes) bytes.length [0]) outSize ≤
      bytes.length := by
    rw [Filesystem.strlen,Filesystem.cstr_load_terminated c.out (show bytes.length < outSize by
      simp only [outSize]; omega)]
    exact (List.takeWhile_sublist _).length_le
  rw [ht]
  intro i hi
  have hi' : i ≤ bytes.length := hi.trans hstrlen
  refine ⟨by simp only [outSize]; omega,?_⟩
  simp only [Tracked.mem_stored,List.length_singleton]
  omega

theorem printed_of_listsUnopened (h : ListsUnopened lfs fsMounted s c) :
    printed lfs fsMounted s c = some ⟨c.out,[]⟩ := by
  obtain ⟨rfl,hline,hopen⟩ := h
  simp only [printed,command_eq_ls_iff.mpr hline,Filesystem.lsTracked_of_open_failed hopen]

theorem not_noStaleOutput (h : ListsUnopened lfs fsMounted s c) : ¬ NoStaleOutput lfs fsMounted s c := by
  intro hfresh
  have hstored := (hfresh _ (printed_of_listsUnopened h) 0 (Nat.zero_le _)).2
  simp at hstored

theorem noStaleOutput_of_opened (hcount : CountsBytes lfs) (h : ¬ ListsUnopened lfs fsMounted s c) :
    NoStaleOutput lfs fsMounted s c := by
  intro t ht
  obtain ⟨rfl,⟨hc,rfl⟩ | ⟨name,hc,hr,rfl⟩⟩ := printed_cases ht
  · refine fresh_ls (not_lt.mp fun hopen => h ?_)
    exact ⟨rfl,command_eq_ls_iff.mp hc,hopen⟩
  · exact fresh_read hcount hr

end Output

/-- The shell prints stale memory exactly if it lists a root that cannot be opened;
then it prints the buffer as the stack held it before. What is sent of the buffer is
the text of `printed`, and nothing else depends on it. -/
theorem no_stale_output_iff {lfs : Lfs σ φ δ} (hcount : CountsBytes lfs) (fsMounted : Bool)
    (s : State σ) (c : Call) :
    (NoStaleOutput lfs fsMounted s c ↔
      ¬ (fsMounted = true ∧ c.line = chars "ls" ∧ (lfs.dirOpen s.fs (chars "/")).1 < 0)) ∧
    (ListsUnopened lfs fsMounted s c → printed lfs fsMounted s c = some ⟨c.out,[]⟩) ∧
    (∀ t, printed lfs fsMounted s c = some t → ∃ ending, (ending = [] ∨ ending = chars "\r\n") ∧
      (parseCmd lfs fsMounted s c).2 = [cstr (load t.cells 0 outSize) ++ ending]) ∧
    (printed lfs fsMounted s c = none → ∀ out,
      (parseCmd lfs fsMounted s { c with out := out }).2 = (parseCmd lfs fsMounted s c).2) := by
  refine ⟨⟨?_,noStaleOutput_of_opened hcount⟩,printed_of_listsUnopened,fun t => output_of_printed,
    output_of_not_printed⟩
  intro h hunopened
  exact not_noStaleOutput hunopened h

theorem memoryLfs_countsBytes (fits : Bytes → Bool) : CountsBytes (Filesystem.memoryLfs fits) := by
  intro fs file n h
  cases file with
  | reading content => simp [Filesystem.memoryLfs]
  | writing k written => simp [Filesystem.memoryLfs] at h

/-- A file with a NUL inside: what stands behind the NUL is not sent. -/
theorem no_stale_output_read :
    NoStaleOutput (Filesystem.memoryLfs fun _ => true) true ⟨fun _ => some [104,105,0,33],Logger.boot⟩
      ⟨chars "read a.txt",0,fun _ => 65,fun _ => 0⟩ :=
  (no_stale_output_iff (memoryLfs_countsBytes _) _ _ _).1.mpr (by decide)

def brokenLfs : Lfs (List Info) Unit Unit :=
  { Filesystem.rootLfs with dirOpen := fun fs _ => (-5,(),fs) }

/-- `ls` sends what an earlier call left on the stack. -/
theorem stale_output_ls :
    (parseCmd brokenLfs true ⟨[],Logger.boot⟩
      ⟨chars "ls",0,fun i => (chars "old secret").getD i 0,fun _ => 0⟩).2 = [chars "old secret"] ∧
    ¬ NoStaleOutput brokenLfs true ⟨[],Logger.boot⟩
      ⟨chars "ls",0,fun i => (chars "old secret").getD i 0,fun _ => 0⟩ := by
  exact ⟨by decide +kernel,not_noStaleOutput ⟨rfl,rfl,by decide⟩⟩

end Shell
end EmbeddedShell
