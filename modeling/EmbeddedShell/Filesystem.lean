import EmbeddedShell.Memory
import EmbeddedShell.CString

/-!
# Files

The file operations of the class `Filesystem` over the calls of LittleFS that
they make. LittleFS itself is a parameter: `Lfs` has one field for each call,
and what the operations rely on is stated in `Commits` and `ActsAsMap`.
-/

namespace EmbeddedShell

open CString Memory

inductive OpenFlags
  | rdOnly | wrOnlyCreatTrunc
  deriving DecidableEq

/-- The members of `lfs_info` that are read. -/
structure Info where
  isDir : Bool
  name : Bytes
  size : ℕ

/-- LittleFS calls over a volume `σ`, open files `φ` and open directories `δ`. A
call returns its result code first; `fileRead` also returns the bytes it stored.
`dirEntries` lists what `lfs_dir_read` delivers before it stops being positive. -/
structure Lfs (σ φ δ : Type) where
  fileOpen : σ → Bytes → OpenFlags → ℤ × φ × σ
  fileWrite : σ → φ → Bytes → ℤ × φ × σ
  fileRead : σ → φ → ℕ → ℤ × Bytes × φ × σ
  fileClose : σ → φ → ℤ × σ
  remove : σ → Bytes → ℤ × σ
  dirOpen : σ → Bytes → ℤ × δ × σ
  dirEntries : σ → δ → List Info × δ × σ
  dirClose : σ → δ → ℤ × σ

namespace Filesystem

variable {σ φ δ κ : Type}

def write (lfs : Lfs σ φ δ) (fs : σ) (path data : Bytes) : Bool × σ :=
  let o := lfs.fileOpen fs path .wrOnlyCreatTrunc
  if o.1 < 0 then (false,o.2.2)
  else
    let w := lfs.fileWrite o.2.2 o.2.1 data
    let c := lfs.fileClose w.2.2 w.2.1
    (true,c.2)

/-- `read` with the buffer `out` as it was before the call. -/
def read (lfs : Lfs σ φ δ) (fs : σ) (path : Bytes) (out : ℕ → UInt8) (outlen : ℕ) :
    Bool × (ℕ → UInt8) × σ :=
  let o := lfs.fileOpen fs path .rdOnly
  if o.1 < 0 then (false,out,o.2.2)
  else
    let r := lfs.fileRead o.2.2 o.2.1 (wrap 32 ((outlen : ℤ)-1))
    let out := store out 0 r.2.1
    let c := lfs.fileClose r.2.2.2 r.2.2.1
    if r.1 < 0 then (false,out,c.2) else (true,store out r.1.toNat [0],c.2)

def remove (lfs : Lfs σ φ δ) (fs : σ) (path : Bytes) : Bool × σ :=
  let r := lfs.remove fs path
  (r.1 == 0,r.2)

/-- `strlen` of a string in a buffer of `outlen` bytes. -/
def strlen (out : ℕ → UInt8) (outlen : ℕ) : ℕ := (cstr (load out 0 outlen)).length

/-- `strncat(out, text, n)`. -/
def strncat (out : ℕ → UInt8) (outlen : ℕ) (text : Bytes) (n : ℕ) : ℕ → UInt8 :=
  store out (strlen out outlen) ((cstr text).take n ++ [0])

/-- The conversion `%-20s`. -/
def padded (name : Bytes) : Bytes := name ++ List.replicate (20-name.length) 32

/-- The line of a directory entry, as `snprintf` leaves it in `line[280]`. -/
def entryLine (info : Info) : Bytes :=
  (if info.isDir then chars "[DIR]  " ++ cstr info.name ++ chars "\r\n"
    else chars "[FILE] " ++ padded (cstr info.name) ++ chars " " ++ decimal info.size ++
      chars " B\r\n").take 279

def ls (lfs : Lfs σ φ δ) (fs : σ) (out : ℕ → UInt8) (outlen : ℕ) : Bool × (ℕ → UInt8) × σ :=
  let o := lfs.dirOpen fs (chars "/")
  if o.1 < 0 then (false,out,o.2.2)
  else
    let e := lfs.dirEntries o.2.2 o.2.1
    let out := e.1.foldl (fun out info =>
      strncat out outlen (entryLine info) (wrap 32 ((outlen : ℤ) - strlen out outlen - 1))) (store out 0 [0])
    let out := if out 0 = 0 then strncat out outlen (chars "(empty)\r\n") (wrap 32 ((outlen : ℤ)-1)) else out
    let c := lfs.dirClose e.2.2 e.2.1
    (true,out,c.2)

def openResult (lfs : Lfs σ φ δ) (fs : σ) (path : Bytes) : ℤ :=
  (lfs.fileOpen fs path .wrOnlyCreatTrunc).1

def writeResult (lfs : Lfs σ φ δ) (fs : σ) (path data : Bytes) : ℤ :=
  let o := lfs.fileOpen fs path .wrOnlyCreatTrunc
  (lfs.fileWrite o.2.2 o.2.1 data).1

def closeResult (lfs : Lfs σ φ δ) (fs : σ) (path data : Bytes) : ℤ :=
  let o := lfs.fileOpen fs path .wrOnlyCreatTrunc
  let w := lfs.fileWrite o.2.2 o.2.1 data
  (lfs.fileClose w.2.2 w.2.1).1

theorem write_fst (lfs : Lfs σ φ δ) (fs : σ) (path data : Bytes) :
    (write lfs fs path data).1 = true ↔ 0 ≤ openResult lfs fs path := by
  by_cases h : openResult lfs fs path < 0
  · have hw : (write lfs fs path data).1 = false := by
      simp only [openResult] at h
      simp [write,h]
    simp [hw,h]
  · have hw : (write lfs fs path data).1 = true := by
      simp only [openResult] at h
      simp [write,h]
    simp [hw,not_lt.mp h]

/-- The committed content of a path: data that was written and closed without
error is there and can be read, data for which either call failed is not. -/
structure Commits (lfs : Lfs σ φ δ) (content : σ → Bytes → Option Bytes) : Prop where
  stored : ∀ fs path data, 0 ≤ openResult lfs fs path → writeResult lfs fs path data = data.length →
    0 ≤ closeResult lfs fs path data → content (write lfs fs path data).2 path = some data
  lost : ∀ fs path data, 0 ≤ openResult lfs fs path →
    writeResult lfs fs path data ≠ data.length ∨ closeResult lfs fs path data < 0 →
    content (write lfs fs path data).2 path ≠ some data
  opens : ∀ fs path data, content fs path = some data → 0 ≤ (lfs.fileOpen fs path .rdOnly).1
  reads : ∀ fs path data n, content fs path = some data →
    (lfs.fileRead (lfs.fileOpen fs path .rdOnly).2.2 (lfs.fileOpen fs path .rdOnly).2.1 n).1 =
      (data.take n).length ∧
    (lfs.fileRead (lfs.fileOpen fs path .rdOnly).2.2 (lfs.fileOpen fs path .rdOnly).2.1 n).2.1 =
      data.take n

/-- Reading with a buffer of `outlen` bytes leaves this text in it. -/
def ReadsBack (lfs : Lfs σ φ δ) (fs : σ) (path data : Bytes) (out : ℕ → UInt8) (outlen : ℕ) : Prop :=
  (read lfs fs path out outlen).1 = true ∧
    cstr (load (read lfs fs path out outlen).2.1 0 outlen) = data.take (outlen-1)

/-- Text at the start of a buffer, with a NUL behind it. -/
theorem cstr_load {out : ℕ → UInt8} {text : Bytes} {n : ℕ} (htext : load out 0 text.length = text)
    (hnul : out text.length = 0) (hn : text.length < n) : cstr (load out 0 n) = cstr text := by
  obtain ⟨k,rfl⟩ : ∃ k, n = text.length+(1+k) := ⟨n-text.length-1,by omega⟩
  have h0 : load out (0+text.length) 1 = [0] := by simp [load,hnul]
  rw [load_add,load_add,htext,h0]
  exact cstr_append_nul text _

theorem cstr_load_terminated (out : ℕ → UInt8) {text : Bytes} {n : ℕ} (hn : text.length < n) :
    cstr (load (store (store out 0 text) text.length [0]) 0 n) = cstr text := by
  refine cstr_load ?_ ?_ hn
  · rw [load_store_disjoint _ _ (by omega),load_store_self]
  · exact store_inside _ text.length [0] 0 (by simp)

theorem readsBack_of_content {lfs : Lfs σ φ δ} {content : σ → Bytes → Option Bytes}
    (hc : Commits lfs content) {fs : σ} {path data : Bytes} (h : content fs path = some data)
    (hd : NulFree data) (out : ℕ → UInt8) {outlen : ℕ} (h0 : 0 < outlen) (hmax : outlen < 2^32) :
    ReadsBack lfs fs path data out outlen := by
  have hopen := hc.opens fs path data h
  have hw : wrap 32 ((outlen : ℤ)-1) = outlen-1 := wrap_sub (b:=1) h0 hmax
  obtain ⟨hn,hb⟩ := hc.reads fs path data (outlen-1) h
  have htake : NulFree (data.take (outlen-1)) := hd.sublist (List.take_sublist _ _)
  have hr : read lfs fs path out outlen = (true,
      store (store out 0 (data.take (outlen-1))) (data.take (outlen-1)).length [0],
      (read lfs fs path out outlen).2.2) := by
    simp only [read,hw,hn,hb,not_lt.mpr hopen,if_false,Int.toNat_natCast]
    rw [if_neg (by omega)]
  rw [ReadsBack,hr]
  refine ⟨rfl,(cstr_load_terminated out ?_).trans (cstr_of_nulFree htake)⟩
  simp
  omega

/-- What an open file stands for: the text it was opened on, or the file it
replaces and what has been written to it. -/
inductive Handle (κ : Type)
  | reading (content : Bytes)
  | writing (key : κ) (written : Bytes)

/-- LittleFS as a map from resolved paths to texts in which calls fail only on
paths that are absent or name no file. Between opening a file for writing and
closing it nothing is known of that file. -/
structure ActsAsMap [DecidableEq κ] (lfs : Lfs σ φ δ) (resolve : Bytes → Option κ)
    (files : σ → κ → Option Bytes) (handle : σ → φ → Handle κ) : Prop where
  openRead : ∀ fs path k content, resolve path = some k → files fs k = some content →
    0 ≤ (lfs.fileOpen fs path .rdOnly).1 ∧ files (lfs.fileOpen fs path .rdOnly).2.2 = files fs ∧
      handle (lfs.fileOpen fs path .rdOnly).2.2 (lfs.fileOpen fs path .rdOnly).2.1 = .reading content
  openRead_absent : ∀ fs path, (resolve path).bind (files fs) = none →
    (lfs.fileOpen fs path .rdOnly).1 < 0 ∧ files (lfs.fileOpen fs path .rdOnly).2.2 = files fs
  openWrite : ∀ fs path k, resolve path = some k →
    0 ≤ (lfs.fileOpen fs path .wrOnlyCreatTrunc).1 ∧
      (∀ j, j ≠ k → files (lfs.fileOpen fs path .wrOnlyCreatTrunc).2.2 j = files fs j) ∧
      handle (lfs.fileOpen fs path .wrOnlyCreatTrunc).2.2
        (lfs.fileOpen fs path .wrOnlyCreatTrunc).2.1 = .writing k []
  openWrite_unresolved : ∀ fs path, resolve path = none →
    (lfs.fileOpen fs path .wrOnlyCreatTrunc).1 < 0 ∧
      files (lfs.fileOpen fs path .wrOnlyCreatTrunc).2.2 = files fs
  reads : ∀ fs file content n, handle fs file = .reading content →
    (lfs.fileRead fs file n).1 = (content.take n).length ∧
      (lfs.fileRead fs file n).2.1 = content.take n ∧ files (lfs.fileRead fs file n).2.2.2 = files fs ∧
      handle (lfs.fileRead fs file n).2.2.2 (lfs.fileRead fs file n).2.2.1 = .reading (content.drop n)
  writes : ∀ fs file k written data, handle fs file = .writing k written →
    (lfs.fileWrite fs file data).1 = data.length ∧
      (∀ j, j ≠ k → files (lfs.fileWrite fs file data).2.2 j = files fs j) ∧
      handle (lfs.fileWrite fs file data).2.2 (lfs.fileWrite fs file data).2.1 =
        .writing k (written++data)
  closeRead : ∀ fs file content, handle fs file = .reading content →
    files (lfs.fileClose fs file).2 = files fs
  closeWrite : ∀ fs file k written, handle fs file = .writing k written →
    files (lfs.fileClose fs file).2 = Function.update (files fs) k (some written)
  removes : ∀ fs path k content, resolve path = some k → files fs k = some content →
    (lfs.remove fs path).1 = 0 ∧ files (lfs.remove fs path).2 = Function.update (files fs) k none
  removes_absent : ∀ fs path, (resolve path).bind (files fs) = none →
    (lfs.remove fs path).1 < 0 ∧ files (lfs.remove fs path).2 = files fs
  dirOpen : ∀ fs path, files (lfs.dirOpen fs path).2.2 = files fs
  dirEntries : ∀ fs dir, files (lfs.dirEntries fs dir).2.2 = files fs
  dirClose : ∀ fs dir, files (lfs.dirClose fs dir).2 = files fs

section Map

variable [DecidableEq κ] {lfs : Lfs σ φ δ} {resolve : Bytes → Option κ} {files : σ → κ → Option Bytes}
  {handle : σ → φ → Handle κ}

theorem write_resolved (hm : ActsAsMap lfs resolve files handle) (fs : σ) {path : Bytes} {k : κ}
    (hk : resolve path = some k) (data : Bytes) : (write lfs fs path data).1 = true ∧
      files (write lfs fs path data).2 = Function.update (files fs) k (some data) := by
  obtain ⟨ho,hof,hoh⟩ := hm.openWrite fs path k hk
  obtain ⟨-,hwf,hwh⟩ := hm.writes _ _ k [] data hoh
  have hc := hm.closeWrite _ _ k data hwh
  simp only [write,not_lt.mpr ho,if_false,true_and]
  rw [hc]
  funext j
  by_cases hj : j = k
  · simp [hj]
  · simp [hj,hwf j hj,hof j hj]

theorem write_unresolved (hm : ActsAsMap lfs resolve files handle) (fs : σ) {path : Bytes}
    (hk : resolve path = none) (data : Bytes) : (write lfs fs path data).1 = false ∧
      files (write lfs fs path data).2 = files fs := by
  obtain ⟨ho,hof⟩ := hm.openWrite_unresolved fs path hk
  simp [write,ho,hof]

theorem read_present (hm : ActsAsMap lfs resolve files handle) {fs : σ} {path content : Bytes} {k : κ}
    (hk : resolve path = some k) (hf : files fs k = some content) (out : ℕ → UInt8) {outlen : ℕ}
    (h0 : 0 < outlen) (hmax : outlen < 2^32) : (read lfs fs path out outlen).1 = true ∧
      (read lfs fs path out outlen).2.1 = store (store out 0 (content.take (outlen-1)))
        (content.take (outlen-1)).length [0] ∧ files (read lfs fs path out outlen).2.2 = files fs := by
  obtain ⟨ho,hof,hoh⟩ := hm.openRead fs path k content hk hf
  have hw : wrap 32 ((outlen : ℤ)-1) = outlen-1 := wrap_sub (b:=1) h0 hmax
  obtain ⟨hn,hb,hrf,hrh⟩ := hm.reads _ _ content (outlen-1) hoh
  have hc := hm.closeRead _ _ _ hrh
  have hpos : ¬ ((content.take (outlen-1)).length : ℤ) < 0 := by omega
  simp only [read,hw,hn,hb,not_lt.mpr ho,hpos,if_false,Int.toNat_natCast,true_and]
  rw [hc,hrf,hof]

theorem read_absent (hm : ActsAsMap lfs resolve files handle) {fs : σ} {path : Bytes}
    (hk : (resolve path).bind (files fs) = none) (out : ℕ → UInt8) (outlen : ℕ) :
    (read lfs fs path out outlen).1 = false ∧ files (read lfs fs path out outlen).2.2 = files fs := by
  obtain ⟨ho,hof⟩ := hm.openRead_absent fs path hk
  simp [read,ho,hof]

theorem read_files (hm : ActsAsMap lfs resolve files handle) (fs : σ) (path : Bytes) (out : ℕ → UInt8)
    {outlen : ℕ} (h0 : 0 < outlen) (hmax : outlen < 2^32) :
    files (read lfs fs path out outlen).2.2 = files fs := by
  cases h : (resolve path).bind (files fs) with
  | none => exact (read_absent hm h out outlen).2
  | some content =>
    obtain ⟨k,hk,hf⟩ := Option.bind_eq_some_iff.mp h
    exact (read_present hm hk hf out h0 hmax).2.2

theorem remove_present (hm : ActsAsMap lfs resolve files handle) {fs : σ} {path content : Bytes} {k : κ}
    (hk : resolve path = some k) (hf : files fs k = some content) :
    (remove lfs fs path).1 = true ∧
      files (remove lfs fs path).2 = Function.update (files fs) k none := by
  obtain ⟨hr,hrf⟩ := hm.removes fs path k content hk hf
  simp [remove,hr,hrf]

theorem remove_absent (hm : ActsAsMap lfs resolve files handle) {fs : σ} {path : Bytes}
    (hk : (resolve path).bind (files fs) = none) :
    (remove lfs fs path).1 = false ∧ files (remove lfs fs path).2 = files fs := by
  obtain ⟨hr,hrf⟩ := hm.removes_absent fs path hk
  simp [remove,hr.ne,hrf]

theorem ls_files (hm : ActsAsMap lfs resolve files handle) (fs : σ) (out : ℕ → UInt8) (outlen : ℕ) :
    files (ls lfs fs out outlen).2.2 = files fs := by
  by_cases ho : (lfs.dirOpen fs (chars "/")).1 < 0
  · simp [ls,ho,hm.dirOpen]
  · simp [ls,ho,hm.dirOpen,hm.dirEntries,hm.dirClose]

end Map

/-- A volume in memory whose paths are its file names. Text that does not fit is
refused with `LFS_ERR_NOSPC`; the file stays empty. -/
def memoryLfs (fits : Bytes → Bool) : Lfs (Bytes → Option Bytes) (Handle Bytes) Unit where
  fileOpen fs path flags :=
    match flags with
    | .wrOnlyCreatTrunc =>
      if path = [] then (-22,.reading [],fs) else (0,.writing path [],Function.update fs path (some []))
    | .rdOnly =>
      match if path = [] then none else fs path with
      | none => (-2,.reading [],fs)
      | some content => (0,.reading content,fs)
  fileWrite fs file data :=
    match file with
    | .reading _ => (-9,file,fs)
    | .writing k written =>
      if fits data then (data.length,.writing k (written++data),fs) else (-28,file,fs)
  fileRead fs file n :=
    match file with
    | .reading content => ((content.take n).length,content.take n,.reading (content.drop n),fs)
    | .writing _ _ => (-9,[],file,fs)
  fileClose fs file :=
    match file with
    | .reading _ => (0,fs)
    | .writing k written => (0,Function.update fs k (some written))
  remove fs path :=
    match if path = [] then none else fs path with
    | none => (-2,fs)
    | some _ => (0,Function.update fs path none)
  dirOpen fs _ := (0,(),fs)
  dirEntries fs _ := ([],(),fs)
  dirClose fs _ := (0,fs)

def memoryPath (path : Bytes) : Option Bytes := if path = [] then none else some path

theorem memoryPath_of_some {path k : Bytes} (h : memoryPath path = some k) : path ≠ [] ∧ path = k := by
  by_cases hp : path = []
  · simp [memoryPath,hp] at h
  · simpa [memoryPath,hp] using h

theorem memoryPath_bind (path : Bytes) (fs : Bytes → Option Bytes) :
    (memoryPath path).bind fs = if path = [] then none else fs path := by
  by_cases hp : path = []
  · simp [memoryPath,hp]
  · simp [memoryPath,hp]

theorem memoryLfs_actsAsMap :
    ActsAsMap (memoryLfs fun _ => true) memoryPath (fun fs => fs) (fun _ file => file) where
  openRead := by
    intro fs path k content hk hf
    obtain ⟨hp,rfl⟩ := memoryPath_of_some hk
    simp [memoryLfs,hp,hf]
  openRead_absent := by
    intro fs path h
    rw [memoryPath_bind] at h
    simp [memoryLfs,h]
  openWrite := by
    intro fs path k hk
    obtain ⟨hp,rfl⟩ := memoryPath_of_some hk
    simp +contextual [memoryLfs,hp]
  openWrite_unresolved := by
    intro fs path hk
    have hp : path = [] := by simpa [memoryPath] using hk
    simp [memoryLfs,hp]
  reads := by
    intro fs file content n h
    simp [memoryLfs,h]
  writes := by
    intro fs file k written data h
    simp [memoryLfs,h]
  closeRead := by
    intro fs file content h
    simp [memoryLfs,h]
  closeWrite := by
    intro fs file k written h
    simp [memoryLfs,h]
  removes := by
    intro fs path k content hk hf
    obtain ⟨hp,rfl⟩ := memoryPath_of_some hk
    simp [memoryLfs,hp,hf]
  removes_absent := by
    intro fs path h
    rw [memoryPath_bind] at h
    simp [memoryLfs,h]
  dirOpen := fun _ _ => rfl
  dirEntries := fun _ _ => rfl
  dirClose := fun _ _ => rfl

def memoryContent (fs : Bytes → Option Bytes) (path : Bytes) : Option Bytes :=
  if path = [] then none else fs path

theorem memoryLfs_commits (n : ℕ) :
    Commits (memoryLfs fun data => decide (data.length ≤ n)) memoryContent where
  stored := by
    intro fs path data ho hw hc
    by_cases hp : path = []
    · simp [openResult,memoryLfs,hp] at ho
    · by_cases hfit : data.length ≤ n
      · simp [write,memoryLfs,memoryContent,hp,hfit]
      · simp [writeResult,memoryLfs,hp,hfit] at hw
  lost := by
    intro fs path data ho hfail
    by_cases hp : path = []
    · simp [memoryContent,hp]
    · by_cases hfit : data.length ≤ n
      · simp [writeResult,closeResult,memoryLfs,hp,hfit] at hfail
      · have hd : data ≠ [] := by
          intro he
          simp [he] at hfit
        simp [write,memoryLfs,memoryContent,hp,hfit,Ne.symm hd]
  opens := by
    intro fs path data h
    by_cases hp : path = []
    · simp [memoryContent,hp] at h
    · simp only [memoryContent,hp,if_false] at h
      simp [memoryLfs,hp,h]
  reads := by
    intro fs path data k h
    by_cases hp : path = []
    · simp [memoryContent,hp] at h
    · simp only [memoryContent,hp,if_false] at h
      simp [memoryLfs,hp,h]

end Filesystem
end EmbeddedShell
