import Mathlib.Data.List.Induction
import EmbeddedShell.Filesystem

/-!
# Listing the root directory

`ls` and `read` once more, over a buffer that keeps a record of what they store. The
loop of `ls` appends one line for each entry that LittleFS delivers; `Holding` is its
invariant, and says that the buffer ends at a NUL inside its bounds. The text that
is left does not depend on what the buffer held before.
-/

namespace EmbeddedShell
namespace Filesystem

open CString Memory

variable {σ φ δ : Type}

def strncatTracked (t : Tracked UInt8) (outlen : ℕ) (text : Bytes) (n : ℕ) : Tracked UInt8 :=
  t.store (strlen t.cells outlen) ((cstr text).take n ++ [0])

/-- `outlen - strlen(out) - 1`, in `size_t`. -/
def room (out : ℕ → UInt8) (outlen : ℕ) : ℕ := wrap 32 ((outlen : ℤ) - strlen out outlen - 1)

def appendEntry (outlen : ℕ) (t : Tracked UInt8) (info : Info) : Tracked UInt8 :=
  strncatTracked t outlen (entryLine info) (room t.cells outlen)

def lsLoop (out : ℕ → UInt8) (outlen : ℕ) (entries : List Info) : Tracked UInt8 :=
  entries.foldl (appendEntry outlen) (Tracked.store ⟨out,[]⟩ 0 [0])

/-- The buffer at the end: a text that is still empty becomes the marker. -/
def lsBuffer (out : ℕ → UInt8) (outlen : ℕ) (entries : List Info) : Tracked UInt8 :=
  let t := lsLoop out outlen entries
  if t.cells 0 = 0 then strncatTracked t outlen (chars "(empty)\r\n") (wrap 32 ((outlen : ℤ)-1)) else t

def lsTracked (lfs : Lfs σ φ δ) (fs : σ) (out : ℕ → UInt8) (outlen : ℕ) : Bool × Tracked UInt8 × σ :=
  let o := lfs.dirOpen fs (chars "/")
  if o.1 < 0 then (false,⟨out,[]⟩,o.2.2)
  else
    let e := lfs.dirEntries o.2.2 o.2.1
    let c := lfs.dirClose e.2.2 e.2.1
    (true,lsBuffer out outlen e.1,c.2)

def readTracked (lfs : Lfs σ φ δ) (fs : σ) (path : Bytes) (out : ℕ → UInt8) (outlen : ℕ) :
    Bool × Tracked UInt8 × σ :=
  let o := lfs.fileOpen fs path .rdOnly
  if o.1 < 0 then (false,⟨out,[]⟩,o.2.2)
  else
    let r := lfs.fileRead o.2.2 o.2.1 (wrap 32 ((outlen : ℤ)-1))
    let t := Tracked.store ⟨out,[]⟩ 0 r.2.1
    let c := lfs.fileClose r.2.2.2 r.2.2.1
    if r.1 < 0 then (false,t,c.2) else (true,t.store r.1.toNat [0],c.2)

theorem lsLoop_cells (out : ℕ → UInt8) (outlen : ℕ) (entries : List Info) :
    (lsLoop out outlen entries).cells = entries.foldl (fun out info =>
      strncat out outlen (entryLine info) (wrap 32 ((outlen : ℤ) - strlen out outlen - 1)))
      (store out 0 [0]) := by
  rw [lsLoop]
  change _ = entries.foldl _ (Tracked.store ⟨out,[]⟩ 0 [0]).cells
  exact (List.foldl_hom Tracked.cells fun _ _ => rfl).symm

theorem ls_eq_tracked (lfs : Lfs σ φ δ) (fs : σ) (out : ℕ → UInt8) (outlen : ℕ) :
    ls lfs fs out outlen = ((lsTracked lfs fs out outlen).1,
      (lsTracked lfs fs out outlen).2.1.cells,(lsTracked lfs fs out outlen).2.2) := by
  by_cases ho : (lfs.dirOpen fs (chars "/")).1 < 0
  · simp [ls,lsTracked,ho]
  · simp only [ls,lsTracked,lsBuffer,ho,if_false,← lsLoop_cells,apply_ite Tracked.cells]
    rfl

theorem read_eq_tracked (lfs : Lfs σ φ δ) (fs : σ) (path : Bytes) (out : ℕ → UInt8) (outlen : ℕ) :
    read lfs fs path out outlen = ((readTracked lfs fs path out outlen).1,
      (readTracked lfs fs path out outlen).2.1.cells,(readTracked lfs fs path out outlen).2.2) := by
  by_cases ho : (lfs.fileOpen fs path .rdOnly).1 < 0
  · simp [read,readTracked,ho]
  · simp only [read,readTracked,ho,if_false]
    split
    · rfl
    · rfl

theorem readTracked_fst (lfs : Lfs σ φ δ) (fs : σ) (path : Bytes) (out out' : ℕ → UInt8) (outlen : ℕ) :
    (readTracked lfs fs path out outlen).1 = (readTracked lfs fs path out' outlen).1 := by
  simp only [readTracked]
  split
  · rfl
  · split
    · rfl
    · rfl

theorem readTracked_of_true {lfs : Lfs σ φ δ} {fs : σ} {path : Bytes} {out : ℕ → UInt8} {outlen : ℕ}
    (h : (readTracked lfs fs path out outlen).1 = true) :
    ∃ fs' file, 0 ≤ (lfs.fileRead fs' file (wrap 32 ((outlen : ℤ)-1))).1 ∧
      (readTracked lfs fs path out outlen).2.1 =
        (Tracked.store ⟨out,[]⟩ 0 (lfs.fileRead fs' file (wrap 32 ((outlen : ℤ)-1))).2.1).store
          (lfs.fileRead fs' file (wrap 32 ((outlen : ℤ)-1))).1.toNat [0] := by
  simp only [readTracked] at h ⊢
  split at h
  · simp at h
  · rename_i hopen
    split at h
    · simp at h
    · rename_i hread
      refine ⟨_,_,not_lt.mp hread,?_⟩
      rw [if_neg hopen,if_neg hread]

/-- The buffer holds a text and its NUL, both of them stored since the call began,
and nothing is stored beyond its bounds. -/
structure Holding (out : ℕ → UInt8) (outlen : ℕ) (t : Tracked UInt8) (text : Bytes) : Prop where
  fits : text.length < outlen
  nulFree : NulFree text
  text_eq : load t.cells 0 text.length = text
  nul : t.cells text.length = 0
  fresh : ∀ i ≤ text.length, i ∈ t.stored
  bounded : ∀ i ∈ t.stored, i < outlen
  since : t.Since out

section Invariant

variable {out : ℕ → UInt8} {outlen : ℕ} {t : Tracked UInt8} {text : Bytes}

theorem Holding.cstr_eq (h : Holding out outlen t text) : cstr (load t.cells 0 outlen) = text :=
  (cstr_load h.text_eq h.nul h.fits).trans (cstr_of_nulFree h.nulFree)

theorem Holding.strlen_eq (h : Holding out outlen t text) : strlen t.cells outlen = text.length := by
  rw [strlen,h.cstr_eq]

theorem Holding.room_eq (h : Holding out outlen t text) (hmax : outlen < 2^32) :
    room t.cells outlen = outlen-1-text.length := by
  have hfits := h.fits
  have hcast : (outlen : ℤ) - text.length - 1 = ((outlen-1-text.length : ℕ) : ℤ) := by omega
  rw [room,h.strlen_eq,hcast,wrap_natCast,Nat.mod_eq_of_lt (by omega)]

theorem Holding.append (h : Holding out outlen t text) (line : Bytes) :
    Holding out outlen (strncatTracked t outlen line (outlen-1-text.length))
      ((text ++ cstr line).take (outlen-1)) := by
  have hfits := h.fits
  have htake : (text ++ cstr line).take (outlen-1) =
      text ++ (cstr line).take (outlen-1-text.length) := by
    rw [List.take_append,List.take_of_length_le (by omega)]
  rw [htake,strncatTracked,h.strlen_eq]
  generalize hadded : (cstr line).take (outlen-1-text.length) = added
  have hlen : added.length ≤ outlen-1-text.length := by
    rw [← hadded]
    exact List.length_take_le _ _
  have hfree : NulFree added := by
    rw [← hadded]
    exact (nulFree_cstr line).sublist (List.take_sublist _ _)
  refine ⟨?_,?_,?_,?_,?_,?_,h.since.store _ _⟩
  · simp only [List.length_append]
    omega
  · exact nulFree_append.mpr ⟨h.nulFree,hfree⟩
  · have hext := load_store_extend t.cells h.text_eq
      (show added.length ≤ (added ++ [0]).length by simp)
    rw [Nat.zero_add,List.take_left] at hext
    rw [Tracked.store_cells,List.length_append]
    exact hext
  · rw [Tracked.store_cells,List.length_append,store_inside _ _ _ _ (by simp)]
    simp
  · intro i hi
    simp only [List.length_append] at hi
    simp only [Tracked.mem_stored,List.length_append,List.length_singleton]
    by_cases hold : i ≤ text.length
    · exact Or.inl (h.fresh i hold)
    · exact Or.inr (by omega)
  · intro i hi
    simp only [Tracked.mem_stored,List.length_append,List.length_singleton] at hi
    rcases hi with hold | hnew
    · exact h.bounded i hold
    · omega

theorem holding_start (out : ℕ → UInt8) {outlen : ℕ} (h0 : 0 < outlen) :
    Holding out outlen (Tracked.store ⟨out,[]⟩ 0 [0]) [] where
  fits := h0
  nulFree := nulFree_nil
  text_eq := rfl
  nul := rfl
  fresh := by simp
  bounded := by
    intro i hi
    simp at hi
    omega
  since := (Tracked.since_start out).store 0 [0]

theorem Holding.head_eq_zero_iff (h : Holding out outlen t text) : t.cells 0 = 0 ↔ text = [] := by
  cases text with
  | nil => simpa using h.nul
  | cons b text =>
    have hb : t.cells 0 = b := by
      have heq := h.text_eq
      rw [List.length_cons,Nat.add_comm,load_add] at heq
      exact (List.cons.inj heq).1
    have hne : b ≠ 0 := fun h0 => h.nulFree (by simp [h0])
    simp [hb,hne]

end Invariant

/-- The lines of the entries, cut off where the buffer ends. -/
def listing (outlen : ℕ) (entries : List Info) : Bytes :=
  (entries.flatMap fun info => cstr (entryLine info)).take (outlen-1)

theorem take_take_append (n : ℕ) (xs ys : Bytes) : (xs.take n ++ ys).take n = (xs++ys).take n := by
  by_cases h : xs.length ≤ n
  · rw [List.take_of_length_le h]
  · have hlen : (xs.take n).length = n := by
      rw [List.length_take]
      omega
    rw [List.take_left' hlen,List.take_append_of_le_length (by omega)]

theorem listing_concat (outlen : ℕ) (entries : List Info) (info : Info) :
    listing outlen (entries ++ [info]) =
      (listing outlen entries ++ cstr (entryLine info)).take (outlen-1) := by
  rw [listing,listing,take_take_append,List.flatMap_append,List.flatMap_singleton]

theorem lsLoop_holding (out : ℕ → UInt8) {outlen : ℕ} (h0 : 0 < outlen) (hmax : outlen < 2^32)
    (entries : List Info) :
    Holding out outlen (lsLoop out outlen entries) (listing outlen entries) := by
  induction entries using List.reverseRecOn with
  | nil => simpa [listing,lsLoop] using holding_start out h0
  | append_singleton entries info ih =>
    have hloop : lsLoop out outlen (entries ++ [info]) =
        appendEntry outlen (lsLoop out outlen entries) info := by
      rw [lsLoop,List.foldl_append]
      rfl
    rw [hloop,listing_concat,appendEntry,ih.room_eq hmax]
    exact ih.append (entryLine info)

def lsText (outlen : ℕ) (entries : List Info) : Bytes :=
  if listing outlen entries = [] then (chars "(empty)\r\n").take (outlen-1) else listing outlen entries

def listed (lfs : Lfs σ φ δ) (fs : σ) : List Info :=
  let o := lfs.dirOpen fs (chars "/")
  (lfs.dirEntries o.2.2 o.2.1).1

theorem lsBuffer_holding (out : ℕ → UInt8) {outlen : ℕ} (h0 : 0 < outlen) (hmax : outlen < 2^32)
    (entries : List Info) :
    Holding out outlen (lsBuffer out outlen entries) (lsText outlen entries) := by
  have hloop := lsLoop_holding out h0 hmax entries
  rw [lsBuffer,lsText]
  by_cases hnil : listing outlen entries = []
  · have hroom : wrap 32 ((outlen : ℤ)-1) = outlen-1 := wrap_sub (b:=1) h0 hmax
    rw [hnil] at hloop
    have happend := hloop.append (chars "(empty)\r\n")
    rw [List.nil_append,List.length_nil,Nat.sub_zero] at happend
    rw [if_pos hnil,if_pos (hloop.head_eq_zero_iff.mpr rfl),hroom]
    exact happend
  · rw [if_neg hnil,if_neg (fun hz => hnil (hloop.head_eq_zero_iff.mp hz))]
    exact hloop

theorem lsTracked_of_open {lfs : Lfs σ φ δ} {fs : σ} (hopen : 0 ≤ (lfs.dirOpen fs (chars "/")).1)
    (out : ℕ → UInt8) (outlen : ℕ) : (lsTracked lfs fs out outlen).1 = true ∧
      (lsTracked lfs fs out outlen).2.1 = lsBuffer out outlen (listed lfs fs) := by
  simp [lsTracked,listed,not_lt.mpr hopen]

theorem lsTracked_of_open_failed {lfs : Lfs σ φ δ} {fs : σ}
    (hopen : (lfs.dirOpen fs (chars "/")).1 < 0) (out : ℕ → UInt8) (outlen : ℕ) :
    lsTracked lfs fs out outlen = (false,⟨out,[]⟩,(lfs.dirOpen fs (chars "/")).2.2) := by
  simp [lsTracked,hopen]

/-- An entry as LittleFS stores it: `LFS_NAME_MAX` is 255 and `lfs_size_t` has 32 bits. -/
structure ValidEntry (info : Info) : Prop where
  name_ne : info.name ≠ []
  name_le : info.name.length ≤ 255
  nulFree : NulFree info.name
  size_lt : info.size < 2^32

theorem validEntry_iff {info : Info} : ValidEntry info ↔
    info.name ≠ [] ∧ info.name.length ≤ 255 ∧ NulFree info.name ∧ info.size < 2^32 :=
  ⟨fun h => ⟨h.name_ne,h.name_le,h.nulFree,h.size_lt⟩,fun h => ⟨h.1,h.2.1,h.2.2.1,h.2.2.2⟩⟩

instance (info : Info) : Decidable (ValidEntry info) := decidable_of_iff _ validEntry_iff.symm

/-- The line of an entry without the bound of `line[280]`. -/
def fullLine (info : Info) : Bytes :=
  if info.isDir then chars "[DIR]  " ++ cstr info.name ++ chars "\r\n"
  else chars "[FILE] " ++ padded (cstr info.name) ++ chars " " ++ decimal info.size ++ chars " B\r\n"

section Lines

variable {info : Info}

theorem fullLine_length_le (h : ValidEntry info) : (fullLine info).length ≤ 277 := by
  have hname := h.name_le
  have hsize := decimal_length_le h.size_lt
  rw [fullLine,cstr_of_nulFree h.nulFree]
  cases info.isDir with
  | true =>
    simp [chars]
    omega
  | false =>
    simp [chars,padded]
    omega

theorem entryLine_eq (h : ValidEntry info) : entryLine info = fullLine info := by
  have hlen := fullLine_length_le h
  change (fullLine info).take 279 = fullLine info
  exact List.take_of_length_le (by omega)

theorem nulFree_fullLine (info : Info) : NulFree (fullLine info) := by
  have hpadded : NulFree (padded (cstr info.name)) := by
    rw [padded,nulFree_append]
    exact ⟨nulFree_cstr _,by simp [NulFree]⟩
  rw [fullLine]
  cases info.isDir with
  | true => simpa using ⟨by decide,nulFree_cstr info.name,by decide⟩
  | false => simpa using ⟨by decide,hpadded,by decide,nulFree_decimal info.size,by decide⟩

theorem fullLine_ne_nil (info : Info) : fullLine info ≠ [] := by
  rw [fullLine]
  cases info.isDir with
  | true => simp [chars]
  | false => simp [chars]

end Lines

theorem listing_of_valid (outlen : ℕ) {entries : List Info} (h : ∀ info ∈ entries, ValidEntry info) :
    listing outlen entries = (entries.flatMap fullLine).take (outlen-1) := by
  have hline : ∀ info ∈ entries, cstr (entryLine info) = fullLine info := by
    intro info hmem
    rw [entryLine_eq (h info hmem),cstr_of_nulFree (nulFree_fullLine info)]
  rw [listing,List.flatMap_congr hline]

/-- With room for one byte, the marker is left only where there is no entry. -/
theorem lsText_of_valid {outlen : ℕ} {entries : List Info} (h : ∀ info ∈ entries, ValidEntry info) :
    lsText outlen entries = if entries = [] then (chars "(empty)\r\n").take (outlen-1)
      else (entries.flatMap fullLine).take (outlen-1) := by
  rw [lsText,listing_of_valid outlen h]
  cases entries with
  | nil => simp
  | cons info entries =>
    rw [if_neg (by simp : ¬ info::entries = [])]
    split
    · rename_i hnil
      have hone : outlen-1 = 0 := by simpa [List.take_eq_nil_iff,fullLine_ne_nil] using hnil
      simp [hone]
    · rfl

theorem ls_text {lfs : Lfs σ φ δ} {fs : σ} (hopen : 0 ≤ (lfs.dirOpen fs (chars "/")).1)
    (out : ℕ → UInt8) {outlen : ℕ} (h0 : 0 < outlen) (hmax : outlen < 2^32) :
    cstr (load (ls lfs fs out outlen).2.1 0 outlen) = lsText outlen (listed lfs fs) := by
  rw [ls_eq_tracked,(lsTracked_of_open hopen out outlen).2]
  exact (lsBuffer_holding out h0 hmax _).cstr_eq

theorem lsTracked_bounded (lfs : Lfs σ φ δ) (fs : σ) (out : ℕ → UInt8) {outlen : ℕ} (h0 : 0 < outlen)
    (hmax : outlen < 2^32) : (∀ i ∈ (lsTracked lfs fs out outlen).2.1.stored, i < outlen) ∧
      (lsTracked lfs fs out outlen).2.1.Since out := by
  by_cases hopen : (lfs.dirOpen fs (chars "/")).1 < 0
  · rw [lsTracked_of_open_failed hopen]
    exact ⟨by simp,Tracked.since_start out⟩
  · rw [(lsTracked_of_open (not_lt.mp hopen) out outlen).2]
    have hold := lsBuffer_holding out h0 hmax (listed lfs fs)
    exact ⟨hold.bounded,hold.since⟩

/-- `ls` stays within its buffer. After any number of entries the text leaves room for
its NUL, so that the space that is left is a true difference; no line is cut off by
`line[280]`, and the text is the lines of the entries up to the end of the buffer. -/
theorem bounded_listing (lfs : Lfs σ φ δ) (fs : σ) (out : ℕ → UInt8) {outlen : ℕ} (h0 : 1 ≤ outlen)
    (hmax : outlen < 2^32) (hvalid : ∀ info ∈ listed lfs fs, ValidEntry info) :
    (∀ entries, entries <+: listed lfs fs →
      strlen (lsLoop out outlen entries).cells outlen ≤ outlen-1 ∧
      (room (lsLoop out outlen entries).cells outlen : ℤ) =
        outlen - strlen (lsLoop out outlen entries).cells outlen - 1 ∧
      ∀ i ∈ (lsLoop out outlen entries).stored, i < outlen) ∧
    (∀ i ∈ (lsTracked lfs fs out outlen).2.1.stored, i < outlen) ∧
    (∀ i, outlen ≤ i → (ls lfs fs out outlen).2.1 i = out i) ∧
    (∀ info ∈ listed lfs fs, entryLine info = fullLine info) ∧
    (0 ≤ (lfs.dirOpen fs (chars "/")).1 → cstr (load (ls lfs fs out outlen).2.1 0 outlen) =
      if listed lfs fs = [] then (chars "(empty)\r\n").take (outlen-1)
      else ((listed lfs fs).flatMap fullLine).take (outlen-1)) := by
  obtain ⟨hbounded,hsince⟩ := lsTracked_bounded lfs fs out h0 hmax
  refine ⟨?_,hbounded,?_,fun info hmem => entryLine_eq (hvalid info hmem),?_⟩
  · intro entries _
    have hold := lsLoop_holding out h0 hmax entries
    have hfits := hold.fits
    rw [hold.room_eq hmax,hold.strlen_eq]
    exact ⟨by omega,by omega,hold.bounded⟩
  · intro i hi
    rw [ls_eq_tracked]
    refine hsince i fun hmem => ?_
    have hlt := hbounded i hmem
    omega
  · intro hopen
    rw [ls_text hopen out h0 hmax,lsText_of_valid hvalid]

/-- A volume with a root directory only, as `lfs_dir_read` reports it. -/
def rootLfs : Lfs (List Info) Unit Unit where
  fileOpen fs _ _ := (-2,(),fs)
  fileWrite fs _ _ := (-9,(),fs)
  fileRead fs _ _ := (-9,[],(),fs)
  fileClose fs _ := (0,fs)
  remove fs _ := (-2,fs)
  dirOpen fs _ := (0,(),fs)
  dirEntries fs _ := (⟨true,chars ".",0⟩::⟨true,chars "..",0⟩::fs,(),fs)
  dirClose fs _ := (0,fs)

theorem bounded_listing_full :
    cstr (load (ls rootLfs [⟨false,chars "a.txt",4294967295⟩] (fun _ => 65) 40).2.1 0 40) =
      chars "[DIR]  .\r\n[DIR]  ..\r\n[FILE] a.txt      " := by
  have hvalid : ∀ info ∈ listed rootLfs [⟨false,chars "a.txt",4294967295⟩], ValidEntry info := by decide
  have hall := bounded_listing rootLfs _ (fun _ => 65) (show 1 ≤ 40 by decide) (by decide) hvalid
  exact (hall.2.2.2.2 (by decide)).trans (by decide)

/-- The root as LittleFS reports it: two entries for the directory itself and its
parent, and then what is stored. -/
structure ListsRoot (lfs : Lfs σ φ δ) (fs : σ) (stored : List Info) : Prop where
  opens : 0 ≤ (lfs.dirOpen fs (chars "/")).1
  lists : listed lfs fs = ⟨true,chars ".",0⟩::⟨true,chars "..",0⟩::stored
  valid : ∀ info ∈ stored, ValidEntry info
  named : ∀ info ∈ stored, info.name ≠ chars "." ∧ info.name ≠ chars ".."

/-- One line for each stored entry and no other, or the marker for none. -/
structure Agrees (text : Bytes) (stored : List Info) : Prop where
  lines : stored ≠ [] → text = (stored.map fullLine).flatten ∧ ∀ info ∈ stored, IsLine (fullLine info)
  marker : text = chars "(empty)\r\n" ↔ stored = []

def dotLines : Bytes := chars "[DIR]  .\r\n" ++ chars "[DIR]  ..\r\n"

theorem ListsRoot.text_eq {lfs : Lfs σ φ δ} {fs : σ} {stored : List Info} (h : ListsRoot lfs fs stored)
    (out : ℕ → UInt8) {outlen : ℕ} (h0 : 0 < outlen) (hmax : outlen < 2^32) :
    cstr (load (ls lfs fs out outlen).2.1 0 outlen) =
      (dotLines ++ stored.flatMap fullLine).take (outlen-1) := by
  have hvalid : ∀ info ∈ listed lfs fs, ValidEntry info := by
    rw [h.lists]
    simp only [List.forall_mem_cons]
    exact ⟨by decide,by decide,h.valid⟩
  have hdot : fullLine ⟨true,chars ".",0⟩ = chars "[DIR]  .\r\n" := by decide
  have hdots : fullLine ⟨true,chars "..",0⟩ = chars "[DIR]  ..\r\n" := by decide
  rw [ls_text h.opens out h0 hmax,lsText_of_valid hvalid,h.lists,if_neg (by simp),List.flatMap_cons,
    List.flatMap_cons,hdot,hdots,dotLines,List.append_assoc]

theorem fullLine_ne_dot {info : Info} (h : ValidEntry info) (hname : info.name ≠ chars ".") :
    fullLine info ≠ chars "[DIR]  .\r\n" := by
  rw [fullLine,cstr_of_nulFree h.nulFree]
  cases info.isDir with
  | false => simp [chars]
  | true =>
    intro heq
    have hline : chars "[DIR]  " ++ info.name ++ chars "\r\n" =
        chars "[DIR]  " ++ chars "." ++ chars "\r\n" := heq
    exact hname (List.append_cancel_left (List.append_cancel_right hline))

theorem not_agrees_of_dotLines {text : Bytes} {stored : List Info} {n : ℕ}
    (htext : text = (dotLines ++ stored.flatMap fullLine).take n)
    (hvalid : ∀ info ∈ stored, ValidEntry info)
    (hnamed : ∀ info ∈ stored, info.name ≠ chars ".") : ¬ Agrees text stored := by
  intro h
  cases stored with
  | nil =>
    have hmarker := h.marker.mpr rfl
    rw [htext] at hmarker
    cases n with
    | zero => simp [chars] at hmarker
    | succ n => simp [dotLines,chars] at hmarker
  | cons info rest =>
    obtain ⟨hlines,hline⟩ := h.lines (by simp)
    have hfirst : fullLine info <+: chars "[DIR]  .\r\n" ++
        (chars "[DIR]  ..\r\n" ++ (info::rest).flatMap fullLine) := by
      rw [← List.append_assoc]
      refine List.IsPrefix.trans ?_ (List.take_prefix n _)
      rw [← dotLines,← htext,hlines,List.map_cons,List.flatten_cons]
      exact List.prefix_append _ _
    have hdot : IsLine (chars "[DIR]  .\r\n") := ⟨chars "[DIR]  .\r",by decide,by decide⟩
    have heq := (hline info (by simp)).eq_of_begins hdot hfirst
    exact fullLine_ne_dot (hvalid info (by simp)) (hnamed info (by simp)) heq

/-- `ls` agrees with no store, whether its lines fit into the buffer or not: the text
begins with two lines for entries that are not stored, and is never the marker. -/
theorem ls_never_agrees {lfs : Lfs σ φ δ} {fs : σ} {stored : List Info} (hroot : ListsRoot lfs fs stored)
    (out : ℕ → UInt8) {outlen : ℕ} (h0 : 1 ≤ outlen) (hmax : outlen < 2^32) :
    cstr (load (ls lfs fs out outlen).2.1 0 outlen) =
      (chars "[DIR]  .\r\n" ++ chars "[DIR]  ..\r\n" ++ stored.flatMap fullLine).take (outlen-1) ∧
    cstr (load (ls lfs fs out outlen).2.1 0 outlen) ≠ chars "(empty)\r\n" ∧
    ¬ Agrees (cstr (load (ls lfs fs out outlen).2.1 0 outlen)) stored := by
  have htext := hroot.text_eq out h0 hmax
  refine ⟨htext,?_,not_agrees_of_dotLines htext hroot.valid fun info hmem => (hroot.named info hmem).1⟩
  rw [htext]
  cases outlen-1 with
  | zero => simp [chars]
  | succ n => simp [dotLines,chars]

theorem rootLfs_listsRoot {stored : List Info} (hvalid : ∀ info ∈ stored, ValidEntry info)
    (hnamed : ∀ info ∈ stored, info.name ≠ chars "." ∧ info.name ≠ chars "..") :
    ListsRoot rootLfs stored stored where
  opens := le_rfl
  lists := rfl
  valid := hvalid
  named := hnamed

/-- A file `a.txt` of five bytes is the third line of the listing. -/
theorem ls_never_agrees_file :
    cstr (load (ls rootLfs [⟨false,chars "a.txt",5⟩] (fun _ => 65) 512).2.1 0 512) =
      chars "[DIR]  .\r\n[DIR]  ..\r\n[FILE] a.txt                5 B\r\n" ∧
    ¬ Agrees (cstr (load (ls rootLfs [⟨false,chars "a.txt",5⟩] (fun _ => 65) 512).2.1 0 512))
      [⟨false,chars "a.txt",5⟩] := by
  have hroot : ListsRoot rootLfs [⟨false,chars "a.txt",5⟩] [⟨false,chars "a.txt",5⟩] :=
    rootLfs_listsRoot (by decide) (by decide)
  have hall := ls_never_agrees hroot (fun _ => 65) (show 1 ≤ 512 by decide) (by decide)
  exact ⟨hall.1.trans (by decide),hall.2.2⟩

/-- Nothing is stored, and the listing has two lines instead of the marker. -/
theorem ls_empty_root :
    listed rootLfs [] = [⟨true,chars ".",0⟩,⟨true,chars "..",0⟩] ∧
    cstr (load (ls rootLfs [] (fun _ => 65) 512).2.1 0 512) =
      chars "[DIR]  .\r\n[DIR]  ..\r\n" ∧
    ¬ Agrees (cstr (load (ls rootLfs [] (fun _ => 65) 512).2.1 0 512)) [] := by
  have hroot : ListsRoot rootLfs [] [] := rootLfs_listsRoot (by simp) (by simp)
  have htext := hroot.text_eq (fun _ => 65) (show 0 < 512 by decide) (by decide)
  refine ⟨rfl,htext.trans (by decide),?_⟩
  exact not_agrees_of_dotLines htext (by simp) (by simp)

end Filesystem
end EmbeddedShell
