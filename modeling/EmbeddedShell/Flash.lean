import EmbeddedShell.LogRecord

/-!
# The flash block device under LittleFS

`sRead`, `sProg` and `sErase` are the callbacks of `Filesystem.hpp`. Reads and
programs address a block by byte address, erases by sector number. The sector map
is the single-bank one of the STM32F767ZI, where sector 5 starts at `0x08040000`
and sectors from 5 on have 256 KB.
-/

namespace EmbeddedShell
namespace Flash

open CString Memory Execution

def fsFlashAddr : ℕ := 0x08060000
def fsBlockSize : ℕ := 128*1024
def fsBlockCount : ℕ := 2
def flashSector6 : ℕ := 6

structure State where
  mem : ℕ → UInt8
  locked : Bool

inductive HalStatus
  | ok | error
  deriving DecidableEq

inductive LfsErr
  | ok | io
  deriving DecidableEq

def sectorStart (n : ℕ) : ℕ :=
  0x08000000 + if n < 4 then n*0x8000 else if n = 4 then 0x20000 else (n-4)*0x40000

def sectorSize (n : ℕ) : ℕ := if n < 4 then 0x8000 else if n = 4 then 0x20000 else 0x40000

def InSector (n a : ℕ) : Prop := sectorStart n ≤ a ∧ a < sectorStart n + sectorSize n

instance (n a : ℕ) : Decidable (InSector n a) := inferInstanceAs (Decidable (_ ∧ _))

/-- A sector erase succeeds, or stops with an error after some bytes were cleared. -/
inductive EraseOutcome
  | ok | error (cleared : ℕ → Bool) (errSector : ℕ)

def EraseOutcome.status : EraseOutcome → HalStatus
  | .ok => .ok
  | .error _ _ => .error

def EraseOutcome.Clears : EraseOutcome → ℕ → Prop
  | .ok, _ => True
  | .error cleared _, a => cleared a = true

instance : (o : EraseOutcome) → (a : ℕ) → Decidable (o.Clears a)
  | .ok, _ => isTrue trivial
  | .error cleared _, a => inferInstanceAs (Decidable (cleared a = true))

def EraseOutcome.errSector : EraseOutcome → ℕ
  | .ok => 0
  | .error _ n => n

def halFlashUnlock (f : State) : State := { f with locked := false }
def halFlashLock (f : State) : State := { f with locked := true }

/-- Cleared bytes read `0xFF`; nothing outside the sector is touched. -/
def halFlashExErase (o : EraseOutcome) (sector : ℕ) (f : State) : HalStatus × State :=
  if f.locked then (.error,f)
  else (o.status,{ f with mem := fun a => if InSector sector a ∧ o.Clears a then 0xFF else f.mem a })

/-- The word at byte `i` of a buffer, least significant byte first. -/
def wordAt (buf : ℕ → UInt8) (i : ℕ) : ℕ :=
  (buf i).toNat + 256*((buf (i+1)).toNat + 256*((buf (i+2)).toNat + 256*(buf (i+3)).toNat))

def wordBytes (w : ℕ) : Bytes :=
  [UInt8.ofNat (w%256),UInt8.ofNat (w/256%256),UInt8.ofNat (w/256/256%256),
    UInt8.ofNat (w/256/256/256%256)]

/-- An accepted program operation stores one little-endian word. -/
def halFlashProgram (accepted : Bool) (addr word : ℕ) (f : State) : HalStatus × State :=
  if accepted && !f.locked then (.ok,{ f with mem := store f.mem addr (wordBytes word) })
  else (.error,f)

/-- The byte address of an offset in a block, in 32-bit arithmetic. -/
def blockAddr (block off : ℕ) : ℕ := wrap 32 ((fsFlashAddr + block*fsBlockSize + off : ℕ) : ℤ)

def sRead (f : State) (block off size : ℕ) : Bytes := load f.mem (blockAddr block off) size

/-- The word loop of `sProg`: `n` words are left, the next one at byte `i`. -/
def progWords (accepted : ℕ → Bool) (addr : ℕ) (buf : ℕ → UInt8) :
    (n i : ℕ) → State → LfsErr × State
  | 0, _, f => (.ok,f)
  | n+1, i, f =>
    match halFlashProgram (accepted i) (wrap 32 ((addr+i : ℕ) : ℤ)) (wordAt buf i) f with
    | (.ok,g) => progWords accepted addr buf n (i+4) g
    | (.error,g) => (.io,g)

/-- Number of iterations of `for (i = 0; i < size; i += 4)`. -/
def wordCount (size : ℕ) : ℕ := (size+3)/4

def sProg (accepted : ℕ → Bool) (f : State) (block off : ℕ) (buf : ℕ → UInt8) (size : ℕ) :
    LfsErr × State :=
  let r := progWords accepted (blockAddr block off) buf (wordCount size) 0 (halFlashUnlock f)
  (r.1,halFlashLock r.2)

def sErase (o : EraseOutcome) (f : State) (block : ℕ) :
    LfsErr × State × List (Logger.Level × Bytes) :=
  let start := (Logger.Level.debug,chars "FS erase: block " ++ decimal block ++ chars " (sector " ++
    decimal (flashSector6+block) ++ chars ")")
  let r := halFlashExErase o (flashSector6+block) (halFlashUnlock f)
  let g := halFlashLock r.2
  if r.1 ≠ .ok then
    (.io,g,[start,(.error,chars "FS erase FAILED: block " ++ decimal block ++ chars ", err_sector=" ++
      decimal o.errSector)])
  else (.ok,g,[start])

/-- A callback invocation with the HAL's answers to it. -/
inductive Call
  | read (block off size : ℕ)
  | prog (block off : ℕ) (buf : ℕ → UInt8) (size : ℕ) (accepted : ℕ → Bool)
  | erase (block : ℕ) (outcome : EraseOutcome)

inductive Reply
  | data (bytes : Bytes) | status (err : LfsErr)

def device : Machine State Call Reply
  | f, .read block off size => (f,[.data (sRead f block off size)])
  | f, .prog block off buf size accepted =>
    ((sProg accepted f block off buf size).2,[.status (sProg accepted f block off buf size).1])
  | f, .erase block o => ((sErase o f block).2.1,[.status (sErase o f block).1])

def Call.block : Call → ℕ
  | .read b _ _ => b
  | .prog b _ _ _ _ => b
  | .erase b _ => b

/-- What LittleFS promises of the arguments: an existing block and a range inside it. -/
def Call.InRange : Call → Prop
  | .read b off size => b < fsBlockCount ∧ off+size ≤ fsBlockSize
  | .prog b off _ size _ => b < fsBlockCount ∧ off+size ≤ fsBlockSize
  | .erase b _ => b < fsBlockCount

/-- The call stores a word that meets the given range of block `b`. -/
def Call.Programs (b off size : ℕ) : Call → Prop
  | .prog b' off' _ size' _ => b' = b ∧ off' < off+size ∧ off < off' + 4*wordCount size'
  | _ => False

/-- The contract of a two-block device over a whole run. -/
structure TwoBlockDevice (f : State) (calls : List Call) : Prop where
  erased : ∀ pre b mid post, calls = pre ++ .erase b .ok::(mid++post) → ∀ off size,
    off+size ≤ fsBlockSize → (∀ c ∈ mid, ¬ c.Programs b off size) →
      sRead (run device f (pre ++ .erase b .ok::mid)) b off size = List.replicate size 0xFF
  other : ∀ pre c post, calls = pre ++ c::post → ∀ b < fsBlockCount, b ≠ c.block → ∀ off size,
    off+size ≤ fsBlockSize →
      sRead (run device f (pre++[c])) b off size = sRead (run device f pre) b off size
  outside : ∀ pre c post, calls = pre ++ c::post → ∀ a,
    a < fsFlashAddr ∨ fsFlashAddr + fsBlockCount*fsBlockSize ≤ a →
      (run device f (pre++[c])).mem a = (run device f pre).mem a

/-- Every byte that the erase clears was clear already, and so was the block. -/
def EraseHarmless (f : State) : Call → Prop
  | .erase b o => (∀ a, InSector (flashSector6+b) a → o.Clears a → f.mem a = 0xFF) ∧
      (o = .ok → ∀ off < fsBlockSize, f.mem (fsFlashAddr + b*fsBlockSize + off) = 0xFF)
  | _ => True

def Call.WholeWords : Call → Prop
  | .prog _ off _ size _ => off + 4*wordCount size ≤ fsBlockSize
  | _ => True

theorem blockAddr_eq {b off : ℕ} (hb : b < fsBlockCount) (ho : off ≤ fsBlockSize) :
    blockAddr b off = fsFlashAddr + b*fsBlockSize + off := by
  rw [blockAddr,wrap_natCast,Nat.mod_eq_of_lt]
  simp only [fsFlashAddr,fsBlockSize,fsBlockCount] at *
  omega

def InBlock (b a : ℕ) : Prop :=
  fsFlashAddr + b*fsBlockSize ≤ a ∧ a < fsFlashAddr + b*fsBlockSize + fsBlockSize

theorem progWords_frame (accepted : ℕ → Bool) (addr : ℕ) (buf : ℕ → UInt8) (n i : ℕ) (f : State)
    (hw : addr+i+4*n ≤ 2^32) {a : ℕ} (ha : a < addr+i ∨ addr+i+4*n ≤ a) :
    (progWords accepted addr buf n i f).2.mem a = f.mem a := by
  induction n generalizing i f with
  | zero => rfl
  | succ n ih =>
    have haddr : wrap 32 ((addr+i : ℕ) : ℤ) = addr+i := by
      rw [wrap_natCast,Nat.mod_eq_of_lt (by omega)]
    cases hacc : accepted i && !f.locked with
    | false => simp [progWords,halFlashProgram,hacc]
    | true =>
      have hstore : store f.mem (addr+i) (wordBytes (wordAt buf i)) a = f.mem a :=
        store_outside _ _ (by simp [wordBytes]; omega)
      have hrest := ih (i+4) { f with mem := store f.mem (addr+i) (wordBytes (wordAt buf i)) }
        (by omega) (by omega)
      simp only [hstore] at hrest
      simpa only [progWords,halFlashProgram,hacc,haddr,if_true] using hrest

theorem sProg_frame {accepted : ℕ → Bool} {f : State} {b off : ℕ} {buf : ℕ → UInt8} {size : ℕ}
    (hb : b < fsBlockCount) (hw : off + 4*wordCount size ≤ fsBlockSize) {a : ℕ}
    (ha : a < fsFlashAddr + b*fsBlockSize + off ∨
      fsFlashAddr + b*fsBlockSize + off + 4*wordCount size ≤ a) :
    (sProg accepted f b off buf size).2.mem a = f.mem a := by
  have haddr := blockAddr_eq hb (show off ≤ fsBlockSize by omega)
  have hlow : fsFlashAddr + b*fsBlockSize + off + 4*wordCount size ≤ 2^32 := by
    simp only [fsFlashAddr,fsBlockSize,fsBlockCount] at *
    omega
  have hframe := progWords_frame accepted (blockAddr b off) buf (wordCount size) 0 (halFlashUnlock f)
    (by omega) (a:=a) (by omega)
  simpa [sProg,halFlashLock,halFlashUnlock] using hframe

theorem sErase_mem (o : EraseOutcome) (f : State) (b a : ℕ) :
    (sErase o f b).2.1.mem a =
      if InSector (flashSector6+b) a ∧ o.Clears a then 0xFF else f.mem a := by
  cases o <;> simp [sErase,halFlashExErase,halFlashUnlock,halFlashLock,EraseOutcome.status]

/-- The sector that an erase addresses is never the one its block lies in. -/
theorem not_inSector_of_inBlock {b a : ℕ} (hb : b < fsBlockCount) (ha : InBlock b a) :
    ¬ InSector (flashSector6+b) a := by
  have hcases : b = 0 ∨ b = 1 := by simp only [fsBlockCount] at hb; omega
  rcases hcases with rfl | rfl <;>
    simp [InSector,sectorStart,sectorSize,flashSector6,InBlock,fsFlashAddr,fsBlockSize] at ha ⊢ <;>
    omega

theorem sErase_mem_of_harmless {o : EraseOutcome} {f : State} {b : ℕ}
    (h : EraseHarmless f (.erase b o)) (a : ℕ) : (sErase o f b).2.1.mem a = f.mem a := by
  rw [sErase_mem]
  split
  · rename_i hc
    exact (h.1 a hc.1 hc.2).symm
  · rfl

theorem device_frame {f : State} {c : Call} (hr : c.InRange) (hw : c.WholeWords)
    (he : EraseHarmless f c) {a : ℕ} (ha : ¬ InBlock c.block a) :
    (device f c).1.mem a = f.mem a := by
  cases c with
  | read b off size => rfl
  | erase b o => exact sErase_mem_of_harmless he a
  | prog b off buf size accepted =>
    refine sProg_frame hr.1 hw ?_
    simp only [Call.WholeWords] at hw
    simp only [InBlock,Call.block] at ha
    omega

theorem sRead_congr {f g : State} {b off size : ℕ} (hb : b < fsBlockCount)
    (hs : off+size ≤ fsBlockSize) (h : ∀ a, InBlock b a → f.mem a = g.mem a) :
    sRead f b off size = sRead g b off size := by
  rw [sRead,sRead,blockAddr_eq hb (by omega)]
  exact load_congr fun i hi => h _ (by simp only [InBlock]; omega)

theorem sRead_one (f : State) {b off : ℕ} (hb : b < fsBlockCount) (hoff : off < fsBlockSize) :
    sRead f b off 1 = [f.mem (fsFlashAddr + b*fsBlockSize + off)] := by
  rw [sRead,blockAddr_eq hb hoff.le]
  rfl

theorem exists_other_block {a b : ℕ}
    (hdevice : ¬ (a < fsFlashAddr ∨ fsFlashAddr + fsBlockCount*fsBlockSize ≤ a))
    (hnot : ¬ InBlock b a) : ∃ b' off, b' < fsBlockCount ∧ b' ≠ b ∧ off < fsBlockSize ∧
      fsFlashAddr + b'*fsBlockSize + off = a := by
  refine ⟨(a-fsFlashAddr)/fsBlockSize,(a-fsFlashAddr)%fsBlockSize,?_⟩
  simp only [InBlock,fsFlashAddr,fsBlockSize,fsBlockCount] at *
  omega

/-- Bytes that read as erased stay so until a program operation meets them. -/
theorem device_keeps_erased {f : State} {c : Call} {b off size : ℕ}
    (hr : c.InRange) (hw : c.WholeWords) (he : EraseHarmless f c) (hp : ¬ c.Programs b off size)
    (hs : off+size ≤ fsBlockSize)
    (h : ∀ i < size, f.mem (fsFlashAddr + b*fsBlockSize + off + i) = 0xFF) :
    ∀ i < size, (device f c).1.mem (fsFlashAddr + b*fsBlockSize + off + i) = 0xFF := by
  intro i hi
  rw [← h i hi]
  cases c with
  | read b off size => rfl
  | erase b o => exact sErase_mem_of_harmless he _
  | prog b' off' buf size' accepted =>
    refine sProg_frame hr.1 hw ?_
    simp only [Call.WholeWords,Call.Programs] at hw hp
    by_cases hb : b' = b
    · subst hb
      simp only [true_and] at hp
      omega
    · simp only [fsBlockSize] at *
      omega

theorem along_harmless_split {f : State} {calls pre post : List Call} {c : Call}
    (hr : ∀ c ∈ calls, c.InRange) (hw : ∀ c ∈ calls, c.WholeWords)
    (he : Along device EraseHarmless f calls) (hsplit : calls = pre ++ c::post) :
    c.InRange ∧ c.WholeWords ∧ EraseHarmless (run device f pre) c :=
  ⟨hr c (by simp [hsplit]),hw c (by simp [hsplit]),
    (along_iff_split device EraseHarmless f calls).mp he pre c post hsplit⟩

theorem twoBlockDevice_of_harmless {f : State} {calls : List Call}
    (hr : ∀ c ∈ calls, c.InRange) (hw : ∀ c ∈ calls, c.WholeWords)
    (he : Along device EraseHarmless f calls) : TwoBlockDevice f calls where
  erased := by
    rintro pre b mid post hsplit off size hs hmid
    obtain ⟨hrb,-,-,hblock⟩ := along_harmless_split hr hw he hsplit
    have hstart : ∀ i < size,
        (run device f (pre++[Call.erase b .ok])).mem (fsFlashAddr + b*fsBlockSize + off + i) = 0xFF := by
      intro i hi
      have hmem := sErase_mem_of_harmless (along_harmless_split hr hw he hsplit).2.2
        (fsFlashAddr + b*fsBlockSize + off + i)
      rw [run_append]
      refine hmem.trans ?_
      rw [Nat.add_assoc _ off i]
      exact hblock rfl (off+i) (by omega)
    have hall : pre ++ Call.erase b .ok::mid = (pre++[Call.erase b .ok])++mid := by simp
    have hcond : Along device (fun g c => (c.InRange ∧ c.WholeWords ∧ EraseHarmless g c) ∧
        ¬ c.Programs b off size) (run device f (pre++[Call.erase b .ok])) mid := by
      rw [along_iff_split]
      rintro xs c ys rfl
      refine ⟨?_,hmid c (by simp)⟩
      rw [← run_append]
      have hxs : calls = (pre++[Call.erase b .ok]++xs) ++ c::(ys++post) := by simp [hsplit]
      exact along_harmless_split hr hw he hxs
    have hend := run_invariant (P:=fun g : State => ∀ i < size,
        g.mem (fsFlashAddr + b*fsBlockSize + off + i) = 0xFF)
      (fun g c hg hc => device_keeps_erased hc.1.1 hc.1.2.1 hc.1.2.2 hc.2 hs hg) hstart hcond
    rw [hall,run_append,sRead,blockAddr_eq hrb (by omega)]
    apply List.ext_getElem (by simp)
    intro i h₁ h₂
    simpa using hend i (by simpa using h₁)
  other := by
    rintro pre c post hsplit b hb hne off size hs
    obtain ⟨hrc,hwc,hec⟩ := along_harmless_split hr hw he hsplit
    rw [run_append]
    refine sRead_congr hb hs fun a ha => device_frame hrc hwc hec fun hc => ?_
    simp only [InBlock,fsBlockSize] at ha hc
    omega
  outside := by
    rintro pre c post hsplit a ha
    obtain ⟨hrc,hwc,hec⟩ := along_harmless_split hr hw he hsplit
    have hb : c.block < fsBlockCount := by
      cases c <;> first | exact hrc.1 | exact hrc
    rw [run_append]
    refine device_frame hrc hwc hec fun hc => ?_
    simp only [InBlock,fsBlockSize,fsBlockCount] at ha hb hc
    omega

/-- Conversely, an erase that clears anything breaks the contract: the sector it
clears is not the one that its block is read from. -/
theorem harmless_of_twoBlockDevice {f : State} {calls : List Call}
    (hr : ∀ c ∈ calls, c.InRange) (h : TwoBlockDevice f calls) :
    Along device EraseHarmless f calls := by
  rw [along_iff_split]
  rintro pre c post hsplit
  cases c with
  | read b off size => trivial
  | prog b off buf size accepted => trivial
  | erase b o =>
    have hb : b < fsBlockCount := hr (.erase b o) (by simp [hsplit])
    have hstep (a : ℕ) : (run device f (pre++[Call.erase b o])).mem a =
        if InSector (flashSector6+b) a ∧ o.Clears a then 0xFF else (run device f pre).mem a := by
      rw [run_append]
      exact sErase_mem o (run device f pre) b a
    refine ⟨?_,?_⟩
    · intro a hsec hclear
      have hnew : (run device f (pre++[Call.erase b o])).mem a = 0xFF := by
        rw [hstep,if_pos ⟨hsec,hclear⟩]
      by_cases hout : a < fsFlashAddr ∨ fsFlashAddr + fsBlockCount*fsBlockSize ≤ a
      · rw [← h.outside pre _ post hsplit a hout,hnew]
      · have hnot : ¬ InBlock b a := fun hin => not_inSector_of_inBlock hb hin hsec
        obtain ⟨b',off,hb',hne,hoff,rfl⟩ := exists_other_block hout hnot
        have hread := h.other pre _ post hsplit b' hb' hne off 1 (by omega)
        rw [sRead_one _ hb' hoff,sRead_one _ hb' hoff,List.singleton_inj] at hread
        rw [← hread,hnew]
    · rintro rfl off hoff
      have hin : InBlock b (fsFlashAddr + b*fsBlockSize + off) := by simp only [InBlock]; omega
      have hread := h.erased pre b [] post (by simpa using hsplit) off 1 (by omega) (by simp)
      rw [sRead_one _ hb hoff,List.replicate_one,List.singleton_inj,hstep,
        if_neg fun hc => not_inSector_of_inBlock hb hin hc.1] at hread
      exact hread

/-- The two address maps agree exactly where it does not matter: the callbacks
form a two-block device on the runs whose erases find the sector they clear and
the block they are meant for already erased, and on no other. -/
theorem two_block_device_exact (f : State) (calls : List Call) (hr : ∀ c ∈ calls, c.InRange) :
    ((∀ c ∈ calls, c.WholeWords) ∧ Along device EraseHarmless f calls → TwoBlockDevice f calls) ∧
    (TwoBlockDevice f calls → Along device EraseHarmless f calls) :=
  ⟨fun h => twoBlockDevice_of_harmless hr h.1 h.2,harmless_of_twoBlockDevice hr⟩

def formatRun : List Call :=
  [.erase 0 .ok,.erase 1 .ok,.prog 0 0 (fun i => UInt8.ofNat i) 256 (fun _ => true),.read 0 0 256]

theorem two_block_device_blank_chip : TwoBlockDevice ⟨fun _ => 0xFF,true⟩ formatRun := by
  refine (two_block_device_exact _ formatRun ?_).1 ⟨?_,?_⟩
  · simp [formatRun,Call.InRange,fsBlockCount,fsBlockSize]
  · simp [formatRun,Call.WholeWords,wordCount,fsBlockSize]
  · have hmem (a : ℕ) : (sErase .ok ⟨fun _ => 0xFF,true⟩ 0).2.1.mem a = 0xFF := by
      simp [sErase_mem]
    simp [formatRun,EraseHarmless,device,hmem]

/-- Erasing block 0 of a programmed chip leaves block 0 as it was and wipes block 1. -/
theorem erase_hits_other_block :
    Call.InRange (.erase 0 .ok) ∧
    sRead (run device ⟨fun _ => 0,true⟩ [.erase 0 .ok]) 0 0 1 = [0] ∧
    sRead ⟨fun _ => 0,true⟩ 1 0 1 = [0] ∧
    sRead (run device ⟨fun _ => 0,true⟩ [.erase 0 .ok]) 1 0 1 = [0xFF] ∧
    ¬ TwoBlockDevice ⟨fun _ => 0,true⟩ [.erase 0 .ok] := by
  refine ⟨show 0 < fsBlockCount by decide,by decide,by decide,by decide,?_⟩
  intro h
  have hread := h.other [] (.erase 0 .ok) [] rfl 1 (by decide) (by decide) 0 1 (by decide)
  exact absurd hread (by decide)

end Flash
end EmbeddedShell
