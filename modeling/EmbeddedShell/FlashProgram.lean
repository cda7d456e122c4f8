import EmbeddedShell.Flash

/-!
# Programming flash word by word

Here `HAL_FLASH_Program` is a parameter. All that is assumed of it is what the
reference manual promises of an erased word of an unlocked flash, so the proofs
have to show that `s_prog` never programs any other word. After `k` words the
flash is `stored` up to word `k`, and the loop leaves it in one of these states.
-/

namespace EmbeddedShell
namespace Flash

open CString Memory

def progSize : ℕ := 256

/-- A word is programmed at an address; the first argument is the loop counter. -/
abbrev Program := ℕ → ℕ → ℕ → State → HalStatus × State

/-- The four bytes of an erased word are stored and reported, or the word is
refused and left as it was. -/
def ProgramsErased (program : Program) : Prop :=
  ∀ i addr word f, f.locked = false → (∀ k < 4, f.mem (addr+k) = 0xFF) →
    program i addr word f = (.ok,{ f with mem := store f.mem addr (wordBytes word) }) ∨
    program i addr word f = (.error,f)

/-- The word loop of `s_prog`: `n` words are left, the next one at byte `i`. -/
def progWordsBy (program : Program) (addr : ℕ) (buf : ℕ → UInt8) : (n i : ℕ) → State → LfsErr × State
  | 0, _, f => (.ok,f)
  | n+1, i, f =>
    match program i (wrap 32 ((addr+i : ℕ) : ℤ)) (wordAt buf i) f with
    | (.ok,g) => progWordsBy program addr buf n (i+4) g
    | (.error,g) => (.io,g)

def sProgBy (program : Program) (f : State) (block off : ℕ) (buf : ℕ → UInt8) (size : ℕ) :
    LfsErr × State :=
  let r := progWordsBy program (blockAddr block off) buf (wordCount size) 0 (halFlashUnlock f)
  (r.1,halFlashLock r.2)

theorem progWords_eq_progWordsBy (accepted : ℕ → Bool) (addr : ℕ) (buf : ℕ → UInt8) (n i : ℕ)
    (f : State) : progWords accepted addr buf n i f =
      progWordsBy (fun i => halFlashProgram (accepted i)) addr buf n i f := by
  induction n generalizing i f with
  | zero => rfl
  | succ n ih =>
    simp only [progWords,ih]
    rfl

theorem sProg_eq_sProgBy (accepted : ℕ → Bool) (f : State) (b off : ℕ) (buf : ℕ → UInt8) (size : ℕ) :
    sProg accepted f b off buf size =
      sProgBy (fun i => halFlashProgram (accepted i)) f b off buf size := by
  simp only [sProg,sProgBy,progWords_eq_progWordsBy]

theorem programsErased_halFlashProgram (accepted : ℕ → Bool) :
    ProgramsErased fun i => halFlashProgram (accepted i) := by
  intro i addr word f hl _
  cases h : accepted i <;> simp [halFlashProgram,h,hl]

theorem wordBytes_wordAt (buf : ℕ → UInt8) (i : ℕ) : wordBytes (wordAt buf i) = load buf i 4 := by
  have h0 := (buf i).toNat_lt
  have h1 := (buf (i+1)).toNat_lt
  have h2 := (buf (i+2)).toNat_lt
  have h3 := (buf (i+3)).toNat_lt
  have hb (b : UInt8) (n : ℕ) (h : n = b.toNat) : UInt8.ofNat n = b := by rw [h]; simp
  simp only [wordBytes,wordAt,load,List.range_succ,List.range_zero,List.nil_append,List.cons_append,
    List.map_cons,List.map_nil,Nat.add_zero]
  rw [hb (buf i) _ (by omega),hb (buf (i+1)) _ (by omega),hb (buf (i+2)) _ (by omega),
    hb (buf (i+3)) _ (by omega)]

/-- The unlocked flash after the first `k` words of the buffer. -/
def stored (f : State) (addr : ℕ) (buf : ℕ → UInt8) (k : ℕ) : State :=
  ⟨store f.mem addr (load buf 0 (4*k)),false⟩

def answer (program : Program) (f : State) (addr : ℕ) (buf : ℕ → UInt8) (k : ℕ) : HalStatus :=
  (program (4*k) (addr+4*k) (wordAt buf (4*k)) (stored f addr buf k)).1

variable {program : Program} {f : State} {addr : ℕ} {buf : ℕ → UInt8}

theorem stored_zero (f : State) (addr : ℕ) (buf : ℕ → UInt8) :
    stored f addr buf 0 = halFlashUnlock f := by
  simp [stored,halFlashUnlock]

theorem stored_outside {k a : ℕ} (h : a < addr ∨ addr+4*k ≤ a) :
    (stored f addr buf k).mem a = f.mem a :=
  store_outside _ _ (by simpa using h)

theorem stored_inside {k i : ℕ} (h : i < 4*k) : (stored f addr buf k).mem (addr+i) = buf i := by
  have hi : i < (load buf 0 (4*k)).length := by simpa using h
  have hs := store_inside f.mem addr _ i hi
  simpa [stored] using hs

theorem program_stored (hp : ProgramsErased program) (buf : ℕ → UInt8) {k : ℕ}
    (he : ∀ i < 4, f.mem (addr+4*k+i) = 0xFF) :
    program (4*k) (addr+4*k) (wordAt buf (4*k)) (stored f addr buf k) =
      (.ok,stored f addr buf (k+1)) ∧ answer program f addr buf k = .ok ∨
    program (4*k) (addr+4*k) (wordAt buf (4*k)) (stored f addr buf k) =
      (.error,stored f addr buf k) ∧ answer program f addr buf k = .error := by
  have herased : ∀ i < 4, (stored f addr buf k).mem (addr+4*k+i) = 0xFF := by
    intro i hi
    rw [stored_outside (Or.inr (by omega)),he i hi]
  have hnext : (⟨store (stored f addr buf k).mem (addr+4*k) (wordBytes (wordAt buf (4*k))),false⟩ : State) =
      stored f addr buf (k+1) := by
    rw [stored,stored,wordBytes_wordAt,show 4*(k+1) = 4*k+4 by ring,load_add,store_append,load_length,
      Nat.zero_add]
  rcases hp (4*k) (addr+4*k) (wordAt buf (4*k)) (stored f addr buf k) rfl herased with h | h
  · refine Or.inl ⟨?_,by rw [answer,h]⟩
    rw [h,← hnext]
    rfl
  · exact Or.inr ⟨h,by rw [answer,h]⟩

theorem progWordsBy_cases (hp : ProgramsErased program) (buf : ℕ → UInt8) (n k : ℕ)
    (hw : addr+4*(k+n) ≤ 2^32) (he : ∀ i, 4*k ≤ i → i < 4*(k+n) → f.mem (addr+i) = 0xFF) :
    ((∀ j, k ≤ j → j < k+n → answer program f addr buf j = .ok) ∧
      progWordsBy program addr buf n (4*k) (stored f addr buf k) = (.ok,stored f addr buf (k+n))) ∨
    ∃ j, k ≤ j ∧ j < k+n ∧ (∀ i, k ≤ i → i < j → answer program f addr buf i = .ok) ∧
      answer program f addr buf j = .error ∧
      progWordsBy program addr buf n (4*k) (stored f addr buf k) = (.io,stored f addr buf j) := by
  induction n generalizing k with
  | zero => exact Or.inl ⟨fun j h₁ h₂ => by omega,rfl⟩
  | succ n ih =>
    have haddr : wrap 32 ((addr+4*k : ℕ) : ℤ) = addr+4*k := by
      rw [wrap_natCast,Nat.mod_eq_of_lt (by omega)]
    have hk : ∀ i < 4, f.mem (addr+4*k+i) = 0xFF := by
      intro i hi
      rw [Nat.add_assoc]
      exact he (4*k+i) (by omega) (by omega)
    rcases program_stored hp buf hk with ⟨h,hok⟩ | ⟨h,herr⟩
    · have hstep : progWordsBy program addr buf (n+1) (4*k) (stored f addr buf k) =
          progWordsBy program addr buf n (4*(k+1)) (stored f addr buf (k+1)) := by
        simp only [progWordsBy,haddr,h]
        rfl
      rw [hstep]
      rcases ih (k+1) (by omega) (fun i h₁ h₂ => he i (by omega) (by omega)) with
        ⟨hall,hr⟩ | ⟨j,h₁,h₂,hbefore,herr,hr⟩
      · refine Or.inl ⟨fun j h₁ h₂ => ?_,by rw [hr,Nat.add_assoc,Nat.add_comm 1]⟩
        rcases Nat.eq_or_lt_of_le h₁ with rfl | h
        · exact hok
        · exact hall j h (by omega)
      · refine Or.inr ⟨j,by omega,by omega,fun i h₃ h₄ => ?_,herr,hr⟩
        rcases Nat.eq_or_lt_of_le h₃ with rfl | h
        · exact hok
        · exact hbefore i h h₄
    · refine Or.inr ⟨k,le_rfl,by omega,fun i h₁ h₂ => by omega,herr,?_⟩
      simp only [progWordsBy,haddr,h]

/-- What one call of `s_prog` promises on an erased range. -/
structure ProgramsRange (program : Program) (f : State) (b off : ℕ) (buf : ℕ → UInt8) (size : ℕ) :
    Prop where
  reports : (sProgBy program f b off buf size).1 = .ok ↔
    ∀ k, 4*k < size → answer program f (blockAddr b off) buf k = .ok
  readBack : (sProgBy program f b off buf size).1 = .ok → ∀ i n, i+n ≤ size →
    sRead (sProgBy program f b off buf size).2 b (off+i) n = load buf i n
  failsAt : (sProgBy program f b off buf size).1 = .io → ∃ k, 4*k < size ∧
    (∀ j < k, answer program f (blockAddr b off) buf j = .ok) ∧
    answer program f (blockAddr b off) buf k = .error ∧
    ∀ i < size, (sProgBy program f b off buf size).2.mem (fsFlashAddr + b*fsBlockSize + off + i) =
      if i < 4*k then buf i else 0xFF
  outside : ∀ a, a < fsFlashAddr + b*fsBlockSize + off ∨ fsFlashAddr + b*fsBlockSize + off + size ≤ a →
    (sProgBy program f b off buf size).2.mem a = f.mem a
  locked : (sProgBy program f b off buf size).2.locked = true
  noWrap : ∀ i ≤ size, fsFlashAddr + b*fsBlockSize + off + i < 2^32

theorem sProgBy_cases (hp : ProgramsErased program) (f : State) {b off size : ℕ}
    (hb : b < fsBlockCount) (hs : 4 ∣ size) (hr : off+size ≤ fsBlockSize) (buf : ℕ → UInt8)
    (he : ∀ i < size, f.mem (fsFlashAddr + b*fsBlockSize + off + i) = 0xFF) :
    ((∀ k, 4*k < size → answer program f (blockAddr b off) buf k = .ok) ∧
      sProgBy program f b off buf size = (.ok,halFlashLock (stored f (blockAddr b off) buf (size/4)))) ∨
    ∃ k, 4*k < size ∧ (∀ j < k, answer program f (blockAddr b off) buf j = .ok) ∧
      answer program f (blockAddr b off) buf k = .error ∧
      sProgBy program f b off buf size = (.io,halFlashLock (stored f (blockAddr b off) buf k)) := by
  have haddr := blockAddr_eq hb (show off ≤ fsBlockSize by omega)
  have hlow : blockAddr b off + size ≤ 2^32 := by
    simp only [fsFlashAddr,fsBlockSize,fsBlockCount] at *
    omega
  have hcount : wordCount size = size/4 := by rw [wordCount]; omega
  have herased : ∀ i, 4*0 ≤ i → i < 4*(0+size/4) → f.mem (blockAddr b off + i) = 0xFF := by
    intro i _ hi
    rw [haddr]
    exact he i (by omega)
  have hloop := progWordsBy_cases hp buf (size/4) 0 (by omega) herased
  rw [stored_zero,Nat.mul_zero,Nat.zero_add] at hloop
  rcases hloop with ⟨hall,h⟩ | ⟨k,-,hk,hbefore,herr,h⟩
  · exact Or.inl ⟨fun k hk => hall k (Nat.zero_le k) (by omega),by rw [sProgBy,hcount,h]⟩
  · exact Or.inr ⟨k,by omega,fun j hj => hbefore j (Nat.zero_le j) hj,herr,by rw [sProgBy,hcount,h]⟩

/-- Programming an erased range and reading it back: a successful call returns the
buffer, a failed one has stored exactly the words before the refused word. -/
theorem sProg_read_back (hp : ProgramsErased program) (f : State) {b off size : ℕ}
    (hb : b < fsBlockCount) (hs : progSize ∣ size) (hr : off+size ≤ fsBlockSize)
    (buf : ℕ → UInt8) (he : ∀ i < size, f.mem (fsFlashAddr + b*fsBlockSize + off + i) = 0xFF) :
    ProgramsRange program f b off buf size := by
  have hs4 : 4 ∣ size := Dvd.dvd.trans (by decide) hs
  have haddr := blockAddr_eq hb (show off ≤ fsBlockSize by omega)
  have hlow : ∀ i ≤ size, fsFlashAddr + b*fsBlockSize + off + i < 2^32 := by
    simp only [fsFlashAddr,fsBlockSize,fsBlockCount] at *
    omega
  have hout {k a : ℕ} (hk : 4*k ≤ size) (ha : a < fsFlashAddr + b*fsBlockSize + off ∨
      fsFlashAddr + b*fsBlockSize + off + size ≤ a) :
      (stored f (blockAddr b off) buf k).mem a = f.mem a :=
    stored_outside (by omega)
  rcases sProgBy_cases hp f hb hs4 hr buf he with ⟨hall,h⟩ | ⟨k,hk,hbefore,herr,h⟩
  · refine ⟨by simpa [h] using hall,fun _ i n hin => ?_,by simp [h],fun a ha => ?_,by rw [h]; rfl,hlow⟩
    · rw [sRead,blockAddr_eq hb (by omega),h]
      apply List.ext_getElem (by simp)
      intro j h₁ h₂
      have hj : j < n := by simpa using h₁
      have ha : fsFlashAddr + b*fsBlockSize + (off+i) + j = blockAddr b off + (i+j) := by omega
      rw [getElem_load,getElem_load,ha]
      exact stored_inside (by omega)
    · rw [h]
      exact hout (by omega) ha
  · refine ⟨?_,by simp [h],fun _ => ⟨k,hk,hbefore,herr,fun i hi => ?_⟩,fun a ha => ?_,by rw [h]; rfl,hlow⟩
    · simp only [h,reduceCtorEq,false_iff]
      intro hall
      rw [hall k hk] at herr
      cases herr
    · rw [h,← haddr]
      split
      · exact stored_inside (by omega)
      · rw [← he i hi,← haddr]
        exact stored_outside (by omega)
    · rw [h]
      exact hout hk.le ha

theorem sProg_read_back_page : ProgramsRange (fun i => halFlashProgram (decide (i ≠ 64)))
    ⟨fun _ => 0xFF,true⟩ 1 512 (fun i => UInt8.ofNat i) 256 :=
  sProg_read_back (programsErased_halFlashProgram _) _ (by decide) (by decide) (by decide) _
    fun _ _ => rfl

end Flash
end EmbeddedShell
