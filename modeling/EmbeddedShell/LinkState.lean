import Mathlib.Data.BitVec
import Mathlib.Tactic.Common

/-!
# The link state of the transceiver

`getLinkState` follows `LAN8742_GetLinkState` through its four register reads, and
`ethIsLinkUp` compares the status code it returns with the code for a link that is
down. The codes are ordered so that an unfinished negotiation comes last, behind
the four speeds, so the comparison takes it for a link that is up.
-/

namespace EmbeddedShell
namespace Lan8742

/-- `ReadReg` of the device: the first argument counts the calls, the second is the
register. `none` is a negative result. -/
abbrev ReadReg := ℕ → ℕ → Option (BitVec 32)

def bcr : ℕ := 0x0000
def bsr : ℕ := 0x0001
def physcsr : ℕ := 0x001F

def bcrSpeedSelect : BitVec 32 := 0x2000
def bcrAutonegoEn : BitVec 32 := 0x1000
def bcrDuplexMode : BitVec 32 := 0x0100
def bsrLinkStatus : BitVec 32 := 0x0004
def physcsrAutonegoDone : BitVec 32 := 0x1000
def physcsrHcdspeedmask : BitVec 32 := 0x001C
def physcsr10btFd : BitVec 32 := 0x0014
def physcsr100btxHd : BitVec 32 := 0x0008
def physcsr100btxFd : BitVec 32 := 0x0018

/-- The results of `LAN8742_GetLinkState`. -/
inductive Status
  | readError
  | linkDown
  | fullDuplex100
  | halfDuplex100
  | fullDuplex10
  | halfDuplex10
  | autonegoNotDone
  deriving DecidableEq

def Status.code : Status → ℤ
  | .readError => -5
  | .linkDown => 1
  | .fullDuplex100 => 2
  | .halfDuplex100 => 3
  | .fullDuplex10 => 4
  | .halfDuplex10 => 5
  | .autonegoNotDone => 6

/-- The speed that is set in the control register. -/
def forcedSpeed (readval : BitVec 32) : Status :=
  if readval &&& bcrSpeedSelect = bcrSpeedSelect ∧ readval &&& bcrDuplexMode = bcrDuplexMode then
    .fullDuplex100
  else if readval &&& bcrSpeedSelect = bcrSpeedSelect then .halfDuplex100
  else if readval &&& bcrDuplexMode = bcrDuplexMode then .fullDuplex10
  else .halfDuplex10

/-- The speed that was negotiated. -/
def negotiatedSpeed (readval : BitVec 32) : Status :=
  if readval &&& physcsrHcdspeedmask = physcsr100btxFd then .fullDuplex100
  else if readval &&& physcsrHcdspeedmask = physcsr100btxHd then .halfDuplex100
  else if readval &&& physcsrHcdspeedmask = physcsr10btFd then .fullDuplex10
  else .halfDuplex10

def getLinkState (readReg : ReadReg) : Status :=
  match readReg 0 bsr with
  | none => .readError
  | some _ =>
    match readReg 1 bsr with
    | none => .readError
    | some status =>
      if status &&& bsrLinkStatus = 0#32 then .linkDown
      else
        match readReg 2 bcr with
        | none => .readError
        | some control =>
          if control &&& bcrAutonegoEn ≠ bcrAutonegoEn then forcedSpeed control
          else
            match readReg 3 physcsr with
            | none => .readError
            | some special =>
              if special &&& physcsrAutonegoDone = 0#32 then .autonegoNotDone
              else negotiatedSpeed special

def ethIsLinkUp (readReg : ReadReg) : Bool := decide (Status.linkDown.code < (getLinkState readReg).code)

/-- Link bit and negotiation enable bit, once they have been read. -/
structure Linked (readReg : ReadReg) (autonego : Bool) : Prop where
  first : ∃ status, readReg 0 bsr = some status
  link : ∃ status, readReg 1 bsr = some status ∧ status.getLsbD 2 = true
  control : ∃ control, readReg 2 bcr = some control ∧ control.getLsbD 12 = autonego

/-- The cable is plugged in, and negotiation is switched off or completed. -/
def Usable (readReg : ReadReg) : Prop :=
  Linked readReg false ∨ Linked readReg true ∧
    ∃ special, readReg 3 physcsr = some special ∧ special.getLsbD 12 = true

/-- The cable is plugged in, and negotiation is still going on. -/
def Negotiating (readReg : ReadReg) : Prop :=
  Linked readReg true ∧ ∃ special, readReg 3 physcsr = some special ∧ special.getLsbD 12 = false

theorem twoPow_ne_zero {i : ℕ} (hi : i < 32) : BitVec.twoPow 32 i ≠ 0#32 := by
  intro h
  have hbit := congrArg (fun b : BitVec 32 => b.getLsbD i) h
  simp [hi] at hbit

theorem and_twoPow_eq_zero_iff {i : ℕ} (hi : i < 32) (v : BitVec 32) :
    v &&& BitVec.twoPow 32 i = 0#32 ↔ v.getLsbD i = false := by
  rw [BitVec.and_twoPow]
  cases hv : v.getLsbD i with
  | true => simpa using twoPow_ne_zero hi
  | false => simp

theorem and_twoPow_eq_self_iff {i : ℕ} (hi : i < 32) (v : BitVec 32) :
    v &&& BitVec.twoPow 32 i = BitVec.twoPow 32 i ↔ v.getLsbD i = true := by
  rw [BitVec.and_twoPow]
  cases hv : v.getLsbD i with
  | true => simp
  | false => simpa using (twoPow_ne_zero hi).symm

theorem linkStatus_iff (v : BitVec 32) : v &&& bsrLinkStatus = 0#32 ↔ v.getLsbD 2 = false :=
  and_twoPow_eq_zero_iff (i:=2) (by decide) v

theorem autonegoEn_iff (v : BitVec 32) : v &&& bcrAutonegoEn = bcrAutonegoEn ↔ v.getLsbD 12 = true :=
  and_twoPow_eq_self_iff (i:=12) (by decide) v

theorem autonegoDone_iff (v : BitVec 32) : v &&& physcsrAutonegoDone = 0#32 ↔ v.getLsbD 12 = false :=
  and_twoPow_eq_zero_iff (i:=12) (by decide) v

theorem forcedSpeed_code (v : BitVec 32) : 1 < (forcedSpeed v).code := by
  unfold forcedSpeed
  split_ifs <;> decide

theorem negotiatedSpeed_code (v : BitVec 32) : 1 < (negotiatedSpeed v).code := by
  unfold negotiatedSpeed
  split_ifs <;> decide

/-- What the status is, as far as the reads go. -/
theorem getLinkState_of_linked_false {readReg : ReadReg} (h : Linked readReg false) :
    ∃ v, getLinkState readReg = forcedSpeed v := by
  obtain ⟨⟨s,h0⟩,⟨status,h1,hl⟩,control,h2,hc⟩ := h
  refine ⟨control,?_⟩
  simp only [getLinkState,h0,h1,h2,linkStatus_iff,autonegoEn_iff,hl,hc,ne_eq,Bool.false_eq_true,
    Bool.true_eq_false,not_false_eq_true,if_true,if_false]

theorem getLinkState_of_linked_true {readReg : ReadReg} (h : Linked readReg true) :
    getLinkState readReg = match readReg 3 physcsr with
      | none => .readError
      | some special => if special.getLsbD 12 = false then .autonegoNotDone else negotiatedSpeed special := by
  obtain ⟨⟨s,h0⟩,⟨status,h1,hl⟩,control,h2,hc⟩ := h
  simp only [getLinkState,h0,h1,h2,linkStatus_iff,autonegoEn_iff,autonegoDone_iff,hl,hc,ne_eq,
    Bool.true_eq_false,not_true_eq_false,if_false]

theorem getLinkState_of_not_linked {readReg : ReadReg} (h : ∀ autonego, ¬ Linked readReg autonego) :
    getLinkState readReg = .readError ∨ getLinkState readReg = .linkDown := by
  cases h0 : readReg 0 bsr with
  | none => simp [getLinkState,h0]
  | some s =>
    cases h1 : readReg 1 bsr with
    | none => simp [getLinkState,h0,h1]
    | some status =>
      cases hl : status.getLsbD 2 with
      | false => simp only [getLinkState,h0,h1,linkStatus_iff,hl,if_true,or_true]
      | true =>
        cases h2 : readReg 2 bcr with
        | none =>
          simp only [getLinkState,h0,h1,h2,linkStatus_iff,hl,Bool.true_eq_false,if_false,true_or]
        | some control =>
          exact absurd ⟨⟨s,h0⟩,⟨status,h1,hl⟩,⟨control,h2,rfl⟩⟩ (h (control.getLsbD 12))

theorem Linked.not_other {readReg : ReadReg} (h : Linked readReg true) : ¬ Linked readReg false := by
  intro h'
  obtain ⟨control,hc,hbit⟩ := h.control
  obtain ⟨control',hc',hbit'⟩ := h'.control
  obtain rfl : control = control' := Option.some.inj (hc.symm.trans hc')
  rw [hbit] at hbit'
  cases hbit'

/-- The comparison of codes is true for a usable link and for an unfinished negotiation. -/
theorem ethIsLinkUp_iff (readReg : ReadReg) :
    ethIsLinkUp readReg = true ↔ Usable readReg ∨ Negotiating readReg := by
  rw [ethIsLinkUp,decide_eq_true_eq]
  by_cases hf : Linked readReg false
  · obtain ⟨v,hv⟩ := getLinkState_of_linked_false hf
    rw [hv]
    exact iff_of_true (forcedSpeed_code v) (Or.inl (Or.inl hf))
  · by_cases ht : Linked readReg true
    · rw [getLinkState_of_linked_true ht]
      cases h3 : readReg 3 physcsr with
      | none =>
        refine iff_of_false (by decide) ?_
        simp [Usable,Negotiating,hf,h3]
      | some special =>
        cases hd : special.getLsbD 12 with
        | false =>
          simp only [hd,if_true]
          exact iff_of_true (by decide) (Or.inr ⟨ht,special,h3,hd⟩)
        | true =>
          simp only [hd,Bool.true_eq_false,if_false]
          exact iff_of_true (negotiatedSpeed_code special) (Or.inl (Or.inr ⟨ht,special,h3,hd⟩))
    · have hn : ∀ autonego, ¬ Linked readReg autonego := by
        intro autonego
        cases autonego with
        | false => exact hf
        | true => exact ht
      refine iff_of_false ?_ (by simp [Usable,Negotiating,hf,ht])
      rcases getLinkState_of_not_linked hn with h | h
      · rw [h]
        decide
      · rw [h]
        decide

theorem Negotiating.not_usable {readReg : ReadReg} (h : Negotiating readReg) : ¬ Usable readReg := by
  obtain ⟨hl,special,h3,hd⟩ := h
  rintro (hf | ⟨-,special',h3',hd'⟩)
  · exact hl.not_other hf
  · obtain rfl : special = special' := Option.some.inj (h3.symm.trans h3')
    rw [hd] at hd'
    cases hd'

/-- `ETH_IsLinkUp` tells a usable link from the rest except while the negotiation
is going on. -/
theorem link_up_usable_iff (readReg : ReadReg) :
    (ethIsLinkUp readReg = true ↔ Usable readReg) ↔ ¬ Negotiating readReg := by
  rw [ethIsLinkUp_iff]
  constructor
  · intro h hn
    exact hn.not_usable (h.mp (Or.inr hn))
  · intro hn
    simp [hn]

/-- Cable plugged in, negotiation enabled and not done. -/
def negotiating : ReadReg := fun _ reg =>
  if reg = bsr then some 0x0004 else if reg = bcr then some 0x1000 else some 0

theorem link_up_while_negotiating :
    getLinkState negotiating = .autonegoNotDone ∧ ethIsLinkUp negotiating = true ∧
    ¬ Usable negotiating ∧ ¬ (ethIsLinkUp negotiating = true ↔ Usable negotiating) := by
  have hup : ethIsLinkUp negotiating = true := by decide
  have hnot : ¬ Usable negotiating := by
    refine Negotiating.not_usable ⟨⟨⟨_,rfl⟩,⟨_,rfl,by decide⟩,⟨_,rfl,by decide⟩⟩,⟨_,rfl,by decide⟩⟩
  exact ⟨by decide,hup,hnot,fun h => hnot (h.mp hup)⟩

end Lan8742
end EmbeddedShell
