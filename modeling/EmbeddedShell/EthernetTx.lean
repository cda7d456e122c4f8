import EmbeddedShell.EthernetIf

/-!
# The transmit path of the network driver

`lowLevelOutput` lists the elements of a chain in an array of five descriptors and
takes the length of the frame from the head of the chain. The list that the HAL
follows is the first five elements (`listed_fillTx`), so a longer chain is cut and
still reported as sent unless the elements behind are empty.
-/

namespace EmbeddedShell
namespace EthernetIf

open CString Memory LinkedList

def txDescCount : ℕ := 5

/-- `ETH_BufferTypeDef`: the bytes that the pointer sees, their number, and the
index of the next descriptor. -/
structure TxBuffer where
  buffer : ℕ → UInt8
  len : ℕ
  next : Option ℕ

/-- `ETH_TxPacketConfigTypeDef`; `txBuffer` is the array that `TxBuffer` points to. -/
structure TxConfig where
  length : ℕ
  txBuffer : ℕ → TxBuffer
  pData : ℕ

inductive HalStatus
  | ok | error | busy | timeout
  deriving DecidableEq

inductive Err
  | ok | interface
  deriving DecidableEq

/-- The loop over the chain: `left` descriptors are unused, the next one is `i`. -/
def fillTx (cell : ℕ → Pbuf) : (left i : ℕ) → Option ℕ → (ℕ → TxBuffer) → ℕ → TxBuffer
  | left+1, i, some q, txbuf =>
    let next := if (cell q).next ≠ none ∧ i+1 < txDescCount then some (i+1) else none
    fillTx cell left (i+1) (cell q).next
      (Function.update txbuf i ⟨(cell q).payload,(cell q).len,next⟩)
  | _, _, _, txbuf => txbuf

/-- The descriptors that the HAL meets, each at most once. -/
def listed (txbuf : ℕ → TxBuffer) : ℕ → Option ℕ → List TxBuffer
  | fuel+1, some i => txbuf i::listed txbuf fuel (txbuf i).next
  | _, _ => []

def TxConfig.list (txcfg : TxConfig) : List TxBuffer := listed txcfg.txBuffer txDescCount (some 0)

/-- The conversion `%lx`. -/
def hexLong (n : ℕ) : Bytes := (Nat.toDigits 16 n).map fun c => UInt8.ofNat c.toNat

def txNotice (p : Pbuf) : Bytes :=
  let etype := (p.payload 12).toNat*256 + (p.payload 13).toNat
  ethLog (chars "[eth] TX frame len=" ++ decimal p.totLen ++ chars " type=0x" ++ hexWord etype ++
    chars "(" ++ etherTypeName etype ++ chars ")\r\n")

def txConfig (cell : ℕ → Pbuf) (p : ℕ) : TxConfig where
  length := (cell p).totLen
  txBuffer := fillTx cell txDescCount 0 (some p) fun _ => ⟨fun _ => 0,0,none⟩
  pData := p

/-- `low_level_output` of the chain at `p`, with the answer of `HAL_ETH_Transmit`
and the error code that it leaves: the result, the configuration that was
transmitted, and the lines that were printed. -/
def lowLevelOutput (cell : ℕ → Pbuf) (p : ℕ) (halRes : HalStatus) (errorCode : ℕ) :
    Err × TxConfig × List Bytes :=
  let notice := if 14 ≤ (cell p).totLen then [txNotice (cell p)] else []
  if halRes ≠ .ok then (.interface,txConfig cell p,notice ++
    [ethLog (chars "[eth] TX HAL_ETH_Transmit FAILED err=0x" ++ hexLong errorCode ++ chars "\r\n")])
  else (.ok,txConfig cell p,notice ++ [ethLog (chars "[eth] TX OK\r\n")])

def TxBuffer.bytes (b : TxBuffer) : Bytes := load b.buffer 0 b.len

def pbufBytes (c : Pbuf) : Bytes := load c.payload 0 c.len

/-- A frame that is reported as sent was handed over whole, with its length. -/
def WholeOrFailed (cell : ℕ → Pbuf) (p : ℕ) (ids : List ℕ) (halRes : HalStatus) (errorCode : ℕ) :
    Prop :=
  let r := lowLevelOutput cell p halRes errorCode
  r.1 = .ok → r.2.1.list.flatMap TxBuffer.bytes = ids.flatMap (fun i => pbufBytes (cell i)) ∧
    (r.2.1.list.map TxBuffer.len).sum = r.2.1.length

variable {cell : ℕ → Pbuf}

theorem fillTx_below (left : ℕ) {i j : ℕ} (q : Option ℕ) (txbuf : ℕ → TxBuffer) (h : j < i) :
    fillTx cell left i q txbuf j = txbuf j := by
  induction left generalizing i q txbuf with
  | zero => simp [fillTx]
  | succ left ih =>
    cases q with
    | none => simp [fillTx]
    | some q =>
      rw [fillTx,ih _ _ (by omega),Function.update_of_ne (by omega)]

/-- The descriptors list the first elements of the chain, as far as they go. -/
theorem listed_fillTx {left i q : ℕ} {ids : List ℕ} (hi : i+(left+1) = txDescCount)
    (h : Segment (fun i => (cell i).next) (some q) (q::ids) none) (txbuf : ℕ → TxBuffer) :
    (listed (fillTx cell (left+1) i (some q) txbuf) (left+1) (some i)).map
        (fun b => (b.bytes,b.len)) =
      ((q::ids).take (left+1)).map fun k => (pbufBytes (cell k),(cell k).len) := by
  induction left generalizing i q ids txbuf with
  | zero =>
    rw [fillTx,listed,fillTx_below _ _ _ (by omega)]
    simp [listed,TxBuffer.bytes,pbufBytes]
  | succ left ih =>
    obtain ⟨-,hrest⟩ := h
    rw [fillTx,listed,fillTx_below _ _ _ (by omega)]
    cases ids with
    | nil =>
      have hnone : (cell q).next = none := hrest
      simp [listed,hnone,TxBuffer.bytes,pbufBytes]
    | cons q' ids =>
      have hnext : (cell q).next = some q' := hrest.1
      have hlt : i+1 < txDescCount := by omega
      simp only [Function.update_self,hnext,ne_eq,reduceCtorEq,not_false_eq_true,hlt,and_self,if_true,
        List.map_cons,List.take_succ_cons]
      rw [ih (by omega) ⟨rfl,hrest.2⟩,List.take_succ_cons,List.map_cons]
      rfl

theorem list_txConfig {p : ℕ} {ids : List ℕ} (h : Segment (fun i => (cell i).next) (some p) ids none) :
    (txConfig cell p).list.map (fun b => (b.bytes,b.len)) =
      (ids.take txDescCount).map fun k => (pbufBytes (cell k),(cell k).len) := by
  obtain ⟨rest,rfl⟩ := h.exists_cons
  exact listed_fillTx (i:=0) rfl h _

theorem bytes_txConfig {p : ℕ} {ids : List ℕ} (h : Segment (fun i => (cell i).next) (some p) ids none) :
    (txConfig cell p).list.flatMap TxBuffer.bytes =
      (ids.take txDescCount).flatMap fun k => pbufBytes (cell k) := by
  have hfst := congrArg (List.map Prod.fst) (list_txConfig h)
  simp only [List.map_map,Function.comp_def] at hfst
  rw [List.flatMap_def,List.flatMap_def,← hfst]

theorem len_txConfig {p : ℕ} {ids : List ℕ} (h : Segment (fun i => (cell i).next) (some p) ids none) :
    (txConfig cell p).list.map TxBuffer.len = (ids.take txDescCount).map fun k => (cell k).len := by
  have hsnd := congrArg (List.map Prod.snd) (list_txConfig h)
  simpa only [List.map_map,Function.comp_def] using hsnd

/-- A chain goes out whole or is reported as failed exactly when the HAL refuses it
or nothing is stored behind its fifth element. -/
theorem whole_or_failed_iff (cell : ℕ → Pbuf) (p : ℕ) (ids : List ℕ)
    (h : Segment (fun i => (cell i).next) (some p) ids none)
    (htot : (cell p).totLen = (ids.map fun i => (cell i).len).sum) (halRes : HalStatus)
    (errorCode : ℕ) :
    WholeOrFailed cell p ids halRes errorCode ↔
      halRes ≠ .ok ∨ ∀ i ∈ ids.drop txDescCount, (cell i).len = 0 := by
  by_cases hres : halRes = .ok
  · have hout : WholeOrFailed cell p ids halRes errorCode ↔
        (txConfig cell p).list.flatMap TxBuffer.bytes = ids.flatMap (fun i => pbufBytes (cell i)) ∧
        ((txConfig cell p).list.map TxBuffer.len).sum = (cell p).totLen := by
      simp [WholeOrFailed,lowLevelOutput,hres,txConfig]
    have hsum : (ids.map fun i => (cell i).len).sum = ((ids.take txDescCount).map fun i => (cell i).len).sum +
        ((ids.drop txDescCount).map fun i => (cell i).len).sum := by
      rw [← List.sum_append,← List.map_append,List.take_append_drop]
    have hbytes : ids.flatMap (fun i => pbufBytes (cell i)) =
        (ids.take txDescCount).flatMap (fun i => pbufBytes (cell i)) ++
        (ids.drop txDescCount).flatMap (fun i => pbufBytes (cell i)) := by
      rw [← List.flatMap_append,List.take_append_drop]
    have hzero : ((ids.drop txDescCount).map fun i => (cell i).len).sum = 0 ↔
        ∀ i ∈ ids.drop txDescCount, (cell i).len = 0 := by
      rw [List.sum_eq_zero_iff_forall_eq_nat,List.forall_mem_map]
    rw [hout,bytes_txConfig h,len_txConfig h,htot,hsum,hbytes]
    simp only [hres,ne_eq,not_true_eq_false,false_or]
    constructor
    · rintro ⟨-,hl⟩
      exact hzero.mp (by omega)
    · intro hz
      have hnil : (ids.drop txDescCount).flatMap (fun i => pbufBytes (cell i)) = [] := by
        refine List.flatMap_eq_nil_iff.mpr fun i hi => ?_
        rw [pbufBytes,hz i hi,load_zero]
      rw [hzero.mpr hz,hnil]
      simp
  · simp [WholeOrFailed,lowLevelOutput,hres]

def byteChain (n i : ℕ) : Pbuf where
  next := if i+1 < n then some (i+1) else none
  payload := fun _ => UInt8.ofNat i
  totLen := n-i
  len := 1
  ref := 1

theorem whole_or_failed_five : WholeOrFailed (byteChain 5) 0 [0,1,2,3,4] .ok 0 :=
  (whole_or_failed_iff _ 0 _ (by decide) (by decide) .ok 0).mpr (Or.inr (by decide))

/-- Six elements: five are sent, and the frame is reported as sent with length six. -/
theorem six_elements_cut :
    Segment (fun i => (byteChain 6 i).next) (some 0) [0,1,2,3,4,5] none ∧
    (byteChain 6 0).totLen = ([0,1,2,3,4,5].map fun i => (byteChain 6 i).len).sum ∧
    (lowLevelOutput (byteChain 6) 0 .ok 0).1 = .ok ∧
    (lowLevelOutput (byteChain 6) 0 .ok 0).2.1.length = 6 ∧
    (lowLevelOutput (byteChain 6) 0 .ok 0).2.1.list.flatMap TxBuffer.bytes = [0,1,2,3,4] ∧
    ¬ WholeOrFailed (byteChain 6) 0 [0,1,2,3,4,5] .ok 0 := by
  refine ⟨by decide,by decide,by decide,by decide,by decide,?_⟩
  intro h
  exact absurd (h (by decide)).2 (by decide)

end EthernetIf
end EmbeddedShell
