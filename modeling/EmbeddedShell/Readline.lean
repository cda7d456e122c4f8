import EmbeddedShell.Framing
import EmbeddedShell.Memory
import EmbeddedShell.Uart

/-!
# Reading lines from the terminal

`readline` leaves its loop for three reasons: a line end, a full buffer, or a
receive call that times out. `nonEmpty_readlines` describes all calls on one
stream at once: the texts are the blocks of its pieces, where a timeout cuts a
line like a line end does. Without timeouts this is framing by lines, and with
them the lines depend on the pauses inside of them.
-/

namespace EmbeddedShell
namespace Uart

open CString Memory Framing

def isEol (c : UInt8) : Bool := c = 13 ∨ c = 10

/-- The loop of `readline`: the buffer, the index `i`, what the coming calls of
`HAL_UART_Receive` deliver (`none` is a timeout), and what was echoed. -/
structure Reading where
  buf : ℕ → UInt8
  i : ℕ
  rx : List (Option UInt8)
  echo : Bytes

/-- The loop with room for `left` more characters. Every call on an exhausted
stream times out. -/
def readlineLoop : ℕ → Reading → Reading
  | 0, r => r
  | left+1, r =>
    match r.rx with
    | [] => r
    | none::rx => { r with rx := rx }
    | some c::rx =>
      let r := { r with rx := rx, echo := r.echo ++ [c] }
      if isEol c then r else readlineLoop left { r with buf := store r.buf r.i [c], i := r.i+1 }

def readline (buf : ℕ → UInt8) (maxlen : ℕ) (rx : List (Option UInt8)) : Reading :=
  let r := readlineLoop (maxlen-1) ⟨buf,0,rx,[]⟩
  { r with buf := store r.buf r.i [0] }

def Reading.text (r : Reading) : Bytes := load r.buf 0 r.i

def readlines (maxlen : ℕ) : ℕ → (ℕ → UInt8) → List (Option UInt8) → List Bytes
  | 0, _, _ => []
  | n+1, buf, rx =>
    let r := readline buf maxlen rx
    r.text::readlines maxlen n r.buf r.rx

@[simp] theorem Reading.length_text (r : Reading) : r.text.length = r.i := by simp [Reading.text]

theorem text_store {r : Reading} (c : UInt8) (rx : List (Option UInt8)) (echo : Bytes) :
    (⟨store r.buf r.i [c],r.i+1,rx,echo⟩ : Reading).text = r.text ++ [c] := by
  have h : load (store r.buf (0+r.i) [c]) 0 (r.i+1) = load r.buf 0 r.i ++ [c].take 1 :=
    load_store_extend r.buf rfl le_rfl
  simpa [Reading.text] using h

theorem text_readline (buf : ℕ → UInt8) (maxlen : ℕ) (rx : List (Option UInt8)) :
    (readline buf maxlen rx).text = (readlineLoop (maxlen-1) ⟨buf,0,rx,[]⟩).text := by
  rw [readline,Reading.text,Reading.text]
  exact load_store_disjoint _ _ (Or.inl (Nat.zero_add _).le)

theorem readlineLoop_index (left : ℕ) (r : Reading) : (readlineLoop left r).i ≤ r.i+left := by
  induction left generalizing r with
  | zero => exact le_rfl
  | succ left ih =>
    rw [readlineLoop]
    split
    · exact Nat.le_add_right _ _
    · exact Nat.le_add_right _ _
    · split
      · exact Nat.le_add_right _ _
      · refine (ih _).trans ?_
        simp only
        omega

theorem readlineLoop_rx (left : ℕ) (r : Reading) :
    (readlineLoop left r).rx.length ≤ r.rx.length := by
  induction left generalizing r with
  | zero => exact le_rfl
  | succ left ih =>
    rw [readlineLoop]
    split
    · exact le_rfl
    · rename_i rx hrx
      simp [hrx]
    · rename_i c rx hrx
      split
      · simp [hrx]
      · refine (ih _).trans ?_
        simp [hrx]

theorem readlineLoop_rx_lt (left : ℕ) {r : Reading} (h : r.rx ≠ []) :
    (readlineLoop (left+1) r).rx.length < r.rx.length := by
  rw [readlineLoop]
  split
  · rename_i hrx
    exact absurd hrx h
  · rename_i rx hrx
    simp [hrx]
  · rename_i c rx hrx
    split
    · simp [hrx]
    · refine Nat.lt_of_le_of_lt (readlineLoop_rx left _) ?_
      simp [hrx]

theorem readlineLoop_blocks {k left : ℕ} {r : Reading} (hk : 0 < k) (hl : r.i+left = k) :
    nonEmpty [(readlineLoop left r).text] ++
        (pieces isEol [] (readlineLoop left r).rx).flatMap (chunks k) =
      (pieces isEol r.text r.rx).flatMap (chunks k) := by
  have hend (acc : Bytes) (h : acc.length ≤ k) : chunks k acc = nonEmpty [acc] := by
    have hflat : [acc].flatMap (chunks k) = nonEmpty [acc] := flatMap_chunks (by simpa using h)
    simpa using hflat
  induction left generalizing r with
  | zero =>
    have hlen : r.text.length = k := by rw [Reading.length_text]; omega
    have hne : r.text ≠ [] := by
      rw [← List.length_pos_iff]
      omega
    rw [readlineLoop,nonEmpty_cons hne,flatMap_chunks_full isEol hk hlen]
    rfl
  | succ left ih =>
    have hle : r.text.length ≤ k := by rw [Reading.length_text]; omega
    rw [readlineLoop]
    split
    · rename_i hrx
      simp [hrx,pieces,hend _ hle]
    · rename_i rx hrx
      rw [hrx,pieces,List.flatMap_cons,hend _ hle]
      rfl
    · rename_i c rx hrx
      rw [hrx,pieces]
      split
      · rw [List.flatMap_cons,hend _ hle]
        rfl
      · rw [ih (by simp only; omega),text_store]
        rfl

theorem nonEmpty_readlines {maxlen n : ℕ} (hmax : 2 ≤ maxlen) (buf : ℕ → UInt8)
    {rx : List (Option UInt8)} (hn : rx.length ≤ n) :
    nonEmpty (readlines maxlen n buf rx) = (pieces isEol [] rx).flatMap (chunks (maxlen-1)) := by
  induction n generalizing buf rx with
  | zero =>
    obtain rfl : rx = [] := List.length_eq_zero_iff.mp (Nat.le_zero.mp hn)
    simp [readlines,pieces]
  | succ n ih =>
    have hblocks := readlineLoop_blocks (r:=⟨buf,0,rx,[]⟩) (show 0 < maxlen-1 by omega)
      (Nat.zero_add _)
    have hrest : (readline buf maxlen rx).rx.length ≤ n := by
      by_cases hrx : rx = []
      · have hle : (readline buf maxlen rx).rx.length ≤ rx.length :=
          readlineLoop_rx (maxlen-1) ⟨buf,0,rx,[]⟩
        rw [hrx,List.length_nil] at hle
        rw [hrx]
        omega
      · obtain ⟨l,hl⟩ : ∃ l, maxlen-1 = l+1 := ⟨maxlen-2,by omega⟩
        have hlt := readlineLoop_rx_lt l (r:=⟨buf,0,rx,[]⟩) hrx
        rw [readline,hl]
        simp only at hlt ⊢
        omega
    rw [readlines,nonEmpty_cons_eq_append,ih _ hrest,text_readline]
    exact hblocks

theorem readline_nul {maxlen : ℕ} (hmax : 1 ≤ maxlen) (buf : ℕ → UInt8) (rx : List (Option UInt8)) :
    (readline buf maxlen rx).i < maxlen ∧ (readline buf maxlen rx).buf (readline buf maxlen rx).i = 0 := by
  have hi := readlineLoop_index (maxlen-1) ⟨buf,0,rx,[]⟩
  refine ⟨?_,?_⟩
  · show (readlineLoop (maxlen-1) ⟨buf,0,rx,[]⟩).i < maxlen
    simp only at hi
    omega
  · exact store_inside _ _ [0] 0 (by simp)

/-- Lines of any length and any mix of line ends: the texts of repeated calls are
the blocks of `maxlen-1` bytes of the runs between line ends, in order and
complete. -/
theorem readline_frames_lines {maxlen : ℕ} (hmax : 2 ≤ maxlen) (stream : Bytes) (buf : ℕ → UInt8)
    {n : ℕ} (hn : stream.length ≤ n) :
    nonEmpty (readlines maxlen n buf (stream.map some)) =
      (stream.splitOnP isEol).flatMap (chunks (maxlen-1)) ∧
    (readlines maxlen n buf (stream.map some)).flatten = stream.filter (!isEol ·) ∧
    ∀ buf rx, (readline buf maxlen rx).i < maxlen ∧
      (readline buf maxlen rx).buf (readline buf maxlen rx).i = 0 := by
  have htexts := nonEmpty_readlines hmax buf (show (stream.map some).length ≤ n by simpa using hn)
  rw [pieces_map_some] at htexts
  refine ⟨htexts,?_,readline_nul (by omega)⟩
  rw [← flatten_nonEmpty,htexts,flatten_flatMap_chunks (by omega),flatten_splitOnP]

/-- Two line ends of different kinds and a line longer than the buffer. -/
theorem readline_frames_mixed :
    nonEmpty (readlines 4 9 (fun _ => 0) ((chars "ls\r\nhelp\n").map some)) =
      ((chars "ls\r\nhelp\n").splitOnP isEol).flatMap (chunks 3) ∧
    nonEmpty (readlines 4 9 (fun _ => 0) ((chars "ls\r\nhelp\n").map some)) =
      [chars "ls",chars "hel",chars "p"] :=
  ⟨(readline_frames_lines (by decide) _ _ (by decide)).1,by decide⟩

theorem nonEmpty_readlines_small {maxlen : ℕ} (hmax : maxlen ≤ 1) (n : ℕ) (buf : ℕ → UInt8)
    (rx : List (Option UInt8)) : nonEmpty (readlines maxlen n buf rx) = [] := by
  induction n generalizing buf rx with
  | zero => rfl
  | succ n ih =>
    have hnil : (readline buf maxlen rx).text = [] := by
      rw [text_readline,show maxlen-1 = 0 by omega]
      rfl
    rw [readlines,hnil,nonEmpty_cons_nil,ih]

/-- Pauses change the lines exactly when they fall inside of lines, at places where
the other placement has none. -/
theorem typing_speed_iff {maxlen : ℕ} {stream : Bytes}
    (hlines : ∀ line ∈ stream.splitOnP isEol, line.length < maxlen) (gap gap' : ℕ → ℕ)
    (buf buf' : ℕ → UInt8) {n n' : ℕ} (hn : (spaced stream gap).length ≤ n)
    (hn' : (spaced stream gap').length ≤ n') :
    nonEmpty (readlines maxlen n buf (spaced stream gap)) =
        nonEmpty (readlines maxlen n' buf' (spaced stream gap')) ↔
      ∀ j, Inside isEol stream j → (gap (j+1) = 0 ↔ gap' (j+1) = 0) := by
  have hruns : ∀ run ∈ pieces isEol [] (stream.map some), run.length ≤ maxlen-1 := by
    intro run hr
    rw [pieces_map_some] at hr
    have hlt := hlines run hr
    omega
  by_cases hmax : 2 ≤ maxlen
  · have hshort (gap : ℕ → ℕ) : (pieces isEol [] (spaced stream gap)).flatMap (chunks (maxlen-1)) =
        nonEmpty (pieces isEol [] (spaced stream gap)) :=
      flatMap_chunks (pieces_spaced_length isEol gap hruns le_rfl)
    rw [nonEmpty_readlines hmax buf hn,nonEmpty_readlines hmax buf' hn',hshort,hshort]
    exact pieces_spaced_iff isEol stream gap gap'
  · rw [nonEmpty_readlines_small (by omega),nonEmpty_readlines_small (by omega)]
    refine iff_of_true rfl ?_
    rintro j ⟨x,y,hx,-,hs,-⟩
    have hmem : x ∈ (stream.splitOnP isEol).flatten := by
      rw [flatten_splitOnP,List.mem_filter,hs]
      exact ⟨List.mem_of_getElem? hx,rfl⟩
    obtain ⟨line,hl,hxl⟩ := List.mem_flatten.mp hmem
    have hpos := List.length_pos_of_mem hxl
    have hlt := hlines line hl
    omega

/-- A pause at the end of a line does not count. -/
theorem typing_speed_between_lines :
    nonEmpty (readlines 8 9 (fun _ => 0) (spaced (chars "ls\rhelp\r") fun j => if j = 2 then 1 else 0)) =
      nonEmpty (readlines 8 8 (fun _ => 0) (spaced (chars "ls\rhelp\r") fun _ => 0)) := by
  refine (typing_speed_iff (by decide) _ _ _ _ (by decide) (by decide)).mpr ?_
  rintro j ⟨x,y,hx,hy,hs,ht⟩
  have hj : j ≠ 1 := by
    rintro rfl
    obtain rfl : (13 : UInt8) = y := by simpa [chars] using hy
    exact absurd ht (by decide)
  simp [hj]

/-- A pause in the middle of a name: two lines are handed over, and the first
removes another file. -/
theorem typing_speed_matters :
    (∀ line ∈ (chars "rm ab\r").splitOnP isEol, line.length < 8) ∧
    nonEmpty (readlines 8 6 (fun _ => 0) (spaced (chars "rm ab\r") fun _ => 0)) = [chars "rm ab"] ∧
    nonEmpty (readlines 8 7 (fun _ => 0) (spaced (chars "rm ab\r") fun j => if j = 4 then 1 else 0)) =
      [chars "rm a",chars "b"] ∧
    nonEmpty (readlines 8 7 (fun _ => 0) (spaced (chars "rm ab\r") fun j => if j = 4 then 1 else 0)) ≠
      nonEmpty (readlines 8 6 (fun _ => 0) (spaced (chars "rm ab\r") fun _ => 0)) :=
  ⟨by decide,by decide,by decide,by decide⟩

end Uart
end EmbeddedShell
