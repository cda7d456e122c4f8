import EmbeddedShell.Logger

/-! Runs of the logger. Every reachable ring represents the journal of the same
calls; up to the capacity a flush is the journal's report, and beyond it the text
depends on where the writer stands relative to the read position left behind. The
unread count does not look at these positions once the ring has wrapped, so it
agrees with the flush only after whole laps. -/
namespace EmbeddedShell
namespace Logger

open CString Memory Execution

/-- The record lengths the callers clamp to, with no NUL among the bytes. -/
def Op.Admissible : Op → Prop
  | .write data => 1 ≤ data.length ∧ data.length ≤ maxLogMsg ∧ NulFree data
  | _ => True

instance (op : Op) : Decidable op.Admissible := by
  cases op <;> unfold Op.Admissible <;> infer_instance

theorem getUnreadCount_of_lapped {s : State} {q : Bytes} (h : Represents s q)
    (hlap : logBufferSize ≤ s.readPos + q.length) : getUnreadCount s = logBufferSize := by
  simp [getUnreadCount,h.full,hlap]

theorem getUnreadCount_of_lt {s : State} {q : Bytes} (h : Represents s q)
    (hlap : s.readPos + q.length < logBufferSize) : getUnreadCount s = q.length := by
  have hpos := h.pos
  have hf : s.bufferFull = false := by simp [h.full,hlap]
  rw [Nat.mod_eq_of_lt hlap] at hpos
  simp only [logBufferSize] at hlap
  have hcount : wrap 16 ((s.writePos : ℤ) - s.readPos) = q.length := by
    rw [wrap_sub (by omega) (by omega)]
    omega
  simp [getUnreadCount,hf,hcount,show s.readPos ≤ s.writePos by omega]

theorem getUnreadCount_eq_zero_iff {s : State} {q : Bytes} (h : Represents s q) :
    getUnreadCount s = 0 ↔ q = [] := by
  by_cases hlap : logBufferSize ≤ s.readPos + q.length
  · have hne : q ≠ [] := by
      rintro rfl
      have hlt := h.lt
      simp at hlap
      omega
    simp [getUnreadCount_of_lapped h hlap,hne,logBufferSize]
  · rw [getUnreadCount_of_lt h (Nat.lt_of_not_le hlap),List.length_eq_zero_iff]

theorem represents_flush {s : State} {q : Bytes} (h : Represents s q) :
    Represents (flush s).1 [] := by
  unfold flush
  split
  · rename_i h0
    rw [(getUnreadCount_eq_zero_iff h).mp h0] at h
    exact h
  · exact Drained.represents ⟨rfl,h.writePos_lt,rfl⟩

/-- Up to the capacity the loops of `flush` visit exactly the journal. -/
theorem unread_of_length_le {s : State} {q : Bytes} (h : Represents s q)
    (hq : q.length ≤ logBufferSize) : unread s = q := by
  have hlt := h.lt
  have hpos := h.pos
  have hwin := Ring.holds_window h.holds hq le_rfl
  simp only [Nat.sub_self,Nat.add_zero,List.drop_zero] at hwin
  by_cases hlap : logBufferSize ≤ s.readPos + q.length
  · have hf : s.bufferFull = true := by simp [h.full,hlap]
    rw [Nat.mod_eq_sub_mod hlap,Nat.mod_eq_of_lt (by omega)] at hpos
    rw [Ring.window_wrapped hlt.le hq hlap,← hpos] at hwin
    simpa [unread,hf] using hwin
  · have hf : s.bufferFull = false := by simp [h.full]; omega
    rw [Nat.mod_eq_of_lt (by omega)] at hpos
    rw [Ring.window_straight (by omega)] at hwin
    simpa [unread,hf,hpos] using hwin

theorem length_unread_of_lapped {s : State} {q : Bytes} (h : Represents s q)
    (hlap : logBufferSize ≤ s.readPos + q.length) :
    (unread s).length = logBufferSize - s.readPos + s.writePos := by
  simp [unread,h.full,hlap]

theorem nulFree_unread {s : State} {q : Bytes} (h : Represents s q) (hq : NulFree q) :
    NulFree (unread s) := by
  by_cases hl : q.length ≤ logBufferSize
  · rwa [unread_of_length_le h hl]
  · have hcell : ∀ p < logBufferSize, s.buffer p ≠ 0 := by
      intro p hp h0
      apply hq
      rw [← h0]
      exact Ring.holds_mem_of_full h.holds (by omega) hp
    have hlt := h.lt
    have hw := h.writePos_lt
    have hf : s.bufferFull = true := by
      rw [h.full,decide_eq_true_eq]
      omega
    simp only [unread,hf,if_true,NulFree,List.mem_append,mem_load]
    rintro (⟨i,hi,h0⟩ | ⟨i,hi,h0⟩)
    · exact hcell _ (by omega) h0
    · exact hcell _ (by omega) h0

theorem flush_text {s : State} {q : Bytes} (h : Represents s q) (hq : NulFree q) :
    (flush s).2 = if q = [] then noLogs else flushHeader ++ unread s ++ flushFooter := by
  have hz := getUnreadCount_eq_zero_iff h
  unfold flush
  by_cases h0 : q = []
  · rw [if_pos (hz.mpr h0),if_pos h0]
  · rw [if_neg fun hc => h0 (hz.mp hc),if_neg h0,flushLog_eq,
      chunked_of_nulFree (nulFree_unread h hq)]

theorem represents_step {s : State} {q : Bytes} {op : Op} (h : Represents s q) (hq : NulFree q)
    (hop : op.Admissible) :
    Represents (logger s op).1 (journal q op).1 ∧ NulFree (journal q op).1 := by
  cases op with
  | init => exact ⟨represents_init s,nulFree_nil⟩
  | clear => exact ⟨represents_clear s,nulFree_nil⟩
  | flush => exact ⟨represents_flush h,nulFree_nil⟩
  | write data =>
    obtain ⟨-,hd,hn⟩ := hop
    exact ⟨represents_write h hd,nulFree_append.mpr ⟨hq,hn⟩⟩

theorem represents_run {s : State} (hs : Drained s) {ops : List Op}
    (hops : ∀ op ∈ ops, op.Admissible) :
    Represents (run logger s ops) (run journal [] ops) ∧ NulFree (run journal [] ops) :=
  run_related (m:=logger) (n:=journal) (R:=fun s q => Represents s q ∧ NulFree q)
    (C:=fun _ op => op.Admissible) (fun _ _ _ h hop => represents_step h.1 h.2 hop)
    ⟨hs.represents,nulFree_nil⟩ (along_of_forall hops)

/-- While no more than the capacity is written between two resets, the flushes
of a run transmit what the unbounded journal would. -/
theorem flush_reports_journal {s : State} (hs : Drained s) {ops : List Op}
    (hops : ∀ op ∈ ops, op.Admissible)
    (hcap : Along journal (fun q op => (journal q op).1.length ≤ logBufferSize) [] ops) :
    trace logger s ops = trace journal [] ops := by
  refine trace_simulation
    (R:=fun s q => (Represents s q ∧ NulFree q) ∧ q.length ≤ logBufferSize) ?_
    ⟨⟨hs.represents,nulFree_nil⟩,by simp⟩ ((along_of_forall hops).and hcap)
  rintro s q op ⟨⟨h,hq⟩,hl⟩ ⟨hop,hc⟩
  refine ⟨⟨represents_step h hq hop,hc⟩,?_⟩
  cases op with
  | flush =>
    simp only [logger,journal,report,flush_text h hq,unread_of_length_le h hl]
  | init => rfl
  | clear => rfl
  | write data => rfl

theorem flush_reports_journal_boot :
    trace logger boot [.write (chars "boot\r\n"),.write (chars "up\r\n"),.flush,.clear,.flush] =
      [flushHeader ++ chars "boot\r\nup\r\n" ++ flushFooter,noLogs] :=
  (flush_reports_journal drained_boot (by decide) (by decide)).trans (by decide)

def newest (n : ℕ) (q : Bytes) : Bytes := q.drop (q.length-n)

/-- The writer is back at the read position after whole laps only. -/
theorem writePos_eq_readPos_iff {s : State} {q : Bytes} (h : Represents s q) :
    s.writePos = s.readPos ↔ logBufferSize ∣ q.length := by
  have hlt := h.lt
  rw [h.pos]
  constructor
  · intro he
    have hm : s.readPos + q.length ≡ s.readPos + 0 [MOD logBufferSize] := by
      rw [Nat.ModEq,he,Nat.add_zero,Nat.mod_eq_of_lt hlt]
    exact (Nat.modEq_zero_iff_dvd).mp (Nat.ModEq.add_left_cancel' _ hm)
  · rintro ⟨k,hk⟩
    rw [hk,Nat.add_mul_mod_self_left,Nat.mod_eq_of_lt hlt]

/-- A lapped ring is read from the stale read position: that is oldest-first
order only if the writer is back at exactly that position. -/
theorem unread_eq_newest_iff {s : State} {q : Bytes} (h : Represents s q)
    (hover : logBufferSize < q.length) :
    unread s = newest logBufferSize q ↔ logBufferSize ∣ q.length := by
  have hlt := h.lt
  have hlap : logBufferSize ≤ s.readPos + q.length := by omega
  have hback := writePos_eq_readPos_iff h
  rw [← hback]
  constructor
  · intro he
    have hlen := congrArg List.length he
    rw [length_unread_of_lapped h hlap,newest,List.length_drop] at hlen
    omega
  · intro hw
    obtain ⟨k,hk⟩ := hback.mp hw
    have hwin := Ring.holds_window h.holds le_rfl hover.le
    have hstart : (s.readPos + (q.length-logBufferSize)) % logBufferSize = s.readPos := by
      have hk' : q.length - logBufferSize = logBufferSize*(k-1) := by
        rw [hk,Nat.mul_sub_one]
      rw [hk',Nat.add_mul_mod_self_left,Nat.mod_eq_of_lt hlt]
    rw [← Ring.window_mod,hstart,Ring.window_wrapped hlt.le le_rfl (by omega),
      Nat.add_sub_cancel] at hwin
    simpa [unread,h.full,hlap,hw,newest] using hwin

theorem run_journal_writes (q : Bytes) (ds : List Bytes) :
    run journal q (ds.map Op.write) = q ++ ds.flatten := by
  induction ds generalizing q with
  | nil => simp
  | cons d ds ih => simp [journal,ih]

theorem flush_run_text {s : State} (hs : Drained s) {ops : List Op}
    (hops : ∀ op ∈ ops, op.Admissible) (hne : run journal [] ops ≠ []) :
    (flush (run logger s ops)).2 = flushHeader ++ unread (run logger s ops) ++ flushFooter := by
  obtain ⟨h,hq⟩ := represents_run hs hops
  rw [flush_text h hq,if_neg hne]

/-- Beyond the capacity, a flush transmits the newest bytes in order exactly when
the number of bytes written since the last reset is a multiple of the capacity. -/
theorem lapped_flush_iff {s : State} (hs : Drained s) {ops : List Op}
    (hops : ∀ op ∈ ops, op.Admissible)
    (hover : logBufferSize < (run journal [] ops).length) :
    (flush (run logger s ops)).2 =
        flushHeader ++ newest logBufferSize (run journal [] ops) ++ flushFooter ↔
      logBufferSize ∣ (run journal [] ops).length := by
  have hne : run journal [] ops ≠ [] := by
    intro h0
    simp [h0] at hover
  rw [flush_run_text hs hops hne,List.append_left_inj,List.append_right_inj]
  exact unread_eq_newest_iff (represents_run hs hops).1 hover

def fullRecords (n : ℕ) : List Op := (List.replicate n (List.replicate maxLogMsg 97)).map Op.write

theorem fullRecords_admissible (n : ℕ) : ∀ op ∈ fullRecords n, op.Admissible := by
  intro op hop
  obtain ⟨d,hd,rfl⟩ := List.mem_map.mp hop
  rw [List.eq_of_mem_replicate hd]
  refine ⟨?_,?_,?_⟩
  · rw [List.length_replicate]; decide
  · rw [List.length_replicate]
  · intro h0
    exact absurd (List.eq_of_mem_replicate h0) (by decide)

theorem fullRecords_length (n : ℕ) : (run journal [] (fullRecords n)).length = n*maxLogMsg := by
  rw [fullRecords,run_journal_writes]
  simp

theorem lapped_flush_two_laps :
    (flush (run logger boot (fullRecords 32))).2 =
      flushHeader ++ newest logBufferSize (run journal [] (fullRecords 32)) ++ flushFooter :=
  (lapped_flush_iff drained_boot (fullRecords_admissible 32)
    (by rw [fullRecords_length]; decide)).mpr (by rw [fullRecords_length]; decide)

/-- Seventeen full records from boot: the newest record is sent twice and the
overwritten one stands for nothing. -/
theorem lapped_flush_repeats :
    (∀ op ∈ fullRecords 17, op.Admissible) ∧
    logBufferSize < (run journal [] (fullRecords 17)).length ∧
    (flush (run logger boot (fullRecords 17))).2 ≠
      flushHeader ++ newest logBufferSize (run journal [] (fullRecords 17)) ++ flushFooter := by
  have hover : logBufferSize < (run journal [] (fullRecords 17)).length := by
    rw [fullRecords_length]
    decide
  refine ⟨fullRecords_admissible 17,hover,?_⟩
  have hne : run journal [] (fullRecords 17) ≠ [] := by
    intro h0
    simp [h0] at hover
  rw [flush_run_text drained_boot (fullRecords_admissible 17) hne,ne_eq,List.append_left_inj,
    List.append_right_inj,unread_eq_newest_iff (represents_run drained_boot
      (fullRecords_admissible 17)).1 hover,fullRecords_length]
  decide

/-- The count is the number of bytes that a flush sends between header and footer,
or zero and nothing is sent. -/
def CountsFlush (s : State) : Prop :=
  getUnreadCount s = 0 ∧ (flush s).2 = noLogs ∨
    ∃ log, (flush s).2 = flushHeader ++ log ++ flushFooter ∧ getUnreadCount s = log.length

theorem countsFlush_iff {s : State} {q : Bytes} (h : Represents s q) (hq : NulFree q) :
    CountsFlush s ↔ q = [] ∨ getUnreadCount s = (unread s).length := by
  have hz := getUnreadCount_eq_zero_iff h
  have htext := flush_text h hq
  by_cases h0 : q = []
  · simp only [h0,true_or,iff_true]
    exact Or.inl ⟨hz.mpr h0,by rw [htext,if_pos h0]⟩
  · rw [if_neg h0] at htext
    have hne : getUnreadCount s ≠ 0 := fun hc => h0 (hz.mp hc)
    rw [CountsFlush,htext]
    simp [hne,h0]

/-- The count is right exactly while the records since the last reset have not
reached the end of the ring, or have gone round it a whole number of times. -/
theorem unread_count_iff {ops : List Op} (hops : ∀ op ∈ ops, op.Admissible) :
    CountsFlush (run logger boot ops) ↔
      (run logger boot ops).readPos + (run journal [] ops).length < logBufferSize ∨
      logBufferSize ∣ (run journal [] ops).length := by
  obtain ⟨h,hq⟩ := represents_run drained_boot hops
  have hlt := h.lt
  rw [countsFlush_iff h hq]
  by_cases hlap : logBufferSize ≤ (run logger boot ops).readPos + (run journal [] ops).length
  · have hne : run journal [] ops ≠ [] := by
      intro h0
      rw [h0,List.length_nil] at hlap
      omega
    rw [getUnreadCount_of_lapped h hlap,length_unread_of_lapped h hlap,← writePos_eq_readPos_iff h]
    simp only [hne,false_or,Nat.not_lt.mpr hlap]
    omega
  · have hfit := Nat.lt_of_not_le hlap
    have hlen := congrArg List.length (unread_of_length_le h (by omega))
    simp only [hfit,true_or,iff_true]
    exact Or.inr ((getUnreadCount_of_lt h hfit).trans hlen.symm)

theorem unread_count_two_records :
    CountsFlush (run logger boot [.write (chars "boot\r\n"),.flush,.write (chars "up\r\n")]) :=
  (unread_count_iff (by decide)).mpr (Or.inl (by decide))

theorem readPos_run_writes (s : State) (ds : List Bytes) :
    (run logger s (ds.map Op.write)).readPos = s.readPos := by
  induction ds generalizing s with
  | nil => rfl
  | cons d ds ih =>
    have hstep : (write s d).readPos = s.readPos := by
      simp only [write]
      split_ifs <;> rfl
    simp [logger,ih,hstep]

/-- Seventeen full records: 4096 bytes are counted and 4352 are sent. -/
theorem unread_count_short :
    (∀ op ∈ fullRecords 17, op.Admissible) ∧
    getUnreadCount (run logger boot (fullRecords 17)) = 4096 ∧
    (unread (run logger boot (fullRecords 17))).length = 4352 ∧
    ¬ CountsFlush (run logger boot (fullRecords 17)) := by
  obtain ⟨h,hq⟩ := represents_run drained_boot (fullRecords_admissible 17)
  have hread : (run logger boot (fullRecords 17)).readPos = 0 := readPos_run_writes boot _
  have hlen : (run journal [] (fullRecords 17)).length = 17*256 := fullRecords_length 17
  have hwrite : (run logger boot (fullRecords 17)).writePos = 256 := by rw [h.pos,hread,hlen]; rfl
  have hlap : logBufferSize ≤ (run logger boot (fullRecords 17)).readPos +
      (run journal [] (fullRecords 17)).length := by
    rw [hread,hlen]
    decide
  have hne : run journal [] (fullRecords 17) ≠ [] := by
    intro h0
    simp [h0] at hlen
  have hcount : getUnreadCount (run logger boot (fullRecords 17)) = 4096 :=
    getUnreadCount_of_lapped h hlap
  have hsent : (unread (run logger boot (fullRecords 17))).length = 4352 := by
    rw [length_unread_of_lapped h hlap,hread,hwrite]
    rfl
  refine ⟨fullRecords_admissible 17,hcount,hsent,?_⟩
  rw [countsFlush_iff h hq,hcount,hsent]
  simp [hne]

end Logger
end EmbeddedShell
