import EmbeddedShell.DhcpClient

/-!
# Where the address comes from

The client of `dhcp.c` puts an address on the interface only after a server has
acknowledged that address in a message to this client, in every run of the timers,
messages, probes, link changes and stops.
-/

namespace EmbeddedShell
namespace Dhcp

open CString PbufBytes Execution

def ackOf (n : Netif) (s : Lease) : Input → List UInt32
  | .message p behind =>
    match accepts n p behind s with
    | some m => if m.1 .msgType = some MessageType.ack.code then [m.2] else []
    | none => []
  | _ => []

def acked (n : Netif) : Lease → List (Room × Input) → List UInt32
  | _, [] => []
  | s, x::xs => ackOf n s x.2 ++ acked n (step n s x).1 xs

/-- The address of the interface, and the one that is probed for it, are among `A`. -/
structure Justified (A : List UInt32) (s : Lease) : Prop where
  addr : s.addr = 0 ∨ s.addr ∈ A
  probed : s.client.state = .checking → s.client.offeredIpAddr ∈ A

theorem send_not_checking (r : Request) (granted : Bool) (n : Netif) (d : Client) (h : d.state ≠ .checking) :
    (send r granted n d).1.state ≠ .checking := by
  cases r with
  | discover | select | decline | renew | rebind | reboot =>
    simp [send,dhcpDiscover,dhcpSelect,dhcpDecline,dhcpRenew,dhcpRebind,dhcpReboot,retryAfter,sendMsg_state,
      dhcpSetState_state]
  | release =>
    simp only [send,dhcpReleaseAndStop]
    split
    · exact h
    · simp [dhcpSetState_state]

theorem Justified.mono {A B : List UInt32} {s : Lease} (h : Justified A s) (hAB : A ⊆ B) : Justified B s :=
  ⟨h.addr.imp_right fun ha => hAB ha,fun hc => hAB (h.probed hc)⟩

theorem Justified.call {A : List UInt32} {s : Lease} (ha : s.addr = 0 ∨ s.addr ∈ A) {r : Request}
    (hr : r ≠ .release) (granted : Bool) (n : Netif) : Justified A (call r granted n s).1 := by
  refine ⟨ha,fun hc => absurd hc ?_⟩
  cases r with
  | release => exact absurd rfl hr
  | discover | select | decline | renew | rebind | reboot =>
    simp [Dhcp.call,send,dhcpDiscover,dhcpSelect,dhcpDecline,dhcpRenew,dhcpRebind,dhcpReboot,retryAfter,
      sendMsg_state,dhcpSetState_state]

theorem Justified.stop {A : List UInt32} {s : Lease} (h : Justified A s) (room : Room) (n : Netif) :
    Justified A (Dhcp.stop room n s).1 := by
  by_cases hoff : s.client.state = .off
  · rw [Dhcp.stop,if_pos hoff]
    exact h
  · refine ⟨Or.inl (stop_addr room n hoff),fun hc => absurd hc ?_⟩
    simp [Dhcp.stop,hoff,Dhcp.call,send,dhcpReleaseAndStop,dhcpSetState_state]

theorem Justified.dhcpStart {A : List UInt32} {s : Lease} (h : Justified A s) (room : Room) (n : Netif) :
    Justified A (Dhcp.dhcpStart room n s).1 := by
  unfold Dhcp.dhcpStart
  split
  · exact h
  · dsimp only
    split
    · exact ⟨h.addr,fun hc => by cases hc⟩
    · split
      · refine Justified.call ?_ (by decide) _ n
        exact h.addr
      · exact ⟨h.addr,fun hc => by simp [dhcpSetState_state] at hc⟩

theorem Justified.restart {A : List UInt32} {s : Lease} (h : Justified A s) (room : Room) (n : Netif) :
    Justified A (Dhcp.restart room n s).1 :=
  (h.stop room n).dhcpStart room n

theorem Justified.countTimers {A : List UInt32} {s : Lease} (h : Justified A s) (room : Room) (n : Netif) :
    Justified A (Dhcp.countTimers room n s).1 := by
  unfold Dhcp.countTimers t2Expired t1Expired
  dsimp only
  split
  · split
    · have hc := Justified.call (s:={ s with t2RebindTime := s.t2RebindTime-1 }) (r:=.rebind) h.addr (by decide)
        room.message n
      exact ⟨hc.addr,hc.probed⟩
    · exact ⟨h.addr,h.probed⟩
  · split
    · split
      · have hc := Justified.call (s:={ s with t2RebindTime := s.t2RebindTime-1, t1RenewTime := s.t1RenewTime-1 })
          (r:=.renew) h.addr (by decide) room.message n
        exact ⟨hc.addr,hc.probed⟩
      · exact ⟨h.addr,h.probed⟩
    · exact ⟨h.addr,h.probed⟩

theorem Justified.coarse {A : List UInt32} {s : Lease} (h : Justified A s) (room : Room) (n : Netif) :
    Justified A (dhcpCoarseTmr room n s).1 := by
  have hused (used : ℕ) : Justified A { s with leaseUsed := used } := ⟨h.addr,h.probed⟩
  unfold dhcpCoarseTmr
  split
  · exact h
  · split
    · exact h.countTimers room n
    · dsimp only
      split
      · exact (hused _).restart room n
      · exact (hused _).countTimers room n

theorem Justified.timeout {A : List UInt32} {s : Lease} (h : Justified A s) (room : Room) (n : Netif) :
    Justified A (dhcpTimeout room n s).1 := by
  unfold dhcpTimeout
  split
  · exact Justified.call h.addr (by decide) _ n
  · exact Justified.call h.addr (by decide) _ n
  · split
    · exact Justified.call h.addr (by decide) _ n
    · exact h.restart room n
  · rename_i hc
    have hp := h.probed hc
    split
    · exact ⟨h.addr,fun _ => by simpa [dhcpCheck,retryAfter] using hp⟩
    · exact ⟨Or.inr hp,fun hb => by simp [dhcpBind,dhcpSetState_state] at hb⟩
  · split
    · exact Justified.call h.addr (by decide) _ n
    · exact Justified.call h.addr (by decide) _ n
  · exact h

theorem Justified.received {A : List UInt32} {s : Lease} (h : Justified A s) (room : Room) (n : Netif)
    {opts : RxOptions} {yiaddr : UInt32} (hA : opts .msgType = some MessageType.ack.code → yiaddr ∈ A) :
    Justified A (Dhcp.received room n opts yiaddr s).1 := by
  unfold Dhcp.received
  dsimp only
  split
  · rename_i hack
    have hy := hA hack
    split
    · exact ⟨h.addr,fun _ => by simpa [dhcpCheck,retryAfter,dhcpHandleAck] using hy⟩
    · split
      · exact ⟨Or.inr hy,fun hb => by simp [dhcpBind,dhcpSetState_state] at hb⟩
      · exact h
  · split
    · exact Justified.call (Or.inl rfl) (by decide) _ n
    · split
      · rename_i hsel
        refine ⟨h.addr,fun hc => absurd hc ?_⟩
        cases hs : opts .serverId with
        | none => simp [dhcpHandleOffer,hsel.2]
        | some v => exact send_not_checking .select _ _ _ (by simp [hsel.2])
      · exact h

theorem Justified.step {A : List UInt32} {s : Lease} (h : Justified A s) (n : Netif) (x : Room × Input) :
    Justified (A ++ ackOf n s x.2) (Dhcp.step n s x).1 := by
  obtain ⟨room,input⟩ := x
  have hmono := h.mono (List.subset_append_left A (ackOf n s input))
  cases input with
  | coarse => exact hmono.coarse room n
  | fine =>
    change Justified _ (dhcpFineTmr room n s).1
    have hdec : Justified (A ++ ackOf n s .fine)
        { s with client := { s.client with requestTimeout := s.client.requestTimeout-1 } } :=
      ⟨hmono.addr,hmono.probed⟩
    unfold dhcpFineTmr
    dsimp only
    split
    · exact hdec.timeout room n
    · exact hdec
  | message p behind =>
    change Justified _ (dhcpRecv room n p behind s).1
    unfold dhcpRecv
    cases ha : accepts n p behind s with
    | none => exact hmono
    | some m =>
      refine hmono.received room n fun hack => List.mem_append_right A ?_
      simp [ackOf,ha,hack]
  | arpReply addr =>
    change Justified _ (dhcpArpReply room n addr s).1
    unfold dhcpArpReply
    split
    · exact Justified.call hmono.addr (by decide) _ n
    · exact hmono
  | networkChanged =>
    change Justified _ (dhcpNetworkChanged room n s).1
    unfold dhcpNetworkChanged
    dsimp only
    split
    · exact Justified.call (s:={ s with client := { s.client with tries := 0 } }) hmono.addr (by decide) _ n
    · exact Justified.call (s:={ s with client := { s.client with tries := 0 } }) hmono.addr (by decide) _ n
    · exact Justified.call (s:={ s with client := { s.client with tries := 0 } }) hmono.addr (by decide) _ n
    · exact Justified.call (s:={ s with client := { s.client with tries := 0 } }) hmono.addr (by decide) _ n
    · exact hmono
    · exact Justified.call (s:={ s with client := { s.client with tries := 0 } }) hmono.addr (by decide) _ n
  | stop => exact hmono.stop room n

theorem Justified.run {A : List UInt32} {s : Lease} (h : Justified A s) (n : Netif) (xs : List (Room × Input)) :
    Justified (A ++ acked n s xs) (Execution.run (Dhcp.step n) s xs) := by
  induction xs generalizing A s with
  | nil => simpa [acked] using h
  | cons x xs ih =>
    have hnext := ih (h.step n x)
    rwa [List.append_assoc] at hnext

/-- The interface never has an address that no server has acknowledged to this client. -/
theorem address_was_acked (n : Netif) {s : Lease} (h0 : s.addr = 0) (hc : s.client.state ≠ .checking)
    (xs : List (Room × Input)) : (run (step n) s xs).addr = 0 ∨ (run (step n) s xs).addr ∈ acked n s xs :=
  (Justified.run (A:=[]) ⟨Or.inl h0,fun h => absurd h hc⟩ n xs).addr

/-- A client that has been started while the link was down. -/
def startedLease : Lease := ⟨{ idleClient with state := .init },0,0,0,0,0,0,0,0,0,0,0,false,0,0,0⟩

/-- A reply to the board that gives 192.168.1.50. -/
def reply (xid : UInt32) (os : List (UInt8 × Bytes)) : Bytes :=
  [2,1,6,0] ++ beBytes xid.toNat ++ List.replicate 8 0 ++ [192,168,1,50] ++ List.replicate 8 0 ++
    boardNetif.hwaddr ++ List.replicate 202 0 ++ [99,130,83,99] ++ encode os ++ [255]

def replied (xid : UInt32) (os : List (UInt8 × Bytes)) : Room × Input :=
  (fullRoom,.message [⟨reply xid os,(reply xid os).length⟩] none)

/-- The link comes up, 192.168.1.1 offers and gives a lease of five minutes, and nobody
answers the probes. -/
def leaseTaken : List (Room × Input) :=
  [(fullRoom,.networkChanged),replied 0xabcd0001 [(53,[2]),(54,[192,168,1,1])],
    replied 0xabcd0001 [(53,[5]),(51,[0,0,1,44])],(fullRoom,.fine),(fullRoom,.fine)]

theorem address_was_acked_lease :
    (run (step boardNetif) startedLease leaseTaken).addr = 0x3201a8c0 ∧
      (0x3201a8c0 : UInt32) ∈ acked boardNetif startedLease leaseTaken := by
  have haddr : (run (step boardNetif) startedLease leaseTaken).addr = 0x3201a8c0 := by decide +kernel
  have hacked := address_was_acked boardNetif (s:=startedLease) rfl (by decide) leaseTaken
  rw [haddr] at hacked
  exact ⟨haddr,hacked.resolve_left (by decide)⟩

/-- A timer of an old lease fires while the client asks for a new one. -/
def Strays (s : Lease) : Input → Prop
  | .coarse => s.client.state = .requesting ∧
      (s.t0Timeout = 0 ∨ wrap 16 ((s.leaseUsed+1 : ℕ) : ℤ) ≠ s.t0Timeout) ∧
      (s.t2RebindTime = 1 ∨ s.t1RenewTime = 1)
  | _ => False

instance (s : Lease) : (x : Input) → Decidable (Strays s x)
  | .coarse => inferInstanceAs (Decidable (s.client.state = .requesting ∧
      (s.t0Timeout = 0 ∨ wrap 16 ((s.leaseUsed+1 : ℕ) : ℤ) ≠ s.t0Timeout) ∧
      (s.t2RebindTime = 1 ∨ s.t1RenewTime = 1)))
  | .fine | .networkChanged | .stop | .message _ _ | .arpReply _ => isFalse id

/-- What `dhcp_supplied_address` says is true: the interface has an acknowledged address. -/
structure Honest (A : List UInt32) (s : Lease) : Prop where
  justified : Justified A s
  supplied : suppliedAddress s.client → s.addr ∈ A

theorem Honest.of_not_supplied {A : List UInt32} {s : Lease} (h : Justified A s)
    (hs : ¬ suppliedAddress s.client) : Honest A s :=
  ⟨h,fun hsup => absurd hsup hs⟩

/-- Only a renewal and a rebinding leave the client with the word that it has an address. -/
theorem call_not_supplied {r : Request} (h : r = .discover ∨ r = .select ∨ r = .decline ∨ r = .reboot)
    (granted : Bool) (n : Netif) (s : Lease) : ¬ suppliedAddress (call r granted n s).1.client := by
  rcases h with rfl | rfl | rfl | rfl <;>
    simp [suppliedAddress,call,send,dhcpDiscover,dhcpSelect,dhcpDecline,dhcpReboot,retryAfter,sendMsg_state,
      dhcpSetState_state]

theorem stop_not_supplied (room : Room) (n : Netif) (s : Lease) : ¬ suppliedAddress (stop room n s).1.client := by
  by_cases h : s.client.state = .off
  · simp [stop,h,suppliedAddress]
  · simp [stop,h,suppliedAddress,call,send,dhcpReleaseAndStop,dhcpSetState_state]

theorem dhcpStart_not_supplied (room : Room) (n : Netif) {s : Lease} (h : ¬ suppliedAddress s.client) :
    ¬ suppliedAddress (dhcpStart room n s).1.client := by
  unfold dhcpStart
  split
  · exact h
  · dsimp only
    split
    · simp [suppliedAddress]
    · split
      · exact call_not_supplied (Or.inl rfl) _ n _
      · simp [suppliedAddress,dhcpSetState_state]

theorem restart_not_supplied (room : Room) (n : Netif) (s : Lease) :
    ¬ suppliedAddress (restart room n s).1.client :=
  dhcpStart_not_supplied room n (stop_not_supplied room n s)

/-- The timers keep the word, unless they stray. -/
theorem countTimers_supplied {A : List UInt32} {s : Lease} (room : Room) (n : Netif)
    (h : suppliedAddress s.client → s.addr ∈ A)
    (hs : s.client.state = .requesting → s.t2RebindTime ≠ 1 ∧ s.t1RenewTime ≠ 1) :
    suppliedAddress (countTimers room n s).1.client → (countTimers room n s).1.addr ∈ A := by
  unfold countTimers t2Expired t1Expired
  dsimp only
  split
  · rename_i h2
    split
    · rename_i hstate
      intro _
      rcases hstate with hr | hb | hr | hr
      · exact absurd h2 (hs hr).1
      · exact h (Or.inl hb)
      · exact h (Or.inr (Or.inl hr))
      · exact h (Or.inr (Or.inr hr))
    · exact h
  · split
    · rename_i h1
      split
      · rename_i hstate
        intro _
        rcases hstate with hr | hb | hr
        · exact absurd h1 (hs hr).2
        · exact h (Or.inl hb)
        · exact h (Or.inr (Or.inl hr))
      · exact h
    · exact h

theorem Honest.coarse {A : List UInt32} {s : Lease} (h : Honest A s) (room : Room) (n : Netif)
    (hs : ¬ Strays s .coarse) : Honest A (dhcpCoarseTmr room n s).1 := by
  refine ⟨h.justified.coarse room n,?_⟩
  unfold dhcpCoarseTmr
  split
  · exact h.supplied
  · split
    · rename_i h0
      exact countTimers_supplied room n h.supplied fun hr =>
        ⟨fun h2 => hs ⟨hr,Or.inl h0,Or.inl h2⟩,fun h1 => hs ⟨hr,Or.inl h0,Or.inr h1⟩⟩
    · dsimp only
      split
      · exact fun hsup => absurd hsup (restart_not_supplied room n _)
      · rename_i hne
        exact countTimers_supplied (s:={ s with leaseUsed := wrap 16 ((s.leaseUsed+1 : ℕ) : ℤ) }) room n h.supplied
          fun hr => ⟨fun h2 => hs ⟨hr,Or.inr hne,Or.inl h2⟩,fun h1 => hs ⟨hr,Or.inr hne,Or.inr h1⟩⟩

theorem Honest.timeout {A : List UInt32} {s : Lease} (h : Honest A s) (room : Room) (n : Netif) :
    Honest A (dhcpTimeout room n s).1 := by
  refine ⟨h.justified.timeout room n,?_⟩
  unfold dhcpTimeout
  split
  · exact fun hsup => absurd hsup (call_not_supplied (Or.inl rfl) _ n s)
  · exact fun hsup => absurd hsup (call_not_supplied (Or.inl rfl) _ n s)
  · split
    · exact fun hsup => absurd hsup (call_not_supplied (Or.inr (Or.inl rfl)) _ n s)
    · exact fun hsup => absurd hsup (restart_not_supplied room n s)
  · rename_i hc
    split
    · intro hsup
      simp [suppliedAddress,dhcpCheck,retryAfter,dhcpSetState_state] at hsup
    · exact fun _ => h.justified.probed hc
  · split
    · exact fun hsup => absurd hsup (call_not_supplied (Or.inr (Or.inr (Or.inr rfl))) _ n s)
    · exact fun hsup => absurd hsup (call_not_supplied (Or.inl rfl) _ n s)
  · exact h.supplied

theorem Honest.received {A : List UInt32} {s : Lease} (h : Honest A s) (room : Room) (n : Netif)
    {opts : RxOptions} {yiaddr : UInt32} (hA : opts .msgType = some MessageType.ack.code → yiaddr ∈ A) :
    Honest A (Dhcp.received room n opts yiaddr s).1 := by
  refine ⟨h.justified.received room n hA,?_⟩
  unfold Dhcp.received
  dsimp only
  split
  · rename_i hack
    split
    · intro hsup
      simp [suppliedAddress,dhcpCheck,retryAfter,dhcpSetState_state] at hsup
    · split
      · exact fun _ => hA hack
      · exact h.supplied
  · split
    · exact fun hsup => absurd hsup (call_not_supplied (Or.inl rfl) _ n _)
    · split
      · rename_i hsel
        cases hs : opts .serverId with
        | none => exact h.supplied
        | some v =>
          intro hsup
          simp [suppliedAddress,dhcpHandleOffer,dhcpSelect,retryAfter,sendMsg_state,dhcpSetState_state] at hsup
      · exact h.supplied

theorem Honest.step {A : List UInt32} {s : Lease} (h : Honest A s) (n : Netif) {x : Room × Input}
    (hs : ¬ Strays s x.2) : Honest (A ++ ackOf n s x.2) (Dhcp.step n s x).1 := by
  obtain ⟨room,input⟩ := x
  have hsub := List.subset_append_left A (ackOf n s input)
  have hmono : Honest (A ++ ackOf n s input) s := ⟨h.justified.mono hsub,fun hsup => hsub (h.supplied hsup)⟩
  cases input with
  | coarse => exact hmono.coarse room n hs
  | fine =>
    change Honest _ (dhcpFineTmr room n s).1
    have hdec : Honest (A ++ ackOf n s .fine)
        { s with client := { s.client with requestTimeout := s.client.requestTimeout-1 } } :=
      ⟨⟨hmono.justified.addr,hmono.justified.probed⟩,hmono.supplied⟩
    unfold dhcpFineTmr
    dsimp only
    split
    · exact hdec.timeout room n
    · exact hdec
  | message p behind =>
    change Honest _ (dhcpRecv room n p behind s).1
    unfold dhcpRecv
    cases ha : accepts n p behind s with
    | none => exact hmono
    | some m =>
      refine hmono.received room n fun hack => List.mem_append_right A ?_
      simp [ackOf,ha,hack]
  | arpReply addr =>
    refine ⟨h.justified.step n (room,.arpReply addr),?_⟩
    change suppliedAddress (dhcpArpReply room n addr s).1.client → (dhcpArpReply room n addr s).1.addr ∈ _
    unfold dhcpArpReply
    split
    · exact fun hsup => absurd hsup (call_not_supplied (Or.inr (Or.inr (Or.inl rfl))) _ n s)
    · exact hmono.supplied
  | networkChanged =>
    refine ⟨h.justified.step n (room,.networkChanged),?_⟩
    change suppliedAddress (dhcpNetworkChanged room n s).1.client → (dhcpNetworkChanged room n s).1.addr ∈ _
    have hreboot := call_not_supplied (r:=.reboot) (Or.inr (Or.inr (Or.inr rfl))) room.message n
      { s with client := { s.client with tries := 0 } }
    unfold dhcpNetworkChanged
    dsimp only
    split
    · exact fun hsup => absurd hsup hreboot
    · exact fun hsup => absurd hsup hreboot
    · exact fun hsup => absurd hsup hreboot
    · exact fun hsup => absurd hsup hreboot
    · exact hmono.supplied
    · exact fun hsup => absurd hsup (call_not_supplied (Or.inl rfl) _ n _)
  | stop =>
    exact .of_not_supplied (h.justified.step n (room,.stop)) (stop_not_supplied room n s)

theorem Honest.run {A : List UInt32} {s : Lease} (h : Honest A s) (n : Netif) {xs : List (Room × Input)}
    (hs : Along (Dhcp.step n) (fun s x => ¬ Strays s x.2) s xs) :
    Honest (A ++ acked n s xs) (Execution.run (Dhcp.step n) s xs) := by
  induction xs generalizing A s with
  | nil => simpa [acked] using h
  | cons x xs ih =>
    have hnext := ih (h.step n hs.1) hs.2
    rwa [List.append_assoc] at hnext

/-- A timer that strays gives the client the word, and no address. -/
theorem strays_step (n : Netif) {s : Lease} {x : Room × Input} (h : Strays s x.2) :
    (step n s x).1.client.state = (if s.t2RebindTime = 1 then .rebinding else .renewing) ∧
      (step n s x).1.addr = s.addr := by
  obtain ⟨room,input⟩ := x
  cases input with
  | fine | message | arpReply | networkChanged | stop => cases h
  | coarse =>
    obtain ⟨hr,hend,ht⟩ := h
    have hcount (used : ℕ) : (countTimers room n { s with leaseUsed := used }).1.client.state =
          (if s.t2RebindTime = 1 then .rebinding else .renewing) ∧
        (countTimers room n { s with leaseUsed := used }).1.addr = s.addr := by
      refine ⟨?_,(countTimers_lease (s:={ s with leaseUsed := used }) room n (by simp [hr])).1⟩
      by_cases h2 : s.t2RebindTime = 1
      · simp [countTimers,t2Expired,h2,hr,call,send,dhcpRebind,retryAfter,sendMsg_state,dhcpSetState_state]
      · have h1 := ht.resolve_left h2
        simp [countTimers,t1Expired,h2,h1,hr,call,send,dhcpRenew,retryAfter,sendMsg_state,dhcpSetState_state]
    change (dhcpCoarseTmr room n s).1.client.state = _ ∧ (dhcpCoarseTmr room n s).1.addr = s.addr
    rw [dhcpCoarseTmr,if_neg (by simp [hr])]
    split
    · exact hcount s.leaseUsed
    · rename_i h0
      dsimp only
      rw [if_neg (hend.resolve_left h0)]
      exact hcount _

/-- A refusal takes the address away and leaves the timers of its lease. -/
theorem refused_step (room : Room) (n : Netif) {s : Lease} {p : Chain} {behind : Option RxOptions}
    {m : RxOptions × UInt32} (ha : accepts n p behind s = some m)
    (hm : m.1 .msgType = some MessageType.nak.code) (hr : s.client.state = .requesting ∨ renewed s.client.state) :
    (step n s (room,.message p behind)).1.client.state = .selecting ∧
      (step n s (room,.message p behind)).1.addr = 0 ∧
      (step n s (room,.message p behind)).1.t1RenewTime = s.t1RenewTime ∧
      (step n s (room,.message p behind)).1.t2RebindTime = s.t2RebindTime := by
  have hstep : step n s (room,.message p behind) = dhcpHandleNak room n s := by
    have hne : ¬ m.1 .msgType = some MessageType.ack.code := by
      rw [hm]
      decide
    simp only [step,dhcpRecv,ha,received,if_neg hne,if_pos (And.intro hm hr)]
  rw [hstep]
  refine ⟨?_,rfl,rfl,rfl⟩
  simp [dhcpHandleNak,call,send,dhcpDiscover,retryAfter,sendMsg_state,dhcpSetState_state]

/-- When the client says that it has an address, it has one that was acknowledged, as long as
no timer of an old lease fires during a new request. Such a timer makes it say so at once, and
a refusal does not stop the timers. -/
theorem supplied_address_acked (n : Netif) {s : Lease} (h0 : s.addr = 0) (hc : s.client.state ≠ .checking)
    (hs : ¬ suppliedAddress s.client) {xs : List (Room × Input)}
    (hx : Along (step n) (fun s x => ¬ Strays s x.2) s xs) :
    (suppliedAddress (run (step n) s xs).client → (run (step n) s xs).addr ∈ acked n s xs) ∧
      (∀ x : Room × Input, Strays (run (step n) s xs) x.2 →
        (step n (run (step n) s xs) x).1.client.state =
            (if (run (step n) s xs).t2RebindTime = 1 then .rebinding else .renewing) ∧
          suppliedAddress (step n (run (step n) s xs) x).1.client ∧
          (step n (run (step n) s xs) x).1.addr = (run (step n) s xs).addr) ∧
      ∀ room p behind m, accepts n p behind (run (step n) s xs) = some m →
        m.1 .msgType = some MessageType.nak.code →
        (run (step n) s xs).client.state = .requesting ∨ renewed (run (step n) s xs).client.state →
        (step n (run (step n) s xs) (room,.message p behind)).1.client.state = .selecting ∧
          (step n (run (step n) s xs) (room,.message p behind)).1.addr = 0 ∧
          (step n (run (step n) s xs) (room,.message p behind)).1.t1RenewTime =
            (run (step n) s xs).t1RenewTime ∧
          (step n (run (step n) s xs) (room,.message p behind)).1.t2RebindTime =
            (run (step n) s xs).t2RebindTime := by
  have hstart : Honest [] s := .of_not_supplied ⟨Or.inl h0,fun h => absurd h hc⟩ hs
  refine ⟨(hstart.run n hx).supplied,fun x hstray => ?_,fun room p behind m => refused_step room n⟩
  obtain ⟨hstate,haddr⟩ := strays_step n hstray
  refine ⟨hstate,?_,haddr⟩
  rw [suppliedAddress,hstate]
  split <;> simp

/-- The lease is taken, the link changes, the server refuses the address and offers it again;
two minutes later the renewal timer of the lease has one minute left. -/
def leaseRefused : List (Room × Input) :=
  leaseTaken ++ [(fullRoom,.networkChanged),replied 0xabcd0002 [(53,[6])],
    replied 0xabcd0003 [(53,[2]),(54,[192,168,1,1])],(fullRoom,.coarse),(fullRoom,.coarse)]

theorem supplied_address_acked_stray :
    suppliedAddress (run (step boardNetif) startedLease (leaseRefused++[(fullRoom,.coarse)])).client ∧
      (run (step boardNetif) startedLease (leaseRefused++[(fullRoom,.coarse)])).addr = 0 := by
  have hquiet : Along (step boardNetif) (fun s x => ¬ Strays s x.2) startedLease leaseRefused := by decide +kernel
  have hstray : Strays (run (step boardNetif) startedLease leaseRefused) .coarse := by decide +kernel
  have haddr : (run (step boardNetif) startedLease leaseRefused).addr = 0 := by decide +kernel
  obtain ⟨-,hsup,hkeep⟩ := (supplied_address_acked boardNetif (s:=startedLease) rfl (by decide) (by decide)
    hquiet).2.1 (fullRoom,.coarse) hstray
  rw [run_append,run_cons,run_nil]
  exact ⟨hsup,hkeep.trans haddr⟩

end Dhcp
end EmbeddedShell
