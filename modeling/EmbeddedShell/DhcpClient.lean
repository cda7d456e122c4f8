import EmbeddedShell.DhcpRequests

/-!
# The DHCP client

The state machine of `dhcp.c` with its two timers: what a tick, a received message, an
answer to the address probe, a change of the link and a stop do to the client and to the
address of the interface. The main result is that no address outlives its lease.
-/

namespace EmbeddedShell
namespace Dhcp

open CString PbufBytes Execution

/-- The client with its timers, and the address of the interface. -/
structure Lease where
  client : Client
  leaseUsed : ℕ
  t0Timeout : ℕ
  t1Timeout : ℕ
  t2Timeout : ℕ
  t1RenewTime : ℕ
  t2RebindTime : ℕ
  offeredT0Lease : UInt32
  offeredT1Renew : UInt32
  offeredT2Rebind : UInt32
  offeredSnMask : UInt32
  offeredGwAddr : UInt32
  subnetMaskGiven : Bool
  addr : UInt32
  netmask : UInt32
  gw : UInt32

/-- What the rest of the stack grants a step: a pbuf for a first and a second message, a
control block, and a link. -/
structure Room where
  message : Bool
  second : Bool
  pcb : Bool
  linkUp : Bool

def call (r : Request) (granted : Bool) (n : Netif) (s : Lease) : Lease × List Datagram :=
  let c := send r granted { n with ipAddr := s.addr } s.client
  ({ s with client := c.1 },c.2.toList)

/-- `dhcp_release_and_stop`, with the lease and the address. -/
def stop (room : Room) (n : Netif) (s : Lease) : Lease × List Datagram :=
  if s.client.state = .off then (s,[])
  else
    let c := call .release room.message n s
    ({ c.1 with
        leaseUsed := 0, t0Timeout := 0, t1RenewTime := 0, t2RebindTime := 0
        offeredT0Lease := 0, offeredT1Renew := 0, offeredT2Rebind := 0
        offeredSnMask := 0, offeredGwAddr := 0
        addr := 0, netmask := 0, gw := 0 },c.2)

/-- `dhcp_start`; only the address and the numbers of `dhcp_create_msg` stay as they are. -/
def dhcpStart (room : Room) (n : Netif) (s : Lease) : Lease × List Datagram :=
  if n.mtu.toNat < 576 then (s,[])
  else
    let client : Client := ⟨.off,0,0,0,s.client.lastXid,s.client.rand,0,0⟩
    let cleared : Lease := ⟨client,0,0,0,0,0,0,0,0,0,0,0,false,s.addr,s.netmask,s.gw⟩
    if room.pcb = false then (cleared,[])
    else if room.linkUp then call .discover room.second n cleared
    else ({ cleared with client := dhcpSetState .init cleared.client },[])

def restart (room : Room) (n : Netif) (s : Lease) : Lease × List Datagram :=
  let a := stop room n s
  let b := dhcpStart room n a.1
  (b.1,a.2 ++ b.2)

/-- Seconds in ticks of the coarse timer, at least one. -/
def coarseTicks (secs : UInt32) : ℕ := max 1 (min ((secs+30).toNat/60) 0xffff)

def isInfinite (secs : UInt32) : Prop := secs = 0xffffffff

instance (secs : UInt32) : Decidable (isInfinite secs) := inferInstanceAs (Decidable (secs = 0xffffffff))

def classMask (addr : UInt32) : UInt32 :=
  if addr.toNat % 256 ≤ 127 then 0x000000ff
  else if 192 ≤ addr.toNat % 256 then 0x00ffffff
  else 0x0000ffff

def dhcpBind (s : Lease) : Lease :=
  let t0 := if isInfinite s.offeredT0Lease then s.t0Timeout else coarseTicks s.offeredT0Lease
  let t1 := if isInfinite s.offeredT1Renew then s.t1Timeout else coarseTicks s.offeredT1Renew
  let renew := if isInfinite s.offeredT1Renew then s.t1RenewTime else coarseTicks s.offeredT1Renew
  let t2 := if isInfinite s.offeredT2Rebind then s.t2Timeout else coarseTicks s.offeredT2Rebind
  let rebind := if isInfinite s.offeredT2Rebind then s.t2RebindTime else coarseTicks s.offeredT2Rebind
  let mask := if s.subnetMaskGiven then s.offeredSnMask else classMask s.client.offeredIpAddr
  let gw := if s.offeredGwAddr = 0 then (s.client.offeredIpAddr &&& mask) ||| 0x01000000 else s.offeredGwAddr
  { s with
    client := dhcpSetState .bound s.client
    leaseUsed := 0, t0Timeout := t0
    t1Timeout := if t2 ≤ t1 ∧ 0 < t2 then 0 else t1
    t1RenewTime := renew, t2Timeout := t2, t2RebindTime := rebind
    addr := s.client.offeredIpAddr, netmask := mask, gw := gw }

def dhcpHandleAck (opts : RxOptions) (yiaddr : UInt32) (s : Lease) : Lease :=
  let t0 := match opts .leaseTime with
    | some v => UInt32.ofNat v
    | none => s.offeredT0Lease
  { s with
    client := { s.client with offeredIpAddr := yiaddr }
    offeredT0Lease := t0
    offeredT1Renew := match opts .t1 with
      | some v => UInt32.ofNat v
      | none => t0/2
    offeredT2Rebind := match opts .t2 with
      | some v => UInt32.ofNat v
      | none => t0*7/8
    offeredSnMask := match opts .subnetMask with
      | some v => UInt32.ofNat (htonl v)
      | none => 0
    subnetMaskGiven := (opts .subnetMask).isSome
    offeredGwAddr := match opts .router with
      | some v => UInt32.ofNat (htonl v)
      | none => 0 }

def dhcpCheck (s : Lease) : Lease :=
  { s with client := retryAfter (fun _ => 500) (dhcpSetState .checking s.client) }

def dhcpHandleNak (room : Room) (n : Netif) (s : Lease) : Lease × List Datagram :=
  call .discover room.message n
    { s with client := dhcpSetState .backingOff s.client, addr := 0, netmask := 0, gw := 0 }

/-- `dhcp_t1_timeout`. -/
def t1Expired (room : Room) (n : Netif) (s : Lease) : Lease × List Datagram :=
  if s.client.state = .requesting ∨ s.client.state = .bound ∨ s.client.state = .renewing then
    let c := call .renew room.message n s
    let left := (s.t2Timeout-s.leaseUsed)/2
    ({ c.1 with t1RenewTime := if 1 ≤ left then left else s.t1RenewTime },c.2)
  else (s,[])

/-- `dhcp_t2_timeout`. -/
def t2Expired (room : Room) (n : Netif) (s : Lease) : Lease × List Datagram :=
  if s.client.state = .requesting ∨ s.client.state = .bound ∨ s.client.state = .renewing ∨
      s.client.state = .rebinding then
    let c := call .rebind room.message n s
    let left := (s.t0Timeout-s.leaseUsed)/2
    ({ c.1 with t2RebindTime := if 1 ≤ left then left else s.t2RebindTime },c.2)
  else (s,[])

/-- The second and the third case of `dhcp_coarse_tmr`. -/
def countTimers (room : Room) (n : Netif) (s : Lease) : Lease × List Datagram :=
  let rebind := s.t2RebindTime
  let s := { s with t2RebindTime := rebind-1 }
  if rebind = 1 then t2Expired room n s
  else
    let renew := s.t1RenewTime
    let s := { s with t1RenewTime := renew-1 }
    if renew = 1 then t1Expired room n s else (s,[])

def dhcpCoarseTmr (room : Room) (n : Netif) (s : Lease) : Lease × List Datagram :=
  if s.client.state = .off then (s,[])
  else if s.t0Timeout = 0 then countTimers room n s
  else
    let s := { s with leaseUsed := wrap 16 ((s.leaseUsed+1 : ℕ) : ℤ) }
    if s.leaseUsed = s.t0Timeout then restart room n s else countTimers room n s

def dhcpTimeout (room : Room) (n : Netif) (s : Lease) : Lease × List Datagram :=
  match s.client.state with
  | .backingOff => call .discover room.message n s
  | .selecting => call .discover room.message n s
  | .requesting => if s.client.tries ≤ 5 then call .select room.message n s else restart room n s
  | .checking => if s.client.tries ≤ 1 then (dhcpCheck s,[]) else (dhcpBind s,[])
  | .rebooting => if s.client.tries < 2 then call .reboot room.message n s else call .discover room.message n s
  | _ => (s,[])

def dhcpFineTmr (room : Room) (n : Netif) (s : Lease) : Lease × List Datagram :=
  let timeout := s.client.requestTimeout
  let s := { s with client := { s.client with requestTimeout := timeout-1 } }
  if timeout = 1 then dhcpTimeout room n s else (s,[])

/-- A client that has an address already, and asks to keep it. -/
def renewed (state : ClientState) : Prop := state = .rebooting ∨ state = .rebinding ∨ state = .renewing

instance (state : ClientState) : Decidable (renewed state) :=
  inferInstanceAs (Decidable (state = .rebooting ∨ state = .rebinding ∨ state = .renewing))

/-- The switch of `dhcp_recv` over the type of an accepted message. -/
def received (room : Room) (n : Netif) (opts : RxOptions) (yiaddr : UInt32) (s : Lease) :
    Lease × List Datagram :=
  let state := s.client.state
  if opts .msgType = some MessageType.ack.code then
    if state = .requesting then (dhcpCheck (dhcpHandleAck opts yiaddr s),[])
    else if renewed state then (dhcpBind (dhcpHandleAck opts yiaddr s),[])
    else (s,[])
  else if opts .msgType = some MessageType.nak.code ∧ (state = .requesting ∨ renewed state) then
    dhcpHandleNak room n s
  else if opts .msgType = some MessageType.offer.code ∧ state = .selecting then
    let c := dhcpHandleOffer (opts .serverId) yiaddr room.message { n with ipAddr := s.addr } s.client
    ({ s with client := c.1 },c.2.toList)
  else (s,[])

/-- The checks of `dhcp_recv`: a reply to this interface and to the last request, with its
options and the address it gives. A parser that leaves the payload of a pbuf reads what
stands behind it, and may get any options from there. -/
def accepts (n : Netif) (p : Chain) (behind : Option RxOptions) (s : Lease) : Option (RxOptions × UInt32) :=
  let msg := bytes (p.take 1)
  let addrLen := min n.hwaddrLen.toNat 6
  if msg.length < snameOfs ∨ msg[0]? ≠ some 2 ∨ (msg.drop 28).take addrLen ≠ n.hwaddr.take addrLen ∨
      beValue ((msg.drop 4).take 4) ≠ s.client.xid.toNat then none
  else
    let yiaddr := UInt32.ofNat (leValue ((msg.drop 16).take 4))
    match parseReply p with
    | .ok opts => some (opts,yiaddr)
    | .error .wild => behind.map fun opts => (opts,yiaddr)
    | .error _ => none

def dhcpRecv (room : Room) (n : Netif) (p : Chain) (behind : Option RxOptions) (s : Lease) :
    Lease × List Datagram :=
  match accepts n p behind s with
  | none => (s,[])
  | some m => received room n m.1 m.2 s

def dhcpArpReply (room : Room) (n : Netif) (addr : UInt32) (s : Lease) : Lease × List Datagram :=
  if s.client.state = .checking ∧ addr = s.client.offeredIpAddr then call .decline room.message n s else (s,[])

def dhcpNetworkChanged (room : Room) (n : Netif) (s : Lease) : Lease × List Datagram :=
  let fresh := { s with client := { s.client with tries := 0 } }
  match s.client.state with
  | .rebinding => call .reboot room.message n fresh
  | .renewing => call .reboot room.message n fresh
  | .bound => call .reboot room.message n fresh
  | .rebooting => call .reboot room.message n fresh
  | .off => (s,[])
  | _ => call .discover room.message n fresh

inductive Input
  | coarse | fine | networkChanged | stop
  | message (p : Chain) (behind : Option RxOptions)
  | arpReply (addr : UInt32)

def step (n : Netif) : Machine Lease (Room × Input) Datagram := fun s x =>
  match x.2 with
  | .coarse => dhcpCoarseTmr x.1 n s
  | .fine => dhcpFineTmr x.1 n s
  | .message p behind => dhcpRecv x.1 n p behind s
  | .arpReply addr => dhcpArpReply x.1 n addr s
  | .networkChanged => dhcpNetworkChanged x.1 n s
  | .stop => stop x.1 n s

/-- The input makes the client take an address or confirm it. -/
def Binds (n : Netif) (s : Lease) : Input → Prop
  | .fine => s.client.state = .checking ∧ s.client.requestTimeout = 1 ∧ 1 < s.client.tries
  | .message p behind => renewed s.client.state ∧
      ∃ m, accepts n p behind s = some m ∧ m.1 .msgType = some MessageType.ack.code
  | _ => False

/-- The address is gone, or it and its lease are as before. -/
def Keeps (s s' : Lease) : Prop :=
  s'.addr = 0 ∨ (s'.addr = s.addr ∧ s'.client.state ≠ .off ∧ s'.t0Timeout = s.t0Timeout ∧
    s'.leaseUsed = s.leaseUsed)

theorem Keeps.refl {s : Lease} (h : s.client.state ≠ .off) : Keeps s s := Or.inr ⟨rfl,h,rfl,rfl⟩

theorem dhcpSetState_state (state : ClientState) (d : Client) : (dhcpSetState state d).state = state := by
  unfold dhcpSetState
  split
  · rfl
  · rename_i h
    exact (not_not.mp h).symm

theorem sendMsg_state (granted : Bool) (n : Netif) (messageType : MessageType) (add : Bytes → Bytes)
    (dest : UInt32) (d : Client) : (sendMsg granted n messageType add dest d).1.state = d.state := by
  cases granted with
  | false => rfl
  | true =>
    change (reuseXid messageType d).state = d.state
    unfold reuseXid
    split
    · split <;> rfl
    · rfl

theorem send_state {r : Request} (h : r ≠ .release) (granted : Bool) (n : Netif) (d : Client) :
    (send r granted n d).1.state ≠ .off := by
  cases r with
  | release => exact absurd rfl h
  | discover | select | decline | renew | rebind | reboot =>
    simp [send,dhcpDiscover,dhcpSelect,dhcpDecline,dhcpRenew,dhcpRebind,dhcpReboot,retryAfter,sendMsg_state,
      dhcpSetState_state]

theorem keeps_call {r : Request} (h : r ≠ .release) (granted : Bool) (n : Netif) (s : Lease) :
    Keeps s (call r granted n s).1 :=
  Or.inr ⟨rfl,send_state h granted _ _,rfl,rfl⟩

theorem stop_addr (room : Room) (n : Netif) {s : Lease} (h : s.client.state ≠ .off) :
    (stop room n s).1.addr = 0 := by
  rw [stop,if_neg h]

theorem dhcpStart_addr (room : Room) (n : Netif) (s : Lease) : (dhcpStart room n s).1.addr = s.addr := by
  unfold dhcpStart
  split
  · rfl
  · dsimp only
    split
    · rfl
    · split <;> rfl

theorem restart_addr (room : Room) (n : Netif) {s : Lease} (h : s.client.state ≠ .off) :
    (restart room n s).1.addr = 0 :=
  (dhcpStart_addr room n _).trans (stop_addr room n h)

theorem keeps_timeout (room : Room) (n : Netif) {s : Lease} (h : s.client.state ≠ .off)
    (hb : ¬ (s.client.state = .checking ∧ 1 < s.client.tries)) : Keeps s (dhcpTimeout room n s).1 := by
  unfold dhcpTimeout
  split
  · exact keeps_call (by decide) _ n s
  · exact keeps_call (by decide) _ n s
  · split
    · exact keeps_call (by decide) _ n s
    · exact Or.inl (restart_addr room n h)
  · rename_i hc
    rw [if_pos (by simpa [hc] using hb)]
    exact Or.inr ⟨rfl,by simp [dhcpCheck,retryAfter,dhcpSetState_state],rfl,rfl⟩
  · split
    · exact keeps_call (by decide) _ n s
    · exact keeps_call (by decide) _ n s
  · exact .refl h

theorem keeps_received (room : Room) (n : Netif) (opts : RxOptions) (yiaddr : UInt32) {s : Lease}
    (h : s.client.state ≠ .off) (hb : ¬ (renewed s.client.state ∧ opts .msgType = some MessageType.ack.code)) :
    Keeps s (received room n opts yiaddr s).1 := by
  unfold received
  dsimp only
  split
  · rename_i hack
    split
    · exact Or.inr ⟨rfl,by simp [dhcpCheck,retryAfter,dhcpSetState_state],rfl,rfl⟩
    · rw [if_neg fun hr => hb ⟨hr,hack⟩]
      exact .refl h
  · split
    · exact Or.inl rfl
    · split
      · refine Or.inr ⟨rfl,?_,rfl,rfl⟩
        cases hs : opts .serverId with
        | none => simpa [dhcpHandleOffer] using h
        | some v => exact send_state (r:=.select) (by decide) _ _ _
      · exact .refl h

theorem countTimers_lease (room : Room) (n : Netif) {s : Lease} (h : s.client.state ≠ .off) :
    (countTimers room n s).1.addr = s.addr ∧ (countTimers room n s).1.client.state ≠ .off ∧
      (countTimers room n s).1.t0Timeout = s.t0Timeout ∧ (countTimers room n s).1.leaseUsed = s.leaseUsed := by
  unfold countTimers t2Expired t1Expired
  dsimp only
  split
  · split
    · exact ⟨rfl,send_state (r:=.rebind) (by decide) _ _ _,rfl,rfl⟩
    · exact ⟨rfl,h,rfl,rfl⟩
  · split
    · split
      · exact ⟨rfl,send_state (r:=.renew) (by decide) _ _ _,rfl,rfl⟩
      · exact ⟨rfl,h,rfl,rfl⟩
    · exact ⟨rfl,h,rfl,rfl⟩

theorem keeps_networkChanged (room : Room) (n : Netif) {s : Lease} (h : s.client.state ≠ .off) :
    Keeps s (dhcpNetworkChanged room n s).1 := by
  unfold dhcpNetworkChanged
  dsimp only
  split
  · exact keeps_call (r:=.reboot) (by decide) _ n { s with client := { s.client with tries := 0 } }
  · exact keeps_call (r:=.reboot) (by decide) _ n { s with client := { s.client with tries := 0 } }
  · exact keeps_call (r:=.reboot) (by decide) _ n { s with client := { s.client with tries := 0 } }
  · exact keeps_call (r:=.reboot) (by decide) _ n { s with client := { s.client with tries := 0 } }
  · exact .refl h
  · exact keeps_call (r:=.discover) (by decide) _ n { s with client := { s.client with tries := 0 } }

theorem keeps_step (n : Netif) {s : Lease} {x : Room × Input} (h : s.client.state ≠ .off)
    (hb : ¬ Binds n s x.2) (hc : x.2 ≠ .coarse) : Keeps s (step n s x).1 := by
  obtain ⟨room,input⟩ := x
  cases input with
  | coarse => exact absurd rfl hc
  | fine =>
    change Keeps s (dhcpFineTmr room n s).1
    unfold dhcpFineTmr
    dsimp only
    split
    · rename_i ht
      refine keeps_timeout (s:={ s with client := { s.client with requestTimeout := s.client.requestTimeout-1 } })
        room n h fun hcheck => hb ⟨hcheck.1,ht,hcheck.2⟩
    · exact Or.inr ⟨rfl,h,rfl,rfl⟩
  | message p behind =>
    change Keeps s (dhcpRecv room n p behind s).1
    unfold dhcpRecv
    cases ha : accepts n p behind s with
    | none => exact .refl h
    | some m => exact keeps_received room n m.1 m.2 h fun hr => hb ⟨hr.1,m,ha,hr.2⟩
  | arpReply addr =>
    change Keeps s (dhcpArpReply room n addr s).1
    unfold dhcpArpReply
    split
    · exact keeps_call (r:=.decline) (by decide) _ n s
    · exact .refl h
  | networkChanged => exact keeps_networkChanged room n h
  | stop => exact Or.inl (stop_addr room n h)

theorem coarse_end (room : Room) (n : Netif) {s : Lease} (h : s.client.state ≠ .off)
    (hend : s.leaseUsed+1 = s.t0Timeout) (hm : s.t0Timeout ≤ 0xffff) : (dhcpCoarseTmr room n s).1.addr = 0 := by
  have hw : wrap 16 ((s.leaseUsed+1 : ℕ) : ℤ) = s.leaseUsed+1 := by
    rw [wrap_natCast,Nat.mod_eq_of_lt (by omega)]
  rw [dhcpCoarseTmr,if_neg h,if_neg (by omega),hw]
  dsimp only
  rw [if_pos hend]
  exact restart_addr (s:={ s with leaseUsed := s.leaseUsed+1 }) room n h

theorem coarse_goes_on (room : Room) (n : Netif) {s : Lease} (h : s.client.state ≠ .off)
    (hu : s.t0Timeout ≠ 0 → s.leaseUsed+1 < s.t0Timeout) (hm : s.t0Timeout ≤ 0xffff) :
    (dhcpCoarseTmr room n s).1.addr = s.addr ∧ (dhcpCoarseTmr room n s).1.client.state ≠ .off ∧
      (dhcpCoarseTmr room n s).1.t0Timeout = s.t0Timeout ∧
      (s.t0Timeout ≠ 0 → (dhcpCoarseTmr room n s).1.leaseUsed = s.leaseUsed+1) := by
  rw [dhcpCoarseTmr,if_neg h]
  by_cases h0 : s.t0Timeout = 0
  · obtain ⟨ha,hs,ht,-⟩ := countTimers_lease room n h
    rw [if_pos h0]
    exact ⟨ha,hs,ht,fun hne => absurd h0 hne⟩
  · have hlt := hu h0
    have hw : wrap 16 ((s.leaseUsed+1 : ℕ) : ℤ) = s.leaseUsed+1 := by
      rw [wrap_natCast,Nat.mod_eq_of_lt (by omega)]
    obtain ⟨ha,hs,ht,hused⟩ := countTimers_lease (s:={ s with leaseUsed := s.leaseUsed+1 }) room n h
    rw [if_neg h0,hw]
    dsimp only
    rw [if_neg (show ¬ s.leaseUsed+1 = s.t0Timeout by omega)]
    exact ⟨ha,hs,ht,fun _ => hused⟩

theorem off_step (n : Netif) {s : Lease} (h : s.client.state = .off) (x : Room × Input) :
    (step n s x).1.addr = s.addr := by
  obtain ⟨room,input⟩ := x
  cases input with
  | coarse => simp [step,dhcpCoarseTmr,h]
  | fine =>
    simp only [step,dhcpFineTmr]
    split
    · simp [dhcpTimeout,h]
    · rfl
  | message p behind =>
    simp only [step,dhcpRecv]
    split
    · rfl
    · simp [received,renewed,h]
  | arpReply addr => simp [step,dhcpArpReply,h]
  | networkChanged => simp [step,dhcpNetworkChanged,h]
  | stop => simp [step,stop,h]

theorem step_addr (n : Netif) {s : Lease} {x : Room × Input} (hb : ¬ Binds n s x.2) (h0 : s.addr = 0) :
    (step n s x).1.addr = 0 := by
  by_cases h : s.client.state = .off
  · rw [off_step n h x,h0]
  by_cases hc : x.2 = .coarse
  · obtain ⟨room,input⟩ := x
    cases hc
    change (dhcpCoarseTmr room n s).1.addr = 0
    have hkeep (used : ℕ) : (countTimers room n { s with leaseUsed := used }).1.addr = 0 :=
      (countTimers_lease (s:={ s with leaseUsed := used }) room n h).1.trans h0
    rw [dhcpCoarseTmr,if_neg h]
    split
    · exact hkeep s.leaseUsed
    · dsimp only
      split
      · exact restart_addr (s:={ s with leaseUsed := _ }) room n h
      · exact hkeep _
  · rcases keeps_step n h hb hc with h' | ⟨ha,-⟩
    · exact h'
    · exact ha.trans h0

theorem run_addr (n : Netif) {s : Lease} {xs : List (Room × Input)} (h0 : s.addr = 0)
    (hq : Along (step n) (fun s x => ¬ Binds n s x.2) s xs) : (run (step n) s xs).addr = 0 := by
  induction xs generalizing s with
  | nil => exact h0
  | cons x xs ih => exact ih (step_addr n hq.1 h0) hq.2

def Input.isCoarse : Input → Bool
  | .coarse => true
  | _ => false

/-- The minutes that pass in a run. -/
def minutes (xs : List (Room × Input)) : ℕ := xs.countP fun x => x.2.isCoarse

theorem lease_runs_out (n : Netif) {s : Lease} (h : s.client.state ≠ .off) (hu : s.leaseUsed < s.t0Timeout)
    (hm : s.t0Timeout ≤ 0xffff) {xs : List (Room × Input)}
    (hq : Along (step n) (fun s x => ¬ Binds n s x.2) s xs) (hc : s.t0Timeout ≤ s.leaseUsed+minutes xs) :
    (run (step n) s xs).addr = 0 := by
  induction xs generalizing s with
  | nil =>
    simp only [minutes,List.countP_nil] at hc
    omega
  | cons x xs ih =>
    obtain ⟨hb,hrest⟩ := hq
    by_cases hx : x.2 = .coarse
    · have hmin : minutes (x::xs) = minutes xs+1 := by
        rw [minutes,List.countP_cons_of_pos (by rw [hx]; rfl)]
        rfl
      obtain ⟨room,input⟩ := x
      cases hx
      by_cases hend : s.leaseUsed+1 = s.t0Timeout
      · exact run_addr (s:=(dhcpCoarseTmr room n s).1) n (coarse_end room n h hend hm) hrest
      · obtain ⟨-,hs,ht,hused⟩ := coarse_goes_on room n h (fun _ => by omega) hm
        have hnext := hused (by omega)
        refine ih hs ?_ ?_ hrest ?_
        · change (dhcpCoarseTmr room n s).1.leaseUsed < (dhcpCoarseTmr room n s).1.t0Timeout
          omega
        · change (dhcpCoarseTmr room n s).1.t0Timeout ≤ 0xffff
          omega
        · change (dhcpCoarseTmr room n s).1.t0Timeout ≤ (dhcpCoarseTmr room n s).1.leaseUsed+minutes xs
          omega
    · have hmin : minutes (x::xs) = minutes xs := by
        rw [minutes,List.countP_cons_of_neg]
        · rfl
        · cases hi : x.2 <;> simp_all [Input.isCoarse]
      rcases keeps_step n h hb hx with h0 | ⟨-,hs,ht,hused⟩
      · exact run_addr (s:=(step n s x).1) n h0 hrest
      · exact ih hs (by omega) (by omega) hrest (by omega)

theorem binds_step {n : Netif} {s : Lease} {x : Room × Input} (h : Binds n s x.2) :
    ∃ s', (step n s x).1 = dhcpBind s' ∧ s'.t0Timeout = s.t0Timeout := by
  obtain ⟨room,input⟩ := x
  cases input with
  | coarse | arpReply | networkChanged | stop => cases h
  | fine =>
    obtain ⟨hstate,htimeout,htries⟩ := h
    refine ⟨{ s with client := { s.client with requestTimeout := s.client.requestTimeout-1 } },?_,rfl⟩
    simp only [step,dhcpFineTmr,if_pos htimeout,dhcpTimeout,hstate,if_neg (Nat.not_le.mpr htries)]
  | message p behind =>
    obtain ⟨hr,m,ha,hack⟩ := h
    refine ⟨dhcpHandleAck m.1 m.2 s,?_,rfl⟩
    have hne : s.client.state ≠ .requesting := by
      rcases hr with hr | hr | hr <;> simp [hr]
    simp only [step,dhcpRecv,ha,received,if_pos hack,if_neg hne,if_pos hr]

theorem coarseTicks_pos (secs : UInt32) : 0 < coarseTicks secs := by
  unfold coarseTicks
  omega

theorem coarseTicks_le (secs : UInt32) : coarseTicks secs ≤ 0xffff := by
  unfold coarseTicks
  omega

theorem bound_state (s : Lease) : (dhcpBind s).client.state ≠ .off := by
  simp [dhcpBind,dhcpSetState_state]

/-- No address outlives its lease: once as many minutes have passed as the server has given
it for, and the lease has not been confirmed again, the interface has no address. -/
theorem address_expires (n : Netif) {s : Lease} {x : Room × Input} (hb : Binds n s x.2)
    (hf : (step n s x).1.offeredT0Lease ≠ 0xffffffff) {xs : List (Room × Input)}
    (hq : Along (step n) (fun s x => ¬ Binds n s x.2) (step n s x).1 xs)
    (hc : coarseTicks (step n s x).1.offeredT0Lease ≤ minutes xs) :
    (run (step n) (step n s x).1 xs).addr = 0 := by
  obtain ⟨s',hs,-⟩ := binds_step hb
  rw [hs] at hf hq hc ⊢
  have ht : (dhcpBind s').t0Timeout = coarseTicks (dhcpBind s').offeredT0Lease := if_neg hf
  have hpos := coarseTicks_pos (dhcpBind s').offeredT0Lease
  have hle := coarseTicks_le (dhcpBind s').offeredT0Lease
  have hused : (dhcpBind s').leaseUsed = 0 := rfl
  exact lease_runs_out n (bound_state s') (by omega) (by omega) hq (by omega)

def fullRoom : Room := ⟨true,true,true,true⟩

def probedLease : Lease :=
  ⟨{ offeredClient with state := .checking, tries := 2, requestTimeout := 1 },0,0,0,0,0,0,60,30,52,0,0,false,
    0,0,0⟩

theorem address_expires_minute :
    (step boardNetif probedLease (fullRoom,.fine)).1.addr = 0x3201a8c0 ∧
      (run (step boardNetif) (step boardNetif probedLease (fullRoom,.fine)).1
        [(fullRoom,.coarse)]).addr = 0 :=
  ⟨by decide,address_expires boardNetif (s:=probedLease) (x:=(fullRoom,.fine))
    (show Binds boardNetif probedLease .fine from ⟨rfl,rfl,by decide⟩) (by decide) ⟨id,trivial⟩
    (by decide)⟩

theorem along_coarse (n : Netif) (s : Lease) (rooms : List Room) :
    Along (step n) (fun s x => ¬ Binds n s x.2) s (rooms.map fun room => (room,.coarse)) := by
  induction rooms generalizing s with
  | nil => trivial
  | cons room rooms ih => exact ⟨id,ih _⟩

theorem coarse_run (n : Netif) {s : Lease} (h : s.client.state ≠ .off)
    (hu : s.t0Timeout ≠ 0 → s.leaseUsed < s.t0Timeout) (hm : s.t0Timeout ≤ 0xffff) (rooms : List Room) :
    (run (step n) s (rooms.map fun room => (room,.coarse))).addr =
      if s.t0Timeout ≠ 0 ∧ s.t0Timeout ≤ s.leaseUsed+rooms.length then 0 else s.addr := by
  induction rooms generalizing s with
  | nil =>
    rw [if_neg (by simp only [List.length_nil]; omega)]
    rfl
  | cons room rooms ih =>
    rw [List.map_cons,run_cons,List.length_cons]
    change (run (step n) (dhcpCoarseTmr room n s).1 _).addr = _
    by_cases hend : s.leaseUsed+1 = s.t0Timeout
    · rw [if_pos (by omega)]
      exact run_addr n (coarse_end room n h hend hm) (along_coarse n _ rooms)
    · obtain ⟨ha,hs,ht,hused⟩ := coarse_goes_on room n h (fun h0 => by have := hu h0; omega) hm
      rw [ih hs (by omega) (by omega),ha,ht]
      refine if_congr ?_ rfl rfl
      omega

/-- While nothing but the minutes passes, an address is kept for the lease and not longer; if
the lease is endless, the clock of the lease before it still counts. -/
theorem lease_kept_exactly (n : Netif) {s : Lease} {x : Room × Input} (hb : Binds n s x.2)
    (ht : s.t0Timeout < 2^16) (rooms : List Room) :
    (run (step n) (step n s x).1 (rooms.map fun room => (room,.coarse))).addr =
      let clock := if (step n s x).1.offeredT0Lease = 0xffffffff then s.t0Timeout
        else coarseTicks (step n s x).1.offeredT0Lease
      if clock ≠ 0 ∧ clock ≤ rooms.length then 0 else (step n s x).1.addr := by
  obtain ⟨s',hs,ht'⟩ := binds_step hb
  rw [hs,← ht']
  have hclock : (dhcpBind s').t0Timeout = if (dhcpBind s').offeredT0Lease = 0xffffffff then s'.t0Timeout
      else coarseTicks (dhcpBind s').offeredT0Lease := rfl
  have hused : (dhcpBind s').leaseUsed = 0 := rfl
  have hle : (dhcpBind s').t0Timeout ≤ 0xffff := by
    have := coarseTicks_le (dhcpBind s').offeredT0Lease
    rw [hclock]
    split <;> omega
  rw [coarse_run n (bound_state s') (by omega) hle,← hclock,hused,Nat.zero_add]

/-- A renewal for ever of a lease of two minutes. -/
theorem lease_kept_exactly_endless :
    (run (step boardNetif) (step boardNetif { probedLease with t0Timeout := 2, offeredT0Lease := 0xffffffff }
      (fullRoom,.fine)).1
        ([fullRoom,fullRoom].map fun room => (room,.coarse))).addr = 0 :=
  (lease_kept_exactly boardNetif (x:=(fullRoom,.fine))
    (show Binds boardNetif { probedLease with t0Timeout := 2, offeredT0Lease := 0xffffffff } .fine from
      ⟨rfl,rfl,by decide⟩) (by decide) [fullRoom,fullRoom]).trans (by decide)

end Dhcp
end EmbeddedShell
