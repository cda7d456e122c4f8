import EmbeddedShell.DhcpReply

/-!
# DHCP requests

The messages that the client of `dhcp.c` sends, with the state in which each of them
leaves it. A message is the fixed part, 68 bytes for options, and nothing else; what
stands in the options is said by `Request.options`, in the order of the writes.
-/

namespace EmbeddedShell
namespace Dhcp

open CString PbufBytes Execution

inductive ClientState
  | off | requesting | init | rebooting | rebinding | renewing | selecting | informing | checking
  | permanent | bound | releasing | backingOff
  deriving DecidableEq

/-- The fields of the interface that a message is made from. -/
structure Netif where
  mtu : UInt16
  hwaddr : Bytes
  hwaddr_length : hwaddr.length = 6
  hwaddrLen : UInt8
  hostname : Option Bytes
  ipAddr : UInt32

/-- `struct dhcp`, with the static number of `dhcp_create_msg` and the answers that
`LWIP_RAND` will give it. -/
structure Client where
  state : ClientState
  tries : ℕ
  requestTimeout : ℕ
  xid : UInt32
  lastXid : UInt32
  rand : ℕ → UInt32
  offeredIpAddr : UInt32
  serverIpAddr : UInt32

structure Datagram where
  message : Bytes
  dest : UInt32

def ipAddrBroadcast : UInt32 := 0xffffffff

def dhcpSetState (newState : ClientState) (d : Client) : Client :=
  if newState ≠ d.state then { d with state := newState, tries := 0, requestTimeout := 0 } else d

def suppliedAddress (d : Client) : Prop := d.state = .bound ∨ d.state = .renewing ∨ d.state = .rebinding

instance (d : Client) : Decidable (suppliedAddress d) :=
  inferInstanceAs (Decidable (d.state = .bound ∨ d.state = .renewing ∨ d.state = .rebinding))

/-- A request for an offer keeps the number of the exchange, a retry does as well. -/
def reuseXid (messageType : MessageType) (d : Client) : Client :=
  if messageType ≠ .request ∨ d.state = .rebooting then
    if d.tries = 0 then { d with xid := d.rand 0, lastXid := d.rand 0, rand := fun i => d.rand (i+1) }
    else { d with xid := d.lastXid }
  else d

def fixedPart (n : Netif) (messageType : MessageType) (d : Client) : Bytes :=
  let ciaddr := if messageType = .inform ∨ messageType = .decline ∨ messageType = .release ∨
    (messageType = .request ∧ (d.state = .renewing ∨ d.state = .rebinding)) then n.ipAddr else 0
  [1,1,n.hwaddrLen,0] ++ leBytes (htonl d.xid.toNat) ++ [0,0,0,0] ++ leBytes ciaddr.toNat ++
    List.replicate 12 0 ++ n.hwaddr ++ List.replicate 10 0 ++ List.replicate (snameLen+fileLen) 0 ++
    leBytes (htonl 0x63825363)

def dhcpCreateMsg (n : Netif) (messageType : MessageType) (d : Client) : Client × Bytes × Bytes :=
  let d := reuseXid messageType d
  (d,fixedPart n messageType d,dhcpOptionByte (dhcpOption [] 53 1) (UInt8.ofNat messageType.code))

/-- A message goes out if there is a pbuf for it. -/
def sendMsg (granted : Bool) (n : Netif) (messageType : MessageType) (add : Bytes → Bytes) (dest : UInt32)
    (d : Client) : Client × Option Datagram :=
  if granted then
    let m := dhcpCreateMsg n messageType d
    (m.1,some ⟨m.2.1 ++ dhcpOptionTrailer (add m.2.2),dest⟩)
  else (d,none)

/-- The number of tries and the time to the next one. -/
def retryAfter (msecs : ℕ → ℕ) (d : Client) : Client :=
  let tries := if d.tries < 255 then d.tries+1 else d.tries
  { d with tries := tries, requestTimeout := (msecs tries+499)/500 }

def addMaxMsgSize (value : ℕ) (options : Bytes) : Bytes := dhcpOptionShort (dhcpOption options 57 2) value

def addRequestedIp (addr : UInt32) (options : Bytes) : Bytes :=
  dhcpOptionLong (dhcpOption options 50 4) (htonl addr.toNat)

def addServerId (addr : UInt32) (options : Bytes) : Bytes :=
  dhcpOptionLong (dhcpOption options 54 4) (htonl addr.toNat)

def discoverRequestOptions : Bytes := [1,3,28]

def addParameterRequestList (options : Bytes) : Bytes :=
  discoverRequestOptions.foldl dhcpOptionByte (dhcpOption options 55 discoverRequestOptions.length)

/-- Twice the time with every try, one minute from the sixth on. -/
def doubling (tries : ℕ) : ℕ := (if tries < 6 then 2^tries else 60)*1000

def growing (step tries : ℕ) : ℕ := if tries < 10 then tries*step else 10*step

def dhcpDiscover (granted : Bool) (n : Netif) (d : Client) : Client × Option Datagram :=
  let d := dhcpSetState .selecting { d with offeredIpAddr := 0 }
  let s := sendMsg granted n .discover (fun options => addParameterRequestList (addMaxMsgSize n.mtu.toNat options))
    ipAddrBroadcast d
  (retryAfter doubling s.1,s.2)

def dhcpSelect (granted : Bool) (n : Netif) (d : Client) : Client × Option Datagram :=
  let d := dhcpSetState .requesting d
  let s := sendMsg granted n .request (fun options => dhcpOptionHostname (addParameterRequestList
    (addServerId d.serverIpAddr (addRequestedIp d.offeredIpAddr (addMaxMsgSize n.mtu.toNat options)))) n.hostname)
    ipAddrBroadcast d
  (retryAfter doubling s.1,s.2)

/-- `dhcp_decline`; it waits for ten seconds. -/
def dhcpDecline (granted : Bool) (n : Netif) (d : Client) : Client × Option Datagram :=
  let d := dhcpSetState .backingOff d
  let s := sendMsg granted n .decline (addRequestedIp d.offeredIpAddr) ipAddrBroadcast d
  (retryAfter (fun _ => 10*1000) s.1,s.2)

def dhcpRenew (granted : Bool) (n : Netif) (d : Client) : Client × Option Datagram :=
  let d := dhcpSetState .renewing d
  let s := sendMsg granted n .request (fun options => dhcpOptionHostname (addParameterRequestList
    (addMaxMsgSize n.mtu.toNat options)) n.hostname) d.serverIpAddr d
  (retryAfter (growing 2000) s.1,s.2)

def dhcpRebind (granted : Bool) (n : Netif) (d : Client) : Client × Option Datagram :=
  let d := dhcpSetState .rebinding d
  let s := sendMsg granted n .request (fun options => dhcpOptionHostname (addParameterRequestList
    (addMaxMsgSize n.mtu.toNat options)) n.hostname) ipAddrBroadcast d
  (retryAfter (growing 1000) s.1,s.2)

/-- `dhcp_reboot`; the message size is the least that is required. -/
def dhcpReboot (granted : Bool) (n : Netif) (d : Client) : Client × Option Datagram :=
  let d := dhcpSetState .rebooting d
  let s := sendMsg granted n .request (fun options => dhcpOptionHostname (addParameterRequestList
    (addRequestedIp d.offeredIpAddr (addMaxMsgSize 576 options))) n.hostname) ipAddrBroadcast d
  (retryAfter (growing 1000) s.1,s.2)

/-- `dhcp_release_and_stop`; the server is told if the address came from it. -/
def dhcpReleaseAndStop (granted : Bool) (n : Netif) (d : Client) : Client × Option Datagram :=
  if d.state = .off then (d,none)
  else
    let server := d.serverIpAddr
    let d := { d with serverIpAddr := 0, offeredIpAddr := 0 }
    let s := if suppliedAddress d then sendMsg granted n .release (addServerId server) server d else (d,none)
    (dhcpSetState .off s.1,s.2)

inductive Request
  | discover | select | decline | renew | rebind | reboot | release
  deriving DecidableEq

def send : Request → Bool → Netif → Client → Client × Option Datagram
  | .discover => dhcpDiscover
  | .select => dhcpSelect
  | .decline => dhcpDecline
  | .renew => dhcpRenew
  | .rebind => dhcpRebind
  | .reboot => dhcpReboot
  | .release => dhcpReleaseAndStop

def Request.messageType : Request → MessageType
  | .discover => .discover
  | .decline => .decline
  | .release => .release
  | _ => .request

/-- The name of the host, as much of it as there is room for. -/
def hostnameOption (n : Netif) (room : ℕ) : List (UInt8 × Bytes) :=
  match n.hostname with
  | none => []
  | some name => if (cstr name).length = 0 then [] else [(12,(cstr name).take room)]

/-- How many characters of the name a request has room for. -/
def Request.room : Request → Option ℕ
  | .select => some 41
  | .renew => some 53
  | .rebind => some 53
  | .reboot => some 47
  | _ => none

/-- What a request says about itself and the lease. -/
def Request.said (r : Request) (n : Netif) (d : Client) : List (UInt8 × Bytes) :=
  let size := (57,[UInt8.ofNat (n.mtu.toNat/2^8),UInt8.ofNat n.mtu.toNat])
  let wanted := (55,discoverRequestOptions)
  let address := (50,leBytes d.offeredIpAddr.toNat)
  let server := (54,leBytes d.serverIpAddr.toNat)
  (53,[UInt8.ofNat r.messageType.code])::match r with
    | .discover => [size,wanted]
    | .select => [size,address,server,wanted]
    | .decline => [address]
    | .renew => [size,wanted]
    | .rebind => [size,wanted]
    | .reboot => [(57,[2,64]),address,wanted]
    | .release => [server]

def Request.options (r : Request) (n : Netif) (d : Client) : List (UInt8 × Bytes) :=
  r.said n d ++ (match r.room with
    | some room => hostnameOption n room
    | none => [])

def Request.server (r : Request) (d : Client) : Option ℕ :=
  match r with
  | .select => some (htonl d.serverIpAddr.toNat)
  | .release => some (htonl d.serverIpAddr.toNat)
  | _ => none

def encode (os : List (UInt8 × Bytes)) : Bytes := os.flatMap fun o => o.1::UInt8.ofNat o.2.length::o.2

def Storable (o : UInt8 × Bytes) : Prop := o.1 ≠ 0 ∧ o.1 ≠ 255 ∧ o.2.length < 256

theorem fields_encode {os : List (UInt8 × Bytes)} (h : ∀ o ∈ os, Storable o) (rest : Bytes) :
    Fields (encode os ++ 255::rest) os rest := by
  induction os with
  | nil => exact .fin rest
  | cons o os ih =>
    obtain ⟨⟨hp,he,hl⟩,hos⟩ := List.forall_mem_cons.mp h
    have hlen : o.2.length = (UInt8.ofNat o.2.length).toNat := by
      rw [UInt8.toNat_ofNat',Nat.mod_eq_of_lt hl]
    have hf := (ih hos).option hp he hlen
    simpa [encode] using hf

theorem beBytes_beValue (a b c e : UInt8) : beBytes (beValue [a,b,c,e]) = [a,b,c,e] := by
  have ha := a.toNat_lt
  have hb := b.toNat_lt
  have hc := c.toNat_lt
  have he := e.toNat_lt
  simp only [beBytes,beValue,List.foldl_cons,List.foldl_nil,List.cons.injEq,and_true]
  refine ⟨?_,?_,?_,?_⟩ <;> rw [← UInt8.toNat_inj,UInt8.toNat_ofNat'] <;> omega

/-- An address goes out as it lies in memory. -/
theorem beBytes_htonl (v : ℕ) : beBytes (htonl v) = leBytes v :=
  beBytes_beValue _ _ _ _

theorem length_leBytes (v : ℕ) : (leBytes v).length = 4 := rfl

theorem length_fixedPart (n : Netif) (messageType : MessageType) (d : Client) :
    (fixedPart n messageType d).length = optionsOfs := by
  simp only [fixedPart,List.length_append,length_leBytes,List.length_replicate,n.hwaddr_length,List.length_cons,
    List.length_nil]
  rfl

theorem xid_fixedPart (n : Netif) (messageType : MessageType) (d : Client) :
    ((fixedPart n messageType d).drop 4).take 4 = leBytes (htonl d.xid.toNat) := by
  rfl

theorem hostname_options (options : Bytes) (n : Netif) {room : ℕ} (h : options.length+room+3 = optionsLen) :
    dhcpOptionHostname options n.hostname = options ++ encode (hostnameOption n room) := by
  have hroom : optionsLen-options.length-3 = room := by omega
  cases hn : n.hostname with
  | none => simp [dhcpOptionHostname,hostnameOption,hn,encode]
  | some name =>
    by_cases h0 : (cstr name).length = 0
    · simp [dhcpOptionHostname,hostnameOption,hn,encode,h0]
    · simp [dhcpOptionHostname,hostnameOption,hn,encode,h0,hroom,dhcpOption,Nat.min_comm]

theorem length_hostnameOption (n : Netif) (room : ℕ) : (encode (hostnameOption n room)).length ≤ room+2 := by
  unfold hostnameOption
  split
  · simp [encode]
  · split <;> simp [encode]

theorem storable_hostnameOption (n : Netif) {room : ℕ} (h : room < 256) :
    ∀ o ∈ hostnameOption n room, Storable o := by
  unfold hostnameOption
  split
  · simp
  · split
    · simp
    · simp [Storable]
      omega

/-- A message that is made of some options in their order. -/
def Written (os : List (UInt8 × Bytes)) (d : Client) (dg : Datagram) : Prop :=
  ∃ fixed : Bytes, fixed.length = optionsOfs ∧ (fixed.drop 4).take 4 = leBytes (htonl d.xid.toNat) ∧
    dg.message = fixed ++ dhcpOptionTrailer (encode os)

theorem sendMsg_written {granted : Bool} {n : Netif} {messageType : MessageType} {add : Bytes → Bytes}
    {dest : UInt32} {d : Client} {dg : Datagram} {os : List (UInt8 × Bytes)}
    (h : (sendMsg granted n messageType add dest d).2 = some dg)
    (ha : add [53,1,UInt8.ofNat messageType.code] = encode os) :
    Written os (sendMsg granted n messageType add dest d).1 dg := by
  cases granted with
  | false => simp [sendMsg] at h
  | true =>
    simp only [sendMsg,if_true,Option.some.injEq] at h
    subst h
    exact ⟨_,length_fixedPart n messageType _,xid_fixedPart n messageType _,by rw [← ha]; rfl⟩

def Datagram.xid (dg : Datagram) : Bytes := (dg.message.drop 4).take 4

theorem Written.xid_eq {os : List (UInt8 × Bytes)} {d : Client} {dg : Datagram} (h : Written os d dg) :
    dg.xid = beBytes d.xid.toNat := by
  obtain ⟨fixed,hlen,hxid,hm⟩ := h
  rw [Datagram.xid,hm,List.drop_append_of_le_length (by rw [hlen]; decide),List.take_append_of_le_length
    (by rw [List.length_drop,hlen]; decide),hxid,leBytes,beBytes_htonl,leBytes,List.reverse_reverse]

theorem Written.of_xid {os : List (UInt8 × Bytes)} {d d' : Client} {dg : Datagram} (h : Written os d dg)
    (hx : d'.xid = d.xid) : Written os d' dg := by
  rwa [Written,hx]

@[simp] theorem dhcpSetState_offered (s : ClientState) (d : Client) :
    (dhcpSetState s d).offeredIpAddr = d.offeredIpAddr := by
  unfold dhcpSetState
  split <;> rfl

@[simp] theorem dhcpSetState_server (s : ClientState) (d : Client) :
    (dhcpSetState s d).serverIpAddr = d.serverIpAddr := by
  unfold dhcpSetState
  split <;> rfl

@[simp] theorem dhcpSetState_xid (s : ClientState) (d : Client) : (dhcpSetState s d).xid = d.xid := by
  unfold dhcpSetState
  split <;> rfl

theorem encode_append (os os' : List (UInt8 × Bytes)) : encode (os++os') = encode os ++ encode os' :=
  List.flatMap_append

theorem addRequestedIp_eq (addr : UInt32) (options : Bytes) :
    addRequestedIp addr options = options ++ encode [(50,leBytes addr.toNat)] := by
  rw [addRequestedIp,dhcpOptionLong,beBytes_htonl,dhcpOption,List.append_assoc]
  rfl

theorem addServerId_eq (addr : UInt32) (options : Bytes) :
    addServerId addr options = options ++ encode [(54,leBytes addr.toNat)] := by
  rw [addServerId,dhcpOptionLong,beBytes_htonl,dhcpOption,List.append_assoc]
  rfl

theorem send_written {r : Request} {granted : Bool} {n : Netif} {d : Client} {dg : Datagram}
    (h : (send r granted n d).2 = some dg) : Written (r.options n d) (send r granted n d).1 dg := by
  cases r with
  | discover => exact (sendMsg_written h rfl).of_xid rfl
  | select =>
    refine (sendMsg_written h ?_).of_xid rfl
    rw [hostname_options _ n (show _+41+3 = optionsLen from rfl),addServerId_eq,addRequestedIp_eq,
      dhcpSetState_server,dhcpSetState_offered]
    rfl
  | decline =>
    refine (sendMsg_written h ?_).of_xid rfl
    rw [addRequestedIp_eq,dhcpSetState_offered]
    rfl
  | renew =>
    refine (sendMsg_written h ?_).of_xid rfl
    rw [hostname_options _ n (show _+53+3 = optionsLen from rfl)]
    rfl
  | rebind =>
    refine (sendMsg_written h ?_).of_xid rfl
    rw [hostname_options _ n (show _+53+3 = optionsLen from rfl)]
    rfl
  | reboot =>
    refine (sendMsg_written h ?_).of_xid rfl
    rw [hostname_options _ n (show _+47+3 = optionsLen from rfl),addRequestedIp_eq,dhcpSetState_offered]
    rfl
  | release =>
    simp only [send,dhcpReleaseAndStop] at h ⊢
    split at h
    · cases h
    rename_i hoff
    rw [if_neg hoff]
    split at h
    · rename_i hs
      simp only [if_pos hs]
      refine (sendMsg_written h ?_).of_xid (dhcpSetState_xid _ _)
      rw [addServerId_eq]
      rfl
    · cases h

/-- The rest of the array is for the name, its code and its length, and the end marker. -/
theorem length_said (r : Request) (n : Netif) (d : Client) :
    (encode (r.said n d)).length + (match r.room with
      | some room => room+3
      | none => 1) ≤ optionsLen := by
  cases r <;> exact Nat.le_of_ble_eq_true rfl

theorem length_options (r : Request) (n : Netif) (d : Client) : (encode (r.options n d)).length < optionsLen := by
  have hsaid := length_said r n d
  rw [Request.options,encode_append,List.length_append]
  cases hr : r.room with
  | none =>
    rw [hr] at hsaid
    exact hsaid
  | some room =>
    rw [hr] at hsaid
    have hname := length_hostnameOption n room
    simp only [] at hsaid ⊢
    omega

theorem forall_options {P : UInt8 × Bytes → Prop} {r : Request} {n : Netif} {d : Client}
    (hs : ∀ o ∈ r.said n d, P o) (hn : ∀ room, room < 256 → ∀ o ∈ hostnameOption n room, P o) :
    ∀ o ∈ r.options n d, P o := by
  refine List.forall_mem_append.mpr ⟨hs,?_⟩
  cases r <;> first | exact hn _ (by decide) | exact List.forall_mem_nil _

theorem storable_options (r : Request) (n : Netif) (d : Client) : ∀ o ∈ r.options n d, Storable o := by
  refine forall_options ?_ fun room h => storable_hostnameOption n h
  cases r <;> simp [Request.said,Storable,length_leBytes,discoverRequestOptions]

theorem legal_hostnameOption (n : Netif) (room : ℕ) : ∀ o ∈ hostnameOption n room, Legal optionsOfs o := by
  unfold hostnameOption
  split
  · simp
  · split <;> simp [Legal,decode]

theorem legal_options (r : Request) (n : Netif) (d : Client) : ∀ o ∈ r.options n d, Legal optionsOfs o := by
  refine forall_options ?_ fun room _ => legal_hostnameOption n room
  cases r <;> simp [Request.said,Legal,decode,length_leBytes]

theorem given_hostnameOption (n : Netif) (room : ℕ) (i : OptionIdx) : given (hostnameOption n room) i = none := by
  unfold hostnameOption
  split
  · rfl
  · split <;> rfl

theorem given_said (r : Request) (n : Netif) (d : Client) :
    given (r.said n d) =
      Function.update (Function.update (fun _ => none) .serverId (r.server d)) .msgType (some r.messageType.code) := by
  funext i
  cases r <;> cases i <;> rfl

theorem given_options (r : Request) (n : Netif) (d : Client) : given (r.options n d) = given (r.said n d) := by
  funext i
  rw [Request.options,given_append]
  split
  · rw [given_hostnameOption,Option.or_none]
  · rw [given_nil,Option.or_none]

/-- Every message is as long as the fixed part and the array of options, so no write is outside
it, carries the number of the exchange, and reads back as the options of the request. -/
theorem requests_read_back {r : Request} {granted : Bool} {n : Netif} {d : Client} {dg : Datagram}
    (h : (send r granted n d).2 = some dg) :
    dg.message.length = optionsOfs+optionsLen ∧
      (dg.message.drop 4).take 4 = beBytes (send r granted n d).1.xid.toNat ∧
      (∃ rest, Fields (dg.message.drop optionsOfs) (r.options n d) rest) ∧
      parseReply [⟨dg.message,dg.message.length⟩] = .ok (Function.update (Function.update (fun _ => none) .serverId
        (r.server d)) .msgType (some r.messageType.code)) := by
  have hxid := (send_written h).xid_eq
  obtain ⟨fixed,hlen,-,hm⟩ := send_written h
  have hroom := length_options r n d
  have htotal : dg.message.length = optionsOfs+optionsLen := by
    simp only [hm,dhcpOptionTrailer,List.length_append,List.length_cons,List.length_nil,List.length_replicate,hlen]
    omega
  have hfields : Fields (dg.message.drop optionsOfs) (r.options n d)
      (List.replicate (optionsLen-((encode (r.options n d)).length+1)) 0) := by
    rw [hm,List.drop_left' hlen,dhcpOptionTrailer,List.append_assoc]
    exact fields_encode (storable_options r n d) _
  refine ⟨htotal,hxid,⟨_,hfields⟩,?_⟩
  have hg := (given_options r n d).trans (given_said r n d)
  have hnone : given (r.options n d) .overload = none := by
    rw [hg]
    rfl
  refine (parseReply_single (by rw [htotal]; decide) _).mpr ⟨r.options n d,[],[],⟨⟨_,hfields⟩,legal_options r n d,
    Or.inr ⟨by simp [hnone],rfl⟩,Or.inr ⟨by simp [hnone],rfl⟩⟩,?_⟩
  rw [List.append_nil,List.append_nil,hg]
  funext i
  cases i <;> rfl

def boardNetif : Netif := ⟨1500,[2,0,0,0,0,1],rfl,6,some (chars "stm32-f767"),0⟩

/-- A client that has an offer of 192.168.1.50 from 192.168.1.1. -/
def offeredClient : Client :=
  ⟨.selecting,1,4,0xabcd0001,0xabcd0001,fun _ => 0,0x3201a8c0,0x0101a8c0⟩

theorem requests_read_back_select :
    ∃ dg, (send .select true boardNetif offeredClient).2 = some dg ∧ dg.message.length = 308 ∧
      ∃ rest, Fields (dg.message.drop 240) [(53,[3]),(57,[5,220]),(50,[192,168,1,50]),(54,[192,168,1,1]),
        (55,[1,3,28]),(12,chars "stm32-f767")] rest := by
  obtain ⟨dg,h⟩ : ∃ dg, (send .select true boardNetif offeredClient).2 = some dg := ⟨_,rfl⟩
  exact ⟨dg,h,(requests_read_back h).1,(requests_read_back h).2.2.1⟩

/-- `dhcp_handle_offer`, with the values of the option and of the field `yiaddr`. -/
def dhcpHandleOffer (server : Option ℕ) (yiaddr : UInt32) (granted : Bool) (n : Netif) (d : Client) :
    Client × Option Datagram :=
  match server with
  | some v => dhcpSelect granted n
      { d with requestTimeout := 0, serverIpAddr := UInt32.ofNat (htonl v), offeredIpAddr := yiaddr }
  | none => (d,none)

/-- What happens to a client, and whether there is a pbuf for the message then. -/
inductive Event
  | call (r : Request) (granted : Bool)
  | offer (server : Option ℕ) (yiaddr : UInt32) (granted : Bool)

def client (n : Netif) : Machine Client Event Datagram := fun d e =>
  let s := match e with
    | .call r granted => send r granted n d
    | .offer server yiaddr granted => dhcpHandleOffer server yiaddr granted n d
  (s.1,s.2.toList)

def discovers (asked : List Bool) : List Event := asked.map (.call .discover)

def Event.Selects : Event → Prop
  | .call r _ => r = .select
  | .offer _ _ _ => True

theorem sent_discover {granted : Bool} {n : Netif} {d : Client} {dg : Datagram}
    (h : (dhcpDiscover granted n d).2 = some dg) : granted = true := by
  cases granted with
  | false => cases h
  | true => rfl

/-- A client that waits for an offer and has tried before. -/
structure Asking (d : Client) : Prop where
  selecting : d.state = .selecting
  tried : d.tries ≠ 0

theorem retryAfter_tries (msecs : ℕ → ℕ) (d : Client) : (retryAfter msecs d).tries ≠ 0 := by
  simp only [retryAfter]
  split <;> omega

/-- The first discover of an exchange draws a new number, if it has a pbuf. -/
theorem discover_first (n : Netif) {d : Client} (h : d.state ≠ .selecting) (granted : Bool) :
    Asking (dhcpDiscover granted n d).1 ∧
      (dhcpDiscover granted n d).1.lastXid = (if granted then d.rand 0 else d.lastXid) ∧
      (granted → (dhcpDiscover granted n d).1.xid = (dhcpDiscover granted n d).1.lastXid) := by
  refine ⟨⟨?_,retryAfter_tries _ _⟩,?_⟩
  all_goals cases granted <;>
    simp [dhcpDiscover,dhcpSetState,Ne.symm h,sendMsg,dhcpCreateMsg,reuseXid,retryAfter]

theorem discover_again (n : Netif) {d : Client} (h : Asking d) (granted : Bool) :
    Asking (dhcpDiscover granted n d).1 ∧ (dhcpDiscover granted n d).1.lastXid = d.lastXid ∧
      (dhcpDiscover granted n d).1.xid = if granted then d.lastXid else d.xid := by
  refine ⟨⟨?_,retryAfter_tries _ _⟩,?_⟩
  all_goals cases granted <;>
    simp [dhcpDiscover,dhcpSetState,h.selecting,h.tried,sendMsg,dhcpCreateMsg,reuseXid,retryAfter]

theorem select_xid (granted : Bool) (n : Netif) (d : Client) : (dhcpSelect granted n d).1.xid = d.xid := by
  have hs : (dhcpSetState .requesting d).state = .requesting := by
    unfold dhcpSetState
    split
    · rfl
    · rename_i h
      exact (not_not.mp h).symm
  cases granted <;> simp [dhcpSelect,sendMsg,dhcpCreateMsg,reuseXid,retryAfter,hs]

theorem select_sent {granted : Bool} {n : Netif} {d : Client} {dg : Datagram}
    (h : (dhcpSelect granted n d).2 = some dg) : dg.xid = beBytes d.xid.toNat := by
  rw [(send_written (r:=.select) h).xid_eq,← select_xid granted n d]
  rfl

theorem selects_step (n : Netif) (d : Client) {e : Event} (h : e.Selects) :
    (client n d e).1.xid = d.xid ∧ ∀ dg ∈ (client n d e).2, dg.xid = beBytes d.xid.toNat := by
  cases e with
  | call r granted =>
    cases h
    exact ⟨select_xid granted n d,fun dg hdg => select_sent (Option.mem_toList.mp hdg)⟩
  | offer server yiaddr granted =>
    cases server with
    | none => exact ⟨rfl,fun dg hdg => absurd hdg List.not_mem_nil⟩
    | some v =>
      refine ⟨select_xid granted n _,fun dg hdg => ?_⟩
      have hsent := select_sent (Option.mem_toList.mp hdg)
      exact hsent

theorem selects_run (n : Netif) (d : Client) {named : List Event} (h : ∀ e ∈ named, e.Selects) :
    ∀ dg ∈ trace (client n) d named, dg.xid = beBytes d.xid.toNat := by
  induction named generalizing d with
  | nil => simp
  | cons e named ih =>
    obtain ⟨he,hnamed⟩ := List.forall_mem_cons.mp h
    obtain ⟨hxid,hsent⟩ := selects_step n d he
    intro dg hdg
    rw [trace_cons,List.mem_append] at hdg
    rcases hdg with hdg | hdg
    · exact hsent dg hdg
    · rw [← hxid]
      exact ih _ hnamed dg hdg

theorem exchange_run (n : Netif) {d : Client} (h : Asking d) (asked : List Bool) {named : List Event}
    (hn : ∀ e ∈ named, e.Selects) (hx : d.xid = d.lastXid ∨ true ∈ asked) :
    ∀ dg ∈ trace (client n) d (discovers asked ++ named),
      dg.xid = beBytes d.lastXid.toNat := by
  induction asked generalizing d with
  | nil =>
    have hd : d.xid = d.lastXid := by simpa using hx
    rw [← hd]
    exact selects_run n d hn
  | cons g asked ih =>
    obtain ⟨hask,hlast,hxid⟩ := discover_again n h g
    intro dg hdg
    rw [discovers,List.map_cons,List.cons_append,trace_cons,List.mem_append] at hdg
    rcases hdg with hdg | hdg
    · have hsent : (dhcpDiscover g n d).2 = some dg := Option.mem_toList.mp hdg
      rw [sent_discover hsent,if_pos rfl] at hxid
      rw [(send_written (r:=.discover) hsent).xid_eq,← hxid,← sent_discover hsent]
      rfl
    · rw [← hlast]
      refine ih hask ?_ dg hdg
      rw [hxid,hlast]
      cases g with
      | true => exact Or.inl rfl
      | false => simpa using hx

/-- All messages of an exchange carry one number, however often they are sent. It is drawn
for the first message if there is a pbuf for it, and else it is an old one. -/
theorem exchange_keeps_xid (n : Netif) {d : Client} (h : d.state ≠ .selecting) {asked : List Bool}
    (ha : true ∈ asked) {named : List Event} (hn : ∀ e ∈ named, e.Selects) :
    ∀ dg ∈ trace (client n) d (discovers asked ++ named),
      dg.xid = beBytes (if asked.head? = some true then d.rand 0 else d.lastXid).toNat := by
  cases asked with
  | nil => cases ha
  | cons g asked =>
    obtain ⟨hask,hlast,hxid⟩ := discover_first n h g
    have hhead : (if (g::asked).head? = some true then d.rand 0 else d.lastXid) =
        (dhcpDiscover g n d).1.lastXid := by
      rw [hlast]
      cases g <;> rfl
    intro dg hdg
    rw [hhead]
    rw [discovers,List.map_cons,List.cons_append,trace_cons,List.mem_append] at hdg
    rcases hdg with hdg | hdg
    · have hsent : (dhcpDiscover g n d).2 = some dg := Option.mem_toList.mp hdg
      rw [(send_written (r:=.discover) hsent).xid_eq,← hxid (sent_discover hsent)]
      rfl
    · refine exchange_run n hask asked hn ?_ dg hdg
      cases g with
      | true => exact Or.inl (hxid rfl)
      | false => exact Or.inr (by simpa using ha)

def idleClient : Client := ⟨.off,0,0,0,0,fun i => 0xabcd0001+UInt32.ofNat i,0,0⟩

theorem exchange_keeps_xid_three :
    ∃ dg ∈ trace (client boardNetif) idleClient
      (discovers [true,true] ++ [.offer (some 0xc0a80101) 0x3201a8c0 true]), dg.xid = [0xab,0xcd,0,1] := by
  obtain ⟨dg,rest,h⟩ : ∃ dg rest, trace (client boardNetif) idleClient
      (discovers [true,true] ++ [.offer (some 0xc0a80101) 0x3201a8c0 true]) = dg::rest := ⟨_,_,rfl⟩
  have hmem : dg ∈ trace (client boardNetif) idleClient
      (discovers [true,true] ++ [.offer (some 0xc0a80101) 0x3201a8c0 true]) := by
    rw [h]
    exact List.mem_cons_self
  exact ⟨dg,hmem,exchange_keeps_xid boardNetif (show idleClient.state ≠ .selecting by decide)
    (show true ∈ [true,true] by decide) (by simp [Event.Selects]) dg hmem⟩

end Dhcp
end EmbeddedShell
