import Mathlib.Data.List.Induction
import EmbeddedShell.Execution
import EmbeddedShell.Memory
import EmbeddedShell.Uart

/-!
# The DHCP task

`pollBody` is one iteration of the endless loop of `dhcpTask` for a given answer
of `dhcp_supplied_address`. Between two polls the DHCP client of the stack may
move to another state and set the interface address, unless it has been stopped;
nothing in the firmware starts it again.
-/

namespace EmbeddedShell
namespace Network

open CString Execution

inductive DhcpState
  | off | requesting | init | rebooting | rebinding | renewing | selecting | informing
  | checking | permanent | bound | releasing | backingOff
  deriving DecidableEq

/-- The local counter and flag of `Network.cpp` with the state of `s_netif`. -/
structure State where
  tries : ℕ
  dhcpUp : Bool
  dhcp : DhcpState
  ipAddr : ℕ
  netmask : ℕ
  gw : ℕ
  deriving DecidableEq

def ip4Addr (a b c d : ℕ) : ℕ := a + 256*(b + 256*(c + 256*d))

def ip4addrNtoa (a : ℕ) : Bytes :=
  decimal (a%256) ++ chars "." ++ decimal (a/256%256) ++ chars "." ++
    decimal (a/256/256%256) ++ chars "." ++ decimal (a/256/256/256%256)

def networkPrintInfo (n : State) : Bytes :=
  Uart.printf (chars "[net] IP=" ++ ip4addrNtoa n.ipAddr ++ chars "  NM=" ++ ip4addrNtoa n.netmask ++
    chars "  GW=" ++ ip4addrNtoa n.gw ++ chars "\r\n")

def timeoutNotice : Bytes :=
  Uart.println (chars "[net] DHCP timeout " ++ [0xE2,0x80,0x94] ++ chars " using static 192.168.2.2")

def networkIsUp (n : State) : Bool := n.dhcpUp

def dhcpSuppliedAddress : DhcpState → Bool
  | .bound => true
  | .renewing => true
  | .rebinding => true
  | _ => false

def netifSetAddr (n : State) (ip nm gw : ℕ) : State := { n with ipAddr := ip, netmask := nm, gw := gw }

/-- `dhcp_release_and_stop` takes the address off the interface, unless DHCP is off. -/
def dhcpStop (n : State) : State :=
  if n.dhcp = .off then n else { netifSetAddr n 0 0 0 with dhcp := .off }

def fallbackIp : ℕ := ip4Addr 192 168 2 2

def pollBody (supplied : Bool) (n : State) : State × List Bytes :=
  if supplied then
    if n.dhcpUp then (n,[]) else ({ n with dhcpUp := true },[networkPrintInfo n])
  else
    let n := { n with dhcpUp := false, tries := wrap 32 ((n.tries+1 : ℕ) : ℤ) }
    if 50 < n.tries then
      let n := netifSetAddr (dhcpStop { n with tries := 0 }) fallbackIp (ip4Addr 255 255 255 0)
        (ip4Addr 192 168 2 1)
      let n := { n with dhcpUp := true }
      (n,[timeoutNotice,networkPrintInfo n])
    else (n,[])

/-- What the DHCP client of the stack has made of the interface by the next poll. -/
structure Activity where
  dhcp : DhcpState
  ipAddr : ℕ
  netmask : ℕ
  gw : ℕ
  deriving DecidableEq

def progress (n : State) (a : Activity) : State :=
  if n.dhcp = .off then n
  else { n with dhcp := a.dhcp, ipAddr := a.ipAddr, netmask := a.netmask, gw := a.gw }

def dhcpTask : Machine State Activity Bytes
  | n, a => pollBody (dhcpSuppliedAddress (progress n a).dhcp) (progress n a)

def started (d : DhcpState) : State := ⟨0,false,d,0,0,0⟩

/-- Only `dhcp_stop` turns the client off, and a lease in use is a nonzero address. -/
structure Activity.Valid (a : Activity) : Prop where
  on : a.dhcp ≠ .off
  addr : dhcpSuppliedAddress a.dhcp = true → a.ipAddr ≠ 0

instance (a : Activity) : Decidable a.Valid :=
  decidable_of_iff (a.dhcp ≠ .off ∧ (dhcpSuppliedAddress a.dhcp = true → a.ipAddr ≠ 0))
    ⟨fun h => ⟨h.1,h.2⟩,fun h => ⟨h.on,h.addr⟩⟩

@[simp] theorem pollBody_lease (n : State) : (pollBody true n).1 = { n with dhcpUp := true } := by
  cases h : n.dhcpUp
  · simp [pollBody,h]
  · simp only [pollBody,h,if_true]
    rw [← h]

theorem pollBody_wait {n : State} (h : n.tries < 50) :
    pollBody false n = ({ n with dhcpUp := false, tries := n.tries+1 },[]) := by
  have hw : wrap 32 ((n.tries+1 : ℕ) : ℤ) = n.tries+1 := by
    rw [wrap_natCast,Nat.mod_eq_of_lt (by omega)]
  simp only [pollBody,hw,Bool.false_eq_true,if_false]
  rw [if_neg (by omega)]

theorem pollBody_fallback {n : State} (h : n.tries = 50) :
    (pollBody false n).1 = ⟨0,true,.off,fallbackIp,ip4Addr 255 255 255 0,ip4Addr 192 168 2 1⟩ ∧
    timeoutNotice ∈ (pollBody false n).2 := by
  have hw : wrap 32 ((50+1 : ℕ) : ℤ) = 51 := by decide
  simp only [pollBody,h,hw,Bool.false_eq_true,if_false]
  by_cases hoff : n.dhcp = .off
  · simp [dhcpStop,hoff,netifSetAddr]
  · simp [dhcpStop,hoff,netifSetAddr]

theorem pollBody_tries_le {n : State} (h : n.tries ≤ 50) (r : Bool) : (pollBody r n).1.tries ≤ 50 := by
  cases r with
  | true => simpa using h
  | false =>
    by_cases hlt : n.tries < 50
    · rw [pollBody_wait hlt]
      exact hlt
    · rw [(pollBody_fallback (by omega)).1]
      simp

/-- The flag reports after this poll whether the interface has an address. -/
def Truthful (n : State) (a : Activity) : Prop :=
  networkIsUp (dhcpTask n a).1 = true ↔ (dhcpTask n a).1.ipAddr ≠ 0

/-- The fallback is not yet installed, and a poll without a lease that does not
install it finds no address. -/
def Covered (n : State) (a : Activity) : Prop :=
  n.dhcp ≠ .off ∧ (dhcpSuppliedAddress a.dhcp = true ∨ a.ipAddr = 0 ∨ n.tries = 50)

instance (n : State) (a : Activity) : Decidable (Covered n a) := inferInstanceAs (Decidable (_ ∧ _))

/-- What holds before every poll of a run in which the flag never lied: a stopped
client means that the fallback was installed at the poll just before. -/
def Fresh (n : State) : Prop := n.tries ≤ 50 ∧ (n.dhcp = .off → n.tries = 0 ∧ n.ipAddr ≠ 0)

theorem dhcpTask_off {n : State} (a : Activity) (hoff : n.dhcp = .off) (ht : n.tries < 50) :
    (dhcpTask n a).1 = { n with dhcpUp := false, tries := n.tries+1 } := by
  have hp : progress n a = n := by simp [progress,hoff]
  have hs : dhcpSuppliedAddress n.dhcp = false := by
    rw [hoff]
    rfl
  rw [dhcpTask,hp,hs,pollBody_wait ht]

theorem dhcpTask_lease {n : State} {a : Activity} (hoff : n.dhcp ≠ .off)
    (hl : dhcpSuppliedAddress a.dhcp = true) :
    (dhcpTask n a).1 = ⟨n.tries,true,a.dhcp,a.ipAddr,a.netmask,a.gw⟩ := by
  simp [dhcpTask,progress,hoff,hl]

theorem dhcpTask_wait {n : State} {a : Activity} (hoff : n.dhcp ≠ .off)
    (hl : dhcpSuppliedAddress a.dhcp = false) (ht : n.tries < 50) :
    (dhcpTask n a).1 = ⟨n.tries+1,false,a.dhcp,a.ipAddr,a.netmask,a.gw⟩ := by
  have hp : progress n a = ⟨n.tries,n.dhcpUp,a.dhcp,a.ipAddr,a.netmask,a.gw⟩ := by
    simp [progress,hoff]
  rw [dhcpTask,hp,hl,pollBody_wait (n:=⟨n.tries,n.dhcpUp,a.dhcp,a.ipAddr,a.netmask,a.gw⟩) ht]

theorem dhcpTask_fallback {n : State} {a : Activity} (hoff : n.dhcp ≠ .off)
    (hl : dhcpSuppliedAddress a.dhcp = false) (ht : n.tries = 50) :
    (dhcpTask n a).1 = ⟨0,true,.off,fallbackIp,ip4Addr 255 255 255 0,ip4Addr 192 168 2 1⟩ := by
  have hp : progress n a = ⟨n.tries,n.dhcpUp,a.dhcp,a.ipAddr,a.netmask,a.gw⟩ := by
    simp [progress,hoff]
  rw [dhcpTask,hp,hl]
  exact (pollBody_fallback (n:=⟨n.tries,n.dhcpUp,a.dhcp,a.ipAddr,a.netmask,a.gw⟩) ht).1

theorem covered_of_truthful {n : State} {a : Activity} (hn : Fresh n) (h : Truthful n a)
    (ha : a.Valid) : Covered n a ∧ Fresh (dhcpTask n a).1 := by
  obtain ⟨htries,hstop⟩ := hn
  by_cases hoff : n.dhcp = .off
  · obtain ⟨hz,hip⟩ := hstop hoff
    simp [Truthful,dhcpTask_off a hoff (by omega),networkIsUp,hip] at h
  · cases hl : dhcpSuppliedAddress a.dhcp with
    | true =>
      refine ⟨⟨hoff,Or.inl hl⟩,?_⟩
      simpa [dhcpTask_lease hoff hl,Fresh,ha.on] using htries
    | false =>
      by_cases hlt : n.tries < 50
      · have hz : a.ipAddr = 0 := by
          simpa [Truthful,dhcpTask_wait hoff hl hlt,networkIsUp] using h
        refine ⟨⟨hoff,Or.inr (Or.inl hz)⟩,?_⟩
        rw [dhcpTask_wait hoff hl hlt]
        exact ⟨hlt,fun h => absurd h ha.on⟩
      · have h50 : n.tries = 50 := by omega
        refine ⟨⟨hoff,Or.inr (Or.inr h50)⟩,?_⟩
        rw [dhcpTask_fallback hoff hl h50]
        exact ⟨by simp,fun _ => ⟨rfl,by decide⟩⟩

theorem truthful_of_covered {n : State} {a : Activity} (hn : n.tries ≤ 50) (h : Covered n a)
    (ha : a.Valid) : Truthful n a ∧ (dhcpTask n a).1.tries ≤ 50 := by
  obtain ⟨hoff,hcases⟩ := h
  cases hl : dhcpSuppliedAddress a.dhcp with
  | true => simp [Truthful,dhcpTask_lease hoff hl,networkIsUp,ha.addr hl,hn]
  | false =>
    by_cases hlt : n.tries < 50
    · have hz : a.ipAddr = 0 := by
        rcases hcases with hc | hc | hc
        · simp [hl] at hc
        · exact hc
        · omega
      rw [Truthful,dhcpTask_wait hoff hl hlt]
      exact ⟨by simp [networkIsUp,hz],hlt⟩
    · have hip : fallbackIp ≠ 0 := by decide
      simp [Truthful,dhcpTask_fallback hoff hl (show n.tries = 50 by omega),networkIsUp,hip]

/-- The flag tells the truth at every poll of a run exactly when no poll follows
the one that installs the static fallback, and every other poll without a lease
finds an interface without an address. -/
theorem network_up_truthful_iff (d : DhcpState) (hd : d ≠ .off) (acts : List Activity)
    (ha : ∀ a ∈ acts, a.Valid) :
    Along dhcpTask Truthful (started d) acts ↔ Along dhcpTask Covered (started d) acts := by
  have hv : Along dhcpTask (fun _ a => a.Valid) (started d) acts := along_of_forall ha
  constructor
  · intro h
    exact along_imp (fun n a hn hc => covered_of_truthful hn hc.1 hc.2)
      ⟨by simp [started],fun hoff => absurd hoff hd⟩ (h.and hv)
  · intro h
    exact along_imp (P:=fun n => n.tries ≤ 50) (fun n a hn hc => truthful_of_covered hn hc.1 hc.2)
      (by simp [started]) (h.and hv)

def found (d : DhcpState) (ip : ℕ) : Activity := ⟨d,ip,ip4Addr 255 255 255 0,0⟩

theorem network_up_lease_then_fallback :
    Along dhcpTask Truthful (started .selecting)
      ([found .selecting 0,found .bound (ip4Addr 10 0 0 7),found .renewing (ip4Addr 10 0 0 7)] ++
        List.replicate 50 (found .backingOff 0)) :=
  (network_up_truthful_iff .selecting (by decide) _ (by decide)).mpr (by decide)

theorem network_down_after_fallback :
    (∀ a ∈ List.replicate 52 (found .selecting 0), a.Valid) ∧
    (run dhcpTask (started .selecting) (List.replicate 51 (found .selecting 0))).ipAddr = fallbackIp ∧
    (run dhcpTask (started .selecting) (List.replicate 52 (found .selecting 0))).ipAddr = fallbackIp ∧
    networkIsUp (run dhcpTask (started .selecting) (List.replicate 52 (found .selecting 0))) = false ∧
    ¬ Along dhcpTask Truthful (started .selecting) (List.replicate 52 (found .selecting 0)) := by
  refine ⟨by decide,by decide +kernel,by decide +kernel,by decide +kernel,?_⟩
  intro h
  have hlast := (along_iff_split dhcpTask Truthful _ _).mp h (List.replicate 51 (found .selecting 0))
    (found .selecting 0) [] rfl
  revert hlast
  unfold Truthful
  decide +kernel

def poller : Machine State Bool Bytes
  | n, supplied => pollBody supplied n

/-- The task announces and installs the static address at this poll. -/
def Installs (n : State) (supplied : Bool) : Prop := timeoutNotice ∈ (poller n supplied).2

/-- The fallback comes after 51 polls in a row without a lease, and a lease
starts the count anew. -/
structure UninterruptedTimeout (n : State) (answers : List Bool) : Prop where
  timeout : ∀ pre r post, answers = pre ++ r::post → Installs (run poller n pre) r →
    ∃ older, pre++[r] = older ++ List.replicate 51 false
  restart : ∀ pre post, answers = pre ++ true::post → (run poller n (pre++[true])).tries = 0

theorem networkPrintInfo_head (n : State) : (networkPrintInfo n)[6]? = some 73 := by
  simp [networkPrintInfo,Uart.printf,Uart.print,cstr,chars]

theorem installs_iff {n : State} (h : n.tries ≤ 50) (r : Bool) :
    Installs n r ↔ r = false ∧ n.tries = 50 := by
  cases r with
  | true =>
    have hinfo : timeoutNotice ≠ networkPrintInfo n := by
      intro he
      have h6 := congrArg (fun t : Bytes => t[6]?) he
      have hd : timeoutNotice[6]? = some 68 := by decide
      simp [networkPrintInfo_head,hd] at h6
    cases hu : n.dhcpUp
    · simp [Installs,poller,pollBody,hu,hinfo]
    · simp [Installs,poller,pollBody,hu]
  | false =>
    by_cases hlt : n.tries < 50
    · simp [Installs,poller,pollBody_wait hlt,hlt.ne]
    · have h50 : n.tries = 50 := by omega
      simp [Installs,poller,h50,(pollBody_fallback h50).2]

theorem run_poller_tries {n : State} (h : n.tries ≤ 50) (answers : List Bool) :
    (run poller n answers).tries = (n.tries + answers.count false)%51 := by
  induction answers generalizing n with
  | nil =>
    rw [run_nil,List.count_nil,Nat.add_zero,Nat.mod_eq_of_lt (by omega)]
  | cons r answers ih =>
    rw [run_cons,ih (n:=(poller n r).1) (pollBody_tries_le h r)]
    cases r with
    | true => simp [poller]
    | false =>
      by_cases hlt : n.tries < 50
      · rw [poller,pollBody_wait hlt,List.count_cons_self]
        show (n.tries+1+answers.count false)%51 = _
        congr 1
        omega
      · have h50 : n.tries = 50 := by omega
        rw [poller,(pollBody_fallback h50).1,List.count_cons_self,h50]
        show (0+answers.count false)%51 = _
        omega

theorem exists_last_lease (answers : List Bool) : ∃ older k,
    answers = older ++ List.replicate k false ∧ (older = [] ∨ ∃ pre, older = pre ++ [true]) := by
  induction answers using List.reverseRecOn with
  | nil => exact ⟨[],0,rfl,Or.inl rfl⟩
  | append_singleton answers r ih =>
    cases r with
    | true => exact ⟨answers++[true],0,by simp,Or.inr ⟨answers,rfl⟩⟩
    | false =>
      obtain ⟨older,k,he,hlast⟩ := ih
      exact ⟨older,k+1,by rw [he,List.append_assoc,List.replicate_succ'],hlast⟩

/-- The polls without a lease before each lease come in whole timeouts. -/
def LeasesBetweenTimeouts (answers : List Bool) : Prop :=
  ∀ pre post, answers = pre ++ true::post → 51 ∣ pre.count false

theorem timeout_of_leasesBetweenTimeouts {d : DhcpState} {pre post : List Bool} {r : Bool}
    (h : LeasesBetweenTimeouts (pre ++ r::post)) (hi : Installs (run poller (started d) pre) r) :
    ∃ older, pre++[r] = older ++ List.replicate 51 false := by
  have htries := run_poller_tries (n:=started d) (by simp [started]) pre
  have hbound : (run poller (started d) pre).tries ≤ 50 := by omega
  obtain ⟨rfl,h50⟩ := (installs_iff hbound r).mp hi
  obtain ⟨older,k,rfl,hlast⟩ := exists_last_lease pre
  have hwhole : 51 ∣ older.count false := by
    rcases hlast with rfl | ⟨lead,rfl⟩
    · simp
    · simpa using h lead (List.replicate k false ++ false::post) (by simp)
  have hk : k%51 = 50 := by
    rw [h50,List.count_append,List.count_replicate_self] at htries
    simp only [started] at htries
    omega
  refine ⟨older ++ List.replicate (k-50) false,?_⟩
  rw [List.append_assoc,List.append_assoc,← List.replicate_succ',← List.replicate_add]
  congr 2
  omega

/-- The fallback waits for an uninterrupted timeout exactly when every lease comes
after a multiple of 51 polls without one, that is when no lease is found while
the count is under way. -/
theorem uninterrupted_timeout_iff (d : DhcpState) (answers : List Bool) :
    UninterruptedTimeout (started d) answers ↔ LeasesBetweenTimeouts answers := by
  have htries : ∀ pre : List Bool, (run poller (started d) (pre++[true])).tries = pre.count false%51 := by
    intro pre
    rw [run_poller_tries (by simp [started])]
    simp [started]
  constructor
  · intro h pre post he
    exact Nat.dvd_of_mod_eq_zero ((htries pre).symm.trans (h.restart pre post he))
  · intro h
    refine ⟨?_,?_⟩
    · rintro pre r post rfl hi
      exact timeout_of_leasesBetweenTimeouts h hi
    · intro pre post he
      exact (htries pre).trans (Nat.mod_eq_zero_of_dvd (h pre post he))

theorem fallback_right_after_lease :
    Installs (run poller (started .selecting) (List.replicate 50 false ++ [true])) false ∧
    ¬ UninterruptedTimeout (started .selecting) (List.replicate 50 false ++ [true,false]) := by
  refine ⟨by unfold Installs; decide +kernel,?_⟩
  intro h
  obtain ⟨older,he⟩ := h.timeout (List.replicate 50 false ++ [true]) false [] rfl
    (by unfold Installs; decide +kernel)
  have hlen : older.length = 1 := by
    have hl := congrArg List.length he
    simp only [List.length_append,List.length_replicate,List.length_singleton] at hl
    omega
  have h50 : (older ++ List.replicate 51 false)[50]? = some true := by
    rw [← he]
    decide +kernel
  rw [List.getElem?_append_right (by omega),List.getElem?_replicate,hlen] at h50
  simp at h50

end Network
end EmbeddedShell
