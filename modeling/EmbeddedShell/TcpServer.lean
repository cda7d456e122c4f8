import EmbeddedShell.EthernetIf
import EmbeddedShell.Network

/-!
# The echo server

`handleConnection` serves one client of the TCP server. The stack is a `Session`:
the packets that `netconn_recv` returns before its error, and the result of each
`netconn_write`. What the handler does is a list of events. The inner loop leaves
a packet at its end or at a failed write, and both leave through `netbuf_delete`.
-/

namespace EmbeddedShell
namespace TcpServer

open CString

/-- A packet: the payload that `ptr` is at, with the elements of the chain before
and behind it. -/
structure Netbuf where
  before : List Bytes
  payload : Bytes
  after : List Bytes

def netbufData (b : Netbuf) : Bytes := b.payload

/-- `netbuf_next`: -1 at the end, 1 when the end has been reached, 0 otherwise. -/
def netbufNext (b : Netbuf) : ℤ × Netbuf :=
  match b.after with
  | [] => (-1,b)
  | next::after => (if after = [] then 1 else 0,⟨b.before ++ [b.payload],next,after⟩)

/-- A chain as it is received, with at least one element. -/
structure Chain where
  first : Bytes
  rest : List Bytes

def Chain.netbuf (c : Chain) : Netbuf := ⟨[],c.first,c.rest⟩

def Chain.bytes (c : Chain) : Bytes := c.first ++ c.rest.flatten

/-- What the stack answers to one connection; a session ends with an error. -/
structure Session where
  remoteIp : ℕ
  remotePort : ℕ
  recvs : List Chain
  err : ℤ
  writeResult : ℕ → ℤ
  err_ne : err ≠ 0

/-- Calls of the handler. Packets are numbered in the order of their receipt. -/
inductive Event
  | recv (k : ℕ)
  | recvEnd (err : ℤ)
  | write (data : Bytes) (err : ℤ)
  | deleteBuf (k : ℕ)
  | close
  | deleteConn
  | print (text : Bytes)
  deriving DecidableEq

def rxNotice (len : ℕ) : Event :=
  .print (Uart.printf (chars "[tcp] rx " ++ decimal len ++ chars " bytes\r\n"))

def txError (err : ℤ) : Event :=
  .print (Uart.printf (chars "[tcp] tx error: " ++ EthernetIf.signedDecimal err ++ chars "\r\n"))

def peer (s : Session) : Bytes := Network.ip4addrNtoa s.remoteIp ++ chars ":" ++ decimal s.remotePort

def connected (s : Session) : Event :=
  .print (Uart.printf (chars "[tcp] client connected: " ++ peer s ++ chars "\r\n"))

def disconnected (s : Session) (err : ℤ) : Event :=
  .print (Uart.printf (chars "[tcp] client disconnected: " ++ peer s ++ chars " (err=" ++
    EthernetIf.signedDecimal err ++ chars ")\r\n"))

/-- The inner loop: `n` writes were made before. The result is `err`, the number
of writes, and the calls. -/
def echoLoop (writeResult : ℕ → ℤ) : ℕ → Netbuf → ℕ → ℤ × ℕ × List Event
  | 0, _, n => (0,n,[])
  | fuel+1, b, n =>
    let data := netbufData b
    let err := writeResult n
    let calls := [rxNotice data.length,.write data err]
    if err ≠ 0 then (err,n+1,calls ++ [txError err])
    else if 0 ≤ (netbufNext b).1 then
      let r := echoLoop writeResult fuel (netbufNext b).2 (n+1)
      (r.1,r.2.1,calls ++ r.2.2)
    else (err,n+1,calls)

def recvLoop (s : Session) : List Chain → (k n : ℕ) → ℤ × List Event
  | [], _, _ => (s.err,[.recvEnd s.err])
  | c::cs, k, n =>
    let r := echoLoop s.writeResult (c.rest.length+1) c.netbuf n
    let calls := .recv k::r.2.2 ++ [.deleteBuf k]
    if r.1 ≠ 0 then (r.1,calls)
    else
      let t := recvLoop s cs (k+1) r.2.1
      (t.1,calls ++ t.2)

def handleConnection (s : Session) : List Event :=
  let r := recvLoop s s.recvs 0 0
  connected s::r.2 ++ [disconnected s r.1,.close,.deleteConn]

def written (events : List Event) : Bytes :=
  events.flatMap fun
    | .write data err => if err = 0 then data else []
    | _ => []

def received (events : List Event) : List ℕ :=
  events.filterMap fun
    | .recv k => some k
    | _ => none

def deleted (events : List Event) : List ℕ :=
  events.filterMap fun
    | .deleteBuf k => some k
    | _ => none

def Event.Failed : Event → Prop
  | .write _ err => err ≠ 0
  | _ => False

def Event.Transfers : Event → Prop
  | .recv _ => True
  | .recvEnd _ => True
  | .write _ _ => True
  | _ => False

def Event.Closes : Event → Prop
  | .close => True
  | .deleteConn => True
  | _ => False

/-- Once a write has failed, the connection is not used any more. -/
def Quiet (events : List Event) : Prop := events.Pairwise fun x y => x.Failed → ¬ y.Transfers

@[simp] theorem written_nil : written [] = [] := rfl
@[simp] theorem written_append (xs ys : List Event) : written (xs++ys) = written xs ++ written ys := by
  simp [written]
@[simp] theorem received_append (xs ys : List Event) :
    received (xs++ys) = received xs ++ received ys := by
  simp [received]
@[simp] theorem deleted_append (xs ys : List Event) : deleted (xs++ys) = deleted xs ++ deleted ys := by
  simp [deleted]

theorem written_echo (payload : Bytes) :
    written [rxNotice payload.length,.write payload 0] = payload := by
  simp [written,rxNotice]

/-- What the inner loop makes of the payloads `ps` of one packet. -/
structure Echoes (ps : List Bytes) (r : ℤ × ℕ × List Event) : Prop where
  written_prefix : written r.2.2 <+: ps.flatten
  all : r.1 = 0 → written r.2.2 = ps.flatten
  failed : r.1 ≠ 0 ↔ ∃ e ∈ r.2.2, e.Failed
  quiet : Quiet r.2.2
  received : received r.2.2 = []
  deleted : deleted r.2.2 = []
  keepsOpen : ∀ e ∈ r.2.2, ¬ e.Closes

theorem echoes_nil (n : ℕ) : Echoes [] (0,n,[]) where
  written_prefix := by simp
  all := by simp
  failed := by simp
  quiet := List.Pairwise.nil
  received := rfl
  deleted := rfl
  keepsOpen := by simp

theorem echoes_failed (payload : Bytes) (after : List Bytes) {err : ℤ} (h : err ≠ 0) (n : ℕ) :
    Echoes (payload::after) (err,n,[rxNotice payload.length,.write payload err,txError err]) where
  written_prefix := by simp [written,rxNotice,txError,h]
  all := fun h0 => absurd h0 h
  failed := by simp [rxNotice,txError,Event.Failed,h]
  quiet := by simp [Quiet,rxNotice,txError,Event.Failed,Event.Transfers]
  received := rfl
  deleted := rfl
  keepsOpen := by simp [rxNotice,txError,Event.Closes]

theorem Echoes.cons {ps : List Bytes} {r : ℤ × ℕ × List Event} (h : Echoes ps r) (payload : Bytes) :
    Echoes (payload::ps) (r.1,r.2.1,[rxNotice payload.length,.write payload 0] ++ r.2.2) where
  written_prefix := by
    rw [written_append,written_echo,List.flatten_cons]
    exact (List.prefix_append_right_inj payload).mpr h.written_prefix
  all h0 := by
    rw [written_append,written_echo,h.all h0,List.flatten_cons]
  failed := by
    rw [h.failed]
    simp [rxNotice,Event.Failed]
  quiet := by
    refine List.pairwise_append.mpr ⟨?_,h.quiet,?_⟩
    · simp [rxNotice,Event.Failed]
    · simp [rxNotice,Event.Failed]
  received := by rw [received_append,h.received]; rfl
  deleted := by rw [deleted_append,h.deleted]; rfl
  keepsOpen e he := by
    rcases List.mem_append.mp he with he | he
    · simp only [rxNotice,List.mem_cons,List.not_mem_nil,or_false] at he
      rcases he with rfl | rfl <;> simp [Event.Closes]
    · exact h.keepsOpen e he

theorem echoLoop_echoes (writeResult : ℕ → ℤ) {fuel : ℕ} (before : List Bytes) (payload : Bytes)
    {after : List Bytes} (n : ℕ) (h : after.length < fuel) :
    Echoes (payload::after) (echoLoop writeResult fuel ⟨before,payload,after⟩ n) := by
  induction fuel generalizing before payload after n with
  | zero => omega
  | succ fuel ih =>
    by_cases hw : writeResult n = 0
    · cases after with
      | nil =>
        have hlast := (echoes_nil (n+1)).cons payload
        simpa [echoLoop,netbufNext,netbufData,hw] using hlast
      | cons next after =>
        have hrest := (ih (before++[payload]) next (n+1) (by simpa using h)).cons payload
        have hmore : 0 ≤ (netbufNext ⟨before,payload,next::after⟩).1 := by
          simp only [netbufNext]
          split <;> decide
        simp only [echoLoop,netbufData,hw,ne_eq,not_true_eq_false,if_false,hmore,if_true]
        exact hrest
    · have hfail := echoes_failed payload after hw (n+1)
      simpa [echoLoop,netbufData,hw] using hfail

theorem Echoes.packet {ps : List Bytes} {r : ℤ × ℕ × List Event} (h : Echoes ps r) {k : ℕ}
    {events : List Event} (hk : events = Event.recv k::r.2.2 ++ [Event.deleteBuf k]) :
    written events = written r.2.2 ∧ TcpServer.received events = [k] ∧
    TcpServer.deleted events = [k] ∧ Quiet events ∧ (∀ e ∈ events, ¬ e.Closes) ∧
    ((∃ e ∈ events, e.Failed) ↔ r.1 ≠ 0) := by
  rw [List.cons_append,← List.singleton_append] at hk
  subst hk
  refine ⟨?_,?_,?_,?_,?_,?_⟩
  · simp [written]
  · rw [received_append,received_append,h.received]
    rfl
  · rw [deleted_append,deleted_append,h.deleted]
    rfl
  · refine List.pairwise_append.mpr ⟨by simp,List.pairwise_append.mpr ⟨h.quiet,by simp,?_⟩,?_⟩
    · simp [Event.Transfers]
    · simp [Event.Failed]
  · simp only [List.mem_append,List.mem_singleton]
    rintro e (rfl | he | rfl)
    · simp [Event.Closes]
    · exact h.keepsOpen e he
    · simp [Event.Closes]
  · rw [h.failed]
    simp [Event.Failed]

/-- What the outer loop makes of the packets `cs`, the first of them numbered `k`. -/
structure Serves (cs : List Chain) (k : ℕ) (events : List Event) : Prop where
  served : ∃ m ≤ cs.length, received events = List.range' k m ∧
    written events <+: (cs.take m).flatMap Chain.bytes
  complete : (∀ e ∈ events, ¬ e.Failed) →
    received events = List.range' k cs.length ∧ written events = cs.flatMap Chain.bytes
  quiet : Quiet events
  deleted : deleted events = received events
  keepsOpen : ∀ e ∈ events, ¬ e.Closes

theorem recvLoop_serves (s : Session) (cs : List Chain) (k n : ℕ) :
    Serves cs k (recvLoop s cs k n).2 := by
  induction cs generalizing k n with
  | nil =>
    refine ⟨⟨0,le_rfl,rfl,by simp [recvLoop,written]⟩,fun _ => ⟨rfl,rfl⟩,?_,rfl,?_⟩
    · simp [recvLoop,Quiet]
    · simp [recvLoop,Event.Closes]
  | cons c cs ih =>
    have h : Echoes (c.first::c.rest) (echoLoop s.writeResult (c.rest.length+1) c.netbuf n) :=
      echoLoop_echoes s.writeResult [] c.first n (Nat.lt_succ_self c.rest.length)
    have hbytes : (c.first::c.rest).flatten = c.bytes := rfl
    obtain ⟨hwritten,hreceived,hdeleted,hquiet,hopen,hfailed⟩ := h.packet (k:=k) rfl
    have hprefix := h.written_prefix
    have hall := h.all
    rw [hbytes] at hprefix hall
    simp only [recvLoop]
    split
    · rename_i herr
      refine ⟨⟨1,by simp,hreceived,?_⟩,?_,hquiet,hdeleted.trans hreceived.symm,hopen⟩
      · rw [hwritten]
        simpa using hprefix
      · intro hnone
        obtain ⟨e,he,hfail⟩ := hfailed.mpr herr
        exact absurd hfail (hnone e he)
    · rename_i herr
      have hzero := not_not.mp herr
      have ht := ih (k+1) (echoLoop s.writeResult (c.rest.length+1) c.netbuf n).2.1
      obtain ⟨m,hm,hrec,hpre⟩ := ht.served
      refine ⟨⟨m+1,by simpa using hm,?_,?_⟩,?_,?_,?_,?_⟩
      · rw [received_append,hreceived,hrec]
        rfl
      · rw [written_append,hwritten,hall hzero,List.take_succ_cons,List.flatMap_cons]
        exact (List.prefix_append_right_inj _).mpr hpre
      · intro hnone
        obtain ⟨hr,hw⟩ := ht.complete fun e he => hnone e (List.mem_append_right _ he)
        rw [written_append,received_append,hw,hr,hwritten,hreceived,hall hzero]
        exact ⟨rfl,rfl⟩
      · refine List.pairwise_append.mpr ⟨hquiet,ht.quiet,fun e he e' _ hfail => ?_⟩
        exact absurd hzero (hfailed.mp ⟨e,he,hfail⟩)
      · rw [deleted_append,received_append,ht.deleted,hreceived,hdeleted]
      · intro e he
        rcases List.mem_append.mp he with he | he
        · exact hopen e he
        · exact ht.keepsOpen e he

/-- A session as an echo server should run it. -/
structure Echo (s : Session) (events : List Event) : Prop where
  served : ∃ m ≤ s.recvs.length, received events = List.range m ∧
    written events <+: (s.recvs.take m).flatMap Chain.bytes
  complete : (∀ e ∈ events, ¬ e.Failed) →
    received events = List.range s.recvs.length ∧ written events = s.recvs.flatMap Chain.bytes
  quiet : Quiet events
  deleted : deleted events = received events
  closed : ∃ pre, events = pre ++ [.close,.deleteConn] ∧ ∀ e ∈ pre, ¬ e.Closes

/-- Every session is echoed in order up to the first failed write, each packet
that was received is released once, and the connection is closed and deleted. -/
theorem handleConnection_echo (s : Session) : Echo s (handleConnection s) := by
  have h := recvLoop_serves s s.recvs 0 0
  have hsplit : handleConnection s = [connected s] ++ ((recvLoop s s.recvs 0 0).2 ++
      [disconnected s (recvLoop s s.recvs 0 0).1,.close,.deleteConn]) := rfl
  have hwritten : written (handleConnection s) = written (recvLoop s s.recvs 0 0).2 := by
    rw [hsplit]
    simp [written,connected,disconnected]
  have hreceived : received (handleConnection s) = received (recvLoop s s.recvs 0 0).2 := by
    rw [hsplit]
    simp [received,connected,disconnected]
  have hdeleted : deleted (handleConnection s) = deleted (recvLoop s s.recvs 0 0).2 := by
    rw [hsplit]
    simp [deleted,connected,disconnected]
  refine ⟨?_,?_,?_,by rw [hdeleted,h.deleted,hreceived],?_⟩
  · rw [hwritten,hreceived]
    simpa only [List.range_eq_range'] using h.served
  · intro hnone
    rw [hwritten,hreceived,List.range_eq_range']
    refine h.complete fun e he => hnone e ?_
    rw [hsplit]
    exact List.mem_append_right _ (List.mem_append_left _ he)
  · rw [hsplit]
    refine List.pairwise_append.mpr ⟨by simp,List.pairwise_append.mpr ⟨h.quiet,?_,?_⟩,?_⟩
    · simp [disconnected,Event.Failed]
    · simp [disconnected,Event.Transfers]
    · simp [connected,Event.Failed]
  · refine ⟨connected s::(recvLoop s s.recvs 0 0).2 ++ [disconnected s (recvLoop s s.recvs 0 0).1],?_,?_⟩
    · rw [hsplit]
      simp
    · simp only [List.cons_append,List.mem_cons,List.mem_append,List.not_mem_nil,or_false]
      rintro e (rfl | he | rfl)
      · simp [connected,Event.Closes]
      · exact h.keepsOpen e he
      · simp [disconnected,Event.Closes]

/-- Two packets; the second one has an empty element, and its last write fails. -/
example : written (handleConnection ⟨0,7,[⟨chars "ab",[]⟩,⟨chars "c",[[],chars "d"]⟩],-14,
    fun n => if n = 3 then -11 else 0,by decide⟩) = chars "abc" := by decide

end TcpServer
end EmbeddedShell
