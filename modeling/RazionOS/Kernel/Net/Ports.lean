import RazionOS.Framework.Runs
import RazionOS.Kernel.Misc.Hashmap
import RazionOS.Kernel.Net.TcpReceive

/-!
# Port tables

The maps `udp_sockets` and `tcp_sockets` from ports to sockets, and the functions that put sockets
into them and take them out. Ports are picked with `int` counters and stored in 16 bits.
-/

namespace RazionOS.Kernel.Net.Ports
open Framework Hashmap Function Option

def eacces : Int := 13
def eaddrinuse : Int := 112
def eaddrnotavail : Int := 125

inductive Protocol where
  | udp
  | tcp
deriving DecidableEq

inductive Fault where
  | nullPointer
  | useAfterFree
deriving DecidableEq

/-- `priv[SOCK_PRIV_IPV4_PORT]` is the `port` of the `sock_t`, below 2^16. -/
structure Socket where
  protocol : Protocol
  sock : Sock
  opened : Bool

def Socket.setState (s : Socket) (state : TcpState) : Socket :=
  { s with sock := { s.sock with tcpState := state } }

/-- A socket goes by its address; that of a closed socket is not used again. -/
structure Ipv4 where
  /-- `udp_sockets` and `tcp_sockets`. -/
  table : Protocol → Map (BitVec 64)
  /-- `next_port` and `next_tcp_port`. -/
  nextPort : Protocol → BitVec 32
  sockets : Nat → Option Socket
  allocated : Nat

def ops : KeyOps (BitVec 64) := KeyKind.int.ops
def portKey (port : BitVec 32) : BitVec 64 := port.signExtend 64
def sockKey (sock : Sock) : BitVec 64 := BitVec.ofNat 64 sock.port
def newSock (nonblocking : Bool) : Sock := ⟨0,.none,0,0,[],[],nonblocking,[]⟩

namespace Ipv4

variable (net : Ipv4) (protocol : Protocol) (a : Nat) (s : Socket)

def setSocket (s : Socket) : Ipv4 := { net with sockets := update net.sockets a (some s) }

/-- `udp_socket` and `tcp_socket`. -/
def create (nonblocking : Bool) : Ipv4 :=
  { net.setSocket (net.allocated+1) ⟨protocol,newSock nonblocking,true⟩ with
    allocated := net.allocated+1 }

def register (port : BitVec 32) : Ipv4 :=
  let sock := { s.sock with port := (port.setWidth 16).toNat }
  let table := (hashmapSet ops (portKey port) a (net.table protocol)).2
  { net.setSocket a { s with sock := sock } with table := update net.table protocol table }

def takePort : Ipv4 :=
  { net with nextPort := update net.nextPort protocol (net.nextPort protocol + 1) }

def getPort : Ipv4 := (net.takePort protocol).register protocol a s (net.nextPort protocol)
def udpGetPort : Ipv4 := net.getPort .udp a s
def tcpGetPort : Ipv4 := net.getPort .tcp a s

/-- The end of both bind functions, under the lock. -/
def bindPort (port : BitVec 32) : Ipv4 × Int :=
  if hashmapHas ops (portKey port) (net.table protocol)≠0 then (net, -eaddrinuse)
  else (net.register protocol a s port, 0)

def sockUdpBind (sinPort : BitVec 16) (user : Nat) : Ipv4 × Int :=
  if s.sock.port≠0 then (net, -einval)
  else if sinPort=0 then (net.takePort .udp).bindPort .udp a s (net.nextPort .udp)
  else if sinPort.toNat<1024 ∧ user≠0 then (net, -eacces)
  else net.bindPort .udp a s (sinPort.setWidth 32)

def sockTcpBind (sinPort : BitVec 16) (user : Nat) : Ipv4 × Int :=
  if s.sock.port≠0 then (net, -einval)
  else if sinPort=0 then (net, -einval)
  else if sinPort.toNat<1024 ∧ user≠0 then (net, -eacces)
  else net.bindPort .tcp a (s.setState .bound) (sinPort.setWidth 32)

/-- The buffers of the message are by their sizes; `routed` says if there is a device. -/
def sockUdpSend (iovLens : List Nat) (nameOk : Bool) (sinPort : BitVec 16) (routed : Bool) :
    Ipv4 × Int :=
  match iovLens with
  | _::_::_ => (net, -enotsup)
  | [] => (net, 0)
  | [iovLen] =>
    if !nameOk then (net, -einval)
    else if sinPort=0 then (net, -eaddrnotavail)
    else (if s.sock.port=0 then net.udpGetPort a s else net, if routed then iovLen else 0)

/-- `sock_tcp_connect` up to its wait, which changes no port. -/
def sockTcpConnect (sinPort : BitVec 16) : Ipv4 × Option Int :=
  if s.sock.tcpState ≠ .none then (net, some (-einval))
  else if sinPort=0 then (net, some (-eaddrnotavail))
  else (net.tcpGetPort a (s.setState .waiting), none)

/-- `sock_udp_close` and `sock_tcp_close`, and the end of the socket. -/
def sockClose : Except Fault Ipv4 :=
  let net' := net.setSocket a { s with opened := false }
  if s.sock.port=0 then .ok net'
  else match hashmapRemove ops (sockKey s.sock) (net.table s.protocol) with
    | .error _ => .error .nullPointer
    | .ok (_, table) => .ok { net' with table := update net.table s.protocol table }

/-- `net_ipv4_handle` for a TCP packet. -/
def handleTcp (destPort : BitVec 16) (packet : Packet) : Except Fault Ipv4 :=
  let a := hashmapGet ops (destPort.setWidth 64) (net.table .tcp)
  if a=0 then .ok net
  else match net.sockets a with
    | none => .error .useAfterFree
    | some s =>
      if s.opened then .ok (net.setSocket a { s with sock := netIpv4Handle packet s.sock })
      else .error .useAfterFree

def openSocket : Option Socket :=
  (net.sockets a).filter fun s => s.opened && s.protocol == protocol
end Ipv4

inductive Event where
  | socket (protocol : Protocol) (nonblocking : Bool)
  | udpBind (a : Nat) (sinPort : BitVec 16) (user : Nat)
  | udpSend (a : Nat) (iovLens : List Nat) (nameOk : Bool) (sinPort : BitVec 16) (routed : Bool)
  | tcpBind (a : Nat) (sinPort : BitVec 16) (user : Nat)
  | tcpConnect (a : Nat) (sinPort : BitVec 16)
  | tcpPacket (destPort : BitVec 16) (packet : Packet)
  | close (protocol : Protocol) (a : Nat)

/-- A call on a socket that is not there fails before it gets here. -/
def onSocket (net : Ipv4) (protocol : Protocol) (a : Nat) (f : Socket → Except Fault Ipv4) :
    Except Fault Ipv4 :=
  match net.openSocket protocol a with
  | none => .ok net
  | some s => f s

def step (net : Ipv4) : Event → Except Fault Ipv4
  | .socket protocol nonblocking => .ok (net.create protocol nonblocking)
  | .udpBind a sinPort user =>
    onSocket net .udp a fun s => .ok (net.sockUdpBind a s sinPort user).1
  | .udpSend a iovLens nameOk sinPort routed =>
    onSocket net .udp a fun s => .ok (net.sockUdpSend a s iovLens nameOk sinPort routed).1
  | .tcpBind a sinPort user =>
    onSocket net .tcp a fun s => .ok (net.sockTcpBind a s sinPort user).1
  | .tcpConnect a sinPort => onSocket net .tcp a fun s => .ok (net.sockTcpConnect a s sinPort).1
  | .tcpPacket destPort packet => net.handleTcp destPort packet
  | .close protocol a => onSocket net protocol a fun s => net.sockClose a s

def install : Ipv4 where
  table := fun _ => hashmapCreate (BitVec 64) 10 (by decide)
  nextPort
    | .udp => 12345
    | .tcp => 49152
  sockets := fun _ => none
  allocated := 0

def runStep (run : Except Fault Ipv4) (e : Event) : Except Fault Ipv4 :=
  run >>= fun net => step net e

structure TablesCorrect (net : Ipv4) : Prop where
  keys : ∀ protocol, ∀ key∈hashmapKeys (net.table protocol), (1≤key.toNat ∧ key.toNat≤65535) ∧
      ∃ s, net.sockets (hashmapGet ops key (net.table protocol))=some s ∧ s.opened=true ∧
        s.protocol=protocol ∧ s.sock.port=key.toNat
  registered : ∀ a s, net.sockets a=some s → s.opened=true → s.sock.port≠0 →
    hashmapGet ops (sockKey s.sock) (net.table s.protocol)=a
  distinct : ∀ a s a' s', net.sockets a=some s → net.sockets a' = some s' →
    s.opened=true → s'.opened=true → s.protocol=s'.protocol → s.sock.port≠0 →
    s.sock.port=s'.sock.port → a=a'
  closed : ∀ a s, net.sockets a=some s → s.opened=false → ∀ protocol,
    ∀ key∈hashmapKeys (net.table protocol), hashmapGet ops key (net.table protocol)≠a

def PortsCorrect (run : Except Fault Ipv4) (e : Event) : Prop :=
  ∃ net, runStep run e = .ok net ∧ TablesCorrect net

/-- The next port is a port that is free, for a socket that has none or has it already. -/
def PortFree (net : Ipv4) (protocol : Protocol) (s : Socket) : Prop :=
  let port := net.nextPort protocol
  (1≤port.toNat ∧ port.toNat≤65535) ∧
    (hashmapHas ops (portKey port) (net.table protocol)=0 ∧ s.sock.port=0 ∨ s.sock.port=port.toNat)

/-- A step that picks a port finds a free one. A bind to port 0 checks for itself that the port is
not in use. -/
def PicksFreePort (net : Ipv4) : Event → Prop
  | .udpBind a sinPort _ => ∀ s, net.openSocket .udp a=some s → s.sock.port=0 → sinPort=0 →
      hashmapHas ops (portKey (net.nextPort .udp)) (net.table .udp)=0 → PortFree net .udp s
  | .udpSend a iovLens nameOk sinPort _ => ∀ s, net.openSocket .udp a=some s →
      s.sock.port=0 → iovLens.length=1 → nameOk=true → sinPort≠0 → PortFree net .udp s
  | .tcpConnect a sinPort => ∀ s, net.openSocket .tcp a=some s →
      s.sock.tcpState = .none → sinPort≠0 → PortFree net .tcp s
  | _ => True

theorem comp_eq (a b : BitVec 64) : ops.comp a b=true ↔ a=b := comp_iff .int a b

abbrev PortMap := Protocol → BitVec 64 → Option Nat

def PortMap.assign (m : PortMap) (protocol : Protocol) (key : BitVec 64) (value : Option Nat) :
    PortMap :=
  update m protocol (update (m protocol) key value)

theorem PortMap.assign_apply (m : PortMap) : m.assign protocol key value protocol' key' =
      if protocol' = protocol ∧ key' = key then value else m protocol' key' := by
  by_cases hp : protocol' = protocol
  · subst hp
    simp [assign,update_apply]
  · simp [assign,hp]

/-- Whatever the tables hold, they are these maps, and the sockets are where they were put. -/
structure Represents (net : Ipv4) (m : PortMap) : Prop where
  refines : ∀ protocol, Refines ops (net.table protocol) (m protocol)
  live : ∀ a s, net.sockets a=some s → 0<a ∧ a≤net.allocated ∧ s.sock.port<65536

structure Consistent (net : Ipv4) (m : PortMap) : Prop where
  keys : ∀ protocol key a, m protocol key=some a → ∃ s, net.sockets a=some s ∧
    s.opened=true ∧ s.protocol=protocol ∧ s.sock.port=key.toNat ∧ s.sock.port≠0
  registered : ∀ a s, net.sockets a=some s → s.opened=true → s.sock.port≠0 →
    m s.protocol (sockKey s.sock)=some a

section
variable {net : Ipv4} {s s' : Socket} {port : BitVec 32}

theorem sockKey_toNat (h : s.sock.port<65536) : (sockKey s.sock).toNat=s.sock.port := by
  rw [sockKey,BitVec.toNat_ofNat]
  omega

theorem eq_sockKey (h : s.sock.port=key.toNat) : sockKey s.sock=key := by
  rw [sockKey,h,BitVec.ofNat_toNat,BitVec.setWidth_eq]

theorem portKey_toNat (h : port.toNat<65536) : (portKey port).toNat=port.toNat := by
  have hm : port.msb=false := by
    rw [BitVec.msb_eq_decide]
    simp only [decide_eq_false_iff_not]
    omega
  rw [portKey,BitVec.toNat_signExtend,hm,BitVec.toNat_setWidth]
  simp only [Bool.false_eq_true,if_false]
  omega

private theorem toNat_lt_of_portKey (h : (portKey port).toNat<65536) : port.toNat<65536 := by
  rw [portKey,BitVec.toNat_signExtend,BitVec.toNat_setWidth] at h
  omega

theorem toNat_setWidth (h : port.toNat<65536) : (port.setWidth 16).toNat=port.toNat := by
  rw [BitVec.toNat_setWidth]
  omega

section
variable (h : Represents net m)
include h

theorem Represents.get : hashmapGet ops key (net.table protocol)=(m protocol key).getD 0 :=
  hashmapGet_refines comp_eq (h.refines protocol) key

theorem Represents.has : hashmapHas ops key (net.table protocol)=0 ↔ m protocol key=none := by
  rw [hashmapHas_refines comp_eq (h.refines protocol)]
  cases m protocol key <;> simp

theorem Represents.mem_keys :
    key∈hashmapKeys (net.table protocol) ↔ ∃ a, m protocol key=some a := by
  rw [mem_hashmapKeys (h.refines protocol),isSome_iff_exists]

private theorem tablesCorrect_of_consistent (hc : Consistent net m) : TablesCorrect net where
  keys protocol key hk := by
    obtain ⟨a,ha⟩ := h.mem_keys.1 hk
    obtain ⟨s,hs,ho,hpr,hp,hne⟩ := hc.keys protocol key a ha
    have hlt := (h.live a s hs).2.2
    refine ⟨by omega,s,?_,ho,hpr,hp⟩
    rw [h.get,ha]
    exact hs
  registered a s hs ho hne := by
    rw [h.get,hc.registered a s hs ho hne]
    rfl
  distinct a s a' s' hs hs' ho ho' hpr hne hp := by
    have ha := hc.registered a s hs ho hne
    have ha' := hc.registered a' s' hs' ho' (hp ▸ hne)
    rw [sockKey,hpr,hp,← sockKey,ha'] at ha
    exact (some.inj ha).symm
  closed a s hs hcl protocol key hk heq := by
    obtain ⟨a',ha'⟩ := h.mem_keys.1 hk
    obtain ⟨s',hs',ho,-⟩ := hc.keys protocol key a' ha'
    rw [h.get,ha',getD_some] at heq
    rw [heq,hs] at hs'
    rw [← some.inj hs',hcl] at ho
    cases ho

private theorem consistent_of_tablesCorrect (hc : TablesCorrect net) : Consistent net m where
  keys protocol key a ha := by
    obtain ⟨hr,s,hs,ho,hpr,hp⟩ := hc.keys protocol key (h.mem_keys.2 ⟨a,ha⟩)
    rw [h.get,ha] at hs
    exact ⟨s,hs,ho,hpr,hp,by omega⟩
  registered a s hs ho hne := by
    have hg := hc.registered a s hs ho hne
    have hpos := (h.live a s hs).1
    rw [h.get] at hg
    -- the address is not 0, so the key is there
    cases hm : m s.protocol (sockKey s.sock) with
    | none => rw [hm,getD_none] at hg; omega
    | some a' => rw [hm,getD_some] at hg; rw [hg]

theorem tablesCorrect_iff : TablesCorrect net ↔ Consistent net m :=
  ⟨consistent_of_tablesCorrect h,tablesCorrect_of_consistent h⟩

end

theorem openSocket_eq_some : net.openSocket protocol a=some s ↔
    net.sockets a=some s ∧ s.opened=true ∧ s.protocol=protocol := by
  simp [Ipv4.openSocket]

structure Socket.Agrees (s s' : Socket) : Prop where
  protocol : s'.protocol=s.protocol
  opened : s'.opened=s.opened
  port : s'.sock.port=s.sock.port

theorem Socket.agrees_setState (s : Socket) : s.Agrees (s.setState state) := ⟨rfl,rfl,rfl⟩

theorem setSocket_sockets : (net.setSocket a s).sockets a' =
    if a' = a then some s else net.sockets a' := update_apply ..

theorem Represents.setSocket (h : Represents net m) (hs : net.sockets a=some s)
    (hp : s'.sock.port<65536) : Represents (net.setSocket a s') m where
  refines := h.refines
  live a' t ht := by
    rw [setSocket_sockets] at ht
    split at ht
    · next heq =>
      cases ht
      exact ⟨heq ▸ (h.live a s hs).1,heq ▸ (h.live a s hs).2.1,hp⟩
    · exact h.live a' t ht

theorem Consistent.setSocket (hc : Consistent net m) (hs : net.sockets a=some s)
    (hagrees : s.Agrees s') : Consistent (net.setSocket a s') m where
  keys protocol key a' ha' := by
    obtain ⟨t,ht,hta⟩ := hc.keys protocol key a' ha'
    rw [setSocket_sockets]
    split
    · next heq =>
      rw [heq,hs] at ht
      cases ht
      rw [← hagrees.protocol,← hagrees.opened,← hagrees.port] at hta
      exact ⟨s',rfl,hta⟩
    · exact ⟨t,ht,hta⟩
  registered a' t ht ho hne := by
    rw [setSocket_sockets] at ht
    split at ht
    · next heq =>
      cases ht
      rw [hagrees.opened] at ho
      rw [hagrees.port] at hne
      rw [sockKey,hagrees.port,hagrees.protocol,heq]
      exact hc.registered a s hs ho hne
    · exact hc.registered a' t ht ho hne

theorem Represents.setTable (h : Represents net m)
    (ht : Refines ops table (update (m protocol) key value)) :
    Represents { net with table := update net.table protocol table }
      (m.assign protocol key value) where
  refines protocol' := by
    by_cases hp : protocol' = protocol
    · subst hp
      simpa [PortMap.assign] using ht
    · simpa [PortMap.assign,hp] using h.refines protocol'
  live := h.live

private theorem Represents.register (h : Represents net m) (hs : net.sockets a=some s) :
    Represents (net.register protocol a s' port) (m.assign protocol (portKey port) (some a)) := by
  have hse := (hashmapSet_refines comp_eq (h.refines protocol) (portKey port) a).2
  refine (h.setSocket hs ?_).setTable hse
  exact (port.setWidth 16).isLt

theorem register_sockets : (net.register protocol a s' port).sockets a' =
    if a' = a then some { s' with sock := { s'.sock with port := (port.setWidth 16).toNat } }
    else net.sockets a' :=
  setSocket_sockets

private theorem portFree_of_register (h : Represents net m) (hc : Consistent net m)
    (hs : net.openSocket protocol a=some s) (hn : Consistent (net.register protocol a s' port)
      (m.assign protocol (portKey port) (some a))) : (1≤port.toNat ∧ port.toNat≤65535) ∧
      (m protocol (portKey port)=none ∧ s.sock.port=0 ∨ s.sock.port=port.toNat) := by
  obtain ⟨hso,ho,hpr⟩ := openSocket_eq_some.1 hs
  -- every key of the socket is the new port
  have hk : ∀ key, m.assign protocol (portKey port) (some a) protocol key=some a →
      (port.setWidth 16).toNat=key.toNat ∧ (port.setWidth 16).toNat≠0 := by
    intro key hk
    obtain ⟨t,ht,-,-,hp,hne⟩ := hn.keys protocol key a hk
    rw [register_sockets,if_pos rfl] at ht
    cases ht
    exact ⟨hp,hne⟩
  obtain ⟨hp,hne⟩ := hk _ (by rw [PortMap.assign_apply,if_pos ⟨rfl,rfl⟩])
  have hlt : port.toNat<65536 := toNat_lt_of_portKey (by omega)
  rw [toNat_setWidth hlt] at hk hne
  refine ⟨by omega,?_⟩
  by_cases hz : s.sock.port=0
  · refine .inl ⟨?_,hz⟩
    by_contra hsom
    obtain ⟨b,hb⟩ := ne_none_iff_exists'.1 hsom
    obtain ⟨t,ht,hto,htpr,htp,htn⟩ := hc.keys protocol _ b hb
    have hba : b≠a := by
      rintro rfl
      rw [hso] at ht
      cases ht
      exact htn hz
    -- the socket that had the port has lost its key
    have hl := hn.registered b t (by rw [register_sockets,if_neg hba,ht]) hto htn
    rw [eq_sockKey htp,PortMap.assign_apply,if_pos ⟨htpr,rfl⟩] at hl
    exact hba (some.inj hl).symm
  · have hold := hc.registered a s hso ho hz
    rw [hpr] at hold
    refine .inr ?_
    rw [(hk _ ?_).1,sockKey_toNat (h.live a s hso).2.2]
    rw [PortMap.assign_apply,hold,ite_self]

section
variable (hc : Consistent net m) (hs : net.openSocket protocol a=some s) (hagrees : s.Agrees s')
  (hr : 1≤port.toNat ∧ port.toNat≤65535)
include hc hs hagrees hr

private theorem Consistent.register_free (hf : m protocol (portKey port)=none)
    (hz : s.sock.port=0) :
    Consistent (net.register protocol a s' port) (m.assign protocol (portKey port) (some a)) := by
  obtain ⟨hsoc,ho,hpr⟩ := openSocket_eq_some.1 hs
  have hlt : port.toNat<65536 := by omega
  constructor
  · intro protocol' key a' ha'
    rw [PortMap.assign_apply] at ha'
    rw [register_sockets]
    split at ha'
    · next hke =>
      cases ha'
      rw [if_pos rfl,hke.1,hke.2,portKey_toNat hlt]
      exact ⟨_,rfl,hagrees.opened.trans ho,hagrees.protocol.trans hpr,
        toNat_setWidth hlt,(toNat_setWidth hlt).trans_ne (by omega)⟩
    · obtain ⟨t,ht,hta⟩ := hc.keys protocol' key a' ha'
      have hne : a' ≠ a := by
        rintro rfl
        rw [hsoc] at ht
        cases ht
        exact hta.2.2.2 hz
      rw [if_neg hne]
      exact ⟨t,ht,hta⟩
  · intro a' t ht hto htn
    rw [register_sockets] at ht
    rw [PortMap.assign_apply]
    split at ht
    · next heq =>
      cases ht
      rw [if_pos,heq]
      refine ⟨hagrees.protocol.trans hpr,eq_sockKey ?_⟩
      rw [portKey_toNat hlt]
      exact toNat_setWidth hlt
    · have hold := hc.registered a' t ht hto htn
      rw [if_neg,hold]
      rintro ⟨hp,hk⟩
      rw [hp,hk,hf] at hold
      cases hold

private theorem Consistent.register_same (hp : s.sock.port=port.toNat) :
    Consistent (net.register protocol a s' port) (m.assign protocol (portKey port) (some a)) := by
  obtain ⟨hso,ho,hpr⟩ := openSocket_eq_some.1 hs
  have hlt : port.toNat<65536 := by omega
  have hold : m protocol (portKey port)=some a := by
    rw [← eq_sockKey (hp.trans (portKey_toNat hlt).symm),← hpr]
    exact hc.registered a s hso ho (by omega)
  have hassign : m.assign protocol (portKey port) (some a)=m := by
    rw [PortMap.assign,← hold,update_eq_self,update_eq_self]
  rw [hassign]
  have hk : s.Agrees { s' with sock := { s'.sock with port := (port.setWidth 16).toNat } } :=
    ⟨hagrees.protocol,hagrees.opened,(toNat_setWidth hlt).trans hp.symm⟩
  have hse := hc.setSocket hso hk
  exact ⟨hse.keys,hse.registered⟩

end

section
variable (h : Represents net m) (hc : Consistent net m) (hs : net.openSocket protocol a=some s)
include h hc hs

private theorem consistent_register_iff (hagrees : s.Agrees s') :
    Consistent (net.register protocol a s' port) (m.assign protocol (portKey port) (some a)) ↔
      (1≤port.toNat ∧ port.toNat≤65535) ∧
        (m protocol (portKey port)=none ∧ s.sock.port=0 ∨ s.sock.port=port.toNat) := by
  constructor
  · exact portFree_of_register h hc hs
  rintro ⟨hr,⟨hf,hz⟩ | hp⟩
  · exact hc.register_free hs hagrees hr hf hz
  · exact hc.register_same hs hagrees hr hp

private theorem Consistent.close : Consistent (net.setSocket a { s with opened := false })
      (m.assign protocol (sockKey s.sock) none) := by
  obtain ⟨hso,ho,hpr⟩ := openSocket_eq_some.1 hs
  constructor
  · intro protocol' key a' ha'
    rw [PortMap.assign_apply] at ha'
    split at ha'
    · cases ha'
    next hke =>
    obtain ⟨t,ht,hta⟩ := hc.keys protocol' key a' ha'
    have hne : a' ≠ a := by
      rintro rfl
      rw [hso] at ht
      cases ht
      exact hke ⟨hta.2.1.symm.trans hpr,(eq_sockKey hta.2.2.1).symm⟩
    rw [setSocket_sockets,if_neg hne]
    exact ⟨t,ht,hta⟩
  · intro a' t ht hto htn
    rw [setSocket_sockets] at ht
    split at ht
    · cases ht
      cases hto
    next hne =>
    have hold := hc.registered a' t ht hto htn
    rw [PortMap.assign_apply,if_neg,hold]
    rintro ⟨hp,hk⟩
    -- one key is not of two sockets
    have hpo : s.sock.port=t.sock.port := by
      rw [← sockKey_toNat (h.live a s hso).2.2,← hk,sockKey_toNat (h.live a' t ht).2.2]
    have hm := hc.registered a s hso ho (hpo ▸ htn)
    rw [hpr,← hk,← hp,hold] at hm
    exact hne (some.inj hm)

end

private theorem netIpv4Handle_port (packet : Packet) (sock : Sock) :
    (netIpv4Handle packet sock).port=sock.port := by
  have ha : ∀ isSynAck payloadLen, (tcpAck sock packet isSynAck payloadLen).2.port=sock.port := by
    intro isSynAck payloadLen
    simp only [tcpAck]
    split <;> split <;> rfl
  simp only [netIpv4Handle]
  split
  · split
    · split <;> exact ha true 1
    · split <;> rfl
  · split
    · split <;> exact ha false _
    · split
      · exact ha false 0
      · rfl
  · rfl

/-- There is a next state, in which tables and sockets agree just in case. -/
def AgreesIff (P : Prop) (result : Except Fault Ipv4) : Prop :=
  ∃ net m, result = .ok net ∧ Represents net m ∧ (Consistent net m ↔ P)

variable {P Q : Prop}

theorem AgreesIff.congr (h : AgreesIff P result) (hi : P ↔ Q) : AgreesIff Q result := by
  rwa [← hi]

section
variable (h : Represents net m) (hc : Consistent net m)
include h hc

theorem agreesIff_of_consistent (hP : P) : AgreesIff P (.ok net) := ⟨net,m,rfl,h,iff_of_true hc hP⟩

theorem agreesIff_guard [Decidable c] (hP : c → P) (hf : ¬c → AgreesIff P (.ok r.1)) :
    AgreesIff P (.ok (if c then (net, ret) else r).1) := by
  split_ifs with hcond
  · exact agreesIff_of_consistent h hc (hP hcond)
  · exact hf hcond

theorem agreesIff_onSocket {R : Socket → Prop}
    (hf : ∀ s, net.openSocket protocol a=some s → AgreesIff (R s) (f s)) :
    AgreesIff (∀ s, net.openSocket protocol a=some s → R s) (onSocket net protocol a f) := by
  rw [onSocket]
  cases hs : net.openSocket protocol a with
  | none => exact agreesIff_of_consistent h hc nofun
  | some s =>
    apply (hf s hs).congr
    exact ⟨fun hR _ heq => some.inj heq ▸ hR,fun hR => hR s rfl⟩

private theorem agreesIff_onSocket_true
    (hf : ∀ s, net.openSocket protocol a=some s → AgreesIff True (f s)) :
    AgreesIff True (onSocket net protocol a f) :=
  (agreesIff_onSocket h hc hf).congr (iff_true_intro fun _ _ => trivial)

end

theorem Represents.takePort (h : Represents net m) : Represents (net.takePort protocol) m :=
  ⟨h.refines,h.live⟩

theorem Consistent.takePort (hc : Consistent net m) : Consistent (net.takePort protocol) m :=
  ⟨hc.keys,hc.registered⟩

section
variable (h : Represents net m) (hc : Consistent net m) (hs : net.openSocket protocol a = some s)
  (hagrees : s.Agrees s')
include h hc hs hagrees

theorem agreesIff_register : AgreesIff ((1≤port.toNat ∧ port.toNat≤65535) ∧
        (m protocol (portKey port)=none ∧ s.sock.port=0 ∨ s.sock.port=port.toNat))
      (.ok (net.register protocol a s' port)) :=
  ⟨_,_,rfl,h.register (openSocket_eq_some.1 hs).1,consistent_register_iff h hc hs hagrees⟩

theorem agreesIff_getPort :
    AgreesIff (PortFree net protocol s) (.ok (net.getPort protocol a s')) := by
  apply (agreesIff_register h.takePort hc.takePort hs hagrees).congr
  rw [PortFree,h.has]

theorem agreesIff_bindPort (hz : s.sock.port=0) :
    AgreesIff (hashmapHas ops (portKey port) (net.table protocol)=0 →
        1≤port.toNat ∧ port.toNat≤65535) (.ok (net.bindPort protocol a s' port).1) := by
  refine agreesIff_guard h hc (fun hh hf => absurd hf hh) fun hh => ?_
  rw [not_not] at hh
  apply (agreesIff_register h hc hs hagrees).congr
  have hf := (h.has).1 hh
  simp [hh,hf,hz]

end

theorem sinPort_range {sinPort : BitVec 16} (h : sinPort≠0) :
    1≤(sinPort.setWidth 32).toNat ∧ (sinPort.setWidth 32).toNat≤65535 := by
  have hne : sinPort.toNat≠0 := fun hz => h (BitVec.eq_of_toNat_eq hz)
  rw [BitVec.toNat_setWidth]
  omega

section
variable (h : Represents net m) (hc : Consistent net m)
include h hc

private theorem agreesIff_sockUdpBind (hs : net.openSocket .udp a=some s) :
    AgreesIff (s.sock.port=0 → sinPort=0 →
        hashmapHas ops (portKey (net.nextPort .udp)) (net.table .udp)=0 → PortFree net .udp s)
      (.ok (net.sockUdpBind a s sinPort user).1) := by
  refine agreesIff_guard h hc (fun hz heq => absurd heq hz) fun hz => ?_
  rw [not_not] at hz
  by_cases hsi : sinPort=0
  · rw [if_pos hsi]
    apply (agreesIff_bindPort h.takePort hc.takePort hs ⟨rfl,rfl,rfl⟩ hz).congr
    simp only [hz,hsi,PortFree,forall_const,and_true]
    exact forall_congr' fun hf => ⟨fun hr => ⟨hr,.inl hf⟩,And.left⟩
  · rw [if_neg hsi]
    refine agreesIff_guard h hc (fun _ _ heq => absurd heq hsi) fun _ => ?_
    apply (agreesIff_bindPort h hc hs ⟨rfl,rfl,rfl⟩ hz).congr
    exact iff_of_true (fun _ => sinPort_range hsi) fun _ heq => absurd heq hsi

private theorem agreesIff_sockTcpBind (hs : net.openSocket .tcp a=some s) :
    AgreesIff True (.ok (net.sockTcpBind a s sinPort user).1) := by
  refine agreesIff_guard h hc (fun _ => trivial) fun hz => ?_
  refine agreesIff_guard h hc (fun _ => trivial) fun hsi => ?_
  refine agreesIff_guard h hc (fun _ => trivial) fun _ => ?_
  apply (agreesIff_bindPort h hc hs s.agrees_setState (not_not.1 hz)).congr
  exact iff_true_intro fun _ => sinPort_range hsi

private theorem agreesIff_sockUdpSend (hs : net.openSocket .udp a=some s) :
    AgreesIff (s.sock.port=0 → iovLens.length=1 → nameOk=true → sinPort≠0 →
        PortFree net .udp s) (.ok (net.sockUdpSend a s iovLens nameOk sinPort routed).1) := by
  match iovLens with
  | [] => exact agreesIff_of_consistent h hc fun _ hlen => by cases hlen
  | _::_::_ => exact agreesIff_of_consistent h hc fun _ hlen => by simp at hlen
  | [iovLen] =>
    refine agreesIff_guard h hc (fun hn _ _ heq => by simp [heq] at hn) fun hn => ?_
    refine agreesIff_guard h hc (fun hsi _ _ _ hne => absurd hsi hne) fun hsi => ?_
    by_cases hz : s.sock.port=0
    · rw [if_pos hz]
      apply (agreesIff_getPort h hc hs ⟨rfl,rfl,rfl⟩).congr
      exact ⟨fun hf _ _ _ _ => hf,fun hf => hf hz rfl (by simpa using hn) hsi⟩
    · rw [if_neg hz]
      exact agreesIff_of_consistent h hc fun heq => absurd heq hz

private theorem agreesIff_sockTcpConnect (hs : net.openSocket .tcp a=some s) :
    AgreesIff (s.sock.tcpState = .none → sinPort≠0 → PortFree net .tcp s)
      (.ok (net.sockTcpConnect a s sinPort).1) := by
  refine agreesIff_guard h hc (fun hst heq => absurd heq hst) fun hst => ?_
  refine agreesIff_guard h hc (fun hsi _ hne => absurd hsi hne) fun hsi => ?_
  apply (agreesIff_getPort h hc hs s.agrees_setState).congr
  exact ⟨fun hf _ _ => hf,fun hf => hf (not_not.1 hst) hsi⟩

private theorem agreesIff_sockClose (hs : net.openSocket protocol a=some s) :
    AgreesIff True (net.sockClose a s) := by
  obtain ⟨hso,ho,rfl⟩ := openSocket_eq_some.1 hs
  have hcl := hc.close h hs
  have hr : Represents (net.setSocket a { s with opened := false }) m :=
    h.setSocket hso (h.live a s hso).2.2
  rw [Ipv4.sockClose]
  by_cases hz : s.sock.port=0
  · rw [if_pos hz]
    -- no key is 0
    have hn : m s.protocol (sockKey s.sock)=none := by
      by_contra hsom
      obtain ⟨b,hb⟩ := ne_none_iff_exists'.1 hsom
      obtain ⟨t,-,-,-,ht,htn⟩ := hc.keys _ _ b hb
      rw [sockKey_toNat (h.live a s hso).2.2,hz] at ht
      exact htn ht
    rw [PortMap.assign,← hn,update_eq_self,update_eq_self] at hcl
    exact agreesIff_of_consistent hr hcl trivial
  · rw [if_neg hz]
    have hk := hc.registered a s hso ho hz
    have hh : hashmapHas ops (sockKey s.sock) (net.table s.protocol)=1 := by
      rw [hashmapHas_refines comp_eq (h.refines _),hk]
      rfl
    obtain ⟨table,hre,hta⟩ :=
      hashmapRemove_eq comp_eq (h.refines s.protocol) (sockKey s.sock) (.inl hh)
    rw [hre]
    exact agreesIff_of_consistent (hr.setTable hta) ⟨hcl.keys,hcl.registered⟩ trivial

private theorem agreesIff_handleTcp : AgreesIff True (net.handleTcp destPort packet) := by
  rw [Ipv4.handleTcp,h.get]
  cases hk : m .tcp (destPort.setWidth 64) with
  | none => exact agreesIff_of_consistent h hc trivial
  | some a =>
    obtain ⟨s,hs,ho,-⟩ := hc.keys .tcp _ a hk
    have hl := h.live a s hs
    have hp := netIpv4Handle_port packet s.sock
    simp only [getD_some,if_neg hl.1.ne',hs,if_pos ho]
    exact agreesIff_of_consistent (h.setSocket hs (hp ▸ hl.2.2))
      (hc.setSocket hs ⟨rfl,rfl,hp⟩) trivial

private theorem agreesIff_create : AgreesIff True (.ok (net.create protocol nonblocking)) := by
  have hso : ∀ a, (net.create protocol nonblocking).sockets a =
      if a=net.allocated+1 then some ⟨protocol,newSock nonblocking,true⟩
      else net.sockets a := fun _ => setSocket_sockets
  refine agreesIff_of_consistent ⟨h.refines,?_⟩ ⟨?_,?_⟩ trivial
  · intro a s hs
    rw [hso] at hs
    split at hs
    · next heq =>
      cases hs
      exact ⟨by omega,heq.le,by simp [newSock]⟩
    · have hl := h.live a s hs
      exact ⟨hl.1,Nat.le_succ_of_le hl.2.1,hl.2.2⟩
  · intro protocol' key a ha
    obtain ⟨s,hs,ht⟩ := hc.keys protocol' key a ha
    have hl := h.live a s hs
    rw [hso,if_neg (by omega)]
    exact ⟨s,hs,ht⟩
  · intro a s hs ho hne
    rw [hso] at hs
    split at hs
    · cases hs
      exact absurd rfl hne
    · exact hc.registered a s hs ho hne

theorem step_agreesIff : AgreesIff (PicksFreePort net e) (step net e) := by
  cases e with
  | socket protocol nonblocking => exact agreesIff_create h hc
  | udpBind a sinPort user =>
    exact agreesIff_onSocket h hc fun s hs => agreesIff_sockUdpBind h hc hs
  | udpSend a iovLens nameOk sinPort routed =>
    exact agreesIff_onSocket h hc fun s hs =>
      agreesIff_sockUdpSend h hc hs
  | tcpBind a sinPort user =>
    exact agreesIff_onSocket_true h hc fun s hs => agreesIff_sockTcpBind h hc hs
  | tcpConnect a sinPort =>
    exact agreesIff_onSocket h hc fun s hs => agreesIff_sockTcpConnect h hc hs
  | tcpPacket destPort packet => exact agreesIff_handleTcp h hc
  | close protocol a =>
    exact agreesIff_onSocket_true h hc fun s hs => agreesIff_sockClose h hc hs

end
end

def Inv (run : Except Fault Ipv4) : Prop :=
  ∃ net m, run = .ok net ∧ Represents net m ∧ Consistent net m

private theorem inv_install : Inv (.ok install) := by
  refine ⟨install,fun _ _ => none,rfl,⟨fun _ => refines_hashmapCreate _,?_⟩,⟨?_,?_⟩⟩
  · intro a s hs
    cases hs
  · intro protocol key a ha
    cases ha
  · intro a s hs
    cases hs

def FreePort (run : Except Fault Ipv4) (e : Event) : Prop :=
  ∀ net, run = .ok net → PicksFreePort net e

theorem Inv.step_iff (h : Inv run) : PortsCorrect run e ↔ FreePort run e := by
  obtain ⟨net,m,rfl,hr,hc⟩ := h
  obtain ⟨net',m',hst,hr',hi⟩ := step_agreesIff hr hc
  constructor
  · rintro ⟨_,heq,hco⟩ _ hn
    cases hn
    cases hst.symm.trans heq
    exact hi.1 ((tablesCorrect_iff hr').1 hco)
  · intro hf
    exact ⟨net',hst,(tablesCorrect_iff hr').2 (hi.2 (hf net rfl))⟩

private theorem Inv.step (h : Inv run) (he : PortsCorrect run e) : Inv (runStep run e) := by
  have hf := (h.step_iff).1 he
  obtain ⟨net,m,rfl,hr,hc⟩ := h
  obtain ⟨net',m',hst,hr',hi⟩ := step_agreesIff hr hc
  exact ⟨net',m',hst,hr',hi.2 (hf net rfl)⟩

/-- The tables stay correct just as long as each port that a counter gives is a port that nobody
has, for a socket that has none. -/
theorem portTables_correct_iff (events : List Event) :
    TablesCorrect install ∧ (Along runStep PortsCorrect (.ok install) events ↔
      Along runStep FreePort (.ok install) events) := by
  constructor
  · obtain ⟨net,m,hn,hr,hc⟩ := inv_install
    cases hn
    exact (tablesCorrect_iff hr).2 hc
  · exact Along.congr (fun _ _ h he => h.step he) (fun _ e h => h.step_iff) inv_install

def resetPacket : Packet := ⟨0,5,false,false,true,false,[]⟩

def refusedConnect : List Event :=
  [.socket .tcp false, .tcpConnect 1 80, .tcpPacket 49152 resetPacket, .tcpConnect 1 80,
    .close .tcp 1]

def sendAfterBind : List Event :=
  [.socket .udp false, .udpBind 1 12345 1000, .socket .udp false, .udpSend 2 [4] true 53 true]

/-- The first port of a socket that connects again stays in the table when the socket is gone, and
a packet to it finds the memory. A port in use is given to a second socket. -/
theorem ports_overwritten : (∃ net, refusedConnect.foldl runStep (.ok install) = .ok net ∧
      49152#64 ∈ hashmapKeys (net.table .tcp) ∧ hashmapGet ops 49152 (net.table .tcp) = 1 ∧
      (net.sockets 1).map Socket.opened = some false ∧ ¬ TablesCorrect net ∧
      step net (.tcpPacket 49152 resetPacket) = .error .useAfterFree) ∧
    ∃ net, sendAfterBind.foldl runStep (.ok install) = .ok net ∧
      hashmapGet ops 12345 (net.table .udp) = 2 ∧
      (net.openSocket .udp 1).map (·.sock.port) = some 12345 ∧
      (net.openSocket .udp 2).map (·.sock.port) = some 12345 ∧ ¬ TablesCorrect net := by
  constructor
  · refine ⟨_,rfl,by decide,rfl,rfl,fun hco => ?_,rfl⟩
    exact hco.closed 1 _ rfl rfl .tcp 49152 (by decide) rfl
  · refine ⟨_,rfl,rfl,rfl,rfl,fun hco => ?_⟩
    have hsa := hco.distinct 1 _ 2 _ rfl rfl rfl rfl rfl (by decide) rfl
    cases hsa
end RazionOS.Kernel.Net.Ports
