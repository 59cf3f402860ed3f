import RazionOS.Kernel.Net.TcpReceive

/-!
# Receiving datagrams

UDP, ICMP and raw sockets queue whole packets as they come from the wire. The sizes of what is
copied come from the headers of the packet.
-/

namespace RazionOS.Kernel.Net.Datagrams
open List

def eintr : Int := 4
def efault : Int := 14

/-- The bytes from an address on, those behind the object at the address included. -/
abbrev Memory := Nat → UInt8
def ntohs (m : Memory) (pos : Nat) : Nat := (m pos).toNat * 256 + (m (pos+1)).toNat
def memcpy (dst src : Memory) (n : Nat) : Memory := fun i => if i<n then src i else dst i
def toLong (n : Nat) : Int := if n<2^63 then n else n-2^64

structure Queued where
  size : Nat
  bytes : Memory

def Queued.length (packet : Queued) : Nat := ntohs packet.bytes 2

inductive Kind where
  | udp
  | icmp
  | raw
deriving DecidableEq

structure DatagramSock where
  kind : Kind
  /-- `priv[SOCK_PRIV_IPV4_PORT]`. -/
  port : Nat
  /-- Whether `priv32[SOCK_PRIV32_IPV4_TTL]` is set. -/
  recvTtl : Bool
  device : Option Nat
  rxQueue : List Queued
  nonblocking : Bool

/-- A `struct sockaddr_in` of the family `AF_INET`, its fields as they are in memory. -/
structure SockAddrIn where
  sinPort : List UInt8
  sinAddr : List UInt8
deriving DecidableEq

structure Iovec where
  base : Nat
  len : Nat
deriving DecidableEq

structure Msghdr where
  /-- Whether the header and what it points to are the caller's to write to. -/
  accessible : Bool
  /-- The name that is filled in; `none` for a null pointer. -/
  name : Option SockAddrIn
  namelen : Nat
  iov : List Iovec
  control : Option UInt8
  controllen : Nat
deriving DecidableEq

/-- What a call of a handler leaves: `written` bytes have been stored from the start of the
buffer on. -/
structure Delivery where
  ret : Int
  written : Nat
  buffer : Memory
  msg : Msghdr
  sock : DatagramSock

/-- `heap` is what the new block holds before. -/
def netSockAdd (sock : DatagramSock) (heap frame : Memory) (size : Nat) : DatagramSock :=
  { sock with rxQueue := sock.rxQueue++[⟨size,memcpy heap frame size⟩] }

structure Stack where
  sock : Nat → DatagramSock
  udpSockets : Nat → Option Nat
  icmpSockets : Nat → Option Nat
  rawSockets : List Nat

def Stack.add (stack : Stack) (a : Nat) (heap frame : Memory) (size : Nat) : Stack :=
  { stack with sock := Function.update stack.sock a (netSockAdd (stack.sock a) heap frame size) }

/-- The answer to a ping is sent and reaches no socket. -/
def icmpHandle (stack : Stack) (heap packet : Memory) : Stack :=
  if packet 20=0 ∧ packet 21=0 then
    match stack.icmpSockets (ntohs packet 24) with
    | some a => stack.add a heap packet (ntohs packet 2)
    | none => stack
  else stack

/-- The part of `net_ipv4_handle` for datagrams. A packet that is too small is handled all the
same. -/
def netIpv4Handle (stack : Stack) (heap packet : Memory) : Stack :=
  if packet 9=1 then icmpHandle stack heap packet
  else if packet 9=17 then
    match stack.udpSockets (ntohs packet 22) with
    | some a => stack.add a heap packet (ntohs packet 2)
    | none => stack
  else stack

structure Nic where
  id : Nat
  mac : List UInt8

def addressed (nic : Nic) (frame : Memory) : Bool :=
  let destination := (range 6).map frame
  destination == nic.mac || destination == replicate 6 0xFF

/-- Each raw socket that listens to the device gets a copy of the frame. -/
def netEthHandle (stack : Stack) (nic : Nic) (heap frame : Memory) (size : Nat) : Stack :=
  if size<14 then stack
  else
    let stack := stack.rawSockets.foldl (fun stack a =>
      if (stack.sock a).device=none ∨ (stack.sock a).device=some nic.id then
        stack.add a heap frame size
      else stack) stack
    if addressed nic frame ∧ ntohs frame 12=0x0800 then
      netIpv4Handle stack heap fun i => frame (14+i)
    else stack

section
variable (pages : Nat → Nat → Bool) (sock : DatagramSock) (msg : Msghdr) (arrived : List Queued)
  (buffer : Memory)

/-- `arrived` is what is queued while the call waits; nothing when a signal ends the wait. -/
def netSockGet : Option Queued × DatagramSock :=
  match sock.rxQueue++arrived with
  | [] => (none, sock)
  | packet::queue => (some packet, { sock with rxQueue := queue })

def sockIpv4ControlCommon (packet : Queued) : Msghdr :=
  if sock.recvTtl ∧ msg.controllen > 17 then
    { msg with control := some (packet.bytes 8), controllen := 17 }
  else { msg with controllen := 0 }

/-- The name is filled in if there is one of the size of a `struct sockaddr_in`. -/
def setName (addr : SockAddrIn) : Msghdr :=
  if msg.namelen=16 ∧ msg.name.isSome then { msg with name := some addr } else msg

def sourceAddr (packet : Queued) : List UInt8 := (range 4).map fun i => packet.bytes (12+i)

def leave (ret : Int) : Delivery := ⟨ret,0,buffer,msg,sock⟩

def sockUdpRecv : Delivery :=
  if sock.port=0 then leave sock msg buffer (-einval)
  else
    match msg.iov with
    | _::_::_ => leave sock msg buffer (-enotsup)
    | [] => leave sock msg buffer 0
    | [_] =>
      if sock.rxQueue=[] ∧ sock.nonblocking then leave sock msg buffer (-eagain)
      else
        match netSockGet sock arrived with
        | (none, sock) => leave sock msg buffer (-eintr)
        | (some packet, sock) =>
          let size := sizeSub (sizeSub packet.length 20) 8
          let msg := setName msg ⟨[packet.bytes 20, packet.bytes 21],sourceAddr packet⟩
          ⟨toLong size,size,memcpy buffer (fun i => packet.bytes (28+i)) size,
            sockIpv4ControlCommon sock msg packet,sock⟩

def sockIcmpRecv : Delivery :=
  match msg.iov with
  | _::_::_ => leave sock msg buffer (-enotsup)
  | [] => leave sock msg buffer 0
  | [iov] =>
    if sock.rxQueue=[] ∧ sock.nonblocking then leave sock msg buffer (-eagain)
    else
      match netSockGet sock arrived with
      | (none, sock) => leave sock msg buffer (-eintr)
      | (some packet, sock) =>
        let packetSize := sizeSub packet.size 20
        let packetSize := if packetSize > iov.len then iov.len else packetSize
        let msg := setName msg ⟨[0, 0],sourceAddr packet⟩
        ⟨toLong packetSize,packetSize, memcpy buffer (fun i => packet.bytes (20+i)) packetSize,
          sockIpv4ControlCommon sock msg packet,sock⟩

def sockRawRecv : Delivery :=
  if sock.device=none then leave sock msg buffer (-einval)
  else
    match msg.iov with
    | _::_::_ => leave sock msg buffer (-enotsup)
    | [] => leave sock msg buffer 0
    | [iov] =>
      match netSockGet sock arrived with
      | (none, sock) => leave sock msg buffer (-eintr)
      | (some packet, sock) =>
        if iov.len<packet.size then leave sock msg buffer (-einval)
        else ⟨4096,packet.size,memcpy buffer packet.bytes packet.size,msg,sock⟩

/-- `pages` says if the pages of a range are the caller's to write to. -/
def mmuValidateUserPointer (addr size : Nat) : Bool :=
  addr != 0 && size≤0x800000000000 && pages addr size

def validateMsg : Bool :=
  msg.accessible && msg.iov.all fun iov => mmuValidateUserPointer pages iov.base iov.len

def netRecv : Delivery :=
  if validateMsg pages msg then
    match sock.kind with
    | .udp => sockUdpRecv sock msg arrived buffer
    | .icmp => sockIcmpRecv sock msg arrived buffer
    | .raw => sockRawRecv sock msg arrived buffer
  else leave sock msg buffer (-efault)

/-- The result is the number of bytes written, which fit, or an error without any. -/
def Bounded (room : Nat) (ret : Int) (written : Nat) : Prop :=
  written ≤ room ∧ (ret=written ∨ ret<0 ∧ written=0)

/-- The handler does not end the call before it asks for a packet. -/
def DatagramSock.Ready (sock : DatagramSock) : Prop :=
  match sock.kind with
  | .udp => sock.port≠0 ∧ ¬(sock.rxQueue=[] ∧ sock.nonblocking)
  | .icmp => ¬(sock.rxQueue=[] ∧ sock.nonblocking)
  | .raw => sock.device≠none

structure Takes (iov : Iovec) (packet : Queued) : Prop where
  valid : validateMsg pages msg=true
  iov : msg.iov=[iov]
  ready : sock.Ready
  first : (sock.rxQueue++arrived).head? = some packet
end

/-- A UDP packet has both headers and no more payload than there is room for. A raw packet is too
large for the buffer, or has the size that is always returned. -/
def Fits (room : Nat) (packet : Queued) : Kind → Prop
  | .udp => 28≤packet.length ∧ packet.length≤28+room
  | .icmp => True
  | .raw => room<packet.size ∨ packet.size=4096

/-- The result of a handler for a packet, and how much it copies. -/
def copied (room : Nat) (packet : Queued) : Kind → Int × Nat
  | .udp =>
    let size := sizeSub (sizeSub packet.length 20) 8
    (toLong size, size)
  | .icmp =>
    let size := min (sizeSub packet.size 20) room
    (toLong size, size)
  | .raw => if room<packet.size then (-einval, 0) else (4096, packet.size)

def payload (packet : Queued) : Kind → Memory
  | .udp => fun i => packet.bytes (28+i)
  | .icmp => fun i => packet.bytes (20+i)
  | .raw => packet.bytes

section Calls
variable {iov : Iovec} (buffer : Memory)

private theorem ntohs_lt : ntohs m pos<2^16 := by
  have h0 := (m pos).toNat_lt
  have h1 := (m (pos+1)).toNat_lt
  simp only [ntohs]
  omega

private theorem netSockGet_first (h : (sock.rxQueue++arrived).head? = some packet) :
    ∃ queue, netSockGet sock arrived=(some packet, { sock with rxQueue := queue }) := by
  obtain ⟨queue,hq⟩ := head?_eq_some_iff.mp h
  exact ⟨queue,by simp [netSockGet,hq]⟩

theorem netSockGet_none (h : (sock.rxQueue++arrived).head? = none) :
    netSockGet sock arrived=(none, sock) := by
  simp [netSockGet,head?_eq_none_iff.mp h]

private theorem memcpy_frame (h : n ≤ i) : memcpy buffer src n i=buffer i := by
  rw [memcpy,if_neg (Nat.not_lt.mpr h)]

theorem netRecv_takes (h : Takes pages sock msg arrived iov packet) :
    let d := netRecv pages sock msg arrived buffer
    d.ret=(copied iov.len packet sock.kind).1 ∧ d.written=(copied iov.len packet sock.kind).2 ∧
      d.buffer=memcpy buffer (payload packet sock.kind) d.written := by
  obtain ⟨queue,hg⟩ := netSockGet_first h.first
  have hr := h.ready
  simp only [netRecv,if_pos h.valid]
  cases hk : sock.kind with
  | udp =>
    simp only [DatagramSock.Ready,hk] at hr
    simp [sockUdpRecv,if_neg hr.1,h.iov,if_neg hr.2,hg,copied,payload]
  | icmp =>
    simp only [DatagramSock.Ready,hk] at hr
    have hm : (if sizeSub packet.size 20 > iov.len then iov.len else sizeSub packet.size 20) =
        min (sizeSub packet.size 20) iov.len := by
      split <;> omega
    simp [sockIcmpRecv,h.iov,if_neg hr,hg,copied,payload,hm]
  | raw =>
    simp only [DatagramSock.Ready,hk] at hr
    simp only [sockRawRecv,if_neg hr,h.iov,hg,copied]
    split <;> exact ⟨rfl,rfl,rfl⟩

structure Delivery.Idle (d : Delivery) (buffer : Memory) : Prop where
  written : d.written=0
  ret : d.ret≤0
  buffer : d.buffer=buffer

theorem leave_idle {buffer : Memory} (h : ret≤0 := by decide) :
    (leave sock msg buffer ret).Idle buffer := ⟨rfl,h,rfl⟩

private theorem sockUdpRecv_idle (hi : ∀ iov, msg.iov=[iov] → sock.port≠0 →
      ¬(sock.rxQueue=[] ∧ sock.nonblocking) → (sock.rxQueue++arrived).head? = none) :
    (sockUdpRecv sock msg arrived buffer).Idle buffer := by
  rw [sockUdpRecv]
  split
  · exact leave_idle
  rename_i hp
  split
  · exact leave_idle
  · exact leave_idle
  rename_i iov h
  split
  · exact leave_idle
  rename_i he
  rw [netSockGet_none (hi iov h hp he)]
  exact leave_idle

private theorem sockIcmpRecv_idle (hi : ∀ iov, msg.iov=[iov] →
      ¬(sock.rxQueue=[] ∧ sock.nonblocking) → (sock.rxQueue++arrived).head? = none) :
    (sockIcmpRecv sock msg arrived buffer).Idle buffer := by
  rw [sockIcmpRecv]
  split
  · exact leave_idle
  · exact leave_idle
  rename_i iov h
  split
  · exact leave_idle
  rename_i he
  rw [netSockGet_none (hi iov h he)]
  exact leave_idle

private theorem sockRawRecv_idle (hi : ∀ iov, msg.iov=[iov] → sock.device≠none →
      (sock.rxQueue++arrived).head? = none) :
    (sockRawRecv sock msg arrived buffer).Idle buffer := by
  rw [sockRawRecv]
  split
  · exact leave_idle
  rename_i hd
  split
  · exact leave_idle
  · exact leave_idle
  rename_i iov h
  rw [netSockGet_none (hi iov h hd)]
  exact leave_idle

theorem netRecv_idle (h : ∀ iov packet, ¬Takes pages sock msg arrived iov packet) :
    (netRecv pages sock msg arrived buffer).Idle buffer := by
  rw [netRecv]
  by_cases hv : validateMsg pages msg=true
  · rw [if_pos hv]
    have hn : ∀ iov, msg.iov=[iov] → sock.Ready → (sock.rxQueue++arrived).head? = none := by
      intro iov hi hr
      rw [Option.eq_none_iff_forall_ne_some]
      intro packet hf
      exact h iov packet ⟨hv,hi,hr,hf⟩
    cases hk : sock.kind with
    | udp =>
      simp only [DatagramSock.Ready,hk] at hn
      exact sockUdpRecv_idle buffer fun iov hi hp he => hn iov hi ⟨hp,he⟩
    | icmp =>
      simp only [DatagramSock.Ready,hk] at hn
      exact sockIcmpRecv_idle buffer hn
    | raw =>
      simp only [DatagramSock.Ready,hk] at hn
      exact sockRawRecv_idle buffer hn
  · rw [if_neg hv]
    exact leave_idle

private theorem Takes.room (h : Takes pages sock msg arrived iov packet) : iov.len≤2^47 := by
  have hv := h.valid
  simp only [validateMsg,h.iov,all_cons,mmuValidateUserPointer,Bool.and_eq_true,
    decide_eq_true_eq] at hv
  omega

private theorem Takes.forall_iff (h : Takes pages sock msg arrived iov packet) :
    (∀ iov packet, Takes pages sock msg arrived iov packet → Fits iov.len packet kind) ↔
      Fits iov.len packet kind := by
  constructor
  · intro ha
    exact ha iov packet h
  intro hfi iov' packet' h'
  have hi := h.iov.symm.trans h'.iov
  have hf := h.first.symm.trans h'.first
  rw [cons.injEq] at hi
  rw [← hi.1,← Option.some.inj hf]
  exact hfi

/-- The subtraction of the headers wraps around for a packet without room for them. -/
theorem bounded_udp_iff : Bounded room (copied room packet .udp).1 (copied room packet .udp).2 ↔
      Fits room packet .udp := by
  have hlt : packet.length<2^16 := ntohs_lt
  by_cases hh : 28≤packet.length
  · have hs : sizeSub (sizeSub packet.length 20) 8=packet.length-28 := by
      simp only [sizeSub]
      omega
    simp only [copied,Fits,Bounded,toLong]
    omega
  · have hs : sizeSub (sizeSub packet.length 20) 8=2^64+packet.length-28 := by
      simp only [sizeSub]
      omega
    simp only [copied,Fits,Bounded,toLong]
    omega

private theorem bounded_icmp (h : room≤2^47) :
    Bounded room (copied room packet .icmp).1 (copied room packet .icmp).2 := by
  have hlt : min (sizeSub packet.size 20) room<2^63 := by omega
  simp only [copied,Bounded,toLong,if_pos hlt,true_or,and_true]
  exact Nat.min_le_right _ _

private theorem bounded_raw_iff :
    Bounded room (copied room packet .raw).1 (copied room packet .raw).2 ↔
      Fits room packet .raw := by
  simp only [copied,Fits,Bounded]
  split
  · rename_i hr
    exact iff_of_true ⟨room.zero_le,.inr ⟨by decide,rfl⟩⟩ (.inl hr)
  · omega

private theorem netRecv_frame (h : (netRecv pages sock msg arrived buffer).written ≤ i) :
    (netRecv pages sock msg arrived buffer).buffer i=buffer i := by
  by_cases ht : ∃ iov packet, Takes pages sock msg arrived iov packet
  · obtain ⟨iov,packet,ht⟩ := ht
    rw [(netRecv_takes buffer ht).2.2]
    exact memcpy_frame buffer h
  · rw [(netRecv_idle buffer fun iov packet h => ht ⟨iov,packet,h⟩).buffer]

/-- A call is bounded if and only if the packet that it takes fits. -/
theorem netRecv_bounded_iff (pages : Nat → Nat → Bool) (sock : DatagramSock) (msg : Msghdr)
    (arrived : List Queued) (buffer : Memory) :
    let d := netRecv pages sock msg arrived buffer
    (∀ i, d.written ≤ i → d.buffer i = buffer i) ∧
      (Bounded (msg.iov.head?.elim 0 Iovec.len) d.ret d.written ↔
        ∀ iov packet, Takes pages sock msg arrived iov packet → Fits iov.len packet sock.kind) := by
  refine ⟨fun i => netRecv_frame buffer,?_⟩
  by_cases ht : ∃ iov packet, Takes pages sock msg arrived iov packet
  · obtain ⟨iov,packet,h⟩ := ht
    obtain ⟨hr,hw,-⟩ := netRecv_takes buffer h
    rw [h.forall_iff,hr,hw,h.iov]
    cases sock.kind with
    | udp => exact bounded_udp_iff
    | icmp => exact iff_of_true (bounded_icmp h.room) trivial
    | raw => exact bounded_raw_iff
  · have hn : ∀ iov packet, ¬Takes pages sock msg arrived iov packet :=
      fun iov packet h => ht ⟨iov,packet,h⟩
    have hi := netRecv_idle buffer hn
    refine iff_of_true ?_ fun iov packet h => absurd h (hn iov packet)
    have hr := hi.ret
    rw [Bounded,hi.written]
    omega
end Calls

def udpStack : Stack :=
  { sock := fun _ => ⟨.udp,7,false,none,[],false⟩
    udpSockets := fun port => if port=7 then some 0 else none
    icmpSockets := fun _ => none
    rawSockets := [] }

def udpPacket (length : UInt8) : Memory :=
  fun i =>
    [0x45, 0, 0, length, 0, 0, 0, 0, 64, 17, 0, 0, 10, 0, 2, 2, 10, 0, 2, 15, 0, 9, 0, 7].getD
    i 0

def rawStack : Stack :=
  { sock := fun _ => ⟨.raw,0,false,some 1,[],false⟩
    udpSockets := fun _ => none
    icmpSockets := fun _ => none
    rawSockets := [0] }

def oneBuffer (len : Nat) : Msghdr := ⟨true,none,0,[⟨0x1000,len⟩],none,0⟩

/-- All of 12 bytes go into a buffer of 4, and nearly 2^64 from a packet without headers. For a raw
frame of 60 bytes the result is 4096. -/
theorem netRecv_unbounded :
    let udp := fun length => netRecv (fun _ _ => true)
      ((netIpv4Handle udpStack (fun _ => 0) (udpPacket length)).sock 0) (oneBuffer 4) [] fun _ => 0
    let raw := netRecv (fun _ _ => true)
      ((netEthHandle rawStack ⟨1,[]⟩ (fun _ => 0) (fun _ => 0) 60).sock 0) (oneBuffer 100) []
      fun _ => 0
    ((udp 40).ret = 12 ∧ (udp 40).written = 12 ∧ ¬Bounded 4 (udp 40).ret (udp 40).written) ∧
    ((udp 24).ret = -4 ∧ (udp 24).written = 2^64-4 ∧ ¬Bounded 4 (udp 24).ret (udp 24).written) ∧
    (raw.ret = 4096 ∧ raw.written = 60 ∧ ¬Bounded 100 raw.ret raw.written) := by
  simp only [Bounded]
  decide
end RazionOS.Kernel.Net.Datagrams
