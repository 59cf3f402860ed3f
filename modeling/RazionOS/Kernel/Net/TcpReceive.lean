import Mathlib.Data.UInt

/-!
# Receiving a TCP stream

Segments come in through `net_ipv4_handle`, which asks `tcp_ack` whether one is the expected one
and queues it, and go out through `sock_tcp_recv`, which strips the headers.
-/

namespace RazionOS.Kernel.Net

abbrev Bytes := List UInt8
def enotsup : Int := 134
def einval : Int := 22
def eagain : Int := 11

inductive TcpState where
  | none
  | waiting
  | acked
  | fin
  | bound
deriving DecidableEq

/-- A packet with an IP header and the first 20 bytes of a TCP header, and what comes after
these. -/
structure Packet where
  seqNumber : UInt32
  /-- The upper four bits of the flags. -/
  dataOffset : Nat
  syn : Bool
  ack : Bool
  rst : Bool
  fin : Bool
  rest : Bytes
deriving DecidableEq

def Packet.length (packet : Packet) : Nat := 40+packet.rest.length

/-- The sequence and the acknowledgement number of a response. -/
structure Response where
  seqNumber : UInt32
  ackNumber : UInt32
deriving DecidableEq

structure Sock where
  port : Nat
  tcpState : TcpState
  seqNum : UInt32
  ackNum : UInt32
  rxQueue : List Packet
  buf : Bytes
  nonblocking : Bool
  sent : List Response
deriving DecidableEq

def sizeSub (a b : Nat) : Nat := (a+2^64-b)%2 ^ 64

/-- Whether the segment is taken, and the socket after it. Its FIN counts all the same. -/
def tcpAck (sock : Sock) (packet : Packet) (isSynAck : Bool) (payloadLen : Nat) : Bool × Sock :=
  let wrong := sock.ackNum != 0 && !isSynAck && sock.ackNum != packet.seqNumber
  let sock :=
    if wrong then sock
    else { sock with
      seqNum := if isSynAck then 1 else sock.seqNum
      ackNum := packet.seqNumber + UInt32.ofNat payloadLen
      tcpState := .acked }
  let sock :=
    if packet.fin then { sock with ackNum := sock.ackNum+1, tcpState := .fin } else sock
  let response : Response := ⟨sock.seqNum,sock.ackNum⟩
  (!wrong, { sock with sent := sock.sent++List.replicate (if wrong then 3 else 1) response })

def netSockAdd (sock : Sock) (packet : Packet) : Sock :=
  { sock with rxQueue := sock.rxQueue++[packet] }

/-- The part of `net_ipv4_handle` for a socket that waits at the port. -/
def netIpv4Handle (packet : Packet) (sock : Sock) : Sock :=
  match sock.tcpState with
  | .waiting =>
    if packet.syn && packet.ack then
      let (taken, sock) := tcpAck sock packet true 1
      if taken then netSockAdd sock packet else sock
    else if packet.rst then { sock with tcpState := .none }
    else sock
  | .acked =>
    let packetLen := sizeSub packet.length 20
    let hlen := packet.dataOffset*4
    let payloadLen := sizeSub packetLen hlen
    if payloadLen≠0 then
      let (taken, sock) := tcpAck sock packet false payloadLen
      if taken then netSockAdd sock packet else sock
    else if packet.fin then (tcpAck sock packet false 0).2
    else sock
  | _ => sock

/-- What `sock_tcp_recv` returns, or that it waits. -/
inductive Received where
  | bytes (data : Bytes)
  | error (code : Int)
  | waits
deriving DecidableEq

/-- The buffers of the message are by their sizes. -/
def sockTcpRecv (iovLens : List Nat) (sock : Sock) : Received × Sock :=
  if sock.port=0 then (.error (-einval), sock)
  else
    match iovLens with
    | _::_::_ => (.error (-enotsup), sock)
    | [] => (.bytes [], sock)
    | [iovLen] =>
      if sock.buf≠[] then
        if sock.buf.length > iovLen then
          (.bytes (sock.buf.take iovLen), { sock with buf := sock.buf.drop iovLen })
        else (.bytes sock.buf, { sock with buf := [] })
      else
        match sock.rxQueue with
        | [] =>
          if sock.tcpState = .fin then (.bytes [], sock)
          else if sock.nonblocking then (.error (-eagain), sock)
          else (.waits, sock)
        | packet::queue =>
          -- all that comes after the first 20 bytes of the TCP header
          if packet.rest.length > iovLen then
            (.bytes (packet.rest.take iovLen),
              { sock with rxQueue := queue, buf := packet.rest.drop iovLen })
          else (.bytes packet.rest, { sock with rxQueue := queue })
end RazionOS.Kernel.Net
