import RazionOS.Kernel.Net.TcpReceive

/-! # The stream that is received -/

namespace RazionOS.Kernel.Net
open List UInt32

structure Segment where
  offset : Nat
  data : Bytes
  options : Bytes
  fin : Bool
deriving DecidableEq

@[mk_iff] structure Segment.Honest (stream : Bytes) (seg : Segment) : Prop where
  slice : seg.data=(stream.drop seg.offset).take seg.data.length
  inside : seg.offset+seg.data.length ≤ stream.length
  words : 4 ∣ seg.options.length
  header : seg.options.length≤40
  total : 40+seg.options.length+seg.data.length<2^16
  fin_last : seg.fin=true → seg.offset+seg.data.length=stream.length

instance (stream : Bytes) (seg : Segment) : Decidable (seg.Honest stream) :=
  decidable_of_iff' _ (Segment.honest_iff stream seg)

def seqOf (isn : UInt32) (offset : Nat) : UInt32 := isn+1 + ofNat offset

def Segment.packet (isn : UInt32) (seg : Segment) : Packet where
  seqNumber := seqOf isn seg.offset
  dataOffset := 5+seg.options.length/4
  syn := false
  ack := true
  rst := false
  fin := seg.fin
  rest := seg.options++seg.data

/-- The answer to the first segment that `sock_tcp_connect` sends. -/
def synAck (isn : UInt32) (options : Bytes) : Packet where
  seqNumber := isn
  dataOffset := 5+options.length/4
  syn := true
  ack := true
  rst := false
  fin := false
  rest := options

def connecting (port : Nat) (nonblocking : Bool) : Sock where
  port := port
  tcpState := .waiting
  seqNum := 0
  ackNum := 0
  rxQueue := []
  buf := []
  nonblocking := nonblocking
  sent := []

def connected (port : Nat) (nonblocking : Bool) (isn : UInt32) (options : Bytes) : Sock :=
  let sock := netIpv4Handle (synAck isn options) (connecting port nonblocking)
  { sock with rxQueue := sock.rxQueue.tail }

structure World where
  sock : Sock
  returned : Bytes
  eof : Bool

inductive Event where
  | arrives (seg : Segment)
  | recv (iovLens : List Nat)

/-- Nothing in a buffer that has room is the end of the stream. -/
def reportsEnd (iovLens : List Nat) (result : Received) : Bool :=
  result = .bytes [] && iovLens.any (0 < ·)

def World.step (isn : UInt32) (w : World) : Event → World
  | .arrives seg => { w with sock := netIpv4Handle (seg.packet isn) w.sock }
  | .recv iovLens =>
    let (result, sock) := sockTcpRecv iovLens w.sock
    match result with
    | .bytes data =>
      ⟨sock,w.returned++data,w.eof || reportsEnd iovLens result⟩
    | _ => { w with sock := sock }

def World.start (sock : Sock) : World := ⟨sock,[],false⟩
def Sock.pending (sock : Sock) : Bytes := sock.buf++sock.rxQueue.flatMap Packet.rest
def World.position (w : World) : Nat := w.returned.length+w.sock.pending.length

/-- A segment that the code treats as it should. In order it has no options, out of order it has no
FIN, and 0 is not the expected number. -/
def Plain (isn : UInt32) (w : World) : Event → Prop
  | .recv _ => True
  | .arrives seg =>
    w.sock.tcpState ≠ .acked ∨ (seg.data=[] ∧ seg.fin=false) ∨
      (seqOf isn seg.offset=w.sock.ackNum ∧ seg.offset=w.position ∧
        (seg.data=[] ∨ seg.options=[])) ∨
      (seqOf isn seg.offset≠w.sock.ackNum ∧ w.sock.ackNum≠0 ∧ seg.fin=false)

def Event.Honest (stream : Bytes) : Event → Prop
  | .recv _ => True
  | .arrives seg => seg.Honest stream

instance (isn : UInt32) (w : World) : (event : Event) → Decidable (Plain isn w event)
  | .recv _ => inferInstanceAs (Decidable True)
  | .arrives _ => inferInstanceAs (Decidable (_ ∨ _))

instance (stream : Bytes) : (event : Event) → Decidable (event.Honest stream)
  | .recv _ => inferInstanceAs (Decidable True)
  | .arrives seg => inferInstanceAs (Decidable (seg.Honest stream))

inductive Reached (stream : Bytes) (isn : UInt32) : World → Prop
  | start : Reached stream isn (.start (connected port nonblocking isn options))
  | step (h : Reached stream isn w) (hhonest : event.Honest stream)
    (hplain : Plain isn w event) : Reached stream isn (w.step isn event)

/-- What was returned and what is pending is the stream up to the position. -/
structure Inv (stream : Bytes) (isn : UInt32) (w : World) : Prop where
  content : w.returned++w.sock.pending=stream.take w.position
  acked : w.sock.tcpState = .acked → w.sock.ackNum=seqOf isn w.position
  fin : w.sock.tcpState = .fin → w.position=stream.length
  state : w.sock.tcpState = .acked ∨ w.sock.tcpState = .fin
  queued : ∀ packet∈w.sock.rxQueue, packet.rest≠[]
  eof : w.eof=true → w.sock.tcpState = .fin ∧ w.sock.pending=[]

variable {seg : Segment}

private theorem seqOf_add : seqOf isn (offset+n)=seqOf isn offset + ofNat n := by
  rw [seqOf,seqOf,ofNat_add,UInt32.add_assoc,UInt32.add_assoc,UInt32.add_assoc]

private theorem connected_inv :
    Inv stream isn (.start (connected port nonblocking isn options)) where
  content := rfl
  acked _ := by
    change isn + ofNat 1=isn+1 + ofNat 0
    simp
  fin h := TcpState.noConfusion h
  state := .inl rfl
  queued := nofun
  eof h := Bool.noConfusion h

/-- The header length is subtracted with the options here. -/
theorem payloadLen_packet (h : seg.Honest stream) :
    sizeSub (sizeSub (seg.packet isn).length 20) ((seg.packet isn).dataOffset * 4) =
      seg.data.length := by
  have hw := Nat.div_mul_cancel h.words
  have ht := h.total
  simp only [Segment.packet,Packet.length,length_append,sizeSub]
  omega

theorem netIpv4Handle_acked (h : seg.Honest stream) (hst : sock.tcpState = .acked) :
    netIpv4Handle (seg.packet isn) sock =
      if seg.data.length≠0 then
        let (taken, sock) := tcpAck sock (seg.packet isn) false seg.data.length
        if taken then netSockAdd sock (seg.packet isn) else sock
      else if seg.fin then (tcpAck sock (seg.packet isn) false 0).2
      else sock := by
  rw [netIpv4Handle,hst]
  simp only [payloadLen_packet h]
  rfl

private theorem Inv.congr_sent (h : Inv stream isn w) :
    Inv stream isn { w with sock := { w.sock with sent := sent } } :=
  ⟨h.content,h.acked,h.fin,h.state,h.queued,h.eof⟩

private theorem tcpAck_wrong (packet : Packet) (hz : sock.ackNum≠0)
    (hs : packet.seqNumber≠sock.ackNum) (hf : packet.fin=false) :
    ∃ sent, tcpAck sock packet false payloadLen=(false, { sock with sent := sent }) := by
  have hne : sock.ackNum≠packet.seqNumber := fun heq => hs heq.symm
  simp [tcpAck,hz,hne,hf]

private theorem tcpAck_taken (packet : Packet) (hs : packet.seqNumber=sock.ackNum)
    (payloadLen : Nat) :
    ∃ ackNum sent, tcpAck sock packet false payloadLen =
      (true, { sock with
        ackNum := ackNum
        tcpState := if packet.fin then .fin else .acked
        sent := sent }) ∧
      (packet.fin=false → ackNum=packet.seqNumber + ofNat payloadLen) := by
  cases hf : packet.fin <;> simp [tcpAck,hs,hf]

private theorem Inv.wrong (h : Inv stream isn w) (hseg : seg.Honest stream)
    (hst : w.sock.tcpState = .acked) (hs : seqOf isn seg.offset≠w.sock.ackNum)
    (hz : w.sock.ackNum≠0) (hf : seg.fin=false) :
    Inv stream isn (w.step isn (.arrives seg)) := by
  obtain ⟨sent,ha⟩ := tcpAck_wrong (seg.packet isn) hz hs hf
  rw [World.step,netIpv4Handle_acked hseg hst,ha]
  by_cases hlen : seg.data.length≠0
  · rw [if_pos hlen]
    exact h.congr_sent
  · rw [if_neg hlen,hf]
    exact h

private theorem Segment.Honest.take_append (hseg : seg.Honest stream) :
    stream.take seg.offset++seg.data=stream.take (seg.offset+seg.data.length) := by
  rw [take_add,← hseg.slice]

section
variable (h : Inv stream isn w) (hseg : seg.Honest stream)
include h hseg

private theorem Inv.extend (hst : w.sock.tcpState = .acked) (ho : seg.offset=w.position)
    (hp : sock.pending=w.sock.pending++seg.data)
    (ht : sock.tcpState=if seg.fin then .fin else .acked)
    (hn : seg.fin=false → sock.ackNum=seqOf isn (seg.offset+seg.data.length))
    (hq : ∀ packet∈sock.rxQueue, packet.rest≠[]) :
    Inv stream isn { w with sock := sock } := by
  have hpos : World.position { w with sock := sock }=w.position+seg.data.length := by
    simp [World.position,hp,Nat.add_assoc]
  refine ⟨?_,fun ha => ?_,fun he => ?_,?_,hq,fun heo => ?_⟩
  · rw [hpos,hp,← append_assoc,h.content,← ho,hseg.take_append]
  · cases hf : seg.fin with
    | true => simp [ht,hf] at ha
    | false => rw [hpos,← ho,hn hf]
  · cases hf : seg.fin with
    | false => simp [ht,hf] at he
    | true => rw [hpos,← ho,hseg.fin_last hf]
  · cases hf : seg.fin <;> simp [ht]
  · have he := (h.eof heo).1
    rw [hst] at he
    cases he

private theorem Inv.taken (hst : w.sock.tcpState = .acked) (hs : seqOf isn seg.offset=w.sock.ackNum)
    (ho : seg.offset=w.position) (hp : seg.data=[] ∨ seg.options=[]) :
    Inv stream isn (w.step isn (.arrives seg)) := by
  obtain ⟨ackNum,sent,ha,hn⟩ := tcpAck_taken (seg.packet isn) hs seg.data.length
  rw [World.step,netIpv4Handle_acked hseg hst]
  by_cases hd : seg.data=[]
  · -- without data the segment is at most a FIN
    rw [hd,length_nil] at ha ⊢
    rw [ha]
    cases hf : seg.fin with
    | false => exact h
    | true =>
      have he : (seg.packet isn).fin=true := hf
      apply h.extend hseg hst ho
      · simp [hd,Sock.pending]
      · simp [he,hf]
      · exact fun hne => absurd (hf.symm.trans hne) nofun
      · exact h.queued
  · have hlen : seg.data.length≠0 := fun heq => hd (eq_nil_of_length_eq_zero heq)
    have hr : (seg.packet isn).rest=seg.data := by
      simp [Segment.packet,hp.resolve_left hd]
    rw [if_pos hlen,ha]
    apply h.extend hseg hst ho
    · simp [netSockAdd,Sock.pending,hr]
    · rfl
    · intro hf
      rw [seqOf_add]
      exact hn hf
    · intro packet hpk
      rcases mem_append.1 hpk with hmem | hmem
      · exact h.queued packet hmem
      · rw [mem_singleton.1 hmem,hr]
        exact hd

private theorem Inv.arrives (hp : Plain isn w (.arrives seg)) :
    Inv stream isn (w.step isn (.arrives seg)) := by
  rcases h.state with hst | hst
  · rcases hp with hne | ⟨hd,hf⟩ | ⟨hs,ho,hp⟩ | ⟨hs,hz,hf⟩
    · exact absurd hst hne
    · rw [World.step,netIpv4Handle_acked hseg hst,hd,hf]
      exact h
    · exact h.taken hseg hst hs ho hp
    · exact h.wrong hseg hst hs hz hf
  · -- after the FIN nothing is looked at
    rw [World.step,netIpv4Handle,hst]
    exact h

end

/-- A call takes what it returns from the front of what is pending. -/
structure Delivers (iovLens : List Nat) (sock sock' : Sock) (data : Bytes) : Prop where
  pending : sock.pending=data++sock'.pending
  tcpState : sock'.tcpState=sock.tcpState
  ackNum : sock'.ackNum=sock.ackNum
  rxQueue : sock'.rxQueue ⊆ sock.rxQueue
  ends : reportsEnd iovLens (.bytes data)=true → sock.tcpState = .fin ∧ sock.pending=[]

private theorem reportsEnd_singleton :
    reportsEnd [iovLen] (.bytes data)=true ↔ data=[] ∧ 0 < iovLen := by
  simp [reportsEnd]

private theorem delivers_take (hf : front≠[])
    (hp : sock.pending=front++sock'.rxQueue.flatMap Packet.rest)
    (hb : sock'.buf=front.drop iovLen) (ht : sock'.tcpState=sock.tcpState)
    (hnu : sock'.ackNum=sock.ackNum) (hq : sock'.rxQueue ⊆ sock.rxQueue) :
    Delivers [iovLen] sock sock' (front.take iovLen) where
  pending := by
    rw [hp,Sock.pending,hb,← append_assoc,take_append_drop]
  tcpState := ht
  ackNum := hnu
  rxQueue := hq
  ends := by
    rw [reportsEnd_singleton,take_eq_nil_iff]
    rintro ⟨hn | hn,hr⟩
    · omega
    · exact absurd hn hf

/-- How a call ends. Without bytes the socket is as it was. -/
inductive Outcome (iovLens : List Nat) (sock : Sock) : Received × Sock → Prop
  | delivers (h : Delivers iovLens sock sock' data) :
    Outcome iovLens sock (.bytes data, sock')
  | error (code : Int) : Outcome iovLens sock (.error code, sock)
  | waits : Outcome iovLens sock (.waits, sock)

private theorem sockTcpRecv_outcome (iovLens : List Nat)
    (hqu : ∀ packet∈sock.rxQueue, packet.rest≠[]) :
    Outcome iovLens sock (sockTcpRecv iovLens sock) := by
  rw [sockTcpRecv.eq_def]
  by_cases hpo : sock.port=0
  · rw [if_pos hpo]
    exact .error _
  rw [if_neg hpo]
  match iovLens with
  | _::_::_ => exact .error _
  | [] => exact .delivers ⟨rfl,rfl,rfl,fun _ hmem => hmem,nofun⟩
  | [iovLen] =>
    by_cases hb : sock.buf=[]
    · simp only [hb]
      cases hq : sock.rxQueue with
      | nil =>
        have hp : sock.pending=[] := by simp [Sock.pending,hb,hq]
        by_cases hf : sock.tcpState = .fin
        · simp only [hf]
          exact .delivers ⟨rfl,rfl,rfl,fun _ hmem => hmem,fun _ => ⟨hf,hp⟩⟩
        simp only [hf]
        cases sock.nonblocking with
        | true => exact .error _
        | false => exact .waits
      | cons packet queue =>
        have hr := hqu packet (hq ▸ mem_cons_self)
        have hp : sock.pending=packet.rest++queue.flatMap Packet.rest := by
          simp [Sock.pending,hb,hq]
        have hsu : queue ⊆ sock.rxQueue := by
          rw [hq]
          exact subset_cons_self packet queue
        by_cases hl : packet.rest.length > iovLen
        · simp only [hl]
          exact .delivers (delivers_take hr hp rfl rfl rfl hsu)
        simp only [hl]
        have hs := Nat.not_lt.1 hl
        have hd : Delivers [iovLen] sock { sock with rxQueue := queue, buf := [] }
            (packet.rest.take iovLen) :=
          delivers_take hr hp (drop_of_length_le hs).symm rfl rfl hsu
        rw [take_of_length_le hs] at hd
        exact .delivers hd
    · simp only [ne_eq,hb]
      by_cases hl : sock.buf.length > iovLen
      · simp only [hl]
        exact .delivers (delivers_take hb rfl rfl rfl rfl fun _ hmem => hmem)
      simp only [hl]
      have hs := Nat.not_lt.1 hl
      have hd : Delivers [iovLen] sock { sock with buf := [] } (sock.buf.take iovLen) :=
        delivers_take hb rfl (drop_of_length_le hs).symm rfl rfl fun _ hmem => hmem
      rw [take_of_length_le hs] at hd
      exact .delivers hd

private theorem Inv.delivers (h : Inv stream isn w) (hd : Delivers iovLens w.sock sock data) :
    Inv stream isn ⟨sock,w.returned++data,w.eof || reportsEnd iovLens (.bytes data)⟩ := by
  have hpos : World.position
      ⟨sock,w.returned++data,w.eof || reportsEnd iovLens (.bytes data)⟩=w.position := by
    simp [World.position,hd.pending,Nat.add_assoc]
  refine ⟨?_,fun ha => ?_,fun hf => ?_,?_,fun packet hp => ?_,fun heo => ?_⟩
  · rw [hpos,← h.content,hd.pending,append_assoc]
  · rw [hpos,← h.acked (hd.tcpState.symm.trans ha)]
    exact hd.ackNum
  · rw [hpos]
    exact h.fin (hd.tcpState.symm.trans hf)
  · simp only [hd.tcpState]
    exact h.state
  · exact h.queued packet (hd.rxQueue hp)
  have he : w.sock.tcpState = .fin ∧ w.sock.pending=[] := by
    rcases (Bool.or_eq_true _ _).mp heo with hb | hno
    · exact h.eof hb
    · exact hd.ends hno
  have hn := hd.pending.symm.trans he.2
  exact ⟨hd.tcpState.trans he.1,(append_eq_nil_iff.1 hn).2⟩

private theorem Inv.recv (h : Inv stream isn w) (iovLens : List Nat) :
    Inv stream isn (w.step isn (.recv iovLens)) := by
  have ho := sockTcpRecv_outcome iovLens h.queued
  rw [World.step]
  generalize sockTcpRecv iovLens w.sock=result at ho
  cases ho with
  | delivers hd => exact h.delivers hd
  | error code => exact h
  | waits => exact h

theorem Reached.inv (h : Reached stream isn w) : Inv stream isn w := by
  induction h with
  | start => exact connected_inv
  | @step w event h hh hp ih =>
    cases event with
    | arrives seg => exact ih.arrives hh hp
    | recv iovLens => exact ih.recv iovLens

/-- What was returned for honest plain segments is the beginning of the stream, and all of it once
the end was reported. -/
theorem received_prefix_of_stream (stream : Bytes) (isn : UInt32) (w : World)
    (h : Reached stream isn w) :
    w.returned <+: stream ∧ (w.eof = true → w.returned = stream) := by
  have hinv := h.inv
  constructor
  · have hp := prefix_append w.returned w.sock.pending
    rw [hinv.content] at hp
    exact hp.trans (List.take_prefix _ _)
  · intro he
    obtain ⟨hf,hpe⟩ := hinv.eof he
    have hc := hinv.content
    rwa [hpe,append_nil,hinv.fin hf,take_length] at hc

def World.run (isn : UInt32) (events : List Event) : World :=
  events.foldl (World.step isn) (.start (connected 49152 true isn []))

def plainRun (stream : Bytes) (isn : UInt32) : World → List Event → Bool
  | _, [] => true
  | w, event::events =>
    event.Honest stream && Plain isn w event && plainRun stream isn (w.step isn event) events

theorem Reached.run (h : Reached stream isn w) (he : plainRun stream isn w events=true) :
    Reached stream isn (events.foldl (World.step isn) w) := by
  induction events generalizing w with
  | nil => exact h
  | cons event events ih =>
    simp only [plainRun,Bool.and_eq_true,decide_eq_true_eq] at he
    exact ih (h.step he.1.1 he.1.2) he.2

/-- What is acknowledged is what was returned or is kept to be. -/
theorem acknowledged_kept (h : Reached stream isn w) : ∃ n ≤ stream.length,
    w.returned ++ w.sock.pending = stream.take n ∧
      (w.sock.tcpState = .acked → w.sock.ackNum = seqOf isn n) := by
  have hl := congrArg length h.inv.content
  rw [length_append,length_take] at hl
  exact ⟨w.position,min_eq_left_iff.1 hl.symm,h.inv.content,h.inv.acked⟩

theorem acknowledged_kept_twoBytes :
    let w := World.run 7 [.arrives ⟨0,[97],[],false⟩, .recv [1], .arrives ⟨1,[98],[],false⟩]
    ∃ n ≤ 3, w.returned ++ w.sock.pending = [97, 98, 99].take n ∧ w.sock.ackNum = seqOf 7 n := by
  intro w
  have hr : Reached [97, 98, 99] 7 w := Reached.start.run (by decide +kernel)
  obtain ⟨n,hn,hc,ha⟩ := acknowledged_kept hr
  exact ⟨n,hn,hc,ha rfl⟩

/-- Two bytes across the wrap of the sequence numbers, the first one twice and the second with the
FIN. -/
theorem received_prefix_of_stream_twoBytes :
    let w := World.run 0xfffffffd [.arrives ⟨0,[97],[],false⟩, .arrives ⟨0,[97],[],false⟩,
      .arrives ⟨1,[98],[],true⟩, .recv [1], .recv [9], .recv [9]]
    w.eof = true ∧ w.returned <+: [97, 98] ∧ w.returned = [97, 98] := by
  intro w
  have he : w.eof=true := by decide +kernel
  have hr : Reached [97, 98] 0xfffffffd w := Reached.start.run (by decide +kernel)
  have hs := received_prefix_of_stream [97, 98] 0xfffffffd w hr
  exact ⟨he,hs.1,hs.2 he⟩

/-- Honest segments of the stream `ab`: options come out as data, a FIN out of turn ends the stream,
and 0 as the expected number lets anything in. -/
theorem sockTcpRecv_wrong_streams :
    let options : List Event := [.arrives ⟨0,[97, 98],[1, 1, 1, 1],false⟩, .recv [9]]
    let early : List Event := [.arrives ⟨1,[98],[],true⟩, .recv [9]]
    let zero : List Event := [.arrives ⟨1,[98],[],false⟩, .recv [9]]
    (∀ event ∈ options ++ early ++ zero, event.Honest [97, 98]) ∧
      ¬(World.run 7 options).returned <+: [97, 98] ∧
      ((World.run 7 early).eof = true ∧ (World.run 7 early).returned = []) ∧
      ¬(World.run 0xffffffff zero).returned <+: [97, 98] := by
  decide +kernel
end RazionOS.Kernel.Net
