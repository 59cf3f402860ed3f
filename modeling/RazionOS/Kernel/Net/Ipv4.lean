import RazionOS.Framework.OnesComplement
import RazionOS.Kernel.Net.TcpReceive

/-!
# Packets that are sent

Checksums of IPv4 packets, and the packets of `sock_tcp_send`. Packets are the bytes that are sent,
in network order; a sum is folded after each word, so that it never leaves 32 bits.
-/

namespace RazionOS.Kernel.Net
open Framework.OnesComplement List Nat UInt8

def htons (n : Nat) : Bytes := [ofNat (n/2^8), ofNat n]

def htonl (n : Nat) : Bytes := htons (n/2^16)++htons n

/-- A field of 16 bits is written. -/
def store16 (p : Bytes) (offset n : Nat) : Bytes := p.take offset++htons n++p.drop (offset+2)

def fold (sum : Nat) : Nat := if sum > 0xFFFF then (sum >>> 16) + sum%2^16 else sum

def addWord (sum word : Nat) : Nat := fold (sum+word)

/-- The loops over `n` words, from the word that is read next. -/
def addWords (add : Nat → Nat → Nat) : Nat → Bytes → Nat → Nat
  | n+1, a::b::rest, sum => addWords add n rest (add sum (a.toNat*2^8 + b.toNat))
  | _, _, sum => sum

/-- `~(sum & 0xFFFF) & 0xFFFF` -/
def complement (sum : Nat) : Nat := 0xFFFF - sum%2^16

def calculateIpv4Checksum (p : Bytes) : Nat := complement (addWords addWord 10 p 0)

def calculateTcpChecksum (p h : Bytes) (d : Option Bytes) (payloadSize : Nat) : Nat :=
  let sum := addWords addWord 10 h (addWords addWord 6 p 0)
  complement <| match d with
    | none => sum
    | some d =>
      let dWords := payloadSize/2%2^16
      let sum := addWords addWord dWords d sum
      if dWords*2≠payloadSize then addWord sum ((d.getD (dWords*2) 0).toNat*2^8) else sum

theorem addWord_carry (h : word<2^16) (sum : Nat) : addWord (carry sum) word=carry (sum+word) := by
  obtain ⟨hlt,hmod,hz⟩ := carry_spec sum
  rw [← carry_add]
  apply eq_carry <;> simp only [addWord,fold] <;> split <;> omega

/-- The loops for a sum that is kept in the form `f`. -/
theorem addWords_map {f : Nat → Nat} (hf : ∀ sum word, word<2^16 →
    add (f sum) word=f (sum+word)) (sum : Nat) (h : n*2≤p.length) :
    addWords add n p (f sum)=f (sum + (words (p.take (n*2))).sum) := by
  induction n generalizing p sum with
  | zero => simp [addWords,words]
  | succ n ih =>
    obtain _ | ⟨a,_ | ⟨b,rest⟩⟩ := p
    · simp at h
    · simp at h
      omega
    have ha := a.toNat_lt
    have hb := b.toNat_lt
    rw [addWords,hf _ _ (by omega),ih _ (by simp at h; omega),succ_mul,take_succ_cons,
      take_succ_cons,words,sum_cons,Nat.add_assoc]

theorem addWords_carry (sum : Nat) (h : n*2≤p.length) :
    addWords addWord n p (carry sum)=carry (sum + (words (p.take (n*2))).sum) :=
  addWords_map (fun sum _ h => addWord_carry h sum) sum h

theorem addWords_zero (h : n*2≤p.length) :
    addWords addWord n p 0=carry (words (p.take (n*2))).sum := by
  have hz := (carry_spec 0).2.2.2 rfl
  rw [← Nat.zero_add (words _).sum,← addWords_carry 0 h,hz]

private theorem words_store16 {offset : Nat} (hz : offset%2=0) (h : offset≤p.length) (hn : n<2^16) :
    (words (store16 p offset n)).sum=(words (store16 p offset 0)).sum + n := by
  have hl : (p.take offset).length%2=0 := by simpa [Nat.min_eq_left h] using hz
  simp only [store16,append_assoc,words_append hl]
  simp [htons,words]
  omega

theorem checksum_lt : checksum message<2^16 := by
  rw [checksum]
  omega

/-- A message verifies with its checksum in a field that was zero. -/
theorem checksum_store16 {offset : Nat} (hz : offset%2=0) (h : offset≤p.length) :
    checksum (store16 p offset (checksum (store16 p offset 0)))=0 := by
  rw [checksum,words_store16 hz h checksum_lt,checksum,carry_complement]

theorem complement_carry (sum : Nat) : complement (carry sum)=0xFFFF - carry sum := by
  rw [complement,mod_eq_of_lt (carry_spec sum).1]

theorem calculateIpv4Checksum_eq (h : p.length=20) : calculateIpv4Checksum p=checksum p := by
  rw [calculateIpv4Checksum,addWords_zero (by omega),take_of_length_le (by omega),
    complement_carry,checksum]

/-- The last byte if it has none to make a word with. -/
def oddByte (d : Bytes) : Nat :=
  if d.length/2*2≠d.length then (d.getD (d.length/2*2) 0).toNat else 0

theorem oddByte_lt (d : Bytes) : oddByte d<2^8 := by
  unfold oddByte
  split
  · exact toNat_lt _
  · decide

theorem sum_words (d : Bytes) :
    (words d).sum=(words (d.take (d.length/2*2))).sum + oddByte d*2^8 := by
  have hl : (d.take (d.length/2*2)).length%2=0 := by
    rw [length_take]
    omega
  conv => lhs; rw [← take_append_drop _ d,words_append hl,sum_append_nat]
  rw [oddByte]
  split
  · have hi : d.length/2*2<d.length := by omega
    rw [drop_eq_getElem_cons hi,drop_of_length_le (by omega),getD_eq_getElem?_getD,
      getElem?_eq_getElem hi]
    simp [words]
  · rw [drop_of_length_le (by omega)]
    rfl

theorem calculateTcpChecksum_eq {ptr : Option Bytes} (hp : p.length=12) (hh : h.length=20)
    (hd : (ptr.getD []).length<2^17) :
    calculateTcpChecksum p h ptr (ptr.getD []).length=checksum (p++h++ptr.getD []) := by
  unfold calculateTcpChecksum
  rw [checksum,words_append (by simp [hp,hh]),words_append (by simp [hp]),sum_append_nat,
    sum_append_nat,addWords_zero (by omega),addWords_carry _ (by omega),
    take_of_length_le (by omega),take_of_length_le (by omega)]
  obtain _ | d := ptr
  · exact complement_carry _
  dsimp only [Option.getD_some] at hd ⊢
  have hb := oddByte_lt d
  rw [mod_eq_of_lt (by omega),sum_words d,addWords_carry _ (by omega),← Nat.add_assoc]
  rw [oddByte] at hb ⊢
  split at hb
  · next h => rw [if_pos h,if_pos h,addWord_carry (by omega),complement_carry]
  · next h => rw [if_neg h,if_neg h,complement_carry,Nat.zero_mul,Nat.add_zero]

theorem length_store16 (h : offset+2≤p.length) : (store16 p offset n).length=p.length := by
  simp [store16,htons]
  omega

private theorem append_store16 {h : Bytes} (hh : offset+2≤h.length) :
    p++store16 h offset n++d=store16 (p++h++d) (p.length+offset) n := by
  rw [store16,store16,append_assoc p h,take_length_add_append,Nat.add_assoc,
    drop_length_add_append,take_append_of_le_length (by omega),drop_append_of_le_length hh]
  simp

private theorem calculateIpv4Checksum_store16 (h : p.length=20) :
    calculateIpv4Checksum (store16 p 10 (calculateIpv4Checksum (store16 p 10 0)))=0 := by
  have hl (n : Nat) : (store16 p 10 n).length=20 := by rw [length_store16 (by omega),h]
  rw [calculateIpv4Checksum_eq (hl _),calculateIpv4Checksum_eq (hl _)]
  exact checksum_store16 rfl (by omega)

theorem calculateTcpChecksum_store16 (hp : p.length=12) (hh : h.length=20)
    (hd : (ptr.getD []).length<2^17) :
    let sum := fun h => calculateTcpChecksum p h ptr (ptr.getD []).length
    sum (store16 h 16 (sum (store16 h 16 0)))=0 := by
  have hl (n : Nat) : (store16 h 16 n).length=20 := by rw [length_store16 (by omega),hh]
  dsimp only
  rw [calculateTcpChecksum_eq hp (hl _) hd,calculateTcpChecksum_eq hp (hl _) hd,
    append_store16 (by omega),append_store16 (by omega)]
  exact checksum_store16 (by omega) (by simp; omega)

/-- Both functions compute the checksum of the words in network order, and a packet whose field
is filled with it in place of zero verifies. -/
theorem checksums_rfc1071 : (∀ p : Bytes, p.length = 20 → calculateIpv4Checksum p = checksum p ∧
      calculateIpv4Checksum (store16 p 10 (calculateIpv4Checksum (store16 p 10 0))) = 0) ∧
    ∀ (p h : Bytes) (ptr : Option Bytes), p.length = 12 → h.length = 20 →
      (ptr.getD []).length ≤ 65495 →
      let sum := fun h => calculateTcpChecksum p h ptr (ptr.getD []).length
      sum h = checksum (p ++ h ++ ptr.getD []) ∧ sum (store16 h 16 (sum (store16 h 16 0))) = 0 := by
  refine ⟨fun p hp => ⟨calculateIpv4Checksum_eq hp,calculateIpv4Checksum_store16 hp⟩,?_⟩
  intro p h ptr hp hh hd
  exact ⟨calculateTcpChecksum_eq hp hh (by omega),calculateTcpChecksum_store16 hp hh (by omega)⟩

def enonet : Int := 64

/-- What a connected socket puts into its packets. -/
structure Connection where
  (port ident destPort : UInt16)
  (seqNum ackNum dest : UInt32)

structure TcpPacket where
  (ip tcp payload : Bytes)

/-- The checksum is filled in last. -/
def ipv4Header (length ident fragment protocol source destination : Nat) : Bytes :=
  let header := [0x45, 0]++htons length++htons ident++htons fragment ++
    [64, ofNat protocol]++htons 0++htonl source++htonl destination
  store16 header 10 (calculateIpv4Checksum header)

def tcpCheckHeader (source destination : UInt32) (tcpLen : Nat) : Bytes :=
  htonl source.toNat++htonl destination.toNat++[0, 6]++htons tcpLen

def tcpHeader (sock : Connection) (source : UInt32) (payload : Bytes) : Bytes :=
  let header := htons sock.port.toNat++htons sock.destPort.toNat++htonl sock.seqNum.toNat ++
    htonl sock.ackNum.toNat++htons 0x5018++htons 65535++htons 0++htons 0
  let check := tcpCheckHeader source sock.dest (20+payload.length)
  store16 header 16 (calculateTcpChecksum check header (some payload) payload.length)

/-- The loop of `sock_tcp_send`, on what is left of the buffer. A route has the address of its
interface, and is looked up for each packet. -/
def sendLoop (route : Nat → Option UInt32) (rounds sizeInto : Nat) (data : Bytes)
    (sock : Connection) : Int × Connection × List TcpPacket :=
  if data=[] then (sizeInto, sock, [])
  else
    let size := if data.length > 1024 then 1024 else data.length
    match route rounds with
    | none => (-enonet, sock, [])
    | some source =>
      let sock := { sock with ident := sock.ident+1 }
      let payload := data.take size
      let ip := ipv4Header (40+size) sock.ident.toNat 0 6 source.toNat sock.dest.toNat
      let packet := ⟨ip,tcpHeader sock source payload,payload⟩
      let sock := { sock with seqNum := sock.seqNum + UInt32.ofNat size }
      let rest := sendLoop route (rounds+1) (sizeInto+size) (data.drop size) sock
      (rest.1, rest.2.1, packet::rest.2.2)
termination_by data.length
decreasing_by
  have := length_pos_iff.2 ‹¬data=[]›
  rw [length_drop]
  split <;> omega

def sockTcpSend (route : Nat → Option UInt32) (iov : List Bytes) (sock : Connection) :
    Int × Connection × List TcpPacket :=
  match iov with
  | [] => (0, sock, [])
  | [data] => sendLoop route 0 0 data sock
  | _ => (-enotsup, sock, [])

/-- The packet has the sequence number, and the lengths of its headers are those of its parts. -/
structure TcpPacket.IsSegment (packet : TcpPacket) (seq : UInt32) : Prop where
  seqNumber : (packet.tcp.drop 4).take 4=htonl seq.toNat
  payload_le : packet.payload.length≤1024
  ipLength : (packet.ip.drop 2).take 2 =
    htons (packet.ip.length + packet.tcp.length + packet.payload.length)
  /-- The segment verifies with its own addresses and length. -/
  verifies : calculateTcpChecksum
    ((packet.ip.drop 12).take 8++[0, 6]++htons (packet.tcp.length + packet.payload.length))
    packet.tcp (some packet.payload) packet.payload.length=0

/-- Each sequence number is the one before, advanced by the payload. -/
def Segments : UInt32 → List TcpPacket → Prop
  | _, [] => True
  | seq, packet::packets =>
    packet.IsSegment seq ∧ Segments (seq + UInt32.ofNat packet.payload.length) packets

private theorem isSegment_tcpHeader (sock : Connection) (source : UInt32) {payload : Bytes}
    (h : payload.length≤1024) : TcpPacket.IsSegment
      ⟨ipv4Header (40+payload.length) sock.ident.toNat 0 6 source.toNat sock.dest.toNat,
        tcpHeader sock source payload,payload⟩ sock.seqNum where
  seqNumber := rfl
  payload_le := h
  ipLength := rfl
  verifies := by
    exact calculateTcpChecksum_store16 rfl rfl (by simp; omega)

private theorem sendLoop_spec (h : ∀ i, (route i).isSome) (sizeInto : Nat) :
    let sent := sendLoop route rounds sizeInto data sock
    sent.1=(sizeInto+data.length : Nat) ∧ sent.2.1.seqNum=sock.seqNum + UInt32.ofNat data.length ∧
      (sent.2.2.map (·.payload)).flatten=data ∧ Segments sock.seqNum sent.2.2 := by
  fun_induction sendLoop route rounds sizeInto data sock with
  | case1 rounds sizeInto sock => simp [Segments]
  | case2 rounds sizeInto data sock _ hr => exact absurd (h rounds) (by simp [hr])
  | case3 rounds sizeInto data sock hne size source hr sock1 payload ip packet sock2 rest ih =>
    have hs : size≤data.length ∧ size≤1024 := by
      dsimp only [size]
      split <;> omega
    have hl : payload.length=size := by simp [payload,hs.1]
    obtain ⟨hres,hseq,hdata,hseg⟩ := ih
    have hd : size + (data.drop size).length=data.length := by
      rw [length_drop]
      omega
    refine ⟨?_,?_,?_,?_,?_⟩
    · rw [hres,Nat.add_assoc,hd]
    · rw [hseq,← hd]
      simp [sock2,sock1,UInt32.add_assoc]
    · rw [map_cons,flatten_cons,hdata]
      exact take_append_drop size data
    · have := isSegment_tcpHeader sock1 source (hl.trans_le hs.2)
      rwa [hl] at this
    · rwa [hl]

/-- The packets of a buffer that is sent are its segments, numbered on from the socket's number. -/
theorem sockTcpSend_segments (route : Nat → Option UInt32) (h : ∀ i, (route i).isSome)
    (data : Bytes) (sock : Connection) : let sent := sockTcpSend route [data] sock
    sent.1 = data.length ∧ sent.2.1.seqNum = sock.seqNum + UInt32.ofNat data.length ∧
      (sent.2.2.map (·.payload)).flatten = data ∧ Segments sock.seqNum sent.2.2 := by
  simpa [sockTcpSend] using sendLoop_spec h 0

theorem sockTcpSend_twoSegments : let data := replicate 1500 7
    let sent := sockTcpSend (fun _ => some 0) [data] ⟨1,2,3,0xFFFFFFFF,5,6⟩
    sent.1 = 1500 ∧ sent.2.1.seqNum = 1499 ∧ (sent.2.2.map (·.payload)).flatten = data ∧
      Segments 0xFFFFFFFF sent.2.2 := by
  obtain ⟨hr,hn,hp⟩ := sockTcpSend_segments (fun _ => some 0) (fun _ => rfl) (replicate 1500 7)
    ⟨1,2,3,0xFFFFFFFF,5,6⟩
  rw [length_replicate] at hr hn
  exact ⟨hr,hn,hp⟩

/-- The words are summed first and the sum is folded once. A length below that of the header gives
no rounds. -/
def icmpChecksum (length : Nat) (payload : Bytes) : Nat :=
  complement (fold (addWords (· + ·) ((length-20)/2) payload 0))

structure IcmpPacket where
  (ip message : Bytes)

/-- The message as it is sent: the checksum is taken with its field zero. -/
def fillIcmp (length : Nat) (payload : Bytes) : Bytes :=
  store16 payload 2 (icmpChecksum length (store16 payload 2 0))

def ntohs (packet : Nat → UInt8) (offset : Nat) : Nat :=
  (packet offset).toNat*2^8 + (packet (offset+1)).toNat

def ntohl (packet : Nat → UInt8) (offset : Nat) : Nat :=
  ntohs packet offset*2^16 + ntohs packet (offset+2)

/-- The reply to a request, which lies in memory with other bytes after it. All of the header is
written anew. `none` is a write beyond the block for the reply; a packet of another type is not
replied to. -/
def icmpHandle (packet : Nat → UInt8) (address : UInt32) : Option (Option IcmpPacket) :=
  if packet 20=8 ∧ packet 21=0 then
    let length := (ntohs packet 2 + ntohs packet 2%2)%2^16
    if length<24 then none
    else
      let payload := 0::(range' 21 (length-21)).map packet
      some (some ⟨ipv4Header length (ntohs packet 4) 0x4000 1 address.toNat (ntohl packet 12),
        fillIcmp length payload⟩)
  else some none

/-- `net_eth_send` sends as many bytes as the header says. -/
def sockIcmpSend (iov : List Bytes) (nameLen : Nat) (destination : UInt32)
    (route : Option UInt32) (ident : Nat) : Int × Option IcmpPacket :=
  match iov with
  | [] => (0, none)
  | [data] =>
    if nameLen≠16 ∨ data.length<6 ∨ data.take 2≠[8, 0] ∨ (data.drop 4).take 2≠[0, 0] then
      (-einval, none)
    else match route with
      | none => (-enonet, none)
      | some source =>
        let length := (20+data.length)%2^16
        let message := fillIcmp length (store16 data 4 ident)
        (0, some ⟨ipv4Header length 0 0x4000 1 source.toNat destination.toNat,
          message.take (length-20)⟩)
  | _ => (-enotsup, none)

def ChecksumCorrect (message : Bytes) : Prop :=
  (message.drop 2).take 2=htons (checksum (store16 message 2 0))

/-- The sum needs one fold at most, and a byte that is left over adds nothing to it. -/
def OneFold (message : Bytes) : Prop :=
  let sum := (words message).sum
  sum/2^16 + sum%2^16<2^16 ∧ oddByte message=0

private theorem sum_words_le (message : Bytes) : (words message).sum≤0xFFFF*message.length := by
  fun_induction words message with
  | case1 => simp
  | case2 a =>
    have := a.toNat_lt
    simp
    omega
  | case3 a b rest ih =>
    have := a.toNat_lt
    have := b.toNat_lt
    simp
    omega

/-- A carry that one fold leaves is lost, and a byte is too short to make up for it. -/
theorem complement_eq_iff (hs : s<2^17) (hb : b<2^8) :
    complement s=0xFFFF - carry (s + b*2^8) ↔ s<2^16 ∧ b=0 := by
  obtain ⟨hlt,hmod,hz⟩ := carry_spec (s + b*2^8)
  rw [complement]
  omega

theorem fold_eq (s : Nat) : fold s=s/2^16 + s%2^16 := by
  rw [fold]
  split <;> omega

private theorem carry_fold : carry (fold s + t)=carry (s+t) := by
  obtain ⟨hlt,hmod,hz⟩ := carry_spec _
  have hf := fold_eq s
  exact eq_carry hlt (by omega) (by omega)

private theorem fold_eq_checksum_iff (h : message.length<2^16) :
    complement (fold (words (message.take (message.length/2*2))).sum)=checksum message ↔
      OneFold message := by
  have hle := sum_words_le (message.take (message.length/2*2))
  rw [length_take] at hle
  rw [checksum,OneFold,sum_words message,← carry_fold]
  have hf := fold_eq (words (message.take (message.length/2*2))).sum
  rw [complement_eq_iff (by omega) (oddByte_lt message)]
  omega

private theorem htons_inj (hm : m<2^16) (hn : n<2^16) : htons m=htons n ↔ m=n := by
  simp only [htons,cons.injEq,and_true,← UInt8.toNat_inj,toNat_ofNat']
  omega

private theorem icmpChecksum_eq {length : Nat} (h : length-20≤payload.length) :
    let message := payload.take (length-20)
    icmpChecksum length payload =
      complement (fold (words (message.take (message.length/2*2))).sum) := by
  have hl : (payload.take (length-20)).length=length-20 := by
    rw [length_take]
    omega
  have hs : addWords (· + ·) ((length-20)/2) payload (id 0) = 0 + (words _).sum :=
    addWords_map (fun _ _ _ => rfl) 0 (by omega)
  dsimp only
  rw [hl,take_take,Nat.min_eq_left (by omega)]
  exact congrArg (complement <| fold ·) (hs.trans (Nat.zero_add _))

theorem fillIcmp_correct_iff {length : Nat} (hlt : length<2^16) (hle : length-20≤payload.length) :
    ChecksumCorrect ((fillIcmp length payload).take (length-20)) ↔
      24≤length ∧ OneFold ((store16 payload 2 0).take (length-20)) := by
  by_cases h : 24≤length
  · obtain ⟨k,rfl⟩ := Nat.exists_eq_add_of_le' h
    obtain _ | ⟨a,_ | ⟨b,_ | ⟨c,_ | ⟨d,rest⟩⟩⟩⟩ := payload
    iterate 4 exact absurd hle (by simp)
    have hc : icmpChecksum (k+24) (a::b::0::0::rest)=_ := icmpChecksum_eq hle
    have hlen : (a::b::0::0::rest.take k).length<2^16 := by
      simp only [length_cons,length_take]
      omega
    refine Iff.trans ?_ (and_iff_right h).symm
    refine Iff.trans (htons_inj ?_ checksum_lt) (hc ▸ fold_eq_checksum_iff hlen)
    rw [icmpChecksum,complement]
    omega
  · have hlen := length_take_le (length-20) (fillIcmp length payload)
    refine iff_of_false (fun hc => ?_) fun hn => h hn.1
    have := congrArg List.length hc
    simp [htons] at this
    omega

/-- The message of the reply is the one of the request from the identifier on, and its checksum is
that of the whole message. -/
def Replied (packet : Nat → UInt8) (address : UInt32) : Prop :=
  ∃ reply, icmpHandle packet address=some (some reply) ∧ reply.message.length+20=ntohs packet 2 ∧
    (reply.ip.drop 2).take 2=htons (ntohs packet 2) ∧
    reply.message.drop 4=(range' 24 (ntohs packet 2 - 24)).map packet ∧
    ChecksumCorrect reply.message

/-- What a request asks for: its identifier, sequence and payload behind an empty header. -/
def echo (packet : Nat → UInt8) : Bytes :=
  [0, 0, 0, 0]++(range' 24 (ntohs packet 2 - 24)).map packet

theorem replied_iff : Replied packet address ↔ (packet 20=8 ∧ packet 21=0) ∧ 24≤ntohs packet 2 ∧
      ntohs packet 2%2=0 ∧ OneFold (echo packet) := by
  have hlt : ntohs packet 2<2^16 := by
    have := (packet 2).toNat_lt
    have := (packet (2+1)).toNat_lt
    simp only [ntohs]
    omega
  unfold Replied icmpHandle
  generalize hL : (ntohs packet 2 + ntohs packet 2%2)%2^16=length
  by_cases hr : packet 20=8 ∧ packet 21=0
  swap
  · simp [hr]
  simp only [hr,and_self,if_true,true_and]
  split
  · refine iff_of_false (fun ⟨_,h,_⟩ => nomatch h) (by omega)
  next h =>
  obtain ⟨n,rfl⟩ := Nat.exists_eq_add_of_le' (Nat.not_lt.1 h)
  have hlen : (0::(range' 21 (n+24-21)).map packet).length=n+24-20 := by simp
  have hfill : (fillIcmp (n+24) _).length=_ := (length_store16 (by omega)).trans hlen
  have hiff := fillIcmp_correct_iff (by omega) hlen.ge
  rw [take_of_length_le hfill.le,and_iff_right (by omega)] at hiff
  have hecho : (store16 (0::(range' 21 (n+24-21)).map packet) 2 0).take (n+24-20) =
      [0, 0, 0, 0]++(range' 24 n).map packet := by
    simp [store16,range'_succ,hr.2,htons,take_of_length_le]
  rw [hecho] at hiff
  simp only [Option.some.injEq,exists_eq_left',hfill,hiff]
  constructor
  · rintro ⟨hl,-,-,ho⟩
    have hn : ntohs packet 2=n+24 := by omega
    exact ⟨by omega,by omega,by rw [echo,hn]; exact ho⟩
  · rintro ⟨-,he,ho⟩
    have hn : ntohs packet 2=n+24 := by omega
    rw [echo,hn] at ho
    rw [hn]
    exact ⟨rfl,rfl,rfl,ho⟩

/-- What is sent for the data of a process, with its checksum empty; the length is one of 16
bits. -/
def emitted (data : Bytes) (ident : Nat) : Bytes :=
  (store16 (store16 data 4 ident) 2 0).take ((20+data.length)%2^16-20)

/-- Replies are right when the length of the request is even and one fold is enough for them, and
so are requests that are sent if they have their checksum and no byte is left over. -/
theorem icmp_echo_iff (packet : Nat → UInt8) (address : UInt32) (data : Bytes) (nameLen : Nat)
    (destination : UInt32) (route : Option UInt32) (ident : Nat) :
    (Replied packet address ↔ (packet 20 = 8 ∧ packet 21 = 0) ∧ 24 ≤ ntohs packet 2 ∧
      ntohs packet 2%2 = 0 ∧ OneFold (echo packet)) ∧
    ∀ result sent, sockIcmpSend [data] nameLen destination route ident = (result, some sent) →
      (ChecksumCorrect sent.message ↔
        24 ≤ (20+data.length)%2^16 ∧ OneFold (emitted data ident)) := by
  refine ⟨replied_iff,fun result sent h => ?_⟩
  simp only [sockIcmpSend] at h
  split at h
  · cases h
  cases route with
  | none => cases h
  | some source =>
    cases h
    refine fillIcmp_correct_iff (mod_lt _ (by decide)) ?_
    rw [length_store16 (by omega)]
    omega

/-- A request of one byte after its header. -/
def oddPing (i : Nat) : UInt8 := if i=3 then 29 else if i=20 then 8 else 0

theorem oddPing_not_replied :
    (oddPing 20 = 8 ∧ oddPing 21 = 0) ∧ ¬∃ address, Replied oddPing address :=
  ⟨by decide,fun ⟨_,h⟩ => absurd (replied_iff.1 h).2.2.1 (by decide)⟩
end RazionOS.Kernel.Net
