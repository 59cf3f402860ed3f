import Mathlib.Algebra.Order.Ring.Int
import RazionOS.Framework.Custody
import RazionOS.Framework.Loop
import RazionOS.Kernel.Vfs.Pipe

/-!
# Packet exchanges

Clients and a server exchange packets through pipes that carry pointers to them. The locked
section of each pipe call is one step, as is each call of `send_to_client`; a broadcast is one
such call for each client. Nobody disconnects here.
-/

namespace RazionOS.Kernel.Vfs.Packetfs
open Framework Function List Option Prod

def littleEndian : Nat → Nat → List UInt8
  | 0, _ => []
  | k+1, n => UInt8.ofNat n::littleEndian k (n/256)

def ofLittleEndian : List UInt8 → Nat
  | [] => 0
  | b::bytes => b.toNat+256 * ofLittleEndian bytes

def pointerSize : Nat := 8
def pointerBytes (ptr : Nat) : List UInt8 := littleEndian pointerSize ptr

/-- The range that `receive_packet` asserts, the kernel's heap. -/
def InHeap (ptr : Nat) : Prop := 0xFFFFff0000000000≤ptr ∧ ptr<0xffffff1fc0000000

instance (ptr : Nat) : Decidable (InHeap ptr) := inferInstanceAs (Decidable (_ ∧ _))

/-- The source of a packet from the server is NULL. -/
structure Packet where
  source : Option Nat
  size : Nat
  data : List UInt8
deriving DecidableEq

inductive Fault where
  /-- An assertion of `receive_packet`. -/
  | badPointer
  /-- A packet that is read is not allocated. -/
  | freed
  /-- A write by `send_to_client` sleeps. -/
  | blocked
deriving DecidableEq

structure Exchange where
  heap : Nat → Option Packet
  serverPipe : PipeDevice
  clients : Nat → Option PipeDevice
  /-- The threads in `send_to_server`, with the packet and its pointer. -/
  writing : Nat → Option (Packet × Nat)
  /-- The threads in `read_server` that have a pointer, with how many others came before. -/
  reading : Nat → Option (Nat × Nat)
  /-- The threads in `read_client` that have a pointer. -/
  clientReading : Nat → Option Nat
  /-- The packets from clients in the order in which the server's pipe took them. -/
  accepted : List Packet
  /-- The number of pointers that server reads have taken. -/
  taken : Nat
  /-- What server reads have returned, each with its turn. -/
  returned : List (Nat × Packet)

def maxPacketSize : Nat := 1024

def newExchange : Exchange :=
  ⟨fun _ => none,makePipe 4096,fun _ => none,fun _ => none,fun _ => none,fun _ => none,[],0,[]⟩

inductive Event where
  | connect (client : Nat)
  /-- `write_client` up to the pipe; `malloc` gives the pointer. -/
  | clientWrite (thread client : Nat) (data : List UInt8) (ptr : Nat)
  | writeLocked (thread : Nat)
  | serverReadLocked (thread : Nat)
  | serverReadCopy (thread : Nat)
  /-- `send_to_client`, for one target or within a broadcast. -/
  | serverWrite (client : Nat) (data : List UInt8) (ptr : Nat)
  | clientReadLocked (thread client : Nat)
  | clientReadCopy (thread : Nat)

def Fresh (s : Exchange) (ptr : Nat) : Prop := s.heap ptr=none ∧ InHeap ptr

instance (s : Exchange) (ptr : Nat) : Decidable (Fresh s ptr) :=
  inferInstanceAs (Decidable (_ ∧ _))

def connect (s : Exchange) (client : Nat) : Exchange :=
  if s.clients client=none then
    { s with clients := update s.clients client (some (makePipe 4096)) }
  else s

def sendToServer (s : Exchange) (thread client : Nat) (data : List UInt8) (ptr : Nat) : Exchange :=
  let packet : Packet := ⟨some client,data.length,data⟩
  { s with
    heap := update s.heap ptr (some packet)
    writing := update s.writing thread (some (packet, ptr)) }

def writeLocked (s : Exchange) (thread : Nat) : Exchange :=
  match s.writing thread with
  | none => s
  | some (packet, ptr) =>
    let (written, pipe) := writeSection (pointerBytes ptr) s.serverPipe
    if written<pointerSize then { s with serverPipe := pipe }
    else { s with
      serverPipe := pipe
      writing := update s.writing thread none
      accepted := s.accepted++[packet] }

def receivePacket (bytes : List UInt8) : Except Fault Nat :=
  if bytes.length=pointerSize ∧ InHeap (ofLittleEndian bytes) then .ok (ofLittleEndian bytes)
  else .error .badPointer

def serverReadLocked (s : Exchange) (thread : Nat) : Except Fault Exchange :=
  match s.reading thread with
  | some _ => .ok s
  | none =>
    let (bytes, pipe) := readSection pointerSize s.serverPipe
    if bytes.length=0 then .ok { s with serverPipe := pipe }
    else do
      let ptr ← receivePacket bytes
      pure { s with
        serverPipe := pipe
        reading := update s.reading thread (some (s.taken, ptr))
        taken := s.taken+1 }

def serverReadCopy (s : Exchange) (thread : Nat) : Except Fault Exchange :=
  match s.reading thread with
  | none => .ok s
  | some (turn, ptr) =>
    match s.heap ptr with
    | none => .error .freed
    | some packet => .ok { s with
        heap := update s.heap ptr none
        reading := update s.reading thread none
        returned := s.returned++[(turn, packet)] }

def sendToClient (s : Exchange) (client : Nat) (data : List UInt8) (ptr : Nat) :
    Except Fault Exchange :=
  match s.clients client with
  | none => .ok s
  | some pipe =>
    if pipeAvailable pipe<pointerSize then .ok s
    else
      let (written, pipe) := writeSection (pointerBytes ptr) pipe
      if written<pointerSize then .error .blocked
      else .ok { s with
        heap := update s.heap ptr (some ⟨none,data.length,data⟩)
        clients := update s.clients client (some pipe) }

def clientReadLocked (s : Exchange) (thread client : Nat) : Except Fault Exchange :=
  match s.clientReading thread, s.clients client with
  | none, some pipe =>
    let (bytes, pipe) := readSection pointerSize pipe
    let clients := update s.clients client (some pipe)
    if bytes.length=0 then .ok { s with clients := clients }
    else do
      let ptr ← receivePacket bytes
      pure { s with
        clients := clients
        clientReading := update s.clientReading thread (some ptr) }
  | _, _ => .ok s

def clientReadCopy (s : Exchange) (thread : Nat) : Except Fault Exchange :=
  match s.clientReading thread with
  | none => .ok s
  | some ptr =>
    match s.heap ptr with
    | none => .error .freed
    | some _ => .ok { s with
        heap := update s.heap ptr none
        clientReading := update s.clientReading thread none }

/-- An event that cannot happen, or a call that is refused, changes nothing. -/
def pexStep (s : Exchange) : Event → Except Fault Exchange
  | .connect client => .ok (connect s client)
  | .clientWrite thread client data ptr =>
    if s.writing thread=none ∧ s.clients client≠none ∧ data.length ≤ maxPacketSize ∧
        Fresh s ptr then .ok (sendToServer s thread client data ptr)
    else .ok s
  | .writeLocked thread => .ok (writeLocked s thread)
  | .serverReadLocked thread => serverReadLocked s thread
  | .serverReadCopy thread => serverReadCopy s thread
  | .serverWrite client data ptr =>
    if data.length ≤ maxPacketSize ∧ Fresh s ptr then sendToClient s client data ptr else .ok s
  | .clientReadLocked thread client => clientReadLocked s thread client
  | .clientReadCopy thread => clientReadCopy s thread

def pexRun (s : Exchange) : List Event → Except Fault Exchange
  | [] => .ok s
  | e::events => pexStep s e >>= fun s => pexRun s events

private theorem length_littleEndian : (littleEndian k n).length=k := by
  induction k generalizing n with
  | zero => rfl
  | succ k ih => rw [littleEndian,length_cons,ih]

private theorem ofLittleEndian_littleEndian (h : n<256^k) :
    ofLittleEndian (littleEndian k n)=n := by
  induction k generalizing n with
  | zero =>
    rw [Nat.pow_zero,Nat.lt_one_iff] at h
    exact h.symm
  | succ k ih =>
    rw [littleEndian,ofLittleEndian,ih (by omega),UInt8.toNat_ofNat']
    omega

theorem length_pointerBytes : (pointerBytes ptr).length=pointerSize := length_littleEndian ..

theorem receivePacket_pointerBytes (h : InHeap ptr) :
    receivePacket (pointerBytes ptr) = .ok ptr := by
  have hp : ofLittleEndian (pointerBytes ptr)=ptr :=
    ofLittleEndian_littleEndian (Nat.lt_trans h.2 (by decide))
  rw [receivePacket,hp,if_pos ⟨length_pointerBytes,h⟩]

/-- The pipe of an exchange holds the given pointers and nothing else. -/
structure Queue (pipe : PipeDevice) (ptrs : List Nat) : Prop where
  wellFormed : pipe.WellFormed
  size_eq : pipe.size=4096
  contents_eq : pipe.contents=ptrs.flatMap pointerBytes

theorem queue_makePipe : Queue (makePipe 4096) [] :=
  ⟨makePipe_wellFormed (by decide),rfl,contents_makePipe 4096⟩

namespace Queue

theorem pipeUnread_eq (h : Queue pipe ptrs) : pipeUnread pipe=8*ptrs.length := by
  rw [← length_contents,h.contents_eq,length_flatMap]
  simp only [length_pointerBytes,pointerSize,map_const',sum_replicate_nat]
  omega

private theorem pipeAvailable_eq (h : Queue pipe ptrs) :
    8*ptrs.length + pipeAvailable pipe=4095 := by
  have := pipeUnread_add_available h.wellFormed
  rw [h.pipeUnread_eq,h.size_eq] at this
  exact this

/-- A pointer is written when there is room for one, although the pipe asks for a byte more. -/
theorem write (h : Queue pipe ptrs) (ptr : Nat) :
    if pipeAvailable pipe<pointerSize then
      (writeSection (pointerBytes ptr) pipe).1=0 ∧
        Queue (writeSection (pointerBytes ptr) pipe).2 ptrs
    else
      (writeSection (pointerBytes ptr) pipe).1=pointerSize ∧
        Queue (writeSection (pointerBytes ptr) pipe).2 (ptrs++[ptr]) := by
  obtain ⟨hwf,hsi,hs⟩ := writeSection_spec h.wellFormed _
  have ha := h.pipeAvailable_eq
  rw [length_pointerBytes] at hs
  by_cases hr : pipeAvailable pipe<pointerSize
  · rw [if_pos hr]
    rw [if_neg (Nat.lt_asymm hr)] at hs
    obtain ⟨hw,hc⟩ := mk.inj hs
    exact ⟨hw,hwf,hsi.trans h.size_eq,hc.trans h.contents_eq⟩
  rw [if_neg hr]
  have hm : pointerSize<pipeAvailable pipe := by
    simp only [pointerSize] at hr ⊢
    omega
  rw [if_pos hm] at hs
  obtain ⟨hw,hc⟩ := mk.inj hs
  refine ⟨hw,hwf,hsi.trans h.size_eq,?_⟩
  rw [hc,h.contents_eq,flatMap_append,flatMap_singleton]

theorem read_nil (h : Queue pipe []) :
    (readSection pointerSize pipe).1=[] ∧ Queue (readSection pointerSize pipe).2 [] := by
  obtain ⟨hwf,hsi,hs⟩ := readSection_spec h.wellFormed pointerSize
  have he := h.contents_eq
  rw [he] at hs
  obtain ⟨hb,hc⟩ := mk.inj hs
  exact ⟨hb,hwf,hsi.trans h.size_eq,hc⟩

theorem read_cons (h : Queue pipe (ptr::ptrs)) : (readSection pointerSize pipe).1=pointerBytes ptr ∧
      Queue (readSection pointerSize pipe).2 ptrs := by
  obtain ⟨hwf,hsi,hs⟩ := readSection_spec h.wellFormed pointerSize
  have hc : pipe.contents=pointerBytes ptr++ptrs.flatMap pointerBytes := by
    rw [h.contents_eq,flatMap_cons]
  rw [hc,length_append,length_pointerBytes,if_pos (Nat.le_add_right _ _)] at hs
  obtain ⟨hb,hco⟩ := mk.inj hs
  exact ⟨hb,hwf,hsi.trans h.size_eq,hco⟩
end Queue

inductive Place where
  | server
  | client (client : Nat)
  | writer (thread : Nat)
  | reader (thread : Nat)
  | clientReader (thread : Nat)
deriving DecidableEq

def ClientQueue : Option PipeDevice → List Nat → Prop
  | none, ptrs => ptrs=[]
  | some pipe, ptrs => Queue pipe ptrs

/-- The turns of the server reads: those that have returned, and for each thread its own. -/
def turnsOf (s : Exchange) : Option Nat → List Nat
  | none => s.returned.map fst
  | some thread => ((s.reading thread).map fst).toList

/-- Each turn that was taken belongs to one server read. -/
structure Turns (s : Exchange) : Prop where
  custody : Custody (turnsOf s) (· < s.taken)
  covered : ∀ turn < s.taken, ∃ place, turn∈turnsOf s place
  taken_le : s.taken ≤ s.accepted.length
  returned_eq : ∀ turn packet, (turn, packet)∈s.returned → s.accepted[turn]? = some packet

structure InvAt (s : Exchange) (held : Place → List Nat) : Prop where
  custody : Custody held fun ptr => s.heap ptr≠none ∧ InHeap ptr
  serverPipe : Queue s.serverPipe (held .server)
  clientPipe : ∀ client, ClientQueue (s.clients client) (held (.client client))
  writing : ∀ thread, held (.writer thread)=((s.writing thread).map snd).toList
  reading : ∀ thread, held (.reader thread)=((s.reading thread).map snd).toList
  clientReading : ∀ thread, held (.clientReader thread)=(s.clientReading thread).toList
  sent : ∀ thread packet ptr, s.writing thread=some (packet, ptr) → s.heap ptr=some packet
  queued : (held .server).map s.heap=(s.accepted.drop s.taken).map some
  copied : ∀ thread turn ptr, s.reading thread=some (turn, ptr) → s.heap ptr=s.accepted[turn]?
  turns : Turns s

def Inv (s : Exchange) : Prop := ∃ held, InvAt s held

theorem newExchange_inv : Inv newExchange := by
  refine ⟨fun _ => [],⟨⟨fun _ => nodup_nil,nofun,nofun⟩,queue_makePipe,fun _ => rfl,
    fun _ => rfl,fun _ => rfl,fun _ => rfl,nofun,rfl,nofun,?_⟩⟩
  have ht : ∀ place, turnsOf newExchange place=[] := fun place => by cases place <;> rfl
  refine ⟨⟨fun place => ?_,fun {a o o'} ha => ?_,fun {a o} ha => ?_⟩,nofun,Nat.le_refl 0,nofun⟩
  · rw [ht]
    exact nodup_nil
  · rw [ht] at ha
    cases ha
  · rw [ht] at ha
    cases ha

theorem InvAt.not_held_fresh (h : InvAt s held) (hf : Fresh s ptr) (place : Place) :
    ptr∉held place :=
  fun hmem => (h.custody.isLive hmem).1 hf.1

theorem InvAt.mem_writer (h : InvAt s held) (hw : s.writing thread=some (packet, ptr)) :
    held (.writer thread)=[ptr] := by
  rw [h.writing,hw]
  rfl

theorem InvAt.mem_reader (h : InvAt s held) (hr : s.reading thread=some (turn, ptr)) :
    held (.reader thread)=[ptr] := by
  rw [h.reading,hr]
  rfl

theorem Turns.lt_taken (h : Turns s) (hr : s.reading thread=some (turn, ptr)) : turn < s.taken := by
  refine h.custody.isLive (o := some thread) ?_
  rw [turnsOf,hr]
  exact mem_cons_self

private theorem getElem?_extended (h : ps <+: qs) (hi : i<ps.length) : qs[i]? = ps[i]? := by
  obtain ⟨rest,rfl⟩ := h
  exact getElem?_append_left hi

theorem Turns.congr (h : Turns s) (hr : s'.reading=s.reading) (hre : s'.returned=s.returned)
    (ht : s'.taken=s.taken) (ha : s.accepted <+: s'.accepted) : Turns s' := by
  have htu : turnsOf s' = turnsOf s := by
    funext place
    cases place <;> simp [turnsOf,hr,hre]
  refine ⟨by rw [htu,ht]; exact h.custody,by rw [htu,ht]; exact h.covered,
    by rw [ht]; exact Nat.le_trans h.taken_le ha.length_le,fun turn packet hp => ?_⟩
  rw [hre] at hp
  have heq := h.returned_eq turn packet hp
  rw [getElem?_extended ha (List.getElem?_eq_some_iff.1 heq).1,heq]

section
variable (h : InvAt s held)
include h

theorem InvAt.heap_update (hpt : ∀ place, ptr∉held place)
    (value : Option Packet) : InvAt { s with heap := update s.heap ptr value } held := by
  have hs : ∀ {p place}, p∈held place → update s.heap ptr value p=s.heap p := by
    intro p place hp
    refine update_of_ne ?_ _ _
    rintro rfl
    exact hpt place hp
  refine { h with custody := ?_, sent := ?_, queued := ?_, copied := ?_, turns := ?_ }
  · refine ⟨h.custody.nodup,h.custody.exclusive,fun hp => ?_⟩
    simp only [hs hp]
    exact h.custody.isLive hp
  · intro thread packet p hw
    simp only at ⊢
    rw [hs (h.mem_writer hw ▸ mem_cons_self : p∈held _)]
    exact h.sent thread packet p hw
  · rw [← h.queued]
    exact map_congr_left fun p hp => hs hp
  · intro thread turn p hr
    simp only at ⊢
    rw [hs (h.mem_reader hr ▸ mem_cons_self : p∈held _)]
    exact h.copied thread turn p hr
  · exact h.turns.congr rfl rfl rfl prefix_rfl

private theorem connect_inv : Inv (connect s client) := by
  rw [connect]
  split
  · rename_i hn
    refine ⟨held,{ h with
      clientPipe := fun c => ?_
      turns := h.turns.congr rfl rfl rfl prefix_rfl }⟩
    have hold := h.clientPipe c
    by_cases hc : c=client
    · subst hc
      rw [hn] at hold
      simp only [update_self]
      rw [show held _=[] from hold]
      exact queue_makePipe
    · simpa [update_of_ne hc] using hold
  · exact ⟨held,h⟩

private theorem sendToServer_inv (hi : s.writing thread=none) (hf : Fresh s ptr) :
    Inv (sendToServer s thread client data ptr) := by
  have hn := h.not_held_fresh hf
  have ha := h.heap_update hn (some ⟨some client,data.length,data⟩)
  have hwr : held (.writer thread)=[] := by
    rw [h.writing,hi]
    rfl
  have hc := ha.custody.append (o := .writer thread) hn ⟨by simp,hf.2⟩
  rw [hwr] at hc
  refine ⟨update held (.writer thread) [ptr],{ ha with
    custody := hc, serverPipe := ?_, clientPipe := ?_, writing := ?_, reading := ?_,
    clientReading := ?_, sent := ?_, queued := ?_, turns := ?_ }⟩
  · exact ha.serverPipe
  · exact ha.clientPipe
  · intro t
    by_cases ht : t=thread
    · subst ht
      simp [sendToServer]
    · simp [sendToServer,ht,h.writing]
  · exact ha.reading
  · exact ha.clientReading
  · intro t packet p hw
    by_cases ht : t=thread
    · subst ht
      simp only [sendToServer,update_self] at hw
      obtain ⟨rfl,rfl⟩ := hw
      simp [sendToServer]
    · simp only [sendToServer,update_of_ne ht] at hw
      exact ha.sent t packet p hw
  · exact ha.queued
  · exact ha.turns.congr rfl rfl rfl prefix_rfl

theorem InvAt.serverPipe_congr (hp : Queue pipe (held .server)) :
    InvAt { s with serverPipe := pipe } held :=
  { h with serverPipe := hp, turns := h.turns.congr rfl rfl rfl prefix_rfl }

private theorem writeLocked_inv : Inv (writeLocked s thread) := by
  rw [writeLocked]
  cases hw : s.writing thread with
  | none => exact ⟨held,h⟩
  | some pending =>
    obtain ⟨packet,ptr⟩ := pending
    have hwr := h.serverPipe.write ptr
    by_cases hr : pipeAvailable s.serverPipe<pointerSize
    · rw [if_pos hr] at hwr
      simp only [hwr.1]
      exact ⟨held,h.serverPipe_congr hwr.2⟩
    rw [if_neg hr] at hwr
    simp only [hwr.1,Nat.lt_irrefl,if_false]
    have hh := h.mem_writer hw
    refine ⟨update _ .server _,⟨h.custody.move hh (by simp),?_,h.clientPipe,?_,h.reading,
      h.clientReading,?_,?_,?_,
      h.turns.congr rfl rfl rfl (prefix_append ..)⟩⟩
    · simpa using hwr.2
    · intro t
      by_cases ht : t=thread
      · subst ht
        simp
      · simp [ht,h.writing]
    · intro t packet' p hp
      by_cases ht : t=thread
      · subst ht
        simp at hp
      · simp only [update_of_ne ht] at hp
        exact h.sent t packet' p hp
    · simp only [update_self,map_append,h.queued,map_singleton,h.sent thread packet ptr hw]
      rw [drop_append_of_le_length h.turns.taken_le,map_append,map_singleton]
    · intro t turn p hp
      have htu := h.turns.lt_taken hp
      rw [getElem?_append_left (Nat.lt_of_lt_of_le htu h.turns.taken_le)]
      exact h.copied t turn p hp

end

private theorem Turns.take (h : Turns s) (hi : s.reading thread=none)
    (hlt : s.taken < s.accepted.length) : Turns { s with
      serverPipe := pipe
      reading := update s.reading thread (some (s.taken, ptr))
      taken := s.taken+1 } := by
  have hn : turnsOf s (some thread)=[] := by
    rw [turnsOf,hi]
    rfl
  have hne : ∀ place, s.taken∉turnsOf s place := fun place hp =>
    Nat.lt_irrefl _ (h.custody.isLive hp)
  have hc := (h.custody.mono fun a (ha : a < s.taken) => Nat.lt_succ_of_lt ha).append
    (o := some thread) hne (Nat.lt_succ_self _)
  rw [hn] at hc
  have htur : turnsOf { s with
      serverPipe := pipe
      reading := update s.reading thread (some (s.taken, ptr))
      taken := s.taken+1 }=update (turnsOf s) (some thread) [s.taken] := by
    funext place
    cases place with
    | none => simp [turnsOf]
    | some t =>
      by_cases ht : t=thread
      · subst ht
        simp [turnsOf]
      · simp [turnsOf,ht]
  refine ⟨htur ▸ hc,fun turn htu => ?_,hlt,h.returned_eq⟩
  rw [htur]
  obtain rfl | htu := Nat.eq_or_lt_of_le (Nat.lt_succ_iff.1 htu)
  · exact ⟨some thread,by simp⟩
  obtain ⟨place,hpl⟩ := h.covered turn htu
  refine ⟨place,?_⟩
  rw [update_of_ne]
  · exact hpl
  rintro rfl
  rw [hn] at hpl
  cases hpl

private theorem serverReadLocked_inv (h : InvAt s held) :
    ∃ s', serverReadLocked s thread = .ok s' ∧ Inv s' := by
  rw [serverReadLocked]
  cases hr : s.reading thread with
  | some _ => exact ⟨s,rfl,held,h⟩
  | none =>
    cases hq : held .server with
    | nil =>
      have hre := (hq ▸ h.serverPipe : Queue _ []).read_nil
      simp only [hre.1]
      exact ⟨_,rfl,held,h.serverPipe_congr (hq ▸ hre.2)⟩
    | cons ptr rest =>
      have hre := (hq ▸ h.serverPipe : Queue _ (ptr::rest)).read_cons
      have hl := h.custody.isLive (hq ▸ mem_cons_self : ptr∈held .server)
      have hqu := h.queued
      have hlt : s.taken < s.accepted.length := by
        have hlen := congrArg length hqu
        rw [hq,length_map,length_map,length_drop,length_cons] at hlen
        omega
      rw [hq,drop_eq_getElem_cons] at hqu
      obtain ⟨hh,hta⟩ := cons.inj hqu
      simp only [hre.1,receivePacket_pointerBytes hl.2]
      refine ⟨_,rfl,update _ (.reader thread) _,⟨h.custody.move hq (by simp),?_,h.clientPipe,
        h.writing,?_,h.clientReading,h.sent,?_,?_,h.turns.take hr hlt⟩⟩
      · simpa using hre.2
      · intro t
        by_cases ht : t=thread
        · subst ht
          simp [h.reading,hr]
        · simp [ht,h.reading]
      · simpa using hta
      · intro t turn p hp
        by_cases ht : t=thread
        · subst ht
          simp only [update_self] at hp
          obtain ⟨rfl,rfl⟩ := hp
          rw [hh,getElem?_eq_getElem hlt]
        · simp only [update_of_ne ht] at hp
          exact h.copied t turn p hp

private theorem Turns.finish (h : Turns s) (hr : s.reading thread=some (turn, ptr))
    (hpk : s.accepted[turn]? = some packet) (heap : Nat → Option Packet) : Turns { s with
      heap := heap
      reading := update s.reading thread none
      returned := s.returned++[(turn, packet)] } := by
  have htu : turnsOf s (some thread)=[turn] := by
    rw [turnsOf,hr]
    rfl
  have htur : turnsOf { s with
      heap := heap
      reading := update s.reading thread none
      returned := s.returned++[(turn, packet)] } =
      update (update (turnsOf s) (some thread) []) none (turnsOf s none++[turn]) := by
    funext place
    cases place with
    | none => simp [turnsOf]
    | some t =>
      by_cases ht : t=thread
      · subst ht
        simp [turnsOf]
      · simp [turnsOf,ht]
  refine ⟨htur ▸ h.custody.move htu (by simp),fun k hk => ?_,h.taken_le,fun k p hp => ?_⟩
  · rw [htur]
    obtain ⟨place,hpl⟩ := h.covered k hk
    cases place with
    | none => exact ⟨none,by simp [hpl]⟩
    | some t =>
      by_cases ht : t=thread
      · subst ht
        rw [htu] at hpl
        exact ⟨none,by simp [hpl]⟩
      · exact ⟨some t,by simpa [ht] using hpl⟩
  · obtain hp | hp := mem_append.1 hp
    · exact h.returned_eq k p hp
    · obtain ⟨rfl,rfl⟩ := mk.inj (mem_singleton.1 hp)
      exact hpk

section
variable (h : InvAt s held)
include h

private theorem serverReadCopy_inv : ∃ s', serverReadCopy s thread = .ok s' ∧ Inv s' := by
  rw [serverReadCopy]
  cases hr : s.reading thread with
  | none => exact ⟨s,rfl,held,h⟩
  | some turnPtr =>
    obtain ⟨turn,ptr⟩ := turnPtr
    have hhe := h.mem_reader hr
    have hlt := Nat.lt_of_lt_of_le (h.turns.lt_taken hr) h.turns.taken_le
    have hh := (h.copied thread turn ptr hr).trans (getElem?_eq_getElem hlt)
    obtain ⟨hc,hg⟩ := h.custody.tail hhe
    simp only [hh]
    have hd : InvAt { s with
        reading := update s.reading thread none
        returned := s.returned++[(turn, s.accepted[turn])] }
        (update held (.reader thread) []) := by
      refine ⟨hc.mono fun _ hb => hb.1,h.serverPipe,h.clientPipe,h.writing,fun t => ?_,
        h.clientReading,h.sent,h.queued,fun t k p hp => ?_,
        h.turns.finish hr (getElem?_eq_getElem hlt) s.heap⟩
      · by_cases ht : t=thread
        · subst ht
          simp
        · simp [ht,h.reading]
      · by_cases ht : t=thread
        · subst ht
          simp at hp
        · simp only [update_of_ne ht] at hp
          exact h.copied t k p hp
    exact ⟨_,rfl,_,hd.heap_update hg none⟩

theorem InvAt.client_queue (hc : s.clients client=some pipe) :
    Queue pipe (held (.client client)) := by
  have hq := h.clientPipe client
  rwa [hc] at hq

/-- `send_to_client` never sleeps: where it sees room for a pointer, the pipe does too. -/
theorem sendToClient_inv (hf : Fresh s ptr) :
    ∃ s', sendToClient s client data ptr = .ok s' ∧ Inv s' := by
  rw [sendToClient]
  cases hc : s.clients client with
  | none => exact ⟨s,rfl,held,h⟩
  | some pipe =>
    have hw := (h.client_queue hc).write ptr
    by_cases hr : pipeAvailable pipe<pointerSize
    · simp only [hr]
      exact ⟨s,rfl,held,h⟩
    rw [if_neg hr] at hw
    simp only [hr,hw.1]
    have hn := h.not_held_fresh hf
    have ha := h.heap_update hn (some ⟨none,data.length,data⟩)
    have hcu := ha.custody.append (o := .client client) hn ⟨by simp,hf.2⟩
    refine ⟨_,rfl,_,{ ha with
      custody := hcu, serverPipe := ?_, clientPipe := ?_, writing := ?_, reading := ?_,
      clientReading := ?_, queued := ?_, turns := ?_ }⟩
    · exact ha.serverPipe
    · intro c
      by_cases hcc : c=client
      · subst hcc
        simpa [ClientQueue] using hw.2
      · simpa [hcc] using h.clientPipe c
    · exact ha.writing
    · exact ha.reading
    · exact ha.clientReading
    · exact ha.queued
    · exact ha.turns.congr rfl rfl rfl prefix_rfl

private theorem clientReadLocked_inv :
    ∃ s', clientReadLocked s thread client = .ok s' ∧ Inv s' := by
  rw [clientReadLocked]
  cases hr : s.clientReading thread with
  | some _ => exact ⟨s,rfl,held,h⟩
  | none =>
    cases hc : s.clients client with
    | none => exact ⟨s,rfl,held,h⟩
    | some pipe =>
      have hp := h.client_queue hc
      cases hq : held (.client client) with
      | nil =>
        have hre := (hq ▸ hp : Queue pipe []).read_nil
        simp only [hre.1]
        refine ⟨_,rfl,held,{ h with
          clientPipe := fun c => ?_
          turns := h.turns.congr rfl rfl rfl prefix_rfl }⟩
        by_cases hcc : c=client
        · subst hcc
          simpa [ClientQueue,hq] using hre.2
        · simpa [hcc] using h.clientPipe c
      | cons ptr rest =>
        have hre := (hq ▸ hp : Queue pipe _).read_cons
        have hl := h.custody.isLive (hq ▸ mem_cons_self : ptr∈held _)
        simp only [hre.1,receivePacket_pointerBytes hl.2]
        refine ⟨_,rfl,update _ (.clientReader thread) _,
          ⟨h.custody.move hq (by simp),h.serverPipe,fun c => ?_,h.writing,h.reading,
          fun t => ?_,h.sent,h.queued,h.copied,h.turns.congr rfl rfl rfl prefix_rfl⟩⟩
        · by_cases hcc : c=client
          · subst hcc
            simpa [ClientQueue] using hre.2
          · simpa [hcc] using h.clientPipe c
        · by_cases ht : t=thread
          · subst ht
            simp [h.clientReading,hr]
          · simp [ht,h.clientReading]

private theorem clientReadCopy_inv : ∃ s', clientReadCopy s thread = .ok s' ∧ Inv s' := by
  rw [clientReadCopy]
  cases hr : s.clientReading thread with
  | none => exact ⟨s,rfl,held,h⟩
  | some ptr =>
    have hh : held (.clientReader thread)=[ptr] := by
      rw [h.clientReading,hr]
      rfl
    obtain ⟨packet,hp⟩ := ne_none_iff_exists'.1
      (h.custody.isLive (hh ▸ mem_cons_self : ptr∈held _)).1
    obtain ⟨hc,hg⟩ := h.custody.tail hh
    simp only [hp]
    have hd : InvAt { s with clientReading := update s.clientReading thread none }
        (update held (.clientReader thread) []) := by
      refine ⟨hc.mono fun _ hb => hb.1,h.serverPipe,h.clientPipe,h.writing,h.reading,
        fun t => ?_,h.sent,h.queued,h.copied,h.turns.congr rfl rfl rfl prefix_rfl⟩
      by_cases ht : t=thread
      · subst ht
        simp
      · simp [ht,h.clientReading]
    exact ⟨_,rfl,_,hd.heap_update hg none⟩

end

private theorem pexStep_inv (h : Inv s) : ∃ s', pexStep s e = .ok s' ∧ Inv s' := by
  have hs : ∃ s', Except.ok (ε := Fault) s = .ok s' ∧ Inv s' := ⟨s,rfl,h⟩
  obtain ⟨held,h⟩ := h
  cases e with
  | connect client => exact ⟨_,rfl,connect_inv h⟩
  | clientWrite thread client data ptr =>
    rw [pexStep]
    split
    · rename_i hg
      exact ⟨_,rfl,sendToServer_inv h hg.1 hg.2.2.2⟩
    · exact hs
  | writeLocked thread => exact ⟨_,rfl,writeLocked_inv h⟩
  | serverReadLocked thread => exact serverReadLocked_inv h
  | serverReadCopy thread => exact serverReadCopy_inv h
  | serverWrite client data ptr =>
    rw [pexStep]
    split
    · rename_i hg
      exact sendToClient_inv h hg.2
    · exact hs
  | clientReadLocked thread client => exact clientReadLocked_inv h
  | clientReadCopy thread => exact clientReadCopy_inv h

theorem pexRun_inv (h : Inv s) : ∃ s', pexRun s events = .ok s' ∧ Inv s' := by
  induction events generalizing s with
  | nil => exact ⟨s,rfl,h⟩
  | cons e events ih =>
    obtain ⟨s',hs,hinv⟩ := pexStep_inv h
    obtain ⟨s'',hr,hinv'⟩ := ih hinv
    exact ⟨s'',by rw [pexRun,hs]; exact hr,hinv'⟩

/-- Pipes hold whole pointers. Each packet from a client has been returned once, is about to be by
one read, or is in the pipe in order. -/
structure Integrity (s : Exchange) : Prop where
  serverPipe : 8 ∣ pipeUnread s.serverPipe
  clientPipe : ∀ client pipe, s.clients client=some pipe → 8 ∣ pipeUnread pipe
  returned_eq : ∀ turn packet, (turn, packet)∈s.returned → s.accepted[turn]? = some packet
  returned_nodup : (s.returned.map fst).Nodup
  reading_eq : ∀ thread turn ptr, s.reading thread=some (turn, ptr) →
    turn < s.accepted.length ∧ s.heap ptr=s.accepted[turn]? ∧ turn∉s.returned.map fst
  reading_once : ∀ thread thread' turn ptr ptr', s.reading thread=some (turn, ptr) →
    s.reading thread' = some (turn, ptr') → thread=thread'
  taken : ∀ turn < s.taken, turn∈s.returned.map fst ∨
    ∃ thread ptr, s.reading thread=some (turn, ptr)
  queued : ∃ ptrs : List Nat, s.serverPipe.contents=ptrs.flatMap pointerBytes ∧
    ptrs.map s.heap=(s.accepted.drop s.taken).map some

private theorem Inv.integrity (h : Inv s) : Integrity s := by
  obtain ⟨held,h⟩ := h
  have ht : ∀ {thread turn ptr}, s.reading thread=some (turn, ptr) →
      turn∈turnsOf s (some thread) := by
    intro thread turn ptr hr
    rw [turnsOf,hr]
    exact mem_cons_self
  refine ⟨⟨_,h.serverPipe.pipeUnread_eq⟩,fun client pipe hc => ?_,h.turns.returned_eq,
    h.turns.custody.nodup none,fun thread turn ptr hr => ⟨?_,h.copied thread turn ptr hr,?_⟩,
    fun thread thread' turn ptr ptr' hr hr' => ?_,fun turn hlt => ?_,
    ⟨_,h.serverPipe.contents_eq,h.queued⟩⟩
  · exact ⟨_,(h.client_queue hc).pipeUnread_eq⟩
  · exact Nat.lt_of_lt_of_le (h.turns.lt_taken hr) h.turns.taken_le
  · intro hmem
    exact some_ne_none _ (h.turns.custody.exclusive (ht hr) hmem)
  · exact some.inj (h.turns.custody.exclusive (ht hr) (ht hr'))
  obtain ⟨place,hp⟩ := h.turns.covered turn hlt
  cases place with
  | none => exact .inl hp
  | some thread =>
    cases hr : s.reading thread with
    | none =>
      rw [turnsOf,hr] at hp
      cases hp
    | some turnPtr =>
      rw [turnsOf,hr] at hp
      obtain rfl := mem_singleton.1 hp
      exact .inr ⟨thread,turnPtr.2,hr⟩

/-- Every pointer in a pipe or with a thread is to an allocated packet, and in one place only. -/
theorem pex_packets_owned (events : List Event) :
    ∃ s held, pexRun newExchange events = .ok s ∧ InvAt s held := by
  obtain ⟨s,hr,held,hinv⟩ := pexRun_inv newExchange_inv
  exact ⟨s,held,hr,hinv⟩
end RazionOS.Kernel.Vfs.Packetfs
