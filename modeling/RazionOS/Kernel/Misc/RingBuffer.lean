import RazionOS.Framework.Circular

/-!
# Ring buffers

The byte buffer behind pipes and ttys, and the system of all the calls in progress on one.
A call runs its locked sections one at a time and sleeps between them; it may be woken or
interrupted whenever it sleeps. Wait queues only decide who is woken, so they are not kept.
-/

namespace RazionOS.Kernel
open Framework Function List Prod

structure RingBuffer where
  buffer : Nat → UInt8
  writePtr : Nat
  readPtr : Nat
  size : Nat
  internalStop : Bool
  discard : Bool
  softStop : Bool

def ringBufferUnread (rb : RingBuffer) : Nat :=
  if rb.readPtr=rb.writePtr then 0
  else if rb.readPtr > rb.writePtr then rb.size-rb.readPtr+rb.writePtr
  else rb.writePtr-rb.readPtr

def ringBufferAvailable (rb : RingBuffer) : Nat :=
  if rb.readPtr=rb.writePtr then rb.size-1
  else if rb.readPtr > rb.writePtr then rb.readPtr-rb.writePtr-1
  else rb.size-rb.writePtr+rb.readPtr-1

def ringBufferIncrementRead (rb : RingBuffer) : RingBuffer :=
  { rb with readPtr := if rb.readPtr+1=rb.size then 0 else rb.readPtr+1 }

def ringBufferIncrementWrite (rb : RingBuffer) : RingBuffer :=
  { rb with writePtr := if rb.writePtr+1=rb.size then 0 else rb.writePtr+1 }

def ringBufferCreate (size : Nat) : RingBuffer :=
  { buffer := fun _ => 0, writePtr := 0, readPtr := 0, size := size,
    internalStop := false, discard := false, softStop := false }

def ringBufferInterrupt (rb : RingBuffer) : RingBuffer := { rb with internalStop := true }
def ringBufferEof (rb : RingBuffer) : RingBuffer := { rb with softStop := true }

/-- The inner loop of `ring_buffer_read`, with the room left in the caller's buffer. -/
def ringBufferReadLoop : Nat → RingBuffer → List UInt8 × RingBuffer
  | 0, rb => ([], rb)
  | room+1, rb =>
    if ringBufferUnread rb > 0 then
      let rest := ringBufferReadLoop room (ringBufferIncrementRead rb)
      (rb.buffer rb.readPtr::rest.1, rest.2)
    else ([], rb)

def ringBufferWriteLoop : List UInt8 → RingBuffer → Nat × RingBuffer
  | [], rb => (0, rb)
  | b::bs, rb =>
    if ringBufferAvailable rb > 0 then
      let rest := ringBufferWriteLoop bs
        (ringBufferIncrementWrite { rb with buffer := update rb.buffer rb.writePtr b })
      (rest.1+1, rest.2)
    else (0, rb)

def RingBuffer.contents (rb : RingBuffer) : List UInt8 :=
  Circular.window rb.buffer rb.size rb.readPtr (ringBufferUnread rb)

structure RingBuffer.WellFormed (rb : RingBuffer) : Prop where
  readPtr_lt : rb.readPtr < rb.size
  writePtr_lt : rb.writePtr < rb.size

private theorem ringBufferUnread_eq :
    ringBufferUnread rb=Circular.distance rb.size rb.readPtr rb.writePtr := rfl

theorem ringBufferUnread_add_available (h : rb.WellFormed) :
    ringBufferUnread rb + ringBufferAvailable rb=rb.size-1 := by
  have hr := h.readPtr_lt
  have hw := h.writePtr_lt
  unfold ringBufferUnread ringBufferAvailable
  split_ifs <;> omega

@[simp] theorem contents_length (rb : RingBuffer) : rb.contents.length=ringBufferUnread rb := by
  simp [RingBuffer.contents]

section
variable {rb : RingBuffer} (h : rb.WellFormed)
include h

private theorem incrementRead_wellFormed : (ringBufferIncrementRead rb).WellFormed :=
  ⟨Circular.next_lt h.readPtr_lt,h.writePtr_lt⟩

private theorem incrementWrite_wellFormed : (ringBufferIncrementWrite rb).WellFormed :=
  ⟨h.readPtr_lt,Circular.next_lt h.writePtr_lt⟩

private theorem contents_incrementRead (hne : ringBufferUnread rb > 0) :
    rb.contents=rb.buffer rb.readPtr::(ringBufferIncrementRead rb).contents := by
  have hp : rb.readPtr≠rb.writePtr := by
    intro he
    simp [ringBufferUnread,he] at hne
  exact Circular.window_distance_next_left _ h.readPtr_lt h.writePtr_lt hp

private theorem contents_incrementWrite (hr : ringBufferAvailable rb > 0) :
    (ringBufferIncrementWrite { rb with buffer := update rb.buffer rb.writePtr b }).contents =
      rb.contents++[b] := by
  have hs := ringBufferUnread_add_available h
  have hlt : Circular.distance rb.size rb.readPtr rb.writePtr + 1 < rb.size := by
    rw [← ringBufferUnread_eq]
    omega
  exact Circular.window_distance_next_right _ b h.readPtr_lt h.writePtr_lt hlt

end

def SameSetup (rb rb' : RingBuffer) : Prop :=
  rb'.size=rb.size ∧ rb'.internalStop=rb.internalStop ∧ rb'.discard=rb.discard ∧
    rb'.softStop=rb.softStop

theorem readLoop_spec (room : Nat) (h : rb.WellFormed) :
    (ringBufferReadLoop room rb).1=rb.contents.take room ∧
      (ringBufferReadLoop room rb).2.contents=rb.contents.drop room ∧
      (ringBufferReadLoop room rb).2.WellFormed ∧ SameSetup rb (ringBufferReadLoop room rb).2 := by
  induction room generalizing rb with
  | zero => exact ⟨rfl,rfl,h,rfl,rfl,rfl,rfl⟩
  | succ room ih =>
    rw [ringBufferReadLoop]
    by_cases hne : ringBufferUnread rb > 0
    · obtain ⟨ht,hd,hwf,hs⟩ := ih (incrementRead_wellFormed h)
      rw [if_pos hne,contents_incrementRead h hne]
      exact ⟨by simp [ht],by simp [hd],hwf,hs⟩
    have hn : rb.contents=[] := by
      apply eq_nil_of_length_eq_zero
      rw [contents_length]
      omega
    rw [if_neg hne]
    exact ⟨by simp [hn],by simp [hn],h,rfl,rfl,rfl,rfl⟩

theorem writeLoop_spec (bs : List UInt8) (h : rb.WellFormed) :
    (ringBufferWriteLoop bs rb).1≤bs.length ∧ (ringBufferWriteLoop bs rb).2.contents =
        rb.contents++bs.take (ringBufferWriteLoop bs rb).1 ∧
      (ringBufferWriteLoop bs rb).2.WellFormed ∧ SameSetup rb (ringBufferWriteLoop bs rb).2 := by
  induction bs generalizing rb with
  | nil => exact ⟨Nat.le_refl _,by simp [ringBufferWriteLoop],h,rfl,rfl,rfl,rfl⟩
  | cons b bs ih =>
    rw [ringBufferWriteLoop]
    by_cases hr : ringBufferAvailable rb > 0
    · have hwf : RingBuffer.WellFormed { rb with buffer := update rb.buffer rb.writePtr b } :=
        ⟨h.readPtr_lt,h.writePtr_lt⟩
      obtain ⟨hle,ha,hwf',hs⟩ := ih (incrementWrite_wellFormed hwf)
      rw [if_pos hr]
      refine ⟨by simpa using hle,?_,hwf',hs⟩
      simp [ha,contents_incrementWrite h hr]
    · rw [if_neg hr]
      exact ⟨Nat.zero_le _,by simp,h,rfl,rfl,rfl,rfl⟩

def eRestartSys : Int := 512
def ePipe : Int := 32

/-- Where one call stands. A returned call keeps its arguments, its bytes and its return value. -/
inductive RingCall where
  | idle
  | readReady (size : Nat)
  | readAsleep (size : Nat)
  | readReturned (size : Nat) (bytes : List UInt8) (ret : Int)
  | writeReady (data : List UInt8) (written : Nat)
  | writeAsleep (data : List UInt8) (written : Nat)
  | writeReturned (data : List UInt8) (written : Nat) (ret : Int)
  deriving DecidableEq, Repr

/-- One ring buffer with all calls ever made on it. The two histories are not in the source. -/
structure RingSystem where
  rb : RingBuffer
  calls : Nat → RingCall
  accepted : List (Nat × UInt8)
  delivered : List (Nat × UInt8)

def RingSystem.init (size : Nat) : RingSystem :=
  { rb := ringBufferCreate size, calls := fun _ => .idle, accepted := [], delivered := [] }

inductive RingEvent where
  | startRead (c size : Nat)
  | startWrite (c : Nat) (data : List UInt8)
  | locked (c : Nat)
  | woken (c : Nat)
  | interrupted (c : Nat)
  | interrupt
  | eof
  | setDiscard (discard : Bool)

def tagged (c : Nat) (bs : List UInt8) : List (Nat × UInt8) := bs.map (mk c)

/-- From `spin_lock` to `spin_unlock` (or to the sleep) in `ring_buffer_read`. -/
def lockedRead (s : RingSystem) (c size : Nat) : RingSystem :=
  let r := ringBufferReadLoop size s.rb
  if r.1=[] then
    if r.2.internalStop || r.2.softStop then
      { s with rb := { r.2 with softStop := false },
               calls := update s.calls c (.readReturned size [] 0) }
    else { s with rb := r.2, calls := update s.calls c (.readAsleep size) }
  else
    { s with rb := r.2, delivered := s.delivered++tagged c r.1,
             calls := update s.calls c (.readReturned size r.1 r.1.length) }

/-- From `spin_lock` to `spin_unlock` (or to the sleep) in `ring_buffer_write`. -/
def lockedWrite (s : RingSystem) (c : Nat) (data : List UInt8) (written : Nat) : RingSystem :=
  let rest := data.drop written
  let r := ringBufferWriteLoop rest s.rb
  let now := written+r.1
  { s with
    rb := r.2
    accepted := s.accepted++tagged c (rest.take r.1)
    calls := update s.calls c
      (if now<data.length ∧ r.2.discard=false then .writeAsleep data now
       else .writeReturned data now now) }

def RingSystem.setCall (s : RingSystem) (c : Nat) (call : RingCall) : RingSystem :=
  { s with calls := update s.calls c call }

/-- One event, where it is possible. A write of no bytes never takes the lock. -/
def ringStep (s : RingSystem) : RingEvent → Option RingSystem
  | .startRead c size =>
    if s.calls c = .idle then some (s.setCall c (.readReady size)) else none
  | .startWrite c data =>
    if s.calls c = .idle then
      some (s.setCall c (if data=[] then .writeReturned [] 0 0 else .writeReady data 0))
    else none
  | .locked c =>
    match s.calls c with
    | .readReady size => some (lockedRead s c size)
    | .writeReady data written => some (lockedWrite s c data written)
    | _ => none
  | .woken c =>
    match s.calls c with
    | .readAsleep size => some (s.setCall c (.readReady size))
    | .writeAsleep data written =>
      some (s.setCall c (if s.rb.internalStop then .writeReturned data written written
        else .writeReady data written))
    | _ => none
  | .interrupted c =>
    match s.calls c with
    | .readAsleep size => some (s.setCall c (.readReturned size [] (-eRestartSys)))
    | .writeAsleep data written =>
      some (s.setCall c (.writeReturned data written (if written=0 then -eRestartSys else written)))
    | _ => none
  | .interrupt => some { s with rb := ringBufferInterrupt s.rb }
  | .eof => some { s with rb := ringBufferEof s.rb }
  | .setDiscard d => some { s with rb := { s.rb with discard := d } }

inductive RingReachable (size : Nat) : RingSystem → Prop
  | init : RingReachable size (RingSystem.init size)
  | step (e : RingEvent) (h : RingReachable size s)
      (hs : ringStep s e=some s') : RingReachable size s'

def movedBy (c : Nat) (history : List (Nat × UInt8)) : List UInt8 :=
  (history.filter (fun x => x.1 == c)).map snd

@[simp] theorem movedBy_append : movedBy c (xs++ys)=movedBy c xs++movedBy c ys := by
  simp [movedBy]

@[simp] theorem movedBy_tagged : movedBy c (tagged c bs)=bs := by
  simp [movedBy,tagged,filter_map,comp_def]

@[simp] theorem movedBy_tagged_ne (h : d≠c) : movedBy c (tagged d bs)=[] := by
  simp [movedBy,tagged,h]

@[simp] theorem tagged_snd : (tagged c bs).map snd=bs := by
  simp [tagged,comp_def]

def CallAccounted (call : RingCall) (put taken : List UInt8) : Prop :=
  match call with
  | .idle | .readReady _ | .readAsleep _ => put=[] ∧ taken=[]
  | .readReturned size bytes ret =>
    put=[] ∧ taken=bytes ∧ bytes.length ≤ size ∧ (ret=bytes.length ∨ bytes=[] ∧ ret = -eRestartSys)
  | .writeReady data written | .writeAsleep data written =>
    taken=[] ∧ written≤data.length ∧ put=data.take written
  | .writeReturned data written ret =>
    taken=[] ∧ written≤data.length ∧ put=data.take written ∧
      (ret=written ∨ written=0 ∧ (ret = -eRestartSys ∨ ret = -ePipe))

structure RingInv (size : Nat) (s : RingSystem) : Prop where
  size_eq : s.rb.size=size
  wellFormed : s.rb.WellFormed
  fifo : s.accepted.map snd=s.delivered.map snd++s.rb.contents
  accounted : ∀ c, CallAccounted (s.calls c) (movedBy c s.accepted) (movedBy c s.delivered)

theorem RingInv.init (hs : 2 ≤ size) : RingInv size (RingSystem.init size) where
  size_eq := rfl
  wellFormed := ⟨by simp [RingSystem.init,ringBufferCreate]; omega,
    by simp [RingSystem.init,ringBufferCreate]; omega⟩
  fifo := rfl
  accounted _ := ⟨rfl,rfl⟩

section
variable (h : RingInv n s)
include h

theorem RingInv.setCall (c : Nat) (call : RingCall)
    (hc : CallAccounted call (movedBy c s.accepted) (movedBy c s.delivered)) :
    RingInv n (s.setCall c call) where
  size_eq := h.size_eq
  wellFormed := h.wellFormed
  fifo := h.fifo
  accounted d := by
    by_cases hd : d=c
    · subst d
      simpa [RingSystem.setCall] using hc
    · simpa [RingSystem.setCall,hd] using h.accounted d

theorem RingInv.setFlags (stop discard soft : Bool) :
    RingInv n { s with rb := { s.rb with internalStop := stop, discard := discard,
                                         softStop := soft } } :=
  ⟨h.size_eq,⟨h.wellFormed.readPtr_lt,h.wellFormed.writePtr_lt⟩,h.fifo,h.accounted⟩

private theorem RingInv.lockedRead (hc : s.calls c = .readReady size) :
    RingInv n (lockedRead s c size) := by
  obtain ⟨ht,hdr,hwf,hsa,_⟩ := readLoop_spec size h.wellFormed
  have hs := hsa.trans h.size_eq
  have ha := h.accounted c
  rw [hc] at ha
  obtain ⟨hp,hta⟩ := ha
  unfold RazionOS.Kernel.lockedRead
  dsimp only
  generalize ringBufferReadLoop size s.rb=r at ht hdr hwf hs
  have hsp : s.rb.contents=r.1++r.2.contents := by
    rw [ht,hdr,take_append_drop]
  have hf : s.accepted.map snd=s.delivered.map snd++r.1++r.2.contents := by
    rw [h.fifo,hsp,append_assoc]
  split_ifs with hn hst
  · rw [hn,append_nil] at hf
    have hm : RingInv n { s with rb := { r.2 with softStop := false } } :=
      ⟨hs,⟨hwf.readPtr_lt,hwf.writePtr_lt⟩,hf,h.accounted⟩
    exact hm.setCall c _ ⟨hp,hta,Nat.zero_le _,.inl rfl⟩
  · rw [hn,append_nil] at hf
    have hm : RingInv n { s with rb := r.2 } := ⟨hs,hwf,hf,h.accounted⟩
    exact hm.setCall c _ ⟨hp,hta⟩
  refine ⟨hs,hwf,by simpa using hf,fun d => ?_⟩
  by_cases hd : d=c
  · subst d
    have hlen : r.1.length ≤ size := by
      rw [ht]
      exact length_take_le _ _
    simpa [CallAccounted,hta] using ⟨hp,hlen⟩
  · simpa [hd,movedBy_tagged_ne (Ne.symm hd)] using h.accounted d

private theorem RingInv.lockedWrite (hc : s.calls c = .writeReady data written) :
    RingInv n (lockedWrite s c data written) := by
  obtain ⟨hle,hap,hwf,hsa,_⟩ := writeLoop_spec _ h.wellFormed
  have hs := hsa.trans h.size_eq
  have ha := h.accounted c
  rw [hc] at ha
  obtain ⟨ht,hw,hp⟩ := ha
  unfold RazionOS.Kernel.lockedWrite
  dsimp only
  generalize ringBufferWriteLoop (data.drop written) s.rb=r at hle hap hwf hs
  have hn : written+r.1≤data.length := by
    rw [length_drop] at hle
    omega
  have hto : data.take written++(data.drop written).take r.1=data.take (written+r.1) := by
    rw [take_add]
  refine ⟨hs,hwf,?_,fun d => ?_⟩
  · simp [h.fifo,hap]
  by_cases hd : d=c
  · subst d
    simp only [update_self,movedBy_append,movedBy_tagged,hp,hto]
    split_ifs
    · exact ⟨ht,hn,rfl⟩
    · exact ⟨ht,hn,rfl,.inl rfl⟩
  · simpa [hd,movedBy_tagged_ne (Ne.symm hd)] using h.accounted d

theorem RingInv.step (e : RingEvent) (hs : ringStep s e=some s') : RingInv n s' := by
  cases e with
  | startRead c size =>
    simp only [ringStep,Option.ite_none_right_eq_some,Option.some.injEq] at hs
    obtain ⟨hc,rfl⟩ := hs
    have ha := h.accounted c
    rw [hc] at ha
    exact h.setCall c _ ha
  | startWrite c data =>
    simp only [ringStep,Option.ite_none_right_eq_some,Option.some.injEq] at hs
    obtain ⟨hc,rfl⟩ := hs
    have ha := h.accounted c
    rw [hc] at ha
    apply h.setCall
    split_ifs
    · exact ⟨ha.2,Nat.le_refl _,ha.1,.inl rfl⟩
    · exact ⟨ha.2,Nat.zero_le _,ha.1⟩
  | locked c =>
    cases hc : s.calls c <;> simp only [ringStep,hc,reduceCtorEq,Option.some.injEq] at hs
    case readReady size => exact hs ▸ h.lockedRead hc
    case writeReady data written => exact hs ▸ h.lockedWrite hc
  | woken c =>
    have ha := h.accounted c
    cases hc : s.calls c <;> simp only [ringStep,hc,reduceCtorEq,Option.some.injEq] at hs
    case readAsleep size =>
      rw [hc] at ha
      exact hs ▸ h.setCall c _ ha
    case writeAsleep data written =>
      rw [hc] at ha
      subst hs
      apply h.setCall
      split_ifs
      · exact ⟨ha.1,ha.2.1,ha.2.2,.inl rfl⟩
      · exact ha
  | interrupted c =>
    have ha := h.accounted c
    cases hc : s.calls c <;> simp only [ringStep,hc,reduceCtorEq,Option.some.injEq] at hs
    case readAsleep size =>
      rw [hc] at ha
      exact hs ▸ h.setCall c _ ⟨ha.1,ha.2,Nat.zero_le _,.inr ⟨rfl,rfl⟩⟩
    case writeAsleep data written =>
      rw [hc] at ha
      subst hs
      refine h.setCall c _ ⟨ha.1,ha.2.1,ha.2.2,?_⟩
      split_ifs with hz
      · exact .inr ⟨hz,.inl rfl⟩
      · exact .inl rfl
  | interrupt =>
    cases hs
    exact h.setFlags true _ s.rb.softStop
  | eof =>
    cases hs
    exact h.setFlags _ s.rb.discard true
  | setDiscard d =>
    cases hs
    exact h.setFlags _ d _

end

theorem RingReachable.inv (hsi : 2 ≤ size) (h : RingReachable size s) : RingInv size s := by
  induction h with
  | init => exact RingInv.init hsi
  | step e _ hs ih => exact ih.step e hs

/-- The bytes taken out are the bytes put in, in the same order, up to those still in the buffer. -/
structure FifoLaw (size : Nat) (s : RingSystem) : Prop where
  order : s.accepted.map snd=s.delivered.map snd++s.rb.contents
  accounted : ∀ c, CallAccounted (s.calls c) (movedBy c s.accepted) (movedBy c s.delivered)
  room : ringBufferUnread s.rb + ringBufferAvailable s.rb=size-1
  readPtr_lt : s.rb.readPtr < size
  writePtr_lt : s.rb.writePtr < size

theorem RingInv.fifoLaw (h : RingInv size s) : FifoLaw size s where
  order := h.fifo
  accounted := h.accounted
  room := h.size_eq ▸ ringBufferUnread_add_available h.wellFormed
  readPtr_lt := h.size_eq ▸ h.wellFormed.readPtr_lt
  writePtr_lt := h.size_eq ▸ h.wellFormed.writePtr_lt
end RazionOS.Kernel
