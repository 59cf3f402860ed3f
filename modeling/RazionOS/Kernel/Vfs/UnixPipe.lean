import RazionOS.Kernel.Misc.RingBuffer

/-!
# Unix pipes

A ring buffer with a read end and a write end. Each end is closed once, at any moment,
possibly while another thread has a call on it in progress. When both are closed the buffer
is destroyed and nothing further happens to it.
-/

namespace RazionOS.Kernel
open Option

structure UnixPipe where
  ring : RingSystem
  readClosed : Bool
  writeClosed : Bool
  destroyed : Bool

def makeUnixPipe (size : Nat) : UnixPipe :=
  { ring := RingSystem.init size, readClosed := false, writeClosed := false, destroyed := false }

inductive PipeEvent where
  | startRead (c size : Nat)
  | startWrite (c : Nat) (data : List UInt8)
  | locked (c : Nat)
  | woken (c : Nat)
  | interrupted (c : Nat)
  | closeRead
  | closeWrite

def UnixPipe.withRing (s : UnixPipe) (ring : RingSystem) : UnixPipe := { s with ring := ring }

/-- `read_unixpipe` up to the call of `ring_buffer_read`. -/
def readUnixpipe (s : UnixPipe) (c size : Nat) : Option UnixPipe :=
  if s.ring.calls c ≠ .idle then none
  else if s.writeClosed && ringBufferUnread s.ring.rb == 0 then
    some (s.withRing (s.ring.setCall c (.readReturned size [] 0)))
  else (ringStep s.ring (.startRead c size)).map s.withRing

/-- `write_unixpipe` up to the call of `ring_buffer_write`. -/
def writeUnixpipe (s : UnixPipe) (c : Nat) (data : List UInt8) : Option UnixPipe :=
  if s.ring.calls c ≠ .idle then none
  else if s.readClosed then
    some (s.withRing (s.ring.setCall c (.writeReturned data 0 (-ePipe))))
  else (ringStep s.ring (.startWrite c data)).map s.withRing

def UnixPipe.interruptRing (s : UnixPipe) : RingSystem :=
  { s.ring with rb := ringBufferInterrupt s.ring.rb }

def closeReadPipe (s : UnixPipe) : UnixPipe :=
  if s.writeClosed then { s with readClosed := true, destroyed := true }
  else { s with readClosed := true, ring := s.interruptRing }

def closeWritePipe (s : UnixPipe) : UnixPipe :=
  if s.readClosed then { s with writeClosed := true, destroyed := true }
  else { s with writeClosed := true, ring := s.interruptRing }

def pipeStep (s : UnixPipe) (e : PipeEvent) : Option UnixPipe :=
  if s.destroyed then none
  else match e with
    | .startRead c size => readUnixpipe s c size
    | .startWrite c data => writeUnixpipe s c data
    | .locked c => (ringStep s.ring (.locked c)).map s.withRing
    | .woken c => (ringStep s.ring (.woken c)).map s.withRing
    | .interrupted c => (ringStep s.ring (.interrupted c)).map s.withRing
    | .closeRead => if s.readClosed then none else some (closeReadPipe s)
    | .closeWrite => if s.writeClosed then none else some (closeWritePipe s)

def pipeRun (s : UnixPipe) : List PipeEvent → Option UnixPipe
  | [] => some s
  | e::es => (pipeStep s e).bind fun s' => pipeRun s' es

inductive PipeReachable (size : Nat) : UnixPipe → Prop
  | init : PipeReachable size (makeUnixPipe size)
  | step (e : PipeEvent) (h : PipeReachable size s)
      (hs : pipeStep s e=some s') : PipeReachable size s'

/-- The ring buffer's invariant, and why a reader is ever told to stop. -/
structure PipeInv (size : Nat) (s : UnixPipe) : Prop where
  ring : RingInv size s.ring
  stop : s.ring.rb.internalStop=true → s.readClosed=true ∨ s.writeClosed=true
  soft : s.ring.rb.softStop=false

private theorem PipeInv.init (hs : 2 ≤ size) : PipeInv size (makeUnixPipe size) :=
  ⟨RingInv.init hs,by simp [makeUnixPipe,RingSystem.init,ringBufferCreate],rfl⟩

/-- The part of a ring buffer event that a call in progress can cause. -/
def RingEvent.ofCall : RingEvent → Bool
  | .interrupt | .eof | .setDiscard _ => false
  | _ => true

private theorem ringStep_flags (h : RingInv n s) (he : e.ofCall=true) (hs : ringStep s e=some s') :
    s'.rb.internalStop=s.rb.internalStop ∧ (s.rb.softStop=false → s'.rb.softStop=false) := by
  cases e with
  | startRead c size =>
    simp only [ringStep,ite_none_right_eq_some,some.injEq] at hs
    exact hs.2 ▸ ⟨rfl,id⟩
  | startWrite c data =>
    simp only [ringStep,ite_none_right_eq_some,some.injEq] at hs
    exact hs.2 ▸ ⟨rfl,id⟩
  | locked c =>
    cases hc : s.calls c <;> simp only [ringStep,hc,reduceCtorEq,some.injEq] at hs
    case readReady size =>
      obtain ⟨-,hst,-,hso⟩ := (readLoop_spec size h.wellFormed).2.2.2
      subst hs
      unfold lockedRead
      dsimp only
      split_ifs
      · exact ⟨hst,fun _ => rfl⟩
      · exact ⟨hst,fun h0 => hso.trans h0⟩
      · exact ⟨hst,fun h0 => hso.trans h0⟩
    case writeReady data written =>
      obtain ⟨-,hst,-,hso⟩ := (writeLoop_spec _ h.wellFormed).2.2.2
      subst hs
      exact ⟨hst,fun h0 => hso.trans h0⟩
  | woken c =>
    cases hc : s.calls c <;> simp only [ringStep,hc,reduceCtorEq,some.injEq] at hs
    all_goals exact hs ▸ ⟨rfl,id⟩
  | interrupted c =>
    cases hc : s.calls c <;> simp only [ringStep,hc,reduceCtorEq,some.injEq] at hs
    all_goals exact hs ▸ ⟨rfl,id⟩
  | interrupt | eof | setDiscard d => cases he

private theorem PipeInv.callStep (h : PipeInv n s) (he : e.ofCall=true)
    (hs : (ringStep s.ring e).map s.withRing=some s') : PipeInv n s' := by
  obtain ⟨ring,hr,rfl⟩ := map_eq_some_iff.mp hs
  obtain ⟨hst,hso⟩ := ringStep_flags h.ring he hr
  exact ⟨h.ring.step e hr,fun hi => h.stop (hst ▸ hi),hso h.soft⟩

private theorem PipeInv.setCall (h : PipeInv n s) (c : Nat) (call : RingCall)
    (hc : CallAccounted call (movedBy c s.ring.accepted) (movedBy c s.ring.delivered)) :
    PipeInv n (s.withRing (s.ring.setCall c call)) :=
  ⟨h.ring.setCall c call hc,h.stop,h.soft⟩

private theorem PipeInv.interrupt (h : PipeInv n s) (hrw : r=true ∨ w=true) :
    PipeInv n { s with readClosed := r, writeClosed := w, ring := s.interruptRing } :=
  ⟨h.ring.setFlags true _ s.ring.rb.softStop,fun _ => hrw,h.soft⟩

private theorem PipeInv.step (h : PipeInv n s) (e : PipeEvent) (hs : pipeStep s e=some s') :
    PipeInv n s' := by
  unfold pipeStep at hs
  split at hs
  · cases hs
  cases e with
  | startRead c size =>
    simp only [readUnixpipe] at hs
    split_ifs at hs with hi
    · have ha := h.ring.accounted c
      rw [not_not.mp hi] at ha
      exact some.inj hs ▸ h.setCall c _ ⟨ha.1,ha.2,Nat.zero_le _,.inl rfl⟩
    · exact h.callStep rfl hs
  | startWrite c data =>
    simp only [writeUnixpipe] at hs
    split_ifs at hs with hi
    · have ha := h.ring.accounted c
      rw [not_not.mp hi] at ha
      exact some.inj hs ▸ h.setCall c _ ⟨ha.2,Nat.zero_le _,ha.1,.inr ⟨rfl,.inr rfl⟩⟩
    · exact h.callStep rfl hs
  | locked c => exact h.callStep rfl hs
  | woken c => exact h.callStep rfl hs
  | interrupted c => exact h.callStep rfl hs
  | closeRead =>
    dsimp only at hs
    split_ifs at hs with hc
    cases hs
    unfold closeReadPipe
    split
    · exact ⟨h.ring,fun _ => .inl rfl,h.soft⟩
    · exact h.interrupt (.inl rfl)
  | closeWrite =>
    dsimp only at hs
    split_ifs at hs with hc
    cases hs
    unfold closeWritePipe
    split
    · exact ⟨h.ring,fun _ => .inr rfl,h.soft⟩
    · exact h.interrupt (.inr rfl)

private theorem PipeReachable.inv (hsi : 2 ≤ size) (h : PipeReachable size s) : PipeInv size s := by
  induction h with
  | init => exact PipeInv.init hsi
  | step e _ hs ih => exact ih.step e hs

/-- In this step the read call `c` returns zero although it asked for at least one byte. -/
def ReturnsEof (s s' : UnixPipe) (c : Nat) : Prop :=
  ∃ size, 0 < size ∧ s.ring.calls c ≠ .readReturned size [] 0 ∧
    s'.ring.calls c = .readReturned size [] 0

/-- Which steps of the calls on the ring buffer make a read return zero. -/
private theorem ringStep_eof {s s' : RingSystem} (h : RingInv n s)
    (hs : ringStep s e=some s') (hsi : 0 < size) (hb : s.calls c ≠ .readReturned size [] 0)
    (ha : s'.calls c = .readReturned size [] 0) :
    (s.rb.internalStop=true ∨ s.rb.softStop=true) ∧ s'.rb.contents=[] := by
  -- every event changes the state of one call at most, so that call is `c`
  have ho : ∀ d call, s'.calls=Function.update s.calls d call →
      c=d ∧ call = .readReturned size [] 0 := by
    intro d call hca
    rw [hca] at ha
    by_cases hd : c=d
    · subst d
      exact ⟨rfl,by simpa using ha⟩
    · exact absurd (by simpa [hd] using ha) hb
  cases e with
  | startRead d k =>
    simp only [ringStep,ite_none_right_eq_some,some.injEq] at hs
    obtain ⟨-,rfl⟩ := hs
    cases (ho d _ rfl).2
  | startWrite d data =>
    simp only [ringStep,ite_none_right_eq_some,some.injEq] at hs
    obtain ⟨-,rfl⟩ := hs
    have heq := (ho d _ rfl).2
    split_ifs at heq
  | locked d =>
    cases hc : s.calls d <;> simp only [ringStep,hc,reduceCtorEq,some.injEq] at hs
    case readReady k =>
      obtain ⟨ht,hdr,-,-,hst,-,hso⟩ := readLoop_spec k h.wellFormed
      subst hs
      unfold lockedRead at ho ⊢
      dsimp only at ho ⊢
      generalize ringBufferReadLoop k s.rb=r at ht hdr hst hso ho
      split_ifs at ho ⊢ with hn hf
      · obtain ⟨rfl,heq⟩ := ho d _ rfl
        obtain rfl : k=size := by simpa using heq
        rw [Bool.or_eq_true,hst,hso] at hf
        refine ⟨hf,?_⟩
        have he : s.rb.contents=[] := by
          rw [ht] at hn
          exact (List.take_eq_nil_iff.mp hn).resolve_left (by omega)
        change r.2.contents=[]
        rw [hdr,he,List.drop_nil]
      · cases (ho d _ rfl).2
      · have heq := (ho d _ rfl).2
        simp only [RingCall.readReturned.injEq] at heq
        exact absurd heq.2.1 hn
    case writeReady data written =>
      subst hs
      have heq := (ho d _ rfl).2
      split_ifs at heq
  | woken d =>
    cases hc : s.calls d <;> simp only [ringStep,hc,reduceCtorEq,some.injEq] at hs
    case readAsleep k =>
      subst hs
      cases (ho d _ rfl).2
    case writeAsleep data written =>
      subst hs
      have heq := (ho d _ rfl).2
      split_ifs at heq
  | interrupted d =>
    cases hc : s.calls d <;> simp only [ringStep,hc,reduceCtorEq,some.injEq] at hs
    case readAsleep k =>
      subst hs
      have heq := (ho d _ rfl).2
      simp [eRestartSys] at heq
    case writeAsleep data written =>
      subst hs
      cases (ho d _ rfl).2
  | interrupt | eof | setDiscard b =>
    cases hs
    exact absurd ha hb

/-- Nobody writes any more and every accepted byte has been read, or the read end itself is gone. -/
def EofJustified (s : UnixPipe) : Prop :=
  s.readClosed=true ∨
    (s.writeClosed=true ∧ s.ring.accepted.map Prod.snd=s.ring.delivered.map Prod.snd)

private theorem PipeInv.callStep_eof (h : PipeInv n s)
    (hs : (ringStep s.ring e).map s.withRing=some s') (hc : ReturnsEof s s' c) :
    EofJustified s' := by
  obtain ⟨ring,hr,rfl⟩ := map_eq_some_iff.mp hs
  obtain ⟨size,hsi,hb,ha⟩ := hc
  obtain ⟨hfl,he⟩ := ringStep_eof h.ring hr hsi hb ha
  have hst := hfl.resolve_right (by simp [h.soft])
  refine (h.stop hst).imp id fun hw => ⟨hw,?_⟩
  have hf := (h.ring.step e hr).fifo
  rw [he,List.append_nil] at hf
  exact hf

private theorem PipeInv.eofJustified (h : PipeInv n s) (hs : pipeStep s e=some s')
    (hc : ReturnsEof s s' c) : EofJustified s' := by
  unfold pipeStep at hs
  split at hs
  · cases hs
  cases e with
  | startRead d size =>
    simp only [readUnixpipe] at hs
    split_ifs at hs with hi he
    · rw [Bool.and_eq_true,beq_iff_eq,← contents_length] at he
      have hf := h.ring.fifo
      rw [List.eq_nil_of_length_eq_zero he.2,List.append_nil] at hf
      cases hs
      exact .inr ⟨he.1,hf⟩
    · exact h.callStep_eof hs hc
  | startWrite d data =>
    simp only [writeUnixpipe] at hs
    split_ifs at hs with he
    · obtain ⟨size,-,hb,ha⟩ := hc
      cases hs
      change Function.update s.ring.calls d _ c=_ at ha
      by_cases hd : c=d
      · subst d
        simp at ha
      · exact absurd (by simpa [hd] using ha) hb
    · exact h.callStep_eof hs hc
  | locked d => exact h.callStep_eof hs hc
  | woken d => exact h.callStep_eof hs hc
  | interrupted d => exact h.callStep_eof hs hc
  | closeRead =>
    dsimp only at hs
    split_ifs at hs with hcl
    cases hs
    refine .inl ?_
    unfold closeReadPipe
    split <;> rfl
  | closeWrite =>
    obtain ⟨size,-,hb,ha⟩ := hc
    dsimp only at hs
    split_ifs at hs with hcl
    cases hs
    refine absurd ?_ hb
    rw [← ha]
    unfold closeWritePipe
    split <;> rfl

/-- Every call to write that starts when the read end is closed fails at once. -/
theorem pipeStep_write_closed (hc : s.readClosed=true)
    (hs : pipeStep s (.startWrite c data)=some s') :
    s'.ring.calls c = .writeReturned data 0 (-ePipe) ∧ s'.ring.accepted=s.ring.accepted := by
  unfold pipeStep at hs
  split at hs
  · cases hs
  simp only [writeUnixpipe] at hs
  split_ifs at hs
  cases hs
  exact ⟨by simp [UnixPipe.withRing,RingSystem.setCall],rfl⟩

end RazionOS.Kernel
