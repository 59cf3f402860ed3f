import RazionOS.Framework.Circular

/-!
# Pipes

The pipes of `pipe.c`: a circular buffer whose reads and writes move all of their bytes in one
locked section, or none of them.
-/

namespace RazionOS.Kernel.Vfs
open Framework List

structure PipeDevice where
  size : Nat
  readPtr : Nat
  writePtr : Nat
  buffer : Nat → UInt8

def makePipe (size : Nat) : PipeDevice := ⟨size,0,0,fun _ => 0⟩

def pipeUnread (pipe : PipeDevice) : Nat :=
  if pipe.readPtr=pipe.writePtr then 0
  else if pipe.readPtr > pipe.writePtr then pipe.size-pipe.readPtr+pipe.writePtr
  else pipe.writePtr-pipe.readPtr

def pipeAvailable (pipe : PipeDevice) : Nat :=
  if pipe.readPtr=pipe.writePtr then pipe.size-1
  else if pipe.readPtr > pipe.writePtr then pipe.readPtr-pipe.writePtr-1
  else pipe.size-pipe.writePtr+pipe.readPtr-1

def pipeIncrementRead (pipe : PipeDevice) : PipeDevice :=
  { pipe with readPtr := if pipe.readPtr+1=pipe.size then 0 else pipe.readPtr+1 }

def pipeIncrementWrite (pipe : PipeDevice) : PipeDevice :=
  { pipe with writePtr := if pipe.writePtr+1=pipe.size then 0 else pipe.writePtr+1 }

/-- The inner loop of `read_pipe`, for the bytes that are still wanted. -/
def readLoop : Nat → PipeDevice → List UInt8 × PipeDevice
  | 0, pipe => ([], pipe)
  | wanted+1, pipe =>
    if pipeUnread pipe > 0 then
      let (bytes, pipe') := readLoop wanted (pipeIncrementRead pipe)
      (pipe.buffer pipe.readPtr::bytes, pipe')
    else ([], pipe)

/-- The inner loop of `write_pipe`, with the number of bytes written. -/
def writeLoop : List UInt8 → PipeDevice → Nat × PipeDevice
  | [], pipe => (0, pipe)
  | b::bytes, pipe =>
    if pipeAvailable pipe > 0 then
      let stored := { pipe with buffer := Function.update pipe.buffer pipe.writePtr b }
      let (written, pipe') := writeLoop bytes (pipeIncrementWrite stored)
      (written+1, pipe')
    else (0, pipe)

/-- One round of `read_pipe` under `lock_read`; no bytes mean that the reader sleeps. -/
def readSection (size : Nat) (pipe : PipeDevice) : List UInt8 × PipeDevice :=
  if pipeUnread pipe ≥ size then readLoop size pipe else ([], pipe)

/-- One round of `write_pipe`; if bytes are left the writer sleeps. -/
def writeSection (bytes : List UInt8) (pipe : PipeDevice) : Nat × PipeDevice :=
  if pipeAvailable pipe > bytes.length then writeLoop bytes pipe else (0, pipe)

structure PipeDevice.WellFormed (pipe : PipeDevice) : Prop where
  readPtr_lt : pipe.readPtr<pipe.size
  writePtr_lt : pipe.writePtr<pipe.size

def PipeDevice.contents (pipe : PipeDevice) : List UInt8 :=
  Circular.window pipe.buffer pipe.size pipe.readPtr
    (Circular.distance pipe.size pipe.readPtr pipe.writePtr)

theorem makePipe_wellFormed (h : 0 < size) : (makePipe size).WellFormed := ⟨h,h⟩

theorem contents_makePipe (size : Nat) : (makePipe size).contents=[] := by
  simp [makePipe,PipeDevice.contents,Circular.window]

variable {pipe : PipeDevice}

theorem length_contents (pipe : PipeDevice) : pipe.contents.length=pipeUnread pipe :=
  Circular.window_length ..

theorem pipeUnread_add_available (h : pipe.WellFormed) :
    pipeUnread pipe + pipeAvailable pipe=pipe.size-1 := by
  obtain ⟨hr,hw⟩ := h
  unfold pipeUnread pipeAvailable
  split_ifs <;> omega

private theorem pipeIncrementRead_wellFormed (h : pipe.WellFormed) :
    (pipeIncrementRead pipe).WellFormed :=
  ⟨Circular.next_lt h.readPtr_lt,h.writePtr_lt⟩

private theorem contents_incrementRead (h : pipe.WellFormed) (hpos : 0<pipeUnread pipe) :
    pipe.contents=pipe.buffer pipe.readPtr::(pipeIncrementRead pipe).contents := by
  have hne : pipe.readPtr≠pipe.writePtr := by
    intro heq
    simp [pipeUnread,heq] at hpos
  exact Circular.window_distance_next_left _ h.readPtr_lt h.writePtr_lt hne

def pushByte (pipe : PipeDevice) (b : UInt8) : PipeDevice :=
  pipeIncrementWrite { pipe with buffer := Function.update pipe.buffer pipe.writePtr b }

section
variable (h : pipe.WellFormed)
include h

private theorem pushByte_wellFormed (b : UInt8) : (pushByte pipe b).WellFormed :=
  ⟨h.readPtr_lt,Circular.next_lt h.writePtr_lt⟩

private theorem contents_pushByte (b : UInt8) (hr : 0<pipeAvailable pipe) :
    (pushByte pipe b).contents=pipe.contents++[b] := by
  have ht := pipeUnread_add_available h
  have hu : Circular.distance pipe.size pipe.readPtr pipe.writePtr=pipeUnread pipe := rfl
  have hlt : Circular.distance pipe.size pipe.readPtr pipe.writePtr + 1<pipe.size := by omega
  exact Circular.window_distance_next_right _ b h.readPtr_lt h.writePtr_lt hlt

private theorem readLoop_spec (hs : size≤pipe.contents.length) :
    (readLoop size pipe).1=pipe.contents.take size ∧ (readLoop size pipe).2.WellFormed ∧
      (readLoop size pipe).2.size=pipe.size ∧
      (readLoop size pipe).2.contents=pipe.contents.drop size := by
  induction size generalizing pipe with
  | zero => exact ⟨rfl,h,rfl,rfl⟩
  | succ size ih =>
    have hpos : 0<pipeUnread pipe := by
      rw [← length_contents]
      omega
    have hc := contents_incrementRead h hpos
    rw [hc,length_cons] at hs
    obtain ⟨hb,hwf,hsz,hr⟩ := ih (pipeIncrementRead_wellFormed h) (by omega)
    rw [hc,readLoop,if_pos hpos]
    exact ⟨congrArg _ hb,hwf,hsz,hr⟩

private theorem writeLoop_spec (hr : bytes.length≤pipeAvailable pipe) :
    (writeLoop bytes pipe).1=bytes.length ∧ (writeLoop bytes pipe).2.WellFormed ∧
      (writeLoop bytes pipe).2.size=pipe.size ∧
      (writeLoop bytes pipe).2.contents=pipe.contents++bytes := by
  induction bytes generalizing pipe with
  | nil => exact ⟨rfl,h,rfl,(append_nil _).symm⟩
  | cons b bytes ih =>
    rw [length_cons] at hr
    have hpos : 0<pipeAvailable pipe := by omega
    have hp := contents_pushByte h b hpos
    have hwf := pushByte_wellFormed h b
    have hl : bytes.length≤pipeAvailable (pushByte pipe b) := by
      have hb := pipeUnread_add_available h
      have ha := pipeUnread_add_available hwf
      have hlen := congrArg length hp
      rw [length_contents,length_append,length_contents,length_singleton] at hlen
      have hs : (pushByte pipe b).size=pipe.size := rfl
      omega
    obtain ⟨hw,hwf',hs,hc⟩ := ih hwf hl
    rw [writeLoop,if_pos hpos]
    refine ⟨?_,hwf',hs,?_⟩
    · rw [length_cons,← hw]
      rfl
    · rw [hp,append_assoc] at hc
      exact hc

theorem readSection_spec (size : Nat) :
    (readSection size pipe).2.WellFormed ∧ (readSection size pipe).2.size=pipe.size ∧
      ((readSection size pipe).1, (readSection size pipe).2.contents) =
        if size≤pipe.contents.length then (pipe.contents.take size, pipe.contents.drop size)
        else ([], pipe.contents) := by
  rw [readSection,length_contents]
  by_cases hs : size≤pipeUnread pipe
  · have hlen : size≤pipe.contents.length := by
      rwa [length_contents]
    obtain ⟨hb,hwf,hsz,hr⟩ := readLoop_spec h hlen
    rw [if_pos hs,if_pos hs]
    exact ⟨hwf,hsz,Prod.ext hb hr⟩
  · rw [if_neg hs,if_neg hs]
    exact ⟨h,rfl,rfl⟩

theorem writeSection_spec (bytes : List UInt8) :
    (writeSection bytes pipe).2.WellFormed ∧ (writeSection bytes pipe).2.size=pipe.size ∧
      ((writeSection bytes pipe).1, (writeSection bytes pipe).2.contents) =
        if bytes.length<pipeAvailable pipe then (bytes.length, pipe.contents++bytes)
        else (0, pipe.contents) := by
  rw [writeSection]
  by_cases hr : bytes.length<pipeAvailable pipe
  · obtain ⟨hw,hwf,hsz,hc⟩ := writeLoop_spec h (Nat.le_of_lt hr)
    rw [if_pos hr,if_pos hr]
    exact ⟨hwf,hsz,Prod.ext hw hc⟩
  · rw [if_neg hr,if_neg hr]
    exact ⟨h,rfl,rfl⟩

end
end RazionOS.Kernel.Vfs
