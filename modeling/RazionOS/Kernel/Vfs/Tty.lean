import Mathlib.Data.List.DropRight
import RazionOS.Framework.Loop

/-!
# The line discipline of pseudoterminals

`tty_input_process` takes each byte written to the master: it edits the line that is not complete
yet in `canon_buffer`, echoes into the ring `out` and delivers into the ring `in`. The rings are
seen from here as the bytes written into them and as the coming writes that are interrupted;
a computation that an interrupted write ends answers with an error and the state it leaves.
-/

namespace RazionOS.Kernel.Vfs.Tty
open Framework Function List

/-- The flags that the driver tests, and its control characters. -/
structure Termios where
  (istrip igncr inlcr icrnl iuclc : Bool)
  (opost onlcr onlret olcuc : Bool)
  (isig icanon iexten echo echoe echok echonl echoctl : Bool)
  (vintr vquit vsusp vlnext vkill verase vwerase veof veol : UInt8)
  deriving Inhabited

inductive Signal where
  | sigint | sigquit | sigtstp
  deriving DecidableEq

structure Pty where
  tios : Termios
  canonBuffer : Nat → UInt8
  canonBuflen : Nat
  nextIsVerbatim : Bool
  fgProc : Nat
  input : List UInt8
  inputEof : Bool
  output : List UInt8
  signals : List Signal
  /-- Which of the coming writes into `in` are interrupted; those after the list are not. -/
  inFaults : List Bool
  outFaults : List Bool

/-- `pty_new`, on a buffer that holds anything. -/
def ptyNew (canonBuffer : Nat → UInt8) : Pty where
  tios := { (default : Termios) with
    icrnl := true, opost := true, onlcr := true, isig := true, icanon := true, iexten := true
    echo := true, echoe := true, echok := true, echoctl := true
    vintr := 3, vquit := 28, vsusp := 26, vlnext := 22, vkill := 21, verase := 0x7F, vwerase := 23
    veof := 4 }
  canonBuffer := canonBuffer
  canonBuflen := 0
  nextIsVerbatim := false
  fgProc := 0
  input := []
  inputEof := false
  output := []
  signals := []
  inFaults := []
  outFaults := []

def ttyBufferSize : Nat := 4096

def canonBufsize : Nat := ttyBufferSize-2

def newline : UInt8 := 10
def carriageReturn : UInt8 := 13
def backspace : UInt8 := 8
def space : UInt8 := 32
def caret : UInt8 := 94

/-- The state, whether or not a write was interrupted: the caller does not look. -/
def settle : Except Pty Pty → Pty
  | .ok s => s
  | .error s => s

def writeIn (c : UInt8) (s : Pty) : Except Pty Pty :=
  match s.inFaults with
  | true::faults => .error { s with inFaults := faults }
  | faults => .ok { s with input := s.input++[c], inFaults := faults.tail }

def writeOut (c : UInt8) (s : Pty) : Except Pty Pty :=
  match s.outFaults with
  | true::faults => .error { s with outFaults := faults }
  | faults => .ok { s with output := s.output++[c], outFaults := faults.tail }

/-- The rounds of `dump_input_buffer` from the byte at `c` on, `canon_buflen` being `n`. -/
def dumpFrom (c : Nat) : Nat → Pty → Except Pty Pty
  | 0, s => .ok s
  | n+1, s => do
    let s ← writeIn (s.canonBuffer c) s
    dumpFrom (c+1) n { s with canonBuflen := n }

def dumpInputBuffer (s : Pty) : Except Pty Pty := dumpFrom 0 s.canonBuflen s

def clearInputBuffer (s : Pty) : Pty :=
  { s with canonBuflen := 0, canonBuffer := update s.canonBuffer 0 0 }

/-- What `tty_output_process` writes for a byte. -/
def outputBytes (t : Termios) (c : UInt8) : List UInt8 :=
  if !t.opost then [c]
  else if c=newline ∧ t.onlcr then [newline,carriageReturn]
  else if c=carriageReturn ∧ t.onlret then []
  else if 97 ≤ c ∧ c≤122 ∧ t.olcuc then [c+65-97]
  else [c]

/-- `output_process` for one byte after the other. -/
def outputProcess (bytes : List UInt8) (s : Pty) : Except Pty Pty :=
  (bytes.flatMap (outputBytes s.tios)).foldlM (fun s c => writeOut c s) s

def isControl (c : Int) : Bool := c<32 || c == 0x7F

/-- A byte of `canon_buffer`, whose elements are signed. -/
def signedChar (c : UInt8) : Int := if c<128 then c.toNat else c.toNat-256

/-- The echo of a byte, in the caret form if that is asked for and the byte is a control. -/
def echoed (t : Termios) (shown : Bool) (c : UInt8) : List UInt8 :=
  if !t.echo then []
  else if t.echoctl && isControl c.toNat && shown then [caret,(64+c)%128]
  else [c]

def vwidth (c : UInt8) : Nat := if isControl (signedChar c) then 2 else 1

/-- The bytes that wipe a byte of the line from the screen. -/
def wiped (c : UInt8) : List UInt8 :=
  (replicate (vwidth c) [backspace,space,backspace]).flatten

def ttyEraseOne (erase : Bool) (s : Pty) : Except Pty Pty :=
  if s.canonBuflen=0 then .ok s
  else
    let n := s.canonBuflen-1
    outputProcess (if s.tios.echo && erase then wiped (s.canonBuffer n) else [])
      { s with canonBuflen := n, canonBuffer := update s.canonBuffer n 0 }

/-- The loops that erase while the last byte of the line has a property, in `n` rounds at most. -/
def eraseWhile (erase : Bool) (p : UInt8 → Bool) : Nat → Pty → Except Pty Pty
  | 0, s => .ok s
  | n+1, s =>
    if s.canonBuflen≠0 ∧ p (s.canonBuffer (s.canonBuflen-1)) then do
      let s ← ttyEraseOne erase s
      eraseWhile erase p n s
    else .ok s

def Pty.put (s : Pty) (c : UInt8) : Pty :=
  if s.canonBuflen < canonBufsize then
    { s with canonBuffer := update s.canonBuffer s.canonBuflen c, canonBuflen := s.canonBuflen+1 }
  else s

namespace Termios
variable (t : Termios)

def signalOf (c : UInt8) : Option Signal :=
  if !t.isig then none
  else if c=t.vintr then some .sigint
  else if c=t.vquit then some .sigquit
  else if c=t.vsusp then some .sigtstp
  else none

/-- The byte after the input mappings, unless it is a carriage return to be ignored. -/
def inputMap (c : UInt8) : Option UInt8 :=
  let c := if t.istrip then c &&& 0x7F else c
  if t.igncr ∧ c=carriageReturn then none
  else
    let c := if t.inlcr ∧ c=newline then carriageReturn
      else if t.icrnl ∧ c=carriageReturn then newline else c
    some (if t.iuclc ∧ 65 ≤ c ∧ c≤90 then c-65+97 else c)

/-- What a byte does to the line, in the order of the tests. -/
inductive Key where
  | lnext | kill | erase | werase | eof | eol | text
  deriving DecidableEq

def key (c : UInt8) : Key :=
  if c=t.vlnext ∧ t.iexten then .lnext
  else if c=t.vkill then .kill
  else if c=t.verase then .erase
  else if c=t.vwerase ∧ t.iexten then .werase
  else if c=t.veof then .eof
  else if c=newline ∨ t.veol≠0 ∧ c=t.veol then .eol
  else .text
end Termios

/-- The branch for `ICANON`. -/
def canonicalInput (c : UInt8) (s : Pty) : Except Pty Pty :=
  let t := s.tios
  let echoUnless (erase : Bool) := outputProcess (if erase then [] else echoed t true c)
  match t.key c with
  | .lnext => outputProcess [caret,backspace] { s with nextIsVerbatim := true }
  | .kill => eraseWhile t.echok (fun _ => true) s.canonBuflen s >>= echoUnless t.echok
  | .erase => ttyEraseOne t.echoe s >>= echoUnless t.echoe
  | .werase => do
    let s ← eraseWhile t.echoe (· == space) s.canonBuflen s
    let s ← eraseWhile t.echoe (· != space) s.canonBuflen s
    echoUnless t.echoe s
  | .eof =>
    .ok (if s.canonBuflen≠0 then settle (dumpInputBuffer s) else { s with inputEof := true })
  | .eol => do
    let s ← outputProcess (echoed t (c≠newline) c) (s.put c)
    let s ← outputProcess (if !t.echo && t.echonl then [c] else []) s
    let buffer := update s.canonBuffer (s.canonBuflen-1) c
    .ok (settle (dumpInputBuffer { s with canonBuffer := buffer }))
  | .text => outputProcess (echoed t (c≠newline) c) (s.put c)

def ttyInputProcess (c : UInt8) (s : Pty) : Except Pty Pty :=
  if s.nextIsVerbatim then
    outputProcess (echoed s.tios true c) ({ s with nextIsVerbatim := false }.put c)
  else
    match s.tios.signalOf c, s.tios.inputMap c with
    | some sig, _ => do
      let s ← outputProcess (echoed s.tios true c) s
      let s := clearInputBuffer s
      .ok (if s.fgProc≠0 then { s with signals := s.signals++[sig] } else s)
    | none, none => .ok s
    | none, some c =>
      if s.tios.icanon then canonicalInput c s
      else outputProcess (echoed s.tios (c≠newline) c) s >>= writeIn c

def Pty.type (s : Pty) (c : UInt8) : Pty := settle (ttyInputProcess c s)

/-- An interruption ends the call at the first byte only. -/
def writePtyMaster : List UInt8 → Pty → Except Pty Pty
  | [], s => .ok s
  | c::buffer, s => do
    let s ← ttyInputProcess c s
    .ok (buffer.foldl Pty.type s)

/-- `pty_ioctl` for `TCSETS` and `TCSETSW`, and for `TCSETSF`, which discards the input. -/
def tcset (discard : Bool) (t : Termios) (s : Pty) : Pty :=
  let s := if discard then clearInputBuffer s
    else if !t.icanon && s.tios.icanon then settle (dumpInputBuffer s) else s
  { s with tios := t }

def Pty.pending (s : Pty) : List UInt8 := (range s.canonBuflen).map s.canonBuffer

variable {s s1 s2 : Pty}

theorem pending_eq_concat (h : s.pending=line++[x]) : s.canonBuflen=line.length+1 ∧
    (range line.length).map s.canonBuffer=line ∧ s.canonBuffer line.length=x := by
  have hlen : s.canonBuflen=line.length+1 := by simpa [Pty.pending] using congrArg length h
  rw [Pty.pending,hlen,range_succ,map_append] at h
  obtain ⟨hl,hx⟩ := append_inj' h rfl
  exact ⟨hlen,hl,singleton_inj.1 hx⟩

/-- The line has become `line` and `w` was written to the screen; nothing else has changed. -/
def Edited (s : Pty) (line w : List UInt8) (s' : Pty) : Prop :=
  ∃ buffer, s' = { s with
    canonBuffer := buffer, canonBuflen := line.length, output := s.output++w } ∧
    (range line.length).map buffer=line

section
variable (h : Edited s line w s1)
include h

theorem Edited.pending : s1.pending=line := by
  obtain ⟨buffer,rfl,hl⟩ := h
  exact hl

theorem Edited.tios : s1.tios=s.tios := by
  obtain ⟨_,rfl,-⟩ := h
  rfl

private theorem Edited.buflen : s1.canonBuflen=line.length := by
  obtain ⟨_,rfl,-⟩ := h
  rfl

theorem Edited.outFaults : s1.outFaults=s.outFaults := by
  obtain ⟨_,rfl,-⟩ := h
  rfl

end

theorem Edited.refl (s : Pty) : Edited s s.pending [] s :=
  ⟨s.canonBuffer,by simp [Pty.pending],by simp [Pty.pending]⟩

theorem Edited.trans (h : Edited s line w s1) (h1 : Edited s1 line1 w1 s2) :
    Edited s line1 (w++w1) s2 := by
  obtain ⟨buffer,rfl,-⟩ := h
  obtain ⟨buffer1,rfl,hl⟩ := h1
  exact ⟨buffer1,by simp,hl⟩

theorem outputProcess_edited (hq : s.outFaults=[]) (bytes : List UInt8) : ∃ s',
    outputProcess bytes s = .ok s' ∧
      Edited s s.pending (bytes.flatMap (outputBytes s.tios)) s' := by
  rw [outputProcess]
  generalize bytes.flatMap (outputBytes s.tios)=w
  induction w generalizing s with
  | nil => exact ⟨s,rfl,.refl s⟩
  | cons c w ih =>
    obtain ⟨s',hs',he⟩ := ih (s := { s with output := s.output++[c] }) hq
    refine ⟨s',?_,?_⟩
    · simpa [writeOut,hq] using hs'
    · obtain ⟨buffer,rfl,hl⟩ := he
      exact ⟨buffer,by simp [Pty.pending],hl⟩

theorem Edited.output (h : Edited s line w s1) (hq : s.outFaults=[]) (bytes : List UInt8) :
    ∃ s', outputProcess bytes s1 = .ok s' ∧
      Edited s line (w++bytes.flatMap (outputBytes s.tios)) s' := by
  obtain ⟨s',hs',he⟩ := outputProcess_edited (h.outFaults.trans hq) bytes
  rw [h.pending,h.tios] at he
  exact ⟨s',hs',h.trans he⟩

theorem ttyEraseOne_edited (hq : s.outFaults=[]) (erase : Bool) (h : s.pending=line++[x]) :
    ∃ s', ttyEraseOne erase s = .ok s' ∧ Edited s line
      ((if s.tios.echo && erase then wiped x else []).flatMap (outputBytes s.tios)) s' := by
  obtain ⟨hlen,hl,rfl⟩ := pending_eq_concat h
  have hm : (range line.length).map (update s.canonBuffer line.length 0)=line := by
    exact Eq.trans (map_congr_left fun i hi => update_of_ne (mem_range.1 hi).ne ..) hl
  have h0 : Edited s line [] { s with
      canonBuflen := line.length, canonBuffer := update s.canonBuffer line.length 0 } :=
    ⟨_,by simp,hm⟩
  rw [ttyEraseOne,hlen]
  exact h0.output hq _

/-- What is written while the bytes of a list are wiped, the last one first. -/
def wipes (t : Termios) (erase : Bool) (line : List UInt8) : List UInt8 :=
  (line.reverse.flatMap fun c => if t.echo && erase then wiped c else []).flatMap (outputBytes t)

theorem eraseWhile_edited (hq : s.outFaults=[]) (erase : Bool) (p : UInt8 → Bool) : ∃ s',
    eraseWhile erase p s.canonBuflen s = .ok s' ∧
      Edited s (s.pending.rdropWhile p) (wipes s.tios erase (s.pending.rtakeWhile p)) s' := by
  generalize h : s.pending=line
  induction line using reverseRecOn generalizing s with
  | nil =>
    have hlen : s.canonBuflen=0 := by simpa [Pty.pending] using h
    exact ⟨s,by rw [hlen,eraseWhile],by simpa [h,wipes] using Edited.refl s⟩
  | append_singleton line x ih =>
    obtain ⟨hlen,-,rfl⟩ := pending_eq_concat h
    rw [hlen,eraseWhile,hlen,rdropWhile_concat,rtakeWhile_concat]
    by_cases hp : p (s.canonBuffer line.length)
    · obtain ⟨s1,hs1,h1⟩ := ttyEraseOne_edited hq erase h
      obtain ⟨s2,hs2,h2⟩ := ih (h1.outFaults.trans hq) h1.pending
      refine ⟨s2,?_,?_⟩
      · rw [if_pos ⟨Nat.succ_ne_zero _,hp⟩,hs1,ok_bind,← h1.buflen,hs2]
      · rw [h1.tios] at h2
        rw [if_pos hp,if_pos hp]
        simpa [wipes] using h1.trans h2
    · rw [if_neg fun h => hp h.2,if_neg hp,if_neg hp,← h]
      exact ⟨s,rfl,.refl s⟩

theorem put_edited (h : s.canonBuflen≤canonBufsize) :
    Edited s ((s.pending++[c]).take canonBufsize) [] (s.put c) := by
  have hlen : s.pending.length=s.canonBuflen := by simp [Pty.pending]
  rw [Pty.put]
  split_ifs with hlt
  · rw [take_of_length_le (by simp; omega)]
    refine ⟨update s.canonBuffer s.canonBuflen c,by simp [hlen],?_⟩
    rw [length_append,hlen,length_singleton,range_succ,map_append]
    congr 1
    · exact map_congr_left fun i hi => update_of_ne (mem_range.1 hi).ne ..
    · simp
  · rw [take_append_of_le_length (by omega),take_of_length_le (by omega)]
    exact .refl s

private theorem Edited.setLast (h : Edited s (line++[x]) w s1) : Edited s (line++[c]) w
    { s1 with canonBuffer := update s1.canonBuffer (s1.canonBuflen-1) c } := by
  obtain ⟨hlen,hl,-⟩ := pending_eq_concat h.pending
  obtain ⟨buffer,rfl,-⟩ := h
  refine ⟨update buffer line.length c,by simp,?_⟩
  rw [length_append,length_singleton,range_succ,map_append,map_singleton,update_self]
  congr 1
  exact Eq.trans (map_congr_left fun i hi => update_of_ne (mem_range.1 hi).ne ..) hl

/-- How many of `n` writes come before the first that is interrupted. -/
def sent : List Bool → Nat → Nat
  | _, 0 => 0
  | true::_, _ => 0
  | faults, n+1 => sent faults.tail n+1

private theorem writeIn_cases :
    (∃ faults, s.inFaults=true::faults ∧ writeIn c s = .error { s with inFaults := faults }) ∨
    (∀ n, sent s.inFaults (n+1)=sent s.inFaults.tail n+1) ∧
      writeIn c s = .ok { s with input := s.input++[c], inFaults := s.inFaults.tail } := by
  match hf : s.inFaults with
  | true::faults => exact .inl ⟨faults,rfl,by simp [writeIn,hf]⟩
  | [] | false::faults => exact .inr ⟨fun _ => rfl,by simp [writeIn,hf]⟩

theorem settle_dumpFrom (h : s.canonBuflen=n) (c : Nat) :
    settle (dumpFrom c n s) = { s with
      canonBuflen := n-sent s.inFaults n
      input := s.input++(range (sent s.inFaults n)).map fun i => s.canonBuffer (c+i)
      inFaults := s.inFaults.drop (min n (sent s.inFaults n+1)) } := by
  induction n generalizing s c with
  | zero =>
    obtain ⟨⟩ := s
    cases h
    simp [dumpFrom,settle,sent]
  | succ n ih =>
    rw [dumpFrom]
    obtain ⟨faults,hf,hw⟩ | ⟨hs,hw⟩ := writeIn_cases
    · rw [hw]
      simp [settle,hf,sent,h]
    · rw [hw,ok_bind,ih rfl,hs]
      simp [range_succ_eq_map,Nat.add_right_comm,← Nat.add_assoc]

theorem settle_dump (h : s.inFaults=[]) : settle (dumpInputBuffer s) =
    { s with canonBuflen := 0, input := s.input++s.pending } := by
  have hs (n : Nat) : sent [] n=n := by
    induction n with
    | zero => rfl
    | succ n ih => rw [sent,tail_nil,ih]; exact nofun
  rw [dumpInputBuffer,settle_dumpFrom rfl]
  simp [h,hs,Pty.pending]

section Canonical
variable (hq : s.outFaults = []) (hb : s.canonBuflen ≤ canonBufsize)
include hq

theorem canonicalInput_kill (hk : s.tios.key c = .kill) : ∃ s', canonicalInput c s = .ok s' ∧
    Edited s [] (wipes s.tios s.tios.echok s.pending ++
      (if s.tios.echok then [] else echoed s.tios true c).flatMap (outputBytes s.tios)) s' := by
  obtain ⟨s1,hs1,h1⟩ := eraseWhile_edited hq _ fun _ => true
  rw [rdropWhile_eq_nil_iff.2 (by simp),rtakeWhile_eq_self_iff.2 (by simp)] at h1
  obtain ⟨s2,hs2,h2⟩ := h1.output hq _
  exact ⟨s2,by simp [canonicalInput,hk,hs1,hs2],h2⟩

include hb

theorem canonicalInput_text (hk : s.tios.key c = .text) : ∃ s', canonicalInput c s = .ok s' ∧
    Edited s ((s.pending++[c]).take canonBufsize)
      ((echoed s.tios (c≠newline) c).flatMap (outputBytes s.tios)) s' := by
  simp only [canonicalInput,hk]
  exact (put_edited hb).output hq _

theorem canonicalInput_eol (hk : s.tios.key c = .eol) : ∃ s1 w,
    canonicalInput c s = .ok (settle (dumpInputBuffer s1)) ∧
      Edited s (s.pending.take (canonBufsize-1)++[c]) w s1 := by
  obtain ⟨s1,hs1,h1⟩ := (put_edited hb).output hq (echoed s.tios (c≠newline) c)
  obtain ⟨s2,hs2,h2⟩ := h1.output hq (if !s.tios.echo && s.tios.echonl then [c] else [])
  obtain ⟨x,hx⟩ : ∃ x, (s.pending++[c]).take canonBufsize =
      s.pending.take (canonBufsize-1)++[x] := by
    rcases Nat.lt_or_ge s.pending.length canonBufsize with hlt | hge
    · refine ⟨c,?_⟩
      rw [take_of_length_le (by simp; omega),take_of_length_le (by omega)]
    · rw [take_append_of_le_length hge]
      exact ⟨_,take_succ_eq_append_getElem (show canonBufsize-1<_ from hge)⟩
  rw [hx] at h2
  exact ⟨_,_,by simp only [canonicalInput,hk,hs1,hs2,ok_bind],h2.setLast⟩
end Canonical

theorem ttyInputProcess_canonical (ht : s.tios=t) (hv : s.nextIsVerbatim=false) (hi : t.icanon)
    (hs : t.signalOf c=none) (hm : t.inputMap c=some c') :
    ttyInputProcess c s=canonicalInput c' s := by
  simp [ttyInputProcess,hv,ht,hi,hs,hm]

theorem writePtyMaster_eq (h : ∀ c∈buffer.head?, ∃ s1, ttyInputProcess c s = .ok s1) :
    writePtyMaster buffer s = .ok (buffer.foldl Pty.type s) := by
  cases buffer with
  | nil => rfl
  | cons c buffer =>
    obtain ⟨s1,h1⟩ := h c rfl
    simp [writePtyMaster,Pty.type,settle,h1]
end RazionOS.Kernel.Vfs.Tty
