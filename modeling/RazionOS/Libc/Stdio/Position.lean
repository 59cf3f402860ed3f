import RazionOS.Framework.Runs
import RazionOS.Libc.Stdio.Output

/-!
# Position of a `FILE`

`read_bytes` fills `read_buf` from the kernel's file offset, `ftell` and `fseek` work out where the
stream is from the buffer index and the offset at the last refill. Above them is the stream as its
user sees it: a position in the file and at most one byte pushed back before it.
-/

namespace RazionOS.Libc.Stdio
open Framework

def espipe : Int := 29
def wrap (x : Int) : Int := (x+2^63)%2 ^ 64-2^63

structure File where
  bytes : List UInt8
  length_lt : bytes.length<2^63

/-- The reading side of a `FILE` and the state of its descriptor in the kernel. -/
structure Stream where
  kernelOffset : Int
  reads : Nat
  readBuf : Nat → UInt8
  available : Nat
  offset : Nat
  readFrom : Nat
  ungetc : Int
  bufsiz : Nat
  lastReadStart : Int
  eof : Bool
  unseekable : Bool
  /-- History: where in the buffer the last refill since the last seek went to. -/
  refilledAt : Option Nat

def fopen : Stream := ⟨0,0,fun _ => 0,0,0,0,-1,BUFSIZ,0,false,false,none⟩

inductive Whence where
  | seekSet
  | seekCur
  | seekEnd
deriving DecidableEq

section Code
variable (file : File) (refills : Nat → Nat)

def sysSeek (offset : Int) (whence : Whence) (s : Stream) : Int × Stream :=
  let target := match whence with
    | .seekSet => offset
    | .seekCur => wrap (s.kernelOffset+offset)
    | .seekEnd => wrap (file.bytes.length+offset)
  (target, { s with kernelOffset := target })

/-- What there is to read at the offset of the kernel, which has no sign. -/
def remaining (s : Stream) : List UInt8 :=
  if s.kernelOffset<0 then [] else file.bytes.drop s.kernelOffset.toNat

/-- How much a read of `size` bytes gives: nothing at the end, otherwise some of them, as many as
`refills` says if it can. -/
def readCount (size : Nat) (s : Stream) : Nat :=
  min (max 1 (refills s.reads)) (min size (remaining file s).length)

def sysRead (size : Nat) (s : Stream) : Nat × Stream :=
  let r := readCount file refills size s
  (r, { s with
    readBuf := fun i =>
      if s.offset ≤ i ∧ i < s.offset+r then (remaining file s).getD (i-s.offset) 0
      else s.readBuf i
    kernelOffset := s.kernelOffset+r
    reads := s.reads+1 })

/-- The part of `read_bytes` for an empty buffer. -/
def refill (s : Stream) : Stream :=
  let s := if s.offset=s.bufsiz then { s with offset := 0 } else s
  let s :=
    if s.unseekable then s
    else
      let start := (sysSeek file 0 .seekCur s).1
      if start = -espipe then { s with lastReadStart := -1, unseekable := true }
      else { s with lastReadStart := start }
  let (r, s) := sysRead file refills (s.bufsiz-s.offset) s
  { s with
    readFrom := s.offset
    available := r
    offset := s.offset+r
    refilledAt := some s.offset }

/-- The inner loop of `read_bytes`, with the bytes asked for and those delivered. -/
def copyLoop : Nat → List UInt8 → Stream → Nat × List UInt8 × Stream
  | 0, out, s => (0, out, s)
  | len+1, out, s =>
    if s.readFrom < s.offset ∧ 0 < s.available then
      copyLoop len (out++[s.readBuf s.readFrom])
        { s with readFrom := s.readFrom+1, available := s.available-1 }
    else (len+1, out, s)

/-- The outer loop. Each round delivers a byte or is the last, so that `len` rounds are enough. -/
def readLoop : Nat → Nat → List UInt8 → Stream → List UInt8 × Stream
  | 0, _, out, s => (out, s)
  | rounds+1, len, out, s =>
    if len=0 then (out, s)
    else if 0 ≤ s.ungetc then
      readLoop rounds (len-1) (out++[UInt8.ofNat s.ungetc.toNat]) { s with ungetc := -1 }
    else
      let s := if s.available=0 then refill file refills s else s
      if s.available=0 then (out, { s with eof := true })
      else
        let (len, out, s) := copyLoop len out s
        readLoop rounds len out s

def readBytes (len : Nat) (s : Stream) : List UInt8 × Stream := readLoop file refills len len [] s

def freadLoop (size : Nat) : Nat → Nat → List UInt8 → Stream → Nat × List UInt8 × Stream
  | 0, i, out, s => (i, out, s)
  | count+1, i, out, s =>
    let (bytes, s) := readBytes file refills size s
    if bytes.length < size then (i, out++bytes, s)
    else freadLoop size count (i+1) (out++bytes) s

def fread (size nmemb : Nat) (s : Stream) : Nat × List UInt8 × Stream :=
  freadLoop file refills size nmemb 0 [] s

def fgetc (s : Stream) : Option UInt8 × Stream :=
  match readBytes file refills 1 s with
  | ([], s) => (none, { s with eof := true })
  | (b::_, s) => (some b, s)

/-- The loop of `fgets`, with room for so many more bytes. -/
def fgetsLoop : Nat → List UInt8 → Stream → List UInt8 × Stream
  | 0, out, s => (out, s)
  | room+1, out, s =>
    match fgetc file refills s with
    | (none, s) => (out, { s with eof := true })
    | (some b, s) =>
      if room=0 ∨ b=newline then (out++[b], s) else fgetsLoop room (out++[b]) s

def fgets (size : Nat) (s : Stream) : List UInt8 × Stream := fgetsLoop file refills (size-1) [] s

def ungetc (c : Int) (s : Stream) : Int × Stream :=
  if s.ungetc > 0 then (-1, s) else (c, { s with ungetc := c })

def discard (s : Stream) : Stream :=
  { s with offset := 0, readFrom := 0, available := 0, ungetc := -1, eof := false,
           unseekable := false, refilledAt := none }

def fseek (offset : Int) (whence : Whence) (s : Stream) : Int × Stream :=
  let (offset, whence) :=
    if s.readFrom≠0 ∧ whence = .seekCur then
      (wrap (offset+s.readFrom+s.lastReadStart), .seekSet)
    else (offset, whence)
  let (resp, s) := sysSeek file offset whence (discard s)
  -- the result is an `int`
  (if resp%2^32<2^31 then 0 else -1, s)

def rewind (s : Stream) : Stream := (fseek file 0 .seekSet s).2

def ftell (s : Stream) : Int × Stream :=
  if s.readFrom≠0 ∨ s.lastReadStart≠0 then (wrap (s.lastReadStart+s.readFrom), s)
  else
    let (resp, s) := sysSeek file 0 .seekCur (discard s)
    (if resp<0 then -1 else resp, s)
end Code

inductive Event where
  | fread (size nmemb : Nat)
  | fgetc
  | fgets (size : Nat)
  | ungetc (c : Int)
  | fseek (offset : BitVec 64) (whence : Whence)
  | rewind
  | ftell

/-- What the caller gets; of a seek only that it has been. -/
inductive Outcome where
  | read (bytes : List UInt8) (items : Nat)
  | pushed (c : Int)
  | sought
  | position (pos : Int)
deriving DecidableEq

def Stream.call (file : File) (refills : Nat → Nat) (s : Stream) : Event → Outcome × Stream
  | .fread size nmemb =>
    let (items, bytes, s) := Stdio.fread file refills size nmemb s
    (.read bytes items, s)
  | .fgetc =>
    let (b, s) := Stdio.fgetc file refills s
    (.read b.toList b.toList.length, s)
  | .fgets size =>
    let (bytes, s) := Stdio.fgets file refills size s
    (.read bytes bytes.length, s)
  | .ungetc c =>
    let (c, s) := Stdio.ungetc c s
    (.pushed c, s)
  | .fseek offset whence => (.sought, (Stdio.fseek file offset.toInt whence s).2)
  | .rewind => (.sought, Stdio.rewind file s)
  | .ftell =>
    let (pos, s) := Stdio.ftell file s
    (.position pos, s)

def Stream.step (file : File) (refills : Nat → Nat) (s : Stream) (e : Event) : Stream :=
  (s.call file refills e).2

/-- The position in the file of the next byte that is not pushed back, and the byte that is. -/
structure Logical where
  pos : Int
  pushed : Option UInt8
deriving DecidableEq

namespace Logical

variable (file : File) (l : Logical)

def position : Int := l.pos-l.pushed.toList.length
def rest : List UInt8 := l.pushed.toList++file.bytes.drop l.pos.toNat

def advance (n : Nat) : Logical :=
  if n=0 then l else ⟨l.pos+(n-l.pushed.toList.length : Int),none⟩

def line : Nat → List UInt8 → List UInt8
  | 0, _ => []
  | _, [] => []
  | room+1, b::bytes => if b=newline then [b] else b::line room bytes

def target (offset : Int) : Whence → Int
  | .seekSet => offset
  | .seekCur => l.position+offset
  | .seekEnd => file.bytes.length+offset

/-- A seek to a position that there is not fails and moves nothing. -/
def seek (offset : Int) (whence : Whence) : Logical :=
  let target := l.target file offset whence
  if 0≤target ∧ target<2^63 then ⟨target,none⟩ else l

def call : Event → Outcome × Logical
  | .fread size nmemb =>
    let bytes := (l.rest file).take (size*nmemb)
    (.read bytes (if size=0 then nmemb else bytes.length/size), l.advance bytes.length)
  | .fgetc =>
    let bytes := (l.rest file).take 1
    (.read bytes bytes.length, l.advance bytes.length)
  | .fgets size =>
    let bytes := line (size-1) (l.rest file)
    (.read bytes bytes.length, l.advance bytes.length)
  | .ungetc c =>
    if l.pushed.isSome ∨ c = -1 then (.pushed (-1), l)
    else (.pushed (c%256), { l with pushed := some (UInt8.ofNat (c%256).toNat) })
  | .fseek offset whence => (.sought, l.seek file offset.toInt whence)
  | .rewind => (.sought, l.seek file 0 .seekSet)
  | .ftell => (.position l.position, l)
end Logical

def Stream.logical (s : Stream) : Logical :=
  ⟨s.kernelOffset-s.available,
    if 0 ≤ s.ungetc then some (UInt8.ofNat s.ungetc.toNat) else none⟩

def Lawful (file : File) (refills : Nat → Nat) (s : Stream) (e : Event) : Prop :=
  ((s.call file refills e).1, (s.step file refills e).logical)=s.logical.call file e

/-- The last refill, if there was one since the last seek, went to the start of the buffer. -/
def Stream.AtStart (s : Stream) : Prop := s.refilledAt=none ∨ s.refilledAt=some 0

def Sane (file : File) (s : Stream) : Event → Prop
  | .fread .. | .fgetc | .fgets _ | .rewind => True
  -- a byte 0 that has been pushed back does not count as one
  | .ungetc c => 0 < s.ungetc ∨ (s.ungetc<0 ∧ -1 ≤ c ∧ c<256)
  | .fseek offset whence =>
    0 ≤ s.logical.target file offset.toInt whence ∧ s.logical.target file offset.toInt whence<2^63 ∧
      (whence = .seekCur → s.ungetc<0 ∧ s.AtStart)
  | .ftell =>
    -- without a refill `lastReadStart` is from before the seek
    if s.refilledAt=none ∧ s.lastReadStart≠0 then s.lastReadStart=s.logical.position
    else s.ungetc<0 ∧ s.AtStart
end RazionOS.Libc.Stdio
