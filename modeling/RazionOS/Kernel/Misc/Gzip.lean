import RazionOS.Framework.Loop
import Mathlib.Data.UInt

/-!
# DEFLATE decompression

The kernel's decompressor for ramdisks: bits from a byte stream, Huffman tables made from code
lengths, a ring with the last 32 KiB of the output, and the three kinds of blocks.
-/

namespace RazionOS.Kernel.Gzip
open RazionOS.Framework Vector

inductive Fault where
  | inputEnd
  | outOfBounds
  | uninitialised
  /-- A loop without a bound of its own has not ended. -/
  | rounds
deriving DecidableEq

structure Huff where
  counts : Vector Nat 16
  /-- Nothing where no symbol has been stored yet. -/
  symbols : Vector (Option Nat) 288

structure HuffRing where
  pointer : Nat
  data : Vector UInt8 32768
  /-- The pointer is masked after every step. -/
  pointer_lt : pointer<32768

structure State where
  /-- The bytes from `gzip_inputPtr` on. -/
  input : List UInt8
  /-- The bytes written through `gzip_outputPtr`, in order. -/
  output : List UInt8
  bitBuffer : UInt8
  bufferSize : Nat
  fixedLengths : Huff
  fixedDists : Huff
  data : HuffRing

abbrev Decoder := StateT State (Except Fault)

def fetch {α : Type} {n : Nat} (array : Vector α n) (i : Nat) : Except Fault α :=
  match array[i]? with
  | some value => .ok value
  | none => .error .outOfBounds

def store {α : Type} {n : Nat} (array : Vector α n) (i : Nat) (value : α) :
    Except Fault (Vector α n) :=
  if i<n then .ok (array.setIfInBounds i value) else .error .outOfBounds

def lookup (table : List Nat) (i : Nat) : Except Fault Nat :=
  match table[i]? with
  | some value => .ok value
  | none => .error .outOfBounds

def readByte : Decoder UInt8 := do
  let st ← get
  match st.input with
  | [] => throw .inputEnd
  | byte::input =>
    set { st with input := input }
    pure byte

def read16le : Decoder UInt16 := do
  let a ← readByte
  let b ← readByte
  pure (a.toUInt16 ||| b.toUInt16 <<< 8)

def refill : Decoder Unit := do
  let byte ← readByte
  modify fun st => { st with bitBuffer := byte, bufferSize := 8 }

def readBit : Decoder Bool := do
  let st ← get
  if st.bufferSize=0 then refill
  let st ← get
  set { st with bitBuffer := st.bitBuffer >>> 1, bufferSize := st.bufferSize-1 }
  pure (st.bitBuffer &&& 1 != 0)

def readBitsLoop : Nat → Nat → Nat → Decoder Nat
  | 0, _, out => pure out
  | left+1, bit, out => do
    let value ← readBit
    readBitsLoop left (bit+1) (out ||| value.toNat <<< bit)

def readBits (count : Nat) : Decoder Nat := readBitsLoop count 0 0

/-- The bits that have not been read: no loop of the decoder goes round more often. -/
def State.unread (st : State) : Nat := st.bufferSize+8*st.input.length

def countLength (lengths : List Nat) (i : Nat) (counts : Vector Nat 16) :
    Except Fault (Vector Nat 16) := do
  let length := lengths.getD i 0
  let count ← fetch counts length
  store counts length (count+1)

def makeOffset (counts : Vector Nat 16) (i : Nat) (s : Vector Nat 16 × Nat) :
    Except Fault (Vector Nat 16 × Nat) := do
  let offsets ← store s.1 i s.2
  let count ← fetch counts i
  pure (offsets, s.2+count)

def orderSymbol (lengths : List Nat) (i : Nat) (s : Vector Nat 16 × Vector (Option Nat) 288) :
    Except Fault (Vector Nat 16 × Vector (Option Nat) 288) :=
  let length := lengths.getD i 0
  if length=0 then .ok s
  else do
    let offset ← fetch s.1 length
    let symbols ← store s.2 offset (some i)
    let offsets ← store s.1 length (offset+1)
    pure (offsets, symbols)

/-- The table of a list of lengths, written over what `out` holds. -/
def buildHuffman (lengths : List Nat) (out : Huff) : Except Fault Huff := do
  let counts ← forRange (countLength lengths) lengths.length (replicate 16 0)
  let counts ← store counts 0 0
  let offsets ← forRange (makeOffset counts) 16 (replicate 16 0, 0)
  let ordered ← forRange (orderSymbol lengths) lengths.length (offsets.1, out.symbols)
  pure ⟨counts,ordered.2⟩

def Huff.uninit : Huff := ⟨replicate 16 0,replicate 288 none⟩

def fixedLitLengths : List Nat :=
  List.replicate 144 8++List.replicate 112 9++List.replicate 24 7++List.replicate 8 8

def fixedDistLengths : List Nat := List.replicate 30 5

def buildFixed : Decoder Unit := do
  let st ← get
  let fixedLengths ← buildHuffman fixedLitLengths st.fixedLengths
  let fixedDists ← buildHuffman fixedDistLengths st.fixedDists
  set { st with fixedLengths := fixedLengths, fixedDists := fixedDists }

def decodeLoop (huff : Huff) : Nat → Nat → Int → Int → Decoder Int
  | 0, _, _, _ => throw .rounds
  | rounds+1, i, count, cur =>
    if cur<0 then pure (count+cur)
    else do
      let bit ← readBit
      let symbols ← fetch huff.counts i
      decodeLoop huff rounds (i+1) (count+symbols) (2*cur+bit.toNat-symbols)

def symbolAt (huff : Huff) : Int → Except Fault Nat
  | .ofNat index => do
    match ← fetch huff.symbols index with
    | some symbol => pure symbol
    | none => .error .uninitialised
  | .negSucc _ => .error .outOfBounds

-- The table has no counts beyond length 15, so that 17 rounds are never used up.
def decode (huff : Huff) : Decoder Nat := do
  let index ← decodeLoop huff 17 1 0 0
  symbolAt huff index

def writeByte (byte : UInt8) : Decoder Unit :=
  modify fun st => { st with output := st.output++[byte] }

def HuffRing.push (ring : HuffRing) (byte : UInt8) : HuffRing where
  pointer := (ring.pointer+1) &&& 0x7FFF
  data := ring.data.set ring.pointer byte ring.pointer_lt
  pointer_lt := Nat.lt_succ_of_le Nat.and_le_right

def emit (byte : UInt8) : Decoder Unit := do
  modify fun st => { st with data := st.data.push byte }
  writeByte byte

/-- The index that `peek` looks at, computed with 64 bits. -/
def peekIndex (pointer offset : Nat) : Nat :=
  (pointer+0x8000+2^64-offset) % 2 ^ 64 &&& 0x7FFF

def peek (offset : Nat) : Decoder Unit := do
  let st ← get
  let byte ← fetch st.data.data (peekIndex st.data.pointer offset)
  emit byte

def peekLoop (offset : Nat) : Nat → Decoder Unit
  | 0 => pure ()
  | length+1 => do
    peek offset
    peekLoop offset length

def lens : List Nat :=
  [3, 4, 5, 6, 7, 8, 9, 10, 11, 13, 15, 17, 19, 23, 27, 31, 35, 43, 51,
    59, 67, 83, 99, 115, 131, 163, 195, 227, 258]

def lext : List Nat :=
  [0, 0, 0, 0, 0, 0, 0, 0, 1, 1, 1, 1, 2, 2, 2, 2, 3, 3, 3, 3, 4, 4, 4, 4, 5, 5, 5, 5, 0]

def dists : List Nat :=
  [1, 2, 3, 4, 5, 7, 9, 13, 17, 25, 33, 49, 65, 97, 129, 193, 257, 385,
    513, 769, 1025, 1537, 2049, 3073, 4097, 6145, 8193, 12289, 16385, 24577]

def dext : List Nat :=
  [0, 0, 0, 0, 1, 1, 2, 2, 3, 3, 4, 4, 5, 5, 6, 6, 7, 7, 8, 8, 9, 9, 10, 10, 11, 11, 12, 12, 13, 13]

/-- The copy of a length symbol, which has been reduced by 257. -/
def copyMatch (huffDist : Huff) (symbol : Nat) : Decoder Unit := do
  let lengthBits ← lookup lext symbol
  let lengthExtra ← readBits lengthBits
  let length ← lookup lens symbol
  let distance ← decode huffDist
  let offsetBits ← lookup dext distance
  let offsetExtra ← readBits offsetBits
  let offset ← lookup dists distance
  peekLoop (offsetExtra+offset) (lengthExtra+length)

def inflateLoop (huffLen huffDist : Huff) : Nat → Decoder Unit
  | 0 => throw .rounds
  | rounds+1 => do
    let symbol ← decode huffLen
    if symbol<256 then
      emit (UInt8.ofNat symbol)
      inflateLoop huffLen huffDist rounds
    else if symbol=256 then pure ()
    else
      copyMatch huffDist (symbol-257)
      inflateLoop huffLen huffDist rounds

def inflate (huffLen huffDist : Huff) : Decoder Nat := do
  let st ← get
  inflateLoop huffLen huffDist (st.unread+1)
  pure 0

def clens : List Nat := [16, 17, 18, 0, 8, 7, 9, 6, 10, 5, 11, 4, 12, 3, 13, 2, 14, 1, 15]

def readCodeLengths : Nat → Nat → Vector Nat 320 → Decoder (Vector Nat 320)
  | 0, _, lengths => pure lengths
  | left+1, i, lengths => do
    let value ← readBits 3
    let symbol ← lookup clens i
    let lengths ← store lengths symbol value
    readCodeLengths left (i+1) lengths

/-- `lengths[count++] = rep`, `length` times. -/
def storeRun (rep : Nat) : Nat → Nat → Vector Nat 320 → Except Fault (Vector Nat 320 × Nat)
  | 0, count, lengths => .ok (lengths, count)
  | length+1, count, lengths => do
    let lengths ← store lengths count rep
    storeRun rep length (count+1) lengths

/-- The code length that a symbol stands for and how often it is repeated. -/
def runOf (lengths : Vector Nat 320) (count : Nat) (symbol : Nat) : Decoder (Nat × Nat) :=
  match symbol with
  | 16 => do
    -- `count - 1` wraps around at the first length.
    let rep ← fetch lengths ((count+2^32-1)%2 ^ 32)
    let extra ← readBits 2
    pure (rep, extra+3)
  | 17 => do
    let extra ← readBits 3
    pure (0, extra+3)
  | 18 => do
    let extra ← readBits 7
    pure (0, extra+11)
  | symbol => pure (symbol, 1)

def readLengths (codes : Huff) (total : Nat) : Nat → Nat → Vector Nat 320 → Decoder (Vector Nat 320)
  | 0, _, _ => throw .rounds
  | rounds+1, count, lengths =>
    if count<total then do
      let symbol ← decode codes
      let run ← runOf lengths count symbol
      let stored ← storeRun run.1 run.2 count lengths
      readLengths codes total rounds stored.2 stored.1
    else pure lengths

def decodeHuffman : Decoder Unit := do
  let hlit ← readBits 5
  let hdist ← readBits 5
  let hclen ← readBits 4
  let literals := 257+hlit
  let distances := 1+hdist
  let clengths := 4+hclen
  let lengths ← readCodeLengths clengths 0 (replicate 320 0)
  let codes ← buildHuffman (lengths.toList.take 19) Huff.uninit
  let lengths ← readLengths codes (literals+distances) (literals+distances+1) 0 lengths
  let huffLen ← buildHuffman (lengths.toList.take literals) Huff.uninit
  let huffDist ← buildHuffman ((lengths.toList.drop literals).take distances) Huff.uninit
  let _ ← inflate huffLen huffDist
  pure ()

def emitBytes : Nat → Decoder Unit
  | 0 => pure ()
  | len+1 => do
    let byte ← readByte
    emit byte
    emitBytes len

def resetBits : Decoder Unit := modify fun st => { st with bitBuffer := 0, bufferSize := 0 }

def uncompressed : Decoder Nat := do
  resetBits
  let len ← read16le
  let nlen ← read16le
  if nlen ≠ ~~~len then pure 1
  else
    emitBytes len.toNat
    pure 0

/-- The rest of a block by its type; `false` for the reserved type. -/
def decodeType : Nat → Decoder Bool
  | 0 => do
    let _ ← uncompressed
    pure true
  | 1 => do
    let st ← get
    let _ ← inflate st.fixedLengths st.fixedDists
    pure true
  | 2 => do
    decodeHuffman
    pure true
  | _ => pure false

def decodeBlock : Decoder Bool := do
  let type ← readBits 2
  decodeType type

def blockLoop : Nat → Decoder Nat
  | 0 => throw .rounds
  | rounds+1 => do
    let isFinal ← readBit
    let known ← decodeBlock
    if known then
      if isFinal then pure 0 else blockLoop rounds
    else pure 1

def deflateDecompress : Decoder Nat := do
  resetBits
  buildFixed
  let st ← get
  blockLoop (st.unread+1)
end RazionOS.Kernel.Gzip
