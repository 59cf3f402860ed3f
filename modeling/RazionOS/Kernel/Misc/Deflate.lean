import RazionOS.Framework.Huffman
import Mathlib.Data.UInt

/-!
# The DEFLATE format

What the bits of a compressed stream mean, stated as a grammar: a stream is a sequence of blocks,
and a block extends the bytes produced so far. Nothing here says how a stream is decoded.
-/

namespace RazionOS.Kernel.Deflate
open RazionOS.Framework Huffman

/-- Bytes are packed from their least significant bit on. -/
def byteBits (byte : UInt8) : List Bool := toBits 8 byte.toNat
def lengthExtra (s : Nat) : Nat := if s<8 ∨ s=28 then 0 else (s-4)/4

/-- The least length of symbol `257 + s`. The last symbol stands for 258 alone. -/
def lengthBase (s : Nat) : Nat :=
  if s=28 then 258 else 3 + ∑ j∈Finset.range s, 2 ^ lengthExtra j

def distanceExtra (d : Nat) : Nat := (d-2)/2
def distanceBase (d : Nat) : Nat := 1 + ∑ j∈Finset.range d, 2 ^ distanceExtra j

/-- `length` bytes from `distance` bytes back, byte by byte, so that a copy may overlap itself. -/
def copy (distance : Nat) : Nat → List UInt8 → List UInt8
  | 0, out => out
  | length+1, out => copy distance length (out++[out.getD (out.length-distance) 0])

/-- The compressed data of a block, from the bytes produced before it to those produced after it. -/
inductive Body (lit dist : List Nat) : List UInt8 → List Bool → List UInt8 → Prop
  | stop (coded : Huffman.length lit 256≠0) :
    Body lit dist out (codeword lit 256) out
  | literal (coded : Huffman.length lit byte.toNat≠0)
    (tail : Body lit dist (out++[byte]) bits out') :
    Body lit dist out (codeword lit byte.toNat++bits) out'
  | copy (symbol : s<29) (coded : Huffman.length lit (257+s)≠0)
    (lengthBits_length : lengthBits.length=lengthExtra s)
    (distance : d<30) (distCoded : Huffman.length dist d≠0)
    (distanceBits_length : distanceBits.length=distanceExtra d)
    (within : distanceBase d + ofBits distanceBits≤out.length)
    (tail : Body lit dist (Deflate.copy (distanceBase d + ofBits distanceBits)
      (lengthBase s + ofBits lengthBits) out) bits out') :
    Body lit dist out (codeword lit (257+s)++lengthBits ++ codeword dist d++distanceBits++bits) out'

def fixedLit (s : Nat) : Nat :=
  if s<144 then 8 else if s<256 then 9 else if s<280 then 7 else 8

/-- All 288 symbols have codewords; the last two do not occur. -/
def fixedLitCode : List Nat := (List.range 288).map fixedLit

/-- All 32 distance symbols have codewords of 5 bits; the last two do not occur. -/
def fixedDistCode : List Nat := List.replicate 32 5

def codeLengthOrder : List Nat :=
  [16, 17, 18, 0, 8, 7, 9, 6, 10, 5, 11, 4, 12, 3, 13, 2, 14, 1, 15]

/-- The code length code from the lengths sent, of which the last ones may be missing. -/
def codeLengthCode (sent : List Nat) : List Nat :=
  (List.range 19).map fun s => sent.getD (codeLengthOrder.idxOf s) 0

/-- Code lengths compressed with the code `code`, after the lengths `done`. -/
inductive Lengths (code : List Nat) : List Nat → List Bool → List Nat → Prop
  | stop : Lengths code done [] done
  | length (symbol : s<16)
    (coded : Huffman.length code s≠0) (tail : Lengths code (done++[s]) bits lengths) :
    Lengths code done (codeword code s++bits) lengths
  | previous (coded : Huffman.length code 16≠0) (last : done.getLast? = some l)
    (extra_length : extra.length=2)
    (tail : Lengths code (done++List.replicate (3 + ofBits extra) l) bits lengths) :
    Lengths code done (codeword code 16++extra++bits) lengths
  | zeros (coded : Huffman.length code 17≠0) (extra_length : extra.length=3)
    (tail : Lengths code (done++List.replicate (3 + ofBits extra) 0) bits lengths) :
    Lengths code done (codeword code 17++extra++bits) lengths
  | manyZeros (coded : Huffman.length code 18≠0) (extra_length : extra.length=7)
    (tail : Lengths code (done++List.replicate (11 + ofBits extra) 0) bits lengths) :
    Lengths code done (codeword code 18++extra++bits) lengths

/-- The header of a dynamic block and the two codes it defines. -/
inductive Header : List Bool → List Nat → List Nat → Prop
  | intro (hlit_lt : hlit<2^5) (hdist_lt : hdist<2^5) (hclen_lt : hclen<2^4)
    (sent_length : sent.length=4+hclen) (sent_lt : ∀ l∈sent, l<2^3)
    (sent_fits : Fits (codeLengthCode sent) 7)
    (read : Lengths (codeLengthCode sent) [] bits lengths)
    (lengths_length : lengths.length=(257+hlit)+(1+hdist))
    (lit_fits : Fits (lengths.take (257+hlit)) 15)
    (dist_fits : Fits (lengths.drop (257+hlit)) 15) :
    Header (toBits 5 hlit++toBits 5 hdist++toBits 4 hclen++sent.flatMap (toBits 3)++bits)
      (lengths.take (257+hlit)) (lengths.drop (257+hlit))

/-- A block that starts at bit `pos` of the stream, from its type on. -/
inductive Block (pos : Nat) : List UInt8 → List Bool → List UInt8 → Prop
  | stored (padding_lt : padding.length<8)
    (aligned : (pos+2+padding.length)%8=0) (data_lt : data.length<2^16) :
    Block pos out ([false, false]++padding++toBits 16 data.length ++
      toBits 16 (2^16-1-data.length)++data.flatMap byteBits) (out++data)
  | fixed (body : Body fixedLitCode fixedDistCode out bits out') :
    Block pos out ([true, false]++bits) out'
  | dynamic (head : Header header ls ds) (body : Body ls ds out bits out') :
    Block pos out ([false, true]++header++bits) out'

/-- Blocks from bit `pos` on, each with a bit in front that is set for the last one. -/
inductive Blocks : Nat → List UInt8 → List Bool → List UInt8 → Prop
  | last (block : Block (pos+1) out bits out') : Blocks pos out (true::bits) out'
  | more (block : Block (pos+1) out bits out1)
    (tail : Blocks (pos+1+bits.length) out1 bits' out') :
    Blocks pos out (false::(bits++bits')) out'

def Stream (bits : List Bool) (out : List UInt8) : Prop := Blocks 0 [] bits out

/-- The next bits are no codeword, however many of them are read. -/
def NoCodeword (code : List Nat) (bits : List Bool) : Prop :=
  15≤bits.length ∧ ∀ s, Huffman.length code s≠0 → ¬ codeword code s <+: bits

/-- A copy that goes wrong from its distance on. -/
inductive BadDistance (dist : List Nat) (out : List UInt8) : List Bool → Prop
  | codeword {bits} (none : NoCodeword dist bits) : BadDistance dist out bits
  | symbol {d} (symbol : d=30 ∨ d=31) (coded : Huffman.length dist d≠0) :
    BadDistance dist out (codeword dist d)
  | distance {d extra} (symbol : d<30) (coded : Huffman.length dist d≠0)
    (extra_length : extra.length=distanceExtra d)
    (beyond : out.length<distanceBase d + ofBits extra) :
    BadDistance dist out (codeword dist d++extra)

/-- Compressed data that goes wrong after some symbols. -/
inductive BadBody (lit dist : List Nat) : List UInt8 → List Bool → Prop
  | codeword {out bits} (none : NoCodeword lit bits) : BadBody lit dist out bits
  | symbol {out s} (symbol : s=286 ∨ s=287) (coded : Huffman.length lit s≠0) :
    BadBody lit dist out (codeword lit s)
  | distance {out s extra bits} (symbol : s<29) (coded : Huffman.length lit (257+s)≠0)
    (extra_length : extra.length=lengthExtra s) (bad : BadDistance dist out bits) :
    BadBody lit dist out (codeword lit (257+s)++extra++bits)
  | afterLiteral {out} {bits} (coded : Huffman.length lit byte.toNat≠0)
    (tail : BadBody lit dist (out++[byte]) bits) :
    BadBody lit dist out (codeword lit byte.toNat++bits)
  | afterCopy {out s d lengthBits distanceBits bits} (symbol : s<29)
    (coded : Huffman.length lit (257+s)≠0)
    (lengthBits_length : lengthBits.length=lengthExtra s)
    (distance : d<30) (distCoded : Huffman.length dist d≠0)
    (distanceBits_length : distanceBits.length=distanceExtra d)
    (within : distanceBase d + ofBits distanceBits≤out.length)
    (tail : BadBody lit dist (Deflate.copy (distanceBase d + ofBits distanceBits)
      (lengthBase s + ofBits lengthBits) out) bits) :
    BadBody lit dist out (codeword lit (257+s)++lengthBits ++ codeword dist d++distanceBits++bits)

/-- Code lengths that go wrong before there are `total` of them. -/
inductive BadLengths (code : List Nat) (total : Nat) : List Bool → Prop
  | codeword {done bits bad} (read : Lengths code [] bits done)
    (room : done.length<total) (none : NoCodeword code bad) :
    BadLengths code total (bits++bad)
  | first (coded : Huffman.length code 16≠0) : BadLengths code total (codeword code 16)
  | past {done lengths s bits extra} (read : Lengths code [] bits done) (room : done.length<total)
    (symbol : (s, extra.length)∈[(16, 2), (17, 3), (18, 7)])
    (repeated : Lengths code done (codeword code s++extra) lengths)
    (past : total<lengths.length) :
    BadLengths code total (bits++codeword code s++extra)

/-- What stands in place of a block, up to the bits that break the format. -/
inductive Invalid (pos : Nat) (out : List UInt8) : List Bool → Prop
  | blockType : Invalid pos out [true, true]
  | complement {len nlen padding} (padding_lt : padding.length<8)
    (aligned : (pos+2+padding.length)%8=0) (len_lt : len<2^16)
    (nlen_lt : nlen<2^16) (differs : nlen≠2^16-1-len) :
    Invalid pos out ([false, false]++padding++toBits 16 len++toBits 16 nlen)
  | fixed {bits} (bad : BadBody fixedLitCode fixedDistCode out bits) :
    Invalid pos out ([true, false]++bits)
  | lengths {hlit hdist hclen sent bits} (hlit_lt : hlit<2^5) (hdist_lt : hdist<2^5)
    (hclen_lt : hclen<2^4) (sent_length : sent.length=4+hclen)
    (sent_lt : ∀ l∈sent, l<2^3)
    (bad : BadLengths (codeLengthCode sent) ((257+hlit)+(1+hdist)) bits) :
    Invalid pos out ([false, true]++(toBits 5 hlit++toBits 5 hdist++toBits 4 hclen ++
      sent.flatMap (toBits 3)++bits))
  | dynamic {lit dist header bits} (head : Header header lit dist)
    (bad : BadBody lit dist out bits) :
    Invalid pos out ([false, true]++(header++bits))

inductive Prior : Nat → List UInt8 → List Bool → List UInt8 → Prop
  | none {pos out} : Prior pos out [] out
  | more {pos out out1 out' bits bits'} (block : Block (pos+1) out bits out1)
    (tail : Prior (pos+1+bits.length) out1 bits' out') :
    Prior pos out (false::(bits++bits')) out'
end RazionOS.Kernel.Deflate
