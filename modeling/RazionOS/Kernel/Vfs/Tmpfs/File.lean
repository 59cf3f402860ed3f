import Mathlib.Algebra.Order.Ring.Int
import RazionOS.Framework.Blocks

/-!
# tmpfs files

A file is a list of frames, each with the bytes left in it by its last owner when it is
allocated. A call ends in `none` where the source would use a block pointer that is NULL or copy
across the end of a block. Allocation of a frame always succeeds.
-/

namespace RazionOS.Kernel
open Framework

def u64 (x : Int) : Nat := (x%2^64).toNat
def blockSize : Nat := 0x1000
abbrev Block := Nat → UInt8

structure TmpfsFile where
  length : Nat
  blocks : List Block
  allocated : Nat

def tmpfsFileNew : TmpfsFile := { length := 0, blocks := [], allocated := 0 }
def TmpfsFile.byteAt (t : TmpfsFile) (p : Nat) : UInt8 := blockByte blockSize 0 t.blocks p

section File

-- The bytes found in each frame when it is allocated, in the order of allocation.
variable (frame : Nat → Block)

def allocateBlocks (zeroed : Bool) : Nat → TmpfsFile → TmpfsFile
  | 0, t => t
  | n+1, t =>
    allocateBlocks zeroed n
      { t with
        blocks := t.blocks++[if zeroed then fun _ => 0 else frame t.allocated]
        allocated := t.allocated+1 }

/-- The argument `create` of `tmpfs_file_getset_block`. -/
inductive Create where
  | no
  | yes
  | zeroed
  deriving DecidableEq

def getsetBlock (t : TmpfsFile) (blockid : Nat) : Create → Option TmpfsFile
  | .no => if blockid<t.blocks.length then some t else none
  | .yes => some (allocateBlocks frame false (blockid+1-t.blocks.length) t)
  | .zeroed => some (allocateBlocks frame true (blockid+1-t.blocks.length) t)

def TmpfsFile.block (t : TmpfsFile) (blockid : Nat) : Block := t.blocks.getD blockid fun _ => 0

def TmpfsFile.copyIn (t : TmpfsFile) (blockid off n : Nat) (buffer : Int → UInt8) (pos : Int) :
    Option TmpfsFile :=
  if off+n≤blockSize then
    some { t with
      blocks := t.blocks.set blockid (Framework.copyIn (t.block blockid) off n buffer pos) }
  else none

def TmpfsFile.copyOut (t : TmpfsFile) (blockid off n : Nat) (buffer : Int → UInt8) (pos : Int) :
    Option (Int → UInt8) :=
  if off+n≤blockSize then some (Framework.copyOut buffer pos (t.block blockid) off n) else none

/-- The copy of one round: its offset in the block, its size and its position in the buffer. -/
def loopPiece (offset : Int) (blocksRead : Nat) : Nat × Nat × Int :=
  if blocksRead=0 then
    (u64 offset % blockSize, u64 (blockSize - offset.tmod blockSize), 0)
  else (0, blockSize, blockSize*blocksRead - offset.tmod blockSize)

def readLoop (t : TmpfsFile) (offset : Int) (startBlock : Nat) :
    Nat → Nat → (Int → UInt8) → Option (Int → UInt8)
  | 0, _, buffer => some buffer
  | n+1, blocksRead, buffer => do
    let t ← getsetBlock frame t (startBlock+blocksRead) .no
    let (off, size, pos) := loopPiece offset blocksRead
    let buffer ← t.copyOut (startBlock+blocksRead) off size buffer pos
    readLoop t offset startBlock n (blocksRead+1) buffer

def readTmpfs (t : TmpfsFile) (offset : Int) (size : Nat) (buffer : Int → UInt8) :
    Option (Nat × (Int → UInt8)) :=
  if t.length≤u64 offset then some (0, buffer)
  else
    let stop := if t.length<u64 (offset+size) then t.length else u64 (offset+size)
    let startBlock := u64 (offset.tdiv blockSize)
    let endBlock := stop/blockSize
    let endSize := stop-endBlock*blockSize
    let sizeToRead := u64 (stop-offset)
    if startBlock=endBlock ∧ u64 offset=stop then some (0, buffer)
    else if startBlock=endBlock then do
      let t ← getsetBlock frame t startBlock .no
      let buffer ← t.copyOut startBlock (u64 offset % blockSize) sizeToRead buffer 0
      some (sizeToRead, buffer)
    else do
      let blocksRead := endBlock-startBlock
      let buffer ← readLoop frame t offset startBlock blocksRead 0 buffer
      if endSize=0 then some (sizeToRead, buffer)
      else do
        let t ← getsetBlock frame t endBlock .no
        let buffer ← t.copyOut endBlock 0 endSize buffer
          (blockSize*blocksRead - offset.tmod blockSize)
        some (sizeToRead, buffer)

def writeLoop (buffer : Int → UInt8) (offset : Int) (startBlock : Nat) :
    Nat → Nat → TmpfsFile → Option TmpfsFile
  | 0, _, t => some t
  | n+1, blocksRead, t => do
    let t ← getsetBlock frame t (startBlock+blocksRead) .yes
    let (off, size, pos) := loopPiece offset blocksRead
    let t ← t.copyIn (startBlock+blocksRead) off size buffer pos
    writeLoop buffer offset startBlock n (blocksRead+1) t

def writeTmpfs (t : TmpfsFile) (offset : Int) (size : Nat) (buffer : Int → UInt8) :
    Option (Nat × TmpfsFile) :=
  let stop := u64 (offset+size)
  let t := { t with length := if t.length < stop then stop else t.length }
  let startBlock := u64 (offset.tdiv blockSize)
  let endBlock := stop/blockSize
  let endSize := stop-endBlock*blockSize
  let sizeToRead := u64 (stop-offset)
  if startBlock=endBlock then do
    let t ← getsetBlock frame t startBlock .yes
    let t ← t.copyIn startBlock (u64 offset % blockSize) sizeToRead buffer 0
    some (sizeToRead, t)
  else do
    let blocksRead := endBlock-startBlock
    let t ← writeLoop frame buffer offset startBlock blocksRead 0 t
    if endSize=0 then some (sizeToRead, t)
    else do
      let t ← getsetBlock frame t endBlock .yes
      let t ← t.copyIn endBlock 0 endSize buffer (blockSize*blocksRead - offset.tmod blockSize)
      some (sizeToRead, t)

def blocksFor (size : Nat) : Nat :=
  size / blockSize + if size-size/blockSize*blockSize=0 then 0 else 1

def truncateTmpfs (t : TmpfsFile) (size : Nat) : Option TmpfsFile :=
  if size=t.length then some t
  else
    let oldEndBlock := t.length/blockSize
    let oldEndSize := t.length-oldEndBlock*blockSize
    let newEndBlock := size/blockSize
    let newEndSize := size-newEndBlock*blockSize
    if t.length < size then do
      if oldEndBlock=newEndBlock then
        let t ← getsetBlock frame t oldEndBlock (if oldEndSize=0 then .zeroed else .no)
        let t ← t.copyIn oldEndBlock oldEndSize (newEndSize-oldEndSize) (fun _ => 0) 0
        some { t with length := size }
      else
        let t ← getsetBlock frame t newEndBlock .zeroed
        let t ← getsetBlock frame t oldEndBlock .no
        let t ← t.copyIn oldEndBlock oldEndSize (blockSize-oldEndSize) (fun _ => 0) 0
        some { t with length := size }
    else if size=0 then some { t with blocks := [], length := 0 }
    else if blocksFor size<blocksFor t.length then
      some { t with blocks := t.blocks.take (blocksFor size), length := size }
    else some { t with length := size }
end File
end RazionOS.Kernel
