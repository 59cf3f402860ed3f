import RazionOS.Framework.Loop
import Mathlib.Data.Nat.Size
import Mathlib.Algebra.Order.Ring.Int

/-!
# The kernel's allocator

Small blocks are cells of a page with a header; big blocks are runs of pages with a header. The
headers, the links between free cells and the links of the skip list of free runs are words of
the memory that is handed out.
-/

namespace RazionOS.Kernel.Malloc
open Framework

def numBins : Nat := 10
def bigBin : Nat := 9
def smallestBinLog : Nat := 3
def pageSize : Nat := 0x1000
def skipMaxLevel : Nat := 6
def binMagic : Nat := 0xDEFAD00D

def binHeader : Nat := 32
def bigHeader : Nat := 96

section Fields
variable (header : Nat)

def nextAt : Nat := header
def headAt : Nat := header+8
def sizeAt : Nat := header+16
def magicAt : Nat := header+24
def prevAt : Nat := header+32
def forwardAt (i : Nat) : Nat := header+40+8*i
end Fields

inductive Fault where
  | assertion
  | nullPointer
  | neverReturns
deriving DecidableEq, Repr

def assert (condition : Prop) [Decidable condition] : Except Fault Unit :=
  if condition then .ok () else .error .assertion

/-- Memory by the addresses of its words, the static variables, and the regions that `sbrk` has
returned. -/
structure Heap where
  mem : Nat → Nat
  binHead : Nat → Nat
  bigForward : Nat → Nat
  level : Nat
  newestBig : Nat
  regions : List (Nat × Nat)

def Heap.write (st : Heap) (address value : Nat) : Heap :=
  { st with mem := Function.update st.mem address value }

def toPtr (address : Nat) : Option Nat := if address=0 then none else some address

/-- The address that `sbrk` returns, and which of the random numbers are below `SKIP_P`. -/
structure Chance where
  base : Nat
  coins : Nat → Bool

def klmallocAdjustBin (bin : Nat) : Nat :=
  if bin ≤ smallestBinLog then 0
  else
    let bin := bin-(smallestBinLog+1)
    if bin > bigBin then bigBin else bin

/-- `Nat.size` is the number of bits from the highest one that is set. -/
def klmallocBinSize (size : Nat) : Nat :=
  let bin := Nat.size size
  klmallocAdjustBin (bin + if size &&& (size-1)≠0 then 1 else 0)

def klmallocListDecouple (bin node : Nat) (st : Heap) : Heap :=
  let st := { st with binHead := Function.update st.binHead bin (st.mem (nextAt node)) }
  st.write (nextAt node) 0

def klmallocListInsert (bin node : Nat) (st : Heap) : Heap :=
  let st := st.write (nextAt node) (st.binHead bin)
  { st with binHead := Function.update st.binHead bin node }

/-! ## The skip list

The node `none` is the head of the list, `klmalloc_big_bins.head`. -/

def Heap.forward (st : Heap) (i : Nat) : Option Nat → Option Nat
  | none => toPtr (st.bigForward i)
  | some node => toPtr (st.mem (forwardAt node i))

def Heap.setForward (st : Heap) (i : Nat) (node value : Option Nat) : Heap :=
  match node with
  | none => { st with bigForward := Function.update st.bigForward i (value.getD 0) }
  | some node => st.write (forwardAt node i) (value.getD 0)

/-- The bound on the rounds of a walk through a list: no list has more nodes than there are
regions. -/
def Heap.fuel (st : Heap) : Nat := st.regions.length+1

def Heap.bigSizeOk (st : Heap) (node : Nat) : Prop :=
  (st.mem (sizeAt node) + bigHeader) % pageSize=0

instance (st : Heap) (node : Nat) : Decidable (st.bigSizeOk node) :=
  inferInstanceAs (Decidable (_=_))

def raiseLevel (coins : Nat → Bool) : Nat → Nat → Nat
  | 0, level => level
  | n+1, level => if coins level then raiseLevel coins n (level+1) else level

def klmallocRandomLevel (coins : Nat → Bool) : Nat := raiseLevel coins skipMaxLevel 0

def skipAdvance (size i : Nat) (st : Heap) : Nat → Option Nat → Except Fault (Option Nat)
  | 0, _ => .error .neverReturns
  | fuel+1, node =>
    match st.forward i node with
    | none => .ok node
    | some next =>
      if st.mem (sizeAt next) < size then do
        assert (st.bigSizeOk next)
        skipAdvance size i st fuel (some next)
      else .ok node

/-- The outer loop of the searches: the last node, and the last one of each level. -/
def skipSearch (size : Nat) (st : Heap) :
    Nat → Option Nat → (Nat → Option Nat) → Except Fault (Option Nat × (Nat → Option Nat))
  | 0, node, update => .ok (node, update)
  | i+1, node, update => do
    let node ← skipAdvance size i st st.fuel node
    skipSearch size st i node (Function.update update i node)

def klmallocSkipListFindbest (searchSize : Nat) (st : Heap) : Except Fault (Option Nat) := do
  let (node, _) ← skipSearch searchSize st (st.level+1) none fun _ => none
  match st.forward 0 node with
  | none => return none
  | some node =>
    assert (node%pageSize=0)
    assert (st.bigSizeOk node)
    return some node

def assertHeadInside (header : Nat) (st : Heap) : Except Fault Unit := do
  assert (st.mem (headAt header)≠0)
  assert (st.mem (headAt header) > header)
  if st.mem (sizeAt header) > numBins then
    assert (st.mem (headAt header)<header + st.mem (sizeAt header))
  else assert (st.mem (headAt header)<header+pageSize)

def skipLink (value : Nat) (update : Nat → Option Nat) (i : Nat) (st : Heap) :
    Except Fault Heap := do
  let st := st.setForward i (some value) (st.forward i (update i))
  match st.forward i (some value) with
  | none => pure ()
  | some next => assert (st.bigSizeOk next)
  return st.setForward i (update i) (some value)

def klmallocSkipListInsert (level value : Nat) (st : Heap) : Except Fault Heap := do
  assert (value≠0)
  assertHeadInside value st
  assert (value%pageSize=0)
  assert (st.bigSizeOk value)
  assert (st.mem (sizeAt value)≠0)
  let (node, update) ←
    skipSearch (st.mem (sizeAt value)) st (st.level+1) none fun _ => none
  if st.forward 0 node=some value then return st
  let update := fun i => if st.level < i then none else update i
  let st := { st with level := max st.level level }
  forRange (skipLink value update) (level+1) st

def skipFind (value : Nat) (st : Heap) : Nat → Option Nat → Except Fault Unit
  | 0, _ => .error .neverReturns
  | _, none => .error .nullPointer
  | fuel+1, some node =>
    if node=value then .ok () else skipFind value st fuel (st.forward 0 (some node))

/-- One round of the loop of the deletion; `false` leaves the loop. -/
def skipUnlink (value : Nat) (update : Nat → Option Nat) (i : Nat) (st : Heap) :
    Except Fault (Bool × Heap) :=
  if st.forward i (update i)≠some value then .ok (false, st)
  else do
    let st := st.setForward i (update i) (st.forward i (some value))
    match st.forward i (update i) with
    | none => pure ()
    | some next =>
      assert (next%pageSize=0)
      assert (st.bigSizeOk next)
    return (true, st)

def skipLower (st : Heap) : Nat → Nat
  | 0 => 0
  | i+1 => if st.forward (i+1) none=none then skipLower st i else i+1

/-- After the walk the node is `value`, so that the branch for another node is not taken. -/
def klmallocSkipListDelete (value : Nat) (st : Heap) : Except Fault Heap := do
  assert (value≠0)
  assertHeadInside value st
  let (node, update) ←
    skipSearch (st.mem (sizeAt value)) st (st.level+1) none fun _ => none
  skipFind value st st.fuel (st.forward 0 node)
  let (_, st) ← forRangeWhile (skipUnlink value update) (st.level+1) st
  return { st with level := skipLower st st.level }

def klmallocStackPop (header : Nat) (st : Heap) : Except Fault (Nat × Heap) := do
  assert (header≠0)
  assertHeadInside header st
  if st.mem (sizeAt header)≤numBins then
    assert (st.mem (headAt header) > header+binHeader-1)
  let item := st.mem (headAt header)
  return (item, st.write (headAt header) (st.mem item))

def klmallocStackPush (header ptr : Nat) (st : Heap) : Except Fault Heap := do
  assert (ptr≠0)
  assert (ptr > header)
  if st.mem (sizeAt header) > numBins then assert (ptr<header + st.mem (sizeAt header))
  else
    assert ((ptr-binHeader)%2 ^ (st.mem (sizeAt header) + smallestBinLog)=0)
    assert (ptr<header+pageSize)
  let st := st.write ptr (st.mem (headAt header))
  return st.write (headAt header) ptr

def sbrk (c : Chance) (bytes : Nat) (st : Heap) : Nat × Heap :=
  (c.base, { st with regions := (c.base, bytes)::st.regions })

def linkCells (bin first : Nat) : Nat → Heap → Heap
  | 0, st => st
  | n+1, st =>
    (linkCells bin first n st).write (first+8*(n <<< bin)) (first+8*((n+1) <<< bin))

/-- A page into the list of a bin, with all of its cells free. -/
def fillPage (bin header : Nat) (st : Heap) : Heap :=
  let st := st.write (headAt header) (header+binHeader)
  let st := klmallocListInsert bin header st
  let available := ((pageSize-binHeader) >>> (smallestBinLog+bin))-1
  let first := st.mem (headAt header)
  let st := linkCells bin first available st
  let st := st.write (first+8*(available <<< bin)) 0
  st.write (sizeAt header) bin

def newBinPage (c : Chance) (bin : Nat) (st : Heap) : Except Fault (Nat × Heap) := do
  let (header, st) := sbrk c pageSize st
  let st := st.write (magicAt header) binMagic
  assert (header%pageSize=0)
  return (header, fillPage bin header st)

def bigPages (size : Nat) : Nat := (size+bigHeader)%2 ^ 64/pageSize+1

def linkRun (header : Nat) (st : Heap) : Heap :=
  let st := st.write (prevAt header) st.newestBig
  let st := if st.mem (prevAt header)≠0 then st.write (nextAt (st.mem (prevAt header))) header
    else st
  let st := { st with newestBig := header }
  let st := st.write (nextAt header) 0
  st.write (headAt header) 0

def newBigRun (c : Chance) (size : Nat) (st : Heap) : Except Fault (Nat × Heap) := do
  let (header, st) := sbrk c (pageSize * bigPages size%2 ^ 64) st
  let st := st.write (magicAt header) binMagic
  assert (header%pageSize=0)
  let st := st.write (sizeAt header) (bigPages size * pageSize-bigHeader)
  assert (st.bigSizeOk header)
  return (header+bigHeader, linkRun header st)

/-- A cell of a page that has one; a page without cells goes out of the list. -/
def takeCell (bucket header : Nat) (st : Heap) : Except Fault (Nat × Heap) := do
  let (item, st) ← klmallocStackPop header st
  if st.mem (headAt header)=0 then return (item, klmallocListDecouple bucket header st)
  else return (item, st)

/-- A cell back onto the stack of its page; a page that had none goes into the list. -/
def giveCell (bucket header ptr : Nat) (st : Heap) : Except Fault Heap :=
  if st.mem (headAt header)=0 then
    klmallocStackPush header ptr (klmallocListInsert bucket header st)
  else klmallocStackPush header ptr st

def klmalloc (c : Chance) (size : Nat) (st : Heap) : Except Fault (Nat × Heap) :=
  if size=0 then .ok (0, st)
  else
    let bucket := klmallocBinSize size
    if bucket<bigBin then do
      let (header, st) ←
        if st.binHead bucket=0 then newBinPage c bucket st
        else do
          assert (st.mem (magicAt (st.binHead bucket))=binMagic)
          pure (st.binHead bucket, st)
      takeCell bucket header st
    else do
      match ← klmallocSkipListFindbest size st with
      | some header =>
        assert (st.mem (sizeAt header) ≥ size)
        let st ← klmallocSkipListDelete header st
        klmallocStackPop header st
      | none => newBigRun c size st

def klfree (c : Chance) (ptr : Nat) (st : Heap) : Except Fault Heap :=
  if ptr=0 then .ok st
  else do
    let ptr := if ptr%pageSize=0 then ptr-1 else ptr
    let header := ptr/pageSize*pageSize
    assert (header%pageSize=0)
    if st.mem (magicAt header)≠binMagic then return st
    if st.mem (sizeAt header) > numBins then
      assert (st.mem (headAt header)=0)
      assert (st.bigSizeOk header)
      let st ← klmallocStackPush header (header+bigHeader) st
      assert (st.mem (headAt header)≠0)
      klmallocSkipListInsert (klmallocRandomLevel c.coins) header st
    else giveCell (st.mem (sizeAt header)) header ptr st

def kernelHeapStart : Nat := 0xffffff0000000000

/-- A pointer below the heap is reported, forever. -/
def free (c : Chance) (ptr : Nat) (st : Heap) : Except Fault Heap :=
  if ptr<kernelHeapStart then .error .neverReturns else klfree c ptr st

def klvalloc (c : Chance) (size : Nat) (st : Heap) : Except Fault (Nat × Heap) := do
  let trueSize := (size+pageSize-bigHeader)%2 ^ 64
  let (result, st) ← klmalloc c trueSize st
  let out := result+(pageSize-bigHeader)
  assert (out%pageSize=0)
  return (out, st)

/-- The low bytes of a word from one value, the others from another. -/
def mergeLow (bytes old new : Nat) : Nat :=
  old / 2^(8*bytes) * 2^(8*bytes) + new%2^(8*bytes)

def Heap.setBytes (st : Heap) (ptr bytes : Nat) (words : Nat → Nat) : Heap :=
  let mem := fun a =>
    if ptr≤a ∧ a<ptr+bytes then
      if 8≤ptr+bytes-a then words a else mergeLow (ptr+bytes-a) (st.mem a) (words a)
    else st.mem a
  { st with mem }

def memcpy (dest src bytes : Nat) (st : Heap) : Heap :=
  st.setBytes dest bytes fun a => st.mem (src+(a-dest))

def memset (dest bytes : Nat) (st : Heap) : Heap := st.setBytes dest bytes fun _ => 0

/-- The bytes that `klrealloc` takes a block to have, by the header of its page. -/
def oldSize (ptr : Nat) (st : Heap) : Nat :=
  let header := ptr/pageSize*pageSize
  if st.mem (sizeAt header)<bigBin then 2^(smallestBinLog + st.mem (sizeAt header))
  else st.mem (sizeAt header)

/-- Size zero calls `free` with the lock taken. -/
def klrealloc (c : Chance) (ptr size : Nat) (st : Heap) : Except Fault (Nat × Heap) :=
  if ptr=0 then klmalloc c size st
  else if size=0 then .error .neverReturns
  else do
    assert (st.mem (magicAt (ptr/pageSize*pageSize))=binMagic)
    let bytes := oldSize ptr st
    if bytes ≥ size then return (ptr, st)
    let (newptr, st) ← klmalloc c size st
    if newptr≠0 then
      let st := memcpy newptr ptr bytes st
      let st ← klfree c ptr st
      return (newptr, st)
    return (0, st)

def klcalloc (c : Chance) (nmemb size : Nat) (st : Heap) : Except Fault (Nat × Heap) := do
  let (ptr, st) ← klmalloc c (nmemb*size%2^64) st
  if ptr≠0 then return (ptr, memset ptr (nmemb*size%2^64) st)
  return (ptr, st)

structure Block where
  ptr : Nat
  size : Nat
deriving DecidableEq

structure State where
  heap : Heap
  live : List Block

inductive Call where
  | malloc (size : Nat)
  | calloc (nmemb size : Nat)
  | valloc (size : Nat)
  | realloc (ptr size : Nat)
  | free (ptr : Nat)
  | store (address word : Nat)

def step (c : Chance) (call : Call) (st : State) : Except Fault (Nat × State) :=
  match call with
  | .malloc size => do
    let (ptr, heap) ← klmalloc c size st.heap
    return (ptr, ⟨heap,⟨ptr,size⟩::st.live⟩)
  | .calloc nmemb size => do
    let (ptr, heap) ← klcalloc c nmemb size st.heap
    return (ptr, ⟨heap,⟨ptr,nmemb*size⟩::st.live⟩)
  | .valloc size => do
    let (ptr, heap) ← klvalloc c size st.heap
    return (ptr, ⟨heap,⟨ptr,size⟩::st.live⟩)
  | .realloc ptr size => do
    let (newptr, heap) ← klrealloc c ptr size st.heap
    return (newptr, ⟨heap,⟨newptr,size⟩::st.live.filter (·.ptr≠ptr)⟩)
  | .free ptr => do
    let heap ← free c ptr st.heap
    return (0, ⟨heap,st.live.filter (·.ptr≠ptr)⟩)
  | .store address word => .ok (0, { st with heap := st.heap.write address word })
end RazionOS.Kernel.Malloc
