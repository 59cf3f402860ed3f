import RazionOS.Framework.Loop
import RazionOS.Kernel.Arch.Frames

/-! # Address spaces -/

namespace RazionOS.Kernel
open Framework

def userDeviceMap : Nat := 0x400000000000
def userShmHigh : Nat := 0x500000000000

/-- The frame that the kernel reaches through its map of physical memory. -/
def mmuMapFromPhysical (frame : Nat) : Nat := frame%2^27
def PML.frame (e : PML) : Nat := mmuMapFromPhysical e.page.toNat

section Indices
variable (virtAddr : Nat)

def pageAddr : Nat := virtAddr%2^48/pageSize
def pml4Entry : Nat := pageAddr virtAddr / 2^27%512
def pdpEntry : Nat := pageAddr virtAddr / 2^18%512
def pdEntry : Nat := pageAddr virtAddr / 2^9%512
def ptEntry : Nat := pageAddr virtAddr % 512
end Indices

def addressOf (i j k l : Nat) : Nat := i*2^39+j*2^30+k*2^21+l*2^12
def IsShared (address : Nat) : Prop := userDeviceMap≤address ∧ address≤userShmHigh

instance (address : Nat) : Decidable (IsShared address) := inferInstanceAs (Decidable (_ ∧ _))

/-- An entry is given by the frame of its table and its index. -/
def mmuGetPageOther (root virtAddr : Nat) (s : MMU) : Option (Nat × Nat) :=
  if !(s.mem root (pml4Entry virtAddr)).present then none else
  let pdp := (s.mem root (pml4Entry virtAddr)).frame
  if !(s.mem pdp (pdpEntry virtAddr)).present then none else
  if (s.mem pdp (pdpEntry virtAddr)).size then none else
  let pd := (s.mem pdp (pdpEntry virtAddr)).frame
  if !(s.mem pd (pdEntry virtAddr)).present then none else
  if (s.mem pd (pdEntry virtAddr)).size then none else
  some ((s.mem pd (pdEntry virtAddr)).frame, ptEntry virtAddr)

def newDirectory (t i : Nat) (s : MMU) : Except Fatal (Nat × MMU) := do
  let (newPage, s) ← mmuAllocateAFrame s
  let s := s.setFrame (mmuMapFromPhysical newPage) fun _ => .ofRaw 0
  return (mmuMapFromPhysical newPage, s.setEntry t i (.directory newPage))

/-- Whether the entry is there, after it has been made where `make` asks for it. -/
def ensureEntry (make : Bool) (t i : Nat) (s : MMU) : Except Fatal (Bool × MMU) :=
  if !(s.mem t i).present then
    if !make then .ok (false, s)
    else do
      let (_, s) ← newDirectory t i s
      return (true, s)
  else .ok (true, s)

def mmuGetPage (root virtAddr : Nat) (make : Bool) (s : MMU) :
    Except Fatal (Option (Nat × Nat) × MMU) := do
  let (found, s) ← ensureEntry make root (pml4Entry virtAddr) s
  if !found then return (none, s)
  let pdp := (s.mem root (pml4Entry virtAddr)).frame
  let (found, s) ← ensureEntry make pdp (pdpEntry virtAddr) s
  if !found then return (none, s)
  if (s.mem pdp (pdpEntry virtAddr)).size then return (none, s)
  let pd := (s.mem pdp (pdpEntry virtAddr)).frame
  let (found, s) ← ensureEntry make pd (pdEntry virtAddr) s
  if !found then return (none, s)
  if (s.mem pd (pdEntry virtAddr)).size then return (none, s)
  return (some ((s.mem pd (pdEntry virtAddr)).frame, ptEntry virtAddr), s)

/-- The entries of the four levels; large pages are followed as if they were tables. -/
def mmuGetPageDeep (root virtAddr : Nat) (s : MMU) :
    Option ((Nat × Nat) × (Nat × Nat) × (Nat × Nat) × (Nat × Nat)) :=
  if !(s.mem root (pml4Entry virtAddr)).present then none else
  let pdp := (s.mem root (pml4Entry virtAddr)).frame
  if !(s.mem pdp (pdpEntry virtAddr)).present then none else
  let pd := (s.mem pdp (pdpEntry virtAddr)).frame
  if !(s.mem pd (pdEntry virtAddr)).present then none else
  let pt := (s.mem pd (pdEntry virtAddr)).frame
  some ((root, pml4Entry virtAddr), (pdp, pdpEntry virtAddr), (pd, pdEntry virtAddr),
    (pt, ptEntry virtAddr))

/-- The copy of a page with too many references into a page of its own. -/
def copyPage (ptIn ptOut l : Nat) (writable : Bool) (s : MMU) : Except Fatal MMU := do
  let pageIn := (s.mem ptIn l).frame
  let (newPage, s) ← mmuAllocateAFrame s
  let s := s.setFrame (mmuMapFromPhysical newPage) (s.mem pageIn)
  if s.memRefcounts newPage≠0 then .error .assertion
  else
    let entry :=
      { PML.ofRaw 0 with
        present := true
        user := true
        page := BitVec.ofNat 28 newPage
        writable := writable
        cowPending := false
        nx := (s.mem ptIn l).nx }
    return s.setEntry ptOut l entry

def copyPageMaybe (ptIn ptOut l : Nat) (s : MMU) : Except Fatal MMU :=
  let page := (s.mem ptIn l).page.toNat
  if (s.mem ptIn l).writable then
    if s.memRefcounts page≠0 then .error .writableShared
    else
      let s := s.setRefcount page 2
      let s := s.setEntry ptIn l { s.mem ptIn l with writable := false, cowPending := true }
      .ok (s.setEntry ptOut l (s.mem ptIn l))
  else if !(s.mem ptIn l).cowPending then
    if s.memRefcounts page=0 then
      let s := s.setRefcount page 2
      .ok (s.setEntry ptOut l (s.mem ptIn l))
    else do
      let (full, s) ← refcountInc page s
      if full then copyPage ptIn ptOut l false s
      else return s.setEntry ptOut l (s.mem ptIn l)
  else do
    let (full, s) ← refcountInc page s
    if full then copyPage ptIn ptOut l true s
    else return s.setEntry ptOut l (s.mem ptIn l)

def clonePages (i j k ptIn ptOut : Nat) (s : MMU) : Except Fatal MMU :=
  forRange (fun l s =>
    if IsShared (addressOf i j k l) then .ok s
    else if (s.mem ptIn l).present then
      if (s.mem ptIn l).user then copyPageMaybe ptIn ptOut l s
      else .ok (s.setEntry ptOut l (s.mem ptIn l))
    else .ok s) 512 s

/-- The first `n` entries of a table of tables, with `inner` for the tables below. -/
def cloneTables (n : Nat) (inner : Nat → Nat → Nat → MMU → Except Fatal MMU)
    (tableIn tableOut : Nat) (s : MMU) : Except Fatal MMU :=
  forRange (fun i s =>
    if (s.mem tableIn i).present then do
      let below := (s.mem tableIn i).frame
      let (new, s) ← newDirectory tableOut i s
      inner i below new s
    else .ok s) n s

def mmuClone («from» : Nat) (s : MMU) : Except Fatal (Nat × MMU) := do
  let (newPage, s) ← mmuAllocateAFrame s
  let pml4Out := mmuMapFromPhysical newPage
  let s := s.setFrame pml4Out fun i => if i<256 then .ofRaw 0 else s.mem «from» i
  let s ← cloneTables 256
    (fun i => cloneTables 512 fun j => cloneTables 512 fun k => clonePages i j k)
    «from» pml4Out s
  return (pml4Out, s)

def freePageMaybe (pt l : Nat) (s : MMU) : Except Fatal MMU :=
  let page := (s.mem pt l).page.toNat
  if (s.mem pt l).writable then
    if s.memRefcounts page≠0 then .error .assertion
    else .ok (mmuFrameClear (page*pageSize) s)
  else if !(s.mem pt l).cowPending && s.memRefcounts page == 0 then
    .ok (mmuFrameClear (page*pageSize) s)
  else do
    let (refs, s) ← refcountDec page s
    if refs=0 then return mmuFrameClear (page*pageSize) s else return s

def freePages (i j k pt : Nat) (s : MMU) : Except Fatal MMU :=
  forRange (fun l s =>
    if IsShared (addressOf i j k l) then .ok s
    else if (s.mem pt l).present then
      if (s.mem pt l).user then freePageMaybe pt l s else .ok s
    else .ok s) 512 s

def freeTables (n : Nat) (inner : Nat → Nat → MMU → Except Fatal MMU) (table : Nat) (s : MMU) :
    Except Fatal MMU :=
  forRange (fun i s =>
    if (s.mem table i).present then do
      let s ← inner i (s.mem table i).frame s
      return mmuFrameClear ((s.mem table i).page.toNat * pageSize) s
    else .ok s) n s

def mmuFree («from» : Nat) (s : MMU) : Except Fatal MMU := do
  let s ← freeTables 256
    (fun i => freeTables 512 fun j => freeTables 512 fun k => freePages i j k) «from» s
  return mmuFrameClear («from» * pageSize) s

/-- The bit field is an `int` when it is shifted, and a signed one when it becomes an
address. -/
def shiftedAsInt (page : BitVec 28) : Nat :=
  ((page.setWidth 32 <<< 12).signExtend 64).toNat

def maybeReleaseDirectory (parent child : Nat × Nat) (s : MMU) : Bool × MMU :=
  if (List.range 512).any fun i => (s.mem child.1 i).present then (false, s)
  else
    let oldPage := shiftedAsInt (s.mem parent.1 parent.2).page
    (true, mmuFrameClear oldPage (s.setEntry parent.1 parent.2 (.ofRaw 0)))

def releaseDirectories (pml4 pdp pd pt : Nat × Nat) (s : MMU) : MMU :=
  let (released, s) := maybeReleaseDirectory pd pt s
  if released then
    let (released, s) := maybeReleaseDirectory pdp pd s
    if released then (maybeReleaseDirectory pml4 pdp s).2 else s
  else s

def unmapUserPage (root a : Nat) (s : MMU) : Except Fatal MMU :=
  if IsShared a then .ok s
  else match mmuGetPageDeep root a s with
    | none => .ok s
    | some (pml4, pdp, pd, pt) =>
      if (s.mem pt.1 pt.2).present && (s.mem pt.1 pt.2).user then do
        let s ← freePageMaybe pt.1 pt.2 s
        let s := s.setEntry pt.1 pt.2 { s.mem pt.1 pt.2 with present := false, writable := false }
        return releaseDirectories pml4 pdp pd pt s
      else .ok s

def unmapRounds (addr last : Nat) : Nat := (last-addr+(pageSize-1))/pageSize

/-- Where the last round's address wraps around, the loop starts over. -/
def mmuUnmapUser (root addr size : Nat) (s : MMU) : Except Fatal MMU :=
  let last := (addr+size)%2 ^ 64
  let rounds := unmapRounds addr last
  if 0 < rounds ∧ 2^64≤addr+rounds*pageSize then .error .neverReturns
  else forRange (fun i => unmapUserPage root (addr+i*pageSize)) rounds s

def sysMunmap (root addr length : Nat) (s : MMU) : Except Fatal (Bool × MMU) :=
  if addr%pageSize≠0 then .ok (false, s)
  else if length=0 then .ok (false, s)
  else do
    let s ← mmuUnmapUser root addr length s
    return (true, s)

/-- The result is the one of the source: `true` if this was no copy-on-write page. -/
def mmuCopyOnWrite (root address : Nat) (s : MMU) : Except Fatal (Bool × MMU) := do
  let (page, s) ← mmuGetPage root address false s
  match page with
  | none => .error .nullPointer
  | some (t, l) =>
    if !(s.mem t l).cowPending then return (true, s)
    let (refs, s) ← refcountDec (s.mem t l).page.toNat s
    if refs=0 then
      return (false, s.setEntry t l { s.mem t l with writable := true, cowPending := false })
    let faultingFrame := (s.mem t l).page.toNat
    let (freshFrame, s) ← mmuAllocateAFrame s
    let s := s.setFrame (mmuMapFromPhysical freshFrame) (s.mem (mmuMapFromPhysical faultingFrame))
    if s.memRefcounts freshFrame≠0 then .error .assertion
    else
      let entry :=
        { s.mem t l with
          page := BitVec.ofNat 28 freshFrame
          writable := true
          cowPending := false }
      return (false, s.setEntry t l entry)

def mmuPtrNull : Nat := 1
def mmuPtrWrite : Nat := 2

def validateUserPage (root flags page : Nat) (s : MMU) : Except Fatal (Bool × MMU) :=
  if page &&& 0xffff800000000≠0 ∧ page &&& 0xffff800000000≠0xffff800000000 then
    .ok (false, s)
  else match mmuGetPageOther root (page*pageSize) s with
    | none => .ok (false, s)
    | some (t, l) =>
      if !(s.mem t l).present then .ok (false, s)
      else if !(s.mem t l).user then .ok (false, s)
      else if !(s.mem t l).writable && flags &&& mmuPtrWrite != 0 then do
        let (failed, s) ← mmuCopyOnWrite root (page*pageSize) s
        return (!failed, s)
      else .ok (true, s)

def mmuValidateUserPointer (root addr size flags : Nat) (s : MMU) : Except Fatal (Bool × MMU) :=
  if addr=0 then
    if flags &&& mmuPtrNull=0 ∨ size≠0 then .ok (false, s) else .ok (true, s)
  else if size > 0x800000000000 then .ok (false, s)
  else
    let last := if size≠0 then (addr+(size-1))%2 ^ 64 else addr
    let pageBase := addr/pageSize
    let pageEnd := last/pageSize
    forRangeWhile (fun i => validateUserPage root flags (pageBase+i)) (pageEnd+1-pageBase) s
end RazionOS.Kernel
