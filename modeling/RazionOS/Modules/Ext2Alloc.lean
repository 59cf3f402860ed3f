import Mathlib.Data.Nat.Bitwise
import Mathlib.Data.UInt
import Mathlib.Tactic.Ring
import RazionOS.Framework.Loop

/-!
# Block allocation of ext2

Bit `n` of the bitmap of group `g` stands for block `first_data_block + g * blocks_per_group + n`.
The driver takes the first clear bit of the first group that has free blocks.
-/

namespace RazionOS.Modules.Ext2Alloc
open Framework Function List Nat

inductive Fault where
  /-- A descriptor or a byte of the bitmap beyond the end of its buffer. -/
  | outOfBounds
deriving DecidableEq

abbrev Bytes := Nat → UInt8

structure Group where
  blockBitmap : Nat
  freeBlocksCount : UInt16

def Group.take (group : Group) : Group :=
  { group with freeBlocksCount := group.freeBlocksCount-1 }

structure Fs where
  blockSize : Nat
  blockSize_mem : blockSize∈[1024, 2048, 4096]
  blocksCount : Nat
  firstDataBlock : Nat
  blocksPerGroup : Nat
  blockGroupCount : Nat
  descriptor : Group → Bytes
  /-- What `mount_ext2` read behind the descriptors into the buffer for them. -/
  tail : Bytes
  /-- The superblock with its number of free blocks. -/
  superblock : UInt32 → Bytes

/-- The number of blocks of the descriptor buffer, a `uint8_t`. -/
def Fs.bgdBlockSpan (fs : Fs) : Nat := (32*fs.blockGroupCount/fs.blockSize+1)%256
def Fs.bgdOffset (fs : Fs) : Nat := if fs.blockSize > 1024 then 1 else 2

/-- `written` has the offsets of all writes to the device, in order. -/
structure State where
  device : Bytes
  groups : Nat → Group
  freeBlocksCount : UInt32
  written : List Nat

section Driver
variable (fs : Fs)

/-- The product is an `unsigned int`. -/
def offset (blockNo : Nat) : Nat := blockNo*fs.blockSize%2^32

def overlay (start size : Nat) (buf device : Bytes) : Bytes :=
  fun a => if start≤a ∧ a < start+size then buf (a-start) else device a

/-- The buffer stays as it is for block 0. -/
def readBlock (blockNo : Nat) (buf : Bytes) (st : State) : Bytes :=
  if blockNo=0 then buf else fun i => st.device (offset fs blockNo + i)

def writeFs (start size : Nat) (buf : Bytes) (st : State) : State :=
  { st with device := overlay start size buf st.device, written := st.written++[start] }

def writeBlock (blockNo : Nat) (buf : Bytes) (st : State) : State :=
  if blockNo=0 then st else writeFs (offset fs blockNo) fs.blockSize buf st

def rewriteSuperblock (st : State) : State :=
  writeFs 1024 1024 (fs.superblock st.freeBlocksCount) st

def bgd (st : State) : Bytes := fun k =>
  if k<32*fs.blockGroupCount then fs.descriptor (st.groups (k/32)) (k%32) else fs.tail k

/-- The loop over the blocks of the descriptor buffer, for the first `n` of them. -/
def writeDescriptors : Nat → State → State
  | 0, st => st
  | n+1, st =>
    let st := writeDescriptors n st
    writeBlock fs (fs.bgdOffset+n) (fun j => bgd fs st (fs.blockSize*n+j)) st

def blockBit (buf : Bytes) (n : Nat) : Bool := (buf (n >>> 3)).toNat &&& 1 <<< (n%8) != 0

def setBit (buf : Bytes) (n : Nat) : Bytes :=
  update buf (n >>> 3) (UInt8.ofNat ((buf (n >>> 3)).toNat ||| 1 <<< (n%8)))

/-- The loop over the bits of a buffer from bit `n` on, with the bits that are left. -/
def scanBits (buf : Bytes) : Nat → Nat → Except Fault Nat
  | 0, _ => .error .outOfBounds
  | left+1, n => if blockBit buf n then scanBits buf left (n+1) else .ok n

/-- The loop over the groups from group `i` on: the first one with free blocks. -/
def findGroup (st : State) : Nat → Nat → Except Fault (Option Nat)
  | 0, _ => .ok none
  | left+1, i =>
    if fs.blockSize*fs.bgdBlockSpan<32*(i+1) then .error .outOfBounds
    else if 0<(st.groups i).freeBlocksCount then .ok (some i)
    else findGroup st left (i+1)

def takeBlock (group blockOffset blockNo : Nat) (bgBuffer : Bytes) (st : State) : State :=
  let st := writeBlock fs (st.groups group).blockBitmap (setBit bgBuffer blockOffset) st
  let st := { st with groups := update st.groups group (st.groups group).take }
  let st := writeDescriptors fs fs.bgdBlockSpan st
  let st := rewriteSuperblock fs { st with freeBlocksCount := st.freeBlocksCount-1 }
  writeBlock fs blockNo (fun _ => 0) st

/-- `buf` is what the buffer has when it comes from `malloc`. -/
def allocateBlock (buf : Bytes) (st : State) : Except Fault (Nat × State) := do
  match ← findGroup fs st fs.blockGroupCount 0 with
  | none => pure (0, st)
  | some group =>
    let bgBuffer := readBlock fs (st.groups group).blockBitmap buf st
    let blockOffset ← scanBits bgBuffer (8*fs.blockSize) 0
    let blockNo := blockOffset+fs.blocksPerGroup*group%2^32
    if blockNo=0 then pure (0, st)
    else pure (blockNo, takeBlock fs group blockOffset blockNo bgBuffer st)
end Driver

section Layout
variable (fs : Fs)

def blockAt (g n : Nat) : Nat := fs.firstDataBlock+g*fs.blocksPerGroup+n

/-- The last group may be shorter than the others. -/
def groupSize (g : Nat) : Nat :=
  min fs.blocksPerGroup (fs.blocksCount-(fs.firstDataBlock+g*fs.blocksPerGroup))

def bit (st : State) (g n : Nat) : Bool :=
  (st.device ((st.groups g).blockBitmap * fs.blockSize+n/8)).toNat.testBit (n%8)

/-- The block of the superblock and those of the descriptors. -/
def IsMeta (b : Nat) : Prop :=
  b * fs.blockSize≤1024 ∧ 1024<(b+1)*fs.blockSize ∨
    fs.bgdOffset≤b ∧ (b-fs.bgdOffset)*fs.blockSize<32*fs.blockGroupCount

instance (b : Nat) : Decidable (IsMeta fs b) := inferInstanceAs (Decidable (_ ∨ _))

/-- A file system whose free counts match its bitmaps. The bitmap of a group is a block of the
group, behind the superblock and the descriptors, and the device has what the driver read behind
the descriptors. -/
structure WellFormed (st : State) : Prop where
  first : fs.firstDataBlock≤1
  perGroup : 0<fs.blocksPerGroup ∧ fs.blocksPerGroup≤8*fs.blockSize
  blocks : fs.blocksCount<2^32
  group : ∀ g<fs.blockGroupCount, fs.firstDataBlock+g*fs.blocksPerGroup<fs.blocksCount
  counts : ∀ g<fs.blockGroupCount, (st.groups g).freeBlocksCount.toNat =
    (range (groupSize fs g)).countP fun n => !bit fs st g n
  bitmap : ∀ g<fs.blockGroupCount, ∃ n<groupSize fs g,
    (st.groups g).blockBitmap=blockAt fs g n ∧ bit fs st g n=true
  behind : ∀ g<fs.blockGroupCount, 2048≤(st.groups g).blockBitmap * fs.blockSize ∧
    ¬IsMeta fs (st.groups g).blockBitmap
  used : ∀ g<fs.blockGroupCount, ∀ n<groupSize fs g, IsMeta fs (blockAt fs g n) → bit fs st g n=true
  tail : ∀ k, 32*fs.blockGroupCount≤k → k<fs.blockSize*fs.bgdBlockSpan →
    st.device (fs.bgdOffset*fs.blockSize+k)=fs.tail k

/-- Group `g` is the first with free blocks and bit `n` the first clear one of its bitmap. -/
structure FirstFree (st : State) (g n : Nat) : Prop where
  group_lt : g<fs.blockGroupCount
  pos : 0<(st.groups g).freeBlocksCount
  before : ∀ h<g, (st.groups h).freeBlocksCount=0
  bit_lt : n<groupSize fs g
  clear : bit fs st g n=false
  set : ∀ m<n, bit fs st g m=true

/-- What an allocation that returns block `b` has to do. -/
structure Allocated (st : State) (b : Nat) (st' : State) (g n : Nat) : Prop where
  group_lt : g<fs.blockGroupCount
  bit_lt : n<groupSize fs g
  block_eq : b=blockAt fs g n
  clear : bit fs st g n=false
  bits : ∀ h<fs.blockGroupCount, ∀ m<fs.blocksPerGroup,
    bit fs st' h m=(bit fs st h m || decide (h=g ∧ m=n))
  groups : st'.groups=update st.groups g (st.groups g).take
  total : st'.freeBlocksCount=st.freeBlocksCount-1
  zeroed : ∀ j<fs.blockSize, st'.device (b*fs.blockSize+j)=0
  written : st'.written=st.written++[(st.groups g).blockBitmap * fs.blockSize] ++
    (range fs.bgdBlockSpan).map (fun i => (fs.bgdOffset+i)*fs.blockSize) ++
    [1024, b*fs.blockSize]

/-- The contract: a block is allocated, or there is an error, for which nothing changes. -/
def Correct (st : State) : Except Fault (Nat × State) → Prop
  | .ok (0, st') => st' = st
  | .ok (b, st') => ∃ g n, Allocated fs st b st' g n
  | .error _ => False

/-- When the driver keeps to the layout: the descriptors it looks at are in its buffer, and if
there is a free block, either this is block 0, which it takes for none, or blocks are numbered
from 0, the bitmap and the block are in reach of an `unsigned int`, and the bitmap is not written
over as a descriptor block. -/
def Fine (st : State) : Prop :=
  (∀ i<fs.blockGroupCount, (∀ h < i, (st.groups h).freeBlocksCount=0) →
    32 * (i+1)≤fs.blockSize*fs.bgdBlockSpan) ∧
  ∀ g n, FirstFree fs st g n → g=0 ∧ n=0 ∨
    fs.firstDataBlock=0 ∧ (st.groups g).blockBitmap * fs.blockSize<2^32 ∧
    (g*fs.blocksPerGroup+n) * fs.blockSize<2^32 ∧
    ¬(fs.bgdOffset≤(st.groups g).blockBitmap ∧
      (st.groups g).blockBitmap<fs.bgdOffset+fs.bgdBlockSpan)
end Layout

variable {fs : Fs} {st : State}

theorem blockSize_cases (fs : Fs) : fs.blockSize=1024 ∨ fs.blockSize=2048 ∨ fs.blockSize=4096 := by
  simpa using fs.blockSize_mem

private theorem and_shiftLeft_ne_zero : (x &&& 1 <<< k != 0)=x.testBit k := by
  rw [one_shiftLeft,and_two_pow]
  cases x.testBit k with
  | false => simp
  | true => simp

theorem blockBit_eq : blockBit buf n=(buf (n/8)).toNat.testBit (n%8) := by
  rw [blockBit,and_shiftLeft_ne_zero,shiftRight_eq_div_pow]

private theorem setBit_testBit : (setBit buf n (m/8)).toNat.testBit (m%8) =
      ((buf (m/8)).toNat.testBit (m%8) || decide (m=n)) := by
  rw [setBit,shiftRight_eq_div_pow]
  by_cases hby : m/8=n/8
  · rw [hby,update_self]
    have hlt : (buf (n/8)).toNat ||| 1 <<< (n%8)<2^8 := by
      refine or_lt_two_pow (buf (n/8)).toNat_lt ?_
      rw [one_shiftLeft]
      exact Nat.pow_lt_pow_right (by decide) (by omega)
    rw [UInt8.toNat_ofNat',mod_eq_of_lt hlt,testBit_or,one_shiftLeft, testBit_two_pow]
    congr 1
    rw [decide_eq_decide]
    omega
  · rw [update_of_ne hby]
    have hne : m≠n := fun h => hby (h ▸ rfl)
    simp [hne]

private theorem scanBits_first (hn : n ≤ m) (hm : m<n+left) (hc : blockBit buf m=false)
    (hs : ∀ k, n≤k → k < m → blockBit buf k=true) : scanBits buf left n = .ok m := by
  induction left generalizing n with
  | zero => omega
  | succ left ih =>
    rw [scanBits]
    obtain rfl | hlt : n=m ∨ n+1 ≤ m := by omega
    · rw [hc]
      rfl
    · rw [hs n le_rfl hlt]
      exact ih hlt (by omega) fun k hk => hs k (by omega)

/-- The groups before the first one with free blocks are all that the loop looks at. -/
theorem findGroup_cases (i : Nat) (hi : ∀ h < i, (st.groups h).freeBlocksCount=0) :
    ((∃ e, findGroup fs st left i = .error e) ∧ ∃ k < i+left,
      (∀ h<k, (st.groups h).freeBlocksCount=0) ∧ fs.blockSize*fs.bgdBlockSpan<32*(k+1)) ∨
    (∀ k, i≤k → k < i+left → (∀ h<k, (st.groups h).freeBlocksCount=0) →
      32 * (k+1)≤fs.blockSize*fs.bgdBlockSpan) ∧
    (findGroup fs st left i = .ok none ∧ (∀ h < i+left, (st.groups h).freeBlocksCount=0) ∨
      ∃ g < i+left, findGroup fs st left i = .ok (some g) ∧
        0<(st.groups g).freeBlocksCount ∧ ∀ h<g, (st.groups h).freeBlocksCount=0) := by
  induction left generalizing i with
  | zero => exact .inr ⟨fun k hk hk' => by omega,.inl ⟨rfl,hi⟩⟩
  | succ left ih =>
    rw [findGroup]
    by_cases hl : fs.blockSize*fs.bgdBlockSpan<32*(i+1)
    · rw [if_pos hl]
      exact .inl ⟨⟨_,rfl⟩,i,by omega,hi,hl⟩
    rw [if_neg hl]
    by_cases hf : 0<(st.groups i).freeBlocksCount
    · rw [if_pos hf]
      refine .inr ⟨fun k hk hk' hze => ?_,.inr ⟨i,by omega,rfl,hf,hi⟩⟩
      obtain rfl | hlt : i=k ∨ i<k := by omega
      · omega
      · rw [hze i hlt] at hf
        exact absurd hf (by decide)
    rw [if_neg hf]
    have hze : (st.groups i).freeBlocksCount=0 := by
      rw [UInt16.pos_iff_ne_zero,not_not] at hf
      exact hf
    have hi' : ∀ h < i+1, (st.groups h).freeBlocksCount=0 := by
      intro h hh
      obtain rfl | hlt : h=i ∨ h < i := by omega
      · exact hze
      · exact hi h hlt
    have hn := ih (i+1) hi'
    rw [show i+1+left=i+(left+1) by omega] at hn
    obtain he | ⟨hl',hfo⟩ := hn
    · exact .inl he
    refine .inr ⟨fun k hk hk' hz => ?_,hfo⟩
    obtain rfl | hlt : i=k ∨ i+1≤k := by omega
    · omega
    · exact hl' k hlt hk' hz

theorem offset_of_lt (h : b*fs.blockSize<2^32) : offset fs b=b*fs.blockSize := mod_eq_of_lt h

theorem offset_add_le (fs : Fs) (b : Nat) : offset fs b + fs.blockSize≤2^32 := by
  rw [offset]
  rcases blockSize_cases fs with h | h | h <;> rw [h] <;> omega

theorem bgdOffset_pos (fs : Fs) : 0<fs.bgdOffset ∧ fs.bgdOffset≤2 := by
  rw [Fs.bgdOffset]
  split <;> omega

theorem bgdBlockSpan_lt (fs : Fs) : fs.bgdBlockSpan<256 := mod_lt _ (by decide)

theorem bgd_offset (h : n<256) : offset fs (fs.bgdOffset+n)=(fs.bgdOffset+n)*fs.blockSize := by
  have hle := (bgdOffset_pos fs).2
  apply offset_of_lt
  calc (fs.bgdOffset+n) * fs.blockSize≤258*fs.blockSize := Nat.mul_le_mul_right _ (by omega)
    _<2^32 := by rcases blockSize_cases fs with h | h | h <;> rw [h] <;> decide

theorem writeBlock_eq (h : b≠0) :
    writeBlock fs b buf st=writeFs (offset fs b) fs.blockSize buf st := if_neg h

theorem writeDescriptors_fields : (writeDescriptors fs n st).groups=st.groups ∧
    (writeDescriptors fs n st).freeBlocksCount=st.freeBlocksCount := by
  induction n with
  | zero => exact ⟨rfl,rfl⟩
  | succ n ih =>
    have hpos := (bgdOffset_pos fs).1
    rw [writeDescriptors,writeBlock_eq (by omega)]
    exact ih

private theorem writeDescriptors_written (hn : n≤256) : (writeDescriptors fs n st).written =
      st.written++(range n).map fun i => (fs.bgdOffset+i)*fs.blockSize := by
  induction n with
  | zero => simp [writeDescriptors]
  | succ n ih =>
    have hpos := (bgdOffset_pos fs).1
    rw [writeDescriptors,writeBlock_eq (by omega),writeFs]
    rw [ih (by omega),bgd_offset (by omega),range_succ,map_append,append_assoc]
    rfl

private theorem writeDescriptors_device (hn : n≤256) : (writeDescriptors fs n st).device a =
      if fs.bgdOffset*fs.blockSize≤a ∧ a<(fs.bgdOffset+n)*fs.blockSize then
        bgd fs st (a-fs.bgdOffset*fs.blockSize)
      else st.device a := by
  induction n with
  | zero =>
    rw [Nat.add_zero,if_neg (by omega),writeDescriptors]
  | succ n ih =>
    have hpos := (bgdOffset_pos fs).1
    have hg : bgd fs (writeDescriptors fs n st)=bgd fs st := by
      unfold bgd
      rw [writeDescriptors_fields.1]
    have hne : (fs.bgdOffset+(n+1))*fs.blockSize =
        (fs.bgdOffset+n) * fs.blockSize+fs.blockSize := by ring
    have hs : (fs.bgdOffset+n)*fs.blockSize=fs.bgdOffset*fs.blockSize+fs.blockSize*n := by ring
    rw [writeDescriptors,writeBlock_eq (by omega),writeFs]
    simp only [overlay]
    rw [bgd_offset (by omega),hg,ih (by omega)]
    by_cases hl : (fs.bgdOffset+n)*fs.blockSize≤a ∧ a<(fs.bgdOffset+n)*fs.blockSize + fs.blockSize
    · rw [if_pos hl,if_pos (by omega)]
      congr 1
      omega
    · rw [if_neg hl]
      by_cases hbe : fs.bgdOffset*fs.blockSize≤a ∧ a<(fs.bgdOffset+n)*fs.blockSize
      · rw [if_pos hbe,if_pos (by omega)]
      · rw [if_neg hbe,if_neg (by omega)]

section Take
variable (hbitmap : (st.groups group).blockBitmap ≠ 0) (hb : b ≠ 0)
include hbitmap hb

theorem takeBlock_groups : (takeBlock fs group n b buf st).groups =
    update st.groups group (st.groups group).take := by
  rw [takeBlock,writeBlock_eq hbitmap,writeBlock_eq hb]
  exact writeDescriptors_fields.1

private theorem takeBlock_freeBlocksCount :
    (takeBlock fs group n b buf st).freeBlocksCount=st.freeBlocksCount-1 := by
  rw [takeBlock,writeBlock_eq hbitmap,writeBlock_eq hb]
  exact congrArg (· - 1) writeDescriptors_fields.2

theorem takeBlock_written : (takeBlock fs group n b buf st).written =
    st.written++[offset fs (st.groups group).blockBitmap] ++
      (range fs.bgdBlockSpan).map (fun i => (fs.bgdOffset+i)*fs.blockSize) ++
      [1024, offset fs b] := by
  rw [takeBlock,writeBlock_eq hbitmap,writeBlock_eq hb]
  simp only [writeFs,rewriteSuperblock]
  rw [writeDescriptors_written (bgdBlockSpan_lt fs).le]
  simp

theorem takeBlock_device : (takeBlock fs group n b buf st).device a =
    if offset fs b≤a ∧ a<offset fs b + fs.blockSize then 0
    else if 1024≤a ∧ a<2048 then fs.superblock (st.freeBlocksCount-1) (a-1024)
    else if fs.bgdOffset*fs.blockSize≤a ∧ a<(fs.bgdOffset+fs.bgdBlockSpan)*fs.blockSize then
      bgd fs { st with groups := update st.groups group (st.groups group).take }
        (a-fs.bgdOffset*fs.blockSize)
    else if offset fs (st.groups group).blockBitmap≤a ∧
        a<offset fs (st.groups group).blockBitmap + fs.blockSize then
      setBit buf n (a - offset fs (st.groups group).blockBitmap)
    else st.device a := by
  rw [takeBlock,writeBlock_eq hbitmap,writeBlock_eq hb]
  simp only [writeFs,rewriteSuperblock,overlay]
  rw [writeDescriptors_device (bgdBlockSpan_lt fs).le,writeDescriptors_fields.2]
  rfl

theorem takeBlock_blockBitmap (h : Nat) :
    ((takeBlock fs group n b buf st).groups h).blockBitmap=(st.groups h).blockBitmap := by
  rw [takeBlock_groups hbitmap hb,update_apply]
  split
  · next heq =>
    rw [heq]
    rfl
  · rfl
end Take

namespace WellFormed

variable (hwf : WellFormed fs st)
include hwf

theorem blockAt_inj (hn : n<groupSize fs g) (hm : m<groupSize fs h)
    (heq : blockAt fs g n=blockAt fs h m) : g=h ∧ n=m := by
  have hn' := hn.trans_le (Nat.min_le_left _ _)
  have hm' := hm.trans_le (Nat.min_le_left _ _)
  have hs : n+fs.blocksPerGroup*g=m+fs.blocksPerGroup*h := by
    rw [blockAt,blockAt] at heq
    rw [Nat.mul_comm,Nat.mul_comm _ h]
    omega
  have hd := congrArg (· / fs.blocksPerGroup) hs
  simp only [add_mul_div_left _ _ hwf.perGroup.1,div_eq_of_lt hn',div_eq_of_lt hm',
    Nat.zero_add] at hd
  subst hd
  exact ⟨rfl,by omega⟩

theorem bitmap_ne_zero (hg : g<fs.blockGroupCount) : (st.groups g).blockBitmap≠0 := by
  intro h
  have := (hwf.behind g hg).1
  rw [h] at this
  omega

private theorem bitmap_inj (hg : g<fs.blockGroupCount) (hh : h<fs.blockGroupCount)
    (heq : (st.groups g).blockBitmap=(st.groups h).blockBitmap) : g=h := by
  obtain ⟨n,hn,hgn,-⟩ := hwf.bitmap g hg
  obtain ⟨m,hm,hhm,-⟩ := hwf.bitmap h hh
  exact (hwf.blockAt_inj hn hm (hgn.symm.trans (heq.trans hhm))).1

private theorem bitmap_ne_free (hn : n<groupSize fs g) (hc : bit fs st g n=false)
    (hh : h<fs.blockGroupCount) : (st.groups h).blockBitmap≠blockAt fs g n := by
  intro heq
  obtain ⟨m,hm,hhm,hs⟩ := hwf.bitmap h hh
  obtain ⟨rfl,rfl⟩ := hwf.blockAt_inj hm hn (hhm.symm.trans heq)
  rw [hc] at hs
  cases hs

theorem perGroup_mul_lt (hg : g<fs.blockGroupCount) : fs.blocksPerGroup*g<2^32 := by
  have hgr := hwf.group g hg
  have hbl := hwf.blocks
  rw [Nat.mul_comm]
  omega

theorem bitmap_zero_lt (hg : 0<fs.blockGroupCount) :
    (st.groups 0).blockBitmap * fs.blockSize<2^32 := by
  obtain ⟨n,hn,heq,-⟩ := hwf.bitmap 0 hg
  have hn' := hn.trans_le (Nat.min_le_left _ _)
  have hle : (st.groups 0).blockBitmap≤8*fs.blockSize := by
    rw [heq,blockAt]
    have := hwf.first
    have := hwf.perGroup.2
    omega
  calc (st.groups 0).blockBitmap * fs.blockSize≤8*fs.blockSize*fs.blockSize :=
        Nat.mul_le_mul_right _ hle
    _<2^32 := by rcases blockSize_cases fs with h | h | h <;> rw [h] <;> decide

private theorem exists_firstFree (hg : g<fs.blockGroupCount)
    (hpos : 0<(st.groups g).freeBlocksCount)
    (hbe : ∀ h<g, (st.groups h).freeBlocksCount=0) : ∃ n, FirstFree fs st g n := by
  have hcn : 0<(range (groupSize fs g)).countP fun n => !bit fs st g n := by
    rw [← hwf.counts g hg]
    exact UInt16.lt_iff_toNat_lt.1 hpos
  obtain ⟨m,hm,hc⟩ := countP_pos_iff.1 hcn
  have hex : ∃ n, n<groupSize fs g ∧ bit fs st g n=false := ⟨m,mem_range.1 hm,by simpa using hc⟩
  refine ⟨Nat.find hex,hg,hpos,hbe,(Nat.find_spec hex).1,(Nat.find_spec hex).2,?_⟩
  intro k hk
  have hlt := (Nat.find_spec hex).1
  have := Nat.find_min hex hk
  rw [not_and,Bool.not_eq_false] at this
  exact this (by omega)

theorem blockBit_readBlock (hg : g<fs.blockGroupCount)
    (hs : (st.groups g).blockBitmap * fs.blockSize<2^32) :
    blockBit (readBlock fs (st.groups g).blockBitmap buf st) m=bit fs st g m := by
  rw [blockBit_eq,readBlock,if_neg (hwf.bitmap_ne_zero hg),offset_of_lt hs]
  rfl

private theorem scanBits_eq (hf : FirstFree fs st g n)
    (hs : (st.groups g).blockBitmap * fs.blockSize<2^32) :
    scanBits (readBlock fs (st.groups g).blockBitmap buf st) (8*fs.blockSize) 0 = .ok n := by
  have hn := hf.bit_lt.trans_le ((Nat.min_le_left _ _).trans hwf.perGroup.2)
  apply scanBits_first (Nat.zero_le n) (by omega)
  · rw [hwf.blockBit_readBlock hf.group_lt hs,hf.clear]
  · intro k _ hk
    rw [hwf.blockBit_readBlock hf.group_lt hs,hf.set k hk]

theorem bitmap_byte_mem_range (hm : m<fs.blocksPerGroup) :
    c * fs.blockSize≤(st.groups h).blockBitmap * fs.blockSize+m/8 ∧
      (st.groups h).blockBitmap * fs.blockSize+m/8<d*fs.blockSize ↔
    c≤(st.groups h).blockBitmap ∧ (st.groups h).blockBitmap<d := by
  have hby : m/8<fs.blockSize := by
    have := hwf.perGroup.2
    omega
  have hpos := zero_lt_of_lt hby
  rw [← Nat.le_div_iff_mul_le hpos,← Nat.div_lt_iff_lt_mul hpos,Nat.mul_comm,
    Nat.mul_add_div hpos,Nat.div_eq_of_lt hby,Nat.add_zero]

private theorem bitmap_byte_mem (hm : m<fs.blocksPerGroup) :
    c * fs.blockSize≤(st.groups h).blockBitmap * fs.blockSize+m/8 ∧
      (st.groups h).blockBitmap * fs.blockSize+m/8<c*fs.blockSize+fs.blockSize ↔
    (st.groups h).blockBitmap=c := by
  rw [← succ_mul,hwf.bitmap_byte_mem_range hm]
  omega

/-- Among the blocks that the driver takes for descriptors, a bitmap is written as it was. -/
theorem bgd_bitmap_byte (hh : h<fs.blockGroupCount) (hm : m<fs.blocksPerGroup)
    (hr : fs.bgdOffset≤(st.groups h).blockBitmap ∧
      (st.groups h).blockBitmap<fs.bgdOffset+fs.bgdBlockSpan) :
    bgd fs { st with groups := groups }
      ((st.groups h).blockBitmap * fs.blockSize+m/8-fs.bgdOffset*fs.blockSize) =
      st.device ((st.groups h).blockBitmap * fs.blockSize+m/8) := by
  have hby : m/8<fs.blockSize := by
    have := hwf.perGroup.2
    omega
  obtain ⟨i,hi⟩ : ∃ i, (st.groups h).blockBitmap=fs.bgdOffset+i :=
    ⟨(st.groups h).blockBitmap - fs.bgdOffset,by omega⟩
  have hbe : 32*fs.blockGroupCount ≤ i*fs.blockSize := by
    by_contra hlt
    refine (hwf.behind h hh).2 (.inr ⟨hr.1,?_⟩)
    rw [hi,Nat.add_sub_cancel_left]
    omega
  have hlt : i*fs.blockSize+fs.blockSize≤fs.blockSize*fs.bgdBlockSpan := by
    rw [← succ_mul,Nat.mul_comm fs.blockSize]
    exact Nat.mul_le_mul_right _ (by omega)
  rw [hi, Nat.add_mul, show fs.bgdOffset*fs.blockSize+i*fs.blockSize+m/8 -
    fs.bgdOffset * fs.blockSize=i*fs.blockSize+m/8 by omega, bgd, if_neg (by omega),
    Nat.add_assoc, hwf.tail _ (by omega) (by omega)]
end WellFormed

private theorem allocated_of_firstFree (hwf : WellFormed fs st) (hf : FirstFree fs st g n)
    (hfi : fs.firstDataBlock=0) (hbitmap : (st.groups g).blockBitmap * fs.blockSize<2^32)
    (hbl : (g*fs.blocksPerGroup+n)*fs.blockSize<2^32)
    (hr : ¬(fs.bgdOffset≤(st.groups g).blockBitmap ∧
      (st.groups g).blockBitmap<fs.bgdOffset+fs.bgdBlockSpan)) (hne : n+fs.blocksPerGroup*g≠0) :
    Allocated fs st (n+fs.blocksPerGroup*g)
      (takeBlock fs g n (n+fs.blocksPerGroup*g)
        (readBlock fs (st.groups g).blockBitmap buf st) st) g n := by
  have hb : n+fs.blocksPerGroup*g=blockAt fs g n := by
    rw [blockAt,Nat.mul_comm]
    omega
  have hbn := hb ▸ hne
  have hz := hwf.bitmap_ne_zero hf.group_lt
  have hof : offset fs (blockAt fs g n)=blockAt fs g n * fs.blockSize := by
    apply offset_of_lt
    rw [← hb,Nat.add_comm,Nat.mul_comm fs.blocksPerGroup]
    exact hbl
  rw [hb]
  refine ⟨hf.group_lt,hf.bit_lt,rfl,hf.clear,?_,takeBlock_groups hz hbn,
    takeBlock_freeBlocksCount hz hbn,?_,?_⟩
  · intro h hh m hm
    rw [bit,takeBlock_blockBitmap hz hbn,takeBlock_device hz hbn,hof,offset_of_lt hbitmap,
      if_neg (mt (hwf.bitmap_byte_mem hm).1 (hwf.bitmap_ne_free hf.bit_lt hf.clear hh)),
      if_neg (by have := (hwf.behind h hh).1; omega)]
    by_cases hd : fs.bgdOffset≤(st.groups h).blockBitmap ∧
        (st.groups h).blockBitmap<fs.bgdOffset+fs.bgdBlockSpan
    · have hhg : h≠g := fun heq => hr (heq ▸ hd)
      rw [if_pos ((hwf.bitmap_byte_mem_range hm).2 hd),hwf.bgd_bitmap_byte hh hm hd]
      simp [bit,hhg]
    rw [if_neg (mt (hwf.bitmap_byte_mem_range hm).1 hd)]
    by_cases hhg : h=g
    · subst hhg
      rw [if_pos ((hwf.bitmap_byte_mem hm).2 rfl),Nat.add_sub_cancel_left,setBit_testBit,
        ← blockBit_eq,hwf.blockBit_readBlock hh hbitmap]
      simp
    · have ho := mt (hwf.bitmap_inj hh hf.group_lt) hhg
      rw [if_neg (mt (hwf.bitmap_byte_mem hm).1 ho)]
      simp [bit,hhg]
  · intro j hj
    rw [takeBlock_device hz hbn,if_pos (by omega)]
  · rw [takeBlock_written hz hbn,hof,offset_of_lt hbitmap]

private theorem takeBlock_bit_far (hwf : WellFormed fs st) (hg : g<fs.blockGroupCount) (hb : b≠0)
    (hbitmap : 2^32≤(st.groups g).blockBitmap * fs.blockSize) :
    bit fs (takeBlock fs g n b buf st) g m=bit fs st g m := by
  have hz := hwf.bitmap_ne_zero hg
  have hbl := offset_add_le fs b
  have hm := offset_add_le fs (st.groups g).blockBitmap
  have hd : (fs.bgdOffset+fs.bgdBlockSpan)*fs.blockSize≤2^32 := by
    have hle : fs.bgdOffset+fs.bgdBlockSpan≤258 := by
      have := (bgdOffset_pos fs).2
      have := bgdBlockSpan_lt fs
      omega
    calc (fs.bgdOffset+fs.bgdBlockSpan) * fs.blockSize≤258*fs.blockSize :=
          Nat.mul_le_mul_right _ hle
      _≤2^32 := by rcases blockSize_cases fs with h | h | h <;> rw [h] <;> decide
  rw [bit,takeBlock_blockBitmap hz hb,takeBlock_device hz hb,if_neg (by omega),if_neg (by omega),
    if_neg (by omega),if_neg (by omega),bit]

/-- A bitmap among the blocks that the driver takes for descriptors loses the new bit. -/
theorem takeBlock_bit_desc (hwf : WellFormed fs st) (hg : g<fs.blockGroupCount) (hb : b≠0)
    (hm : m<fs.blocksPerGroup)
    (hr : fs.bgdOffset≤(st.groups g).blockBitmap ∧
      (st.groups g).blockBitmap<fs.bgdOffset+fs.bgdBlockSpan) (hc : bit fs st g m=false) :
    bit fs (takeBlock fs g n b buf st) g m=false := by
  have hz := hwf.bitmap_ne_zero hg
  rw [bit,takeBlock_blockBitmap hz hb,takeBlock_device hz hb]
  split
  · rw [show (0 : UInt8).toNat=0 from rfl,zero_testBit]
  rw [if_neg (by have := (hwf.behind g hg).1; omega),
    if_pos ((hwf.bitmap_byte_mem_range hm).2 hr),hwf.bgd_bitmap_byte hg hm hr]
  exact hc

private theorem FirstFree.unique (hg : FirstFree fs st g n) (hh : FirstFree fs st h m) :
    h=g ∧ m=n := by
  obtain rfl : h=g := by
    rcases Nat.lt_trichotomy h g with hlt | heq | hgt
    · exact absurd (hg.before h hlt) (UInt16.pos_iff_ne_zero.1 hh.pos)
    · exact heq
    · exact absurd (hh.before g hgt) (UInt16.pos_iff_ne_zero.1 hg.pos)
  refine ⟨rfl,?_⟩
  rcases Nat.lt_trichotomy m n with hlt | heq | hgt
  · have := hg.set m hlt
    rw [hh.clear] at this
    cases this
  · exact heq
  · have := hh.set n hgt
    rw [hg.clear] at this
    cases this

theorem Allocated.group_eq (ha : Allocated fs st b st' h n)
    (hg : st'.groups=update st.groups g (st.groups g).take) : h=g := by
  by_contra hne
  have heq := congrFun (hg.symm.trans ha.groups) g
  rw [update_self,update_of_ne (Ne.symm hne)] at heq
  have hc : (st.groups g).freeBlocksCount - 1=(st.groups g).freeBlocksCount :=
    congrArg Group.freeBlocksCount heq
  have ho : (1 : UInt16)=0 := by
    rwa [UInt16.sub_eq_iff_eq_add,left_eq_add] at hc
  exact absurd ho (by decide)

def allocateAt (fs : Fs) (g : Nat) (buf : Bytes) (st : State) (n : Nat) : Nat × State :=
  if n+fs.blocksPerGroup*g%2^32=0 then (0, st)
  else (n+fs.blocksPerGroup*g%2^32, takeBlock fs g n (n+fs.blocksPerGroup*g%2^32)
      (readBlock fs (st.groups g).blockBitmap buf st) st)

private theorem allocateBlock_some (h : findGroup fs st fs.blockGroupCount 0 = .ok (some g)) :
    allocateBlock fs buf st=(scanBits (readBlock fs (st.groups g).blockBitmap buf st)
      (8*fs.blockSize) 0).map (allocateAt fs g buf st) := by
  rw [allocateBlock,h]
  show (scanBits _ _ _ >>= _)=_
  cases scanBits (readBlock fs (st.groups g).blockBitmap buf st) (8*fs.blockSize) 0 with
  | error e => rfl
  | ok n =>
    show (if _ then _ else _)=Except.ok (if _ then _ else _)
    split <;> rfl

theorem correct_of_ne_zero (h : b≠0) :
    Correct fs st (.ok (b, st')) ↔ ∃ g n, Allocated fs st b st' g n := by
  cases b with
  | zero => exact absurd rfl h
  | succ b => rfl

/-- From a bitmap in reach, the driver takes the first free block, under its own number only if
blocks are numbered from 0. -/
theorem allocateAt_correct_iff (hwf : WellFormed fs st) (hfr : FirstFree fs st g n)
    (hbitmap : (st.groups g).blockBitmap * fs.blockSize<2^32) :
    Correct fs st (.ok (allocateAt fs g buf st n)) ↔ g=0 ∧ n=0 ∨
      fs.firstDataBlock=0 ∧ (g*fs.blocksPerGroup+n)*fs.blockSize<2^32 ∧
      ¬(fs.bgdOffset≤(st.groups g).blockBitmap ∧
        (st.groups g).blockBitmap<fs.bgdOffset+fs.bgdBlockSpan) := by
  have hg := hfr.group_lt
  have hz := hwf.bitmap_ne_zero hg
  rw [allocateAt,mod_eq_of_lt (hwf.perGroup_mul_lt hg)]
  by_cases hne : n+fs.blocksPerGroup*g=0
  · rw [if_pos hne]
    refine ⟨fun _ => .inl ?_,fun _ => rfl⟩
    have hmu : fs.blocksPerGroup*g=0 := by omega
    have hpos := hwf.perGroup.1
    obtain h | h := Nat.mul_eq_zero.1 hmu <;> omega
  rw [if_neg hne,correct_of_ne_zero hne]
  constructor
  · rintro ⟨h,m,ha⟩
    obtain rfl := ha.group_eq (takeBlock_groups hz hne)
    have hm := ha.bit_lt.trans_le (Nat.min_le_left _ _)
    have hbl := ha.block_eq
    rw [blockAt,Nat.mul_comm] at hbl
    -- The bit before the first clear one is set.
    have hf : fs.firstDataBlock=0 := by
      by_contra hf
      have := hfr.set m (by omega)
      rw [ha.clear] at this
      cases this
    refine .inr ⟨hf,?_,fun hr => ?_⟩
    · have hw := (takeBlock_written hz hne).symm.trans ha.written
      have hl := (append_inj' hw rfl).2
      have heq : offset fs (n+fs.blocksPerGroup*h)=(n+fs.blocksPerGroup*h)*fs.blockSize := by
        simpa using hl
      have ho := offset_add_le fs (n+fs.blocksPerGroup*h)
      have hpos : 0<fs.blockSize := by rcases blockSize_cases fs with h | h | h <;> omega
      rw [Nat.add_comm n,Nat.mul_comm] at heq ho
      omega
    · have hbi := ha.bits h hg m hm
      rw [takeBlock_bit_desc hwf hg hne hm hr ha.clear] at hbi
      simp at hbi
  · rintro (⟨rfl,rfl⟩ | ⟨hf,hs,hr⟩)
    · simp at hne
    · exact ⟨g,n,allocated_of_firstFree hwf hfr hf hbitmap hs hr hne⟩

private theorem allocateAt_not_correct (hwf : WellFormed fs st) (hg : g<fs.blockGroupCount)
    (hbitmap : 2^32≤(st.groups g).blockBitmap * fs.blockSize) :
    ¬Correct fs st (.ok (allocateAt fs g buf st n)) := by
  have hz := hwf.bitmap_ne_zero hg
  have hgn : g≠0 := by
    rintro rfl
    have := hwf.bitmap_zero_lt hg
    omega
  have hne : n+fs.blocksPerGroup*g≠0 := by
    have := Nat.mul_pos hwf.perGroup.1 (Nat.pos_of_ne_zero hgn)
    omega
  rw [allocateAt,mod_eq_of_lt (hwf.perGroup_mul_lt hg),if_neg hne,correct_of_ne_zero hne]
  rintro ⟨h,m,ha⟩
  obtain rfl := ha.group_eq (takeBlock_groups hz hne)
  have hbi := ha.bits h hg m (ha.bit_lt.trans_le (Nat.min_le_left _ _))
  rw [takeBlock_bit_far hwf hg hne hbitmap,ha.clear] at hbi
  simp at hbi

/-- The driver keeps to the layout of ext2 in just the states that `Fine` describes. -/
theorem allocateBlock_correct_iff (hwf : WellFormed fs st) (buf : Bytes) :
    Correct fs st (allocateBlock fs buf st) ↔ Fine fs st := by
  have hst : ∀ h<0, (st.groups h).freeBlocksCount=0 := fun h hh => absurd hh (by omega)
  obtain ⟨⟨e,he⟩,k,hk,hz,hu⟩ | ⟨hl,hfo⟩ := findGroup_cases 0 hst
  · rw [allocateBlock,he]
    rw [Nat.zero_add] at hk
    refine ⟨fun h => h.elim,fun h => ?_⟩
    have := h.1 k hk hz
    omega
  rw [Nat.zero_add] at hl hfo
  replace hl : ∀ i<fs.blockGroupCount, (∀ h < i, (st.groups h).freeBlocksCount=0) →
      32 * (i+1)≤fs.blockSize*fs.bgdBlockSpan := fun i => hl i (Nat.zero_le i)
  obtain ⟨hn,hz⟩ | ⟨g,hg,hso,hpos,hbe⟩ := hfo
  · rw [allocateBlock,hn]
    refine ⟨fun _ => ⟨hl,fun g n hf => ?_⟩,fun _ => rfl⟩
    exact absurd (hz g hf.group_lt) (UInt16.pos_iff_ne_zero.1 hf.pos)
  obtain ⟨n,hf⟩ := hwf.exists_firstFree hg hpos hbe
  rw [allocateBlock_some hso]
  by_cases hbitmap : (st.groups g).blockBitmap * fs.blockSize<2^32
  · rw [hwf.scanBits_eq hf hbitmap]
    refine (allocateAt_correct_iff hwf hf hbitmap).trans ⟨fun h => ⟨hl,?_⟩,fun h => ?_⟩
    · intro h' m hf'
      obtain ⟨rfl,rfl⟩ := hf.unique hf'
      exact h.imp_right fun h => ⟨h.1,hbitmap,h.2⟩
    · exact (h.2 g n hf).imp_right fun h => ⟨h.1,h.2.2⟩
  · constructor
    · intro h
      cases hs : scanBits (readBlock fs (st.groups g).blockBitmap buf st) (8*fs.blockSize) 0 with
      | error e => exact (hs ▸ h).elim
      | ok m =>
        rw [hs] at h
        exact absurd h (allocateAt_not_correct hwf hg (not_lt.1 hbitmap))
    · intro h
      obtain ⟨rfl,-⟩ | hfi := h.2 g n hf
      · exact absurd (hwf.bitmap_zero_lt hg) hbitmap
      · exact absurd hfi.2.1 hbitmap

private theorem kilobyte_mem : 1024∈[1024, 2048, 4096] := by decide

/-- One group of eight blocks of 1 KiB, numbered from `first`. -/
def smallFs (first : Nat) : Fs where
  blockSize := 1024
  blockSize_mem := kilobyte_mem
  blocksCount := first+8
  firstDataBlock := first
  blocksPerGroup := 8
  blockGroupCount := 1
  descriptor _ _ := 0
  tail _ := 0
  superblock _ _ := 0

/-- The bitmap is block 3, and the first five blocks of the group are in use. -/
def smallState : State where
  device a := if a=3072 then 31 else 0
  groups _ := ⟨3,3⟩
  freeBlocksCount := 3
  written := []

theorem smallState_wellFormed (h : first=0 ∨ first=1) : WellFormed (smallFs first) smallState := by
  have ht : ∀ k, 32≤k → k<1024 → smallState.device (2048+k)=0 := by
    intro k _ hk
    exact if_neg (by omega)
  obtain rfl | rfl := h
  · exact ⟨by decide,by decide,by decide,by decide,by decide,by decide,by decide,by decide,ht⟩
  · exact ⟨by decide,by decide,by decide,by decide,by decide,by decide,by decide,by decide,ht⟩

theorem allocateBlock_correct_iff_smallFs :
    Correct (smallFs 0) smallState (allocateBlock (smallFs 0) (fun _ => 0) smallState) := by
  refine (allocateBlock_correct_iff (smallState_wellFormed (.inl rfl)) _).2 ⟨by decide,?_⟩
  intro g n hf
  have hg : g<1 := hf.group_lt
  have hn : n<8 := hf.bit_lt.trans_le (Nat.min_le_left _ _)
  refine .inr ⟨rfl,(by decide : 3*1024<2^32),?_,(by decide : ¬(2≤3 ∧ 3<2+1))⟩
  show (g*8+n)*1024<2^32
  omega

/-- With blocks numbered from 1, the driver returns block 5, which bit 4 says is in use, and
writes zeros over it. -/
theorem allocateBlock_returns_used_block :
    WellFormed (smallFs 1) smallState ∧ bit (smallFs 1) smallState 0 4 = true ∧
      blockAt (smallFs 1) 0 4 = 5 ∧
      (allocateBlock (smallFs 1) (fun _ => 0) smallState).map (fun r => (r.1, r.2.written)) =
        .ok (5, [3072, 2048, 1024, 5120]) ∧
      ¬Correct (smallFs 1) smallState (allocateBlock (smallFs 1) (fun _ => 0) smallState) := by
  have hwf := smallState_wellFormed (.inr rfl)
  have hu : bit (smallFs 1) smallState 0 4=true := by decide
  have hr : (allocateBlock (smallFs 1) (fun _ => 0) smallState).map
      (fun r => (r.1, r.2.written)) = .ok (5, [3072, 2048, 1024, 5120]) := by decide
  refine ⟨hwf,hu,rfl,hr,fun hc => ?_⟩
  cases hre : allocateBlock (smallFs 1) (fun _ => 0) smallState with
  | error e =>
    rw [hre] at hc
    exact hc
  | ok result =>
    obtain ⟨g,n,ha⟩ := hc
    have hbl : 5=1+g*8+n := ha.block_eq
    obtain ⟨rfl,rfl⟩ : g=0 ∧ n=4 := by omega
    exact absurd (hu.symm.trans ha.clear) (by decide)
end RazionOS.Modules.Ext2Alloc
