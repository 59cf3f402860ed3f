import Mathlib.Data.List.GetD
import Mathlib.Data.UInt
import RazionOS.Framework.CString

/-!
# Directories of ext2

A directory is a chain of variable-length records in each of its blocks. Both `create_entry` and
`finddir_ext2` walk that chain with one loop, and the number of the block they are in is a
`uint8_t`.
-/

namespace RazionOS.Modules.Ext2Dir
open Framework List

abbrev Block := Nat → UInt8

/-- `ext2_dir_t`, with `name_len` as the length of the name. The file type is always 0. -/
structure Entry where
  inode : Nat
  recLen : Nat
  name : CString
deriving DecidableEq

def le16 (block : Block) (a : Nat) : Nat := (block a).toNat + 256 * (block (a+1)).toNat
def le32 (block : Block) (a : Nat) : Nat := le16 block a + 65536 * le16 block (a+2)

def entryAt (block : Block) (a : Nat) : Entry where
  inode := le32 block a
  recLen := le16 block (a+4)
  name := (range (block (a+6)).toNat).map fun i => block (a+8+i)

def bytes16 (n : Nat) : List UInt8 := [UInt8.ofNat n, UInt8.ofNat (n/256)]

def Entry.bytes (e : Entry) : List UInt8 :=
  bytes16 e.inode++bytes16 (e.inode/65536)++bytes16 e.recLen ++
    [UInt8.ofNat e.name.length, 0]++e.name

def store (block : Block) (a : Nat) (bytes : List UInt8) : Block :=
  fun b => if a≤b ∧ b<a+bytes.length then bytes.getD (b-a) 0 else block b

/-- The length of a record for a name of the given length, rounded up to 4 bytes. -/
def recordLength (nameLen : Nat) : Nat :=
  let length := 8+nameLen
  length + if length%4≠0 then 4-length%4 else 0

/-- The block sizes that `rec_len`, an `uint16_t`, can span. -/
structure Geometry where
  blockSize : Nat
  four_dvd : 4 ∣ blockSize
  le_blockSize : 1024≤blockSize
  blockSize_le : blockSize≤65536

/-- The size in the inode, the numbers of the blocks that it maps, those of all other blocks in
use, also of its pointer blocks, and the blocks on disk. -/
structure Dir where
  size : Nat
  numbers : List Nat
  used : List Nat
  disk : Nat → Block

def Dir.blocks (dir : Dir) : List Block := dir.numbers.map dir.disk

/-- What `allocate_block` returns. It need not be free: with blocks of 1 KiB the code returns the
block before the one that is free. -/
structure Taken where
  block : Nat
  /-- The blocks that `set_block_number` takes for pointers. -/
  pointers : List Nat

inductive Fault where
  /-- A store outside the buffer for a block. -/
  | outOfBounds
  /-- A record of length 0 keeps the loop where it is. -/
  | endless
deriving DecidableEq

def zeros : Block := fun _ => 0
def inodeReadBlock (dir : Dir) (nr : Nat) : Block := dir.blocks.getD nr zeros

/-- The blocks taken are cleared. There are at least `nr` blocks before. -/
def allocateInodeBlock (taken : Taken) (dir : Dir) (nr : Nat) : Dir :=
  { dir with
    numbers := if nr<dir.numbers.length then dir.numbers.set nr taken.block
      else dir.numbers++[taken.block]
    used := taken.pointers++dir.used
    disk := fun b => if b∈taken.block::taken.pointers then zeros else dir.disk b }

def inodeWriteBlock (taken : Taken) (dir : Dir) (nr : Nat) (block : Block) : Dir :=
  let dir := if nr<dir.numbers.length then dir else allocateInodeBlock taken dir nr
  { dir with disk := Function.update dir.disk (dir.numbers.getD nr 0) block }

structure Cursor where
  blockNr : Nat
  block : Block
  dirOffset : Nat
  totalOffset : Nat

def Cursor.entry (c : Cursor) : Entry := entryAt c.block c.dirOffset

section Driver
variable (fs : Geometry) (taken : Taken)

/-- The head of a round: the next block once the offset has left this one. -/
def nextBlock (dir : Dir) (c : Cursor) : Cursor :=
  if fs.blockSize ≤ c.dirOffset then
    let nr := (c.blockNr+1)%256
    ⟨nr,inodeReadBlock dir nr,c.dirOffset-fs.blockSize,c.totalOffset⟩
  else c

/-- The loop over the records: where it breaks, or where it has reached the size. -/
def walk (dir : Dir) (found : Cursor → Bool) : Nat → Cursor → Option (Bool × Cursor)
  | 0, _ => none
  | fuel+1, c =>
    if c.totalOffset<dir.size then
      let c := nextBlock fs dir c
      if found c then some (true, c)
      else walk dir found fuel ⟨c.blockNr,c.block,c.dirOffset+c.entry.recLen,
        c.totalOffset + c.entry.recLen⟩
    else some (false, c)

def start (dir : Dir) : Cursor := ⟨0,inodeReadBlock dir 0,0,0⟩

/-- The two tests of `finddir_ext2`; `strcmp` stops at a NUL in the record. -/
def isNamed (name : CString) (e : Entry) : Bool :=
  e.inode≠0 && name.length == e.name.length && e.name.takeWhile (· ≠ 0) == name

def finddir (dir : Dir) (name : CString) : Except Fault (Option Nat) :=
  match walk fs dir (fun c => isNamed name c.entry) (dir.size+1) (start dir) with
  | none => .error .endless
  | some (true, c) => .ok (some c.entry.inode)
  | some (false, _) => .ok none

/-- The last record of the directory, if it has more room than its name takes. -/
def endsWithRoom (dir : Dir) (c : Cursor) : Bool :=
  c.entry.recLen≠recordLength c.entry.name.length && c.totalOffset + c.entry.recLen == dir.size

/-- The record is filled in at the offset, and the block is written back. -/
def writeEntry (dir : Dir) (blockNr : Nat) (block : Block) (dirOffset : Nat) (name : CString)
    (inode : Nat) : Except Fault Dir :=
  let entry : Entry := ⟨inode,fs.blockSize-dirOffset,name⟩
  if dirOffset+entry.bytes.length≤fs.blockSize then
    .ok (inodeWriteBlock taken dir blockNr (store block dirOffset entry.bytes))
  else .error .outOfBounds

def createEntry (dir : Dir) (name : CString) (inode : Nat) : Except Fault Dir :=
  match walk fs dir (endsWithRoom dir) (dir.size+1) (start dir) with
  | none => .error .endless
  | some (true, c) =>
    let length := recordLength c.entry.name.length
    if fs.blockSize ≤ c.dirOffset+length + recordLength name.length then
      let blockNr := (c.blockNr+1)%256
      let dir := allocateInodeBlock taken dir blockNr
      let dir := { dir with size := (dir.size+fs.blockSize)%2 ^ 32 }
      writeEntry fs taken dir blockNr zeros 0 name inode
    else
      let block := store c.block (c.dirOffset+4) (bytes16 length)
      writeEntry fs taken dir c.blockNr block (c.dirOffset+length) name inode
  -- no break: whether a deleted record was met (modify_or_replace = 2) changes nothing
  | some (false, c) => writeEntry fs taken dir c.blockNr c.block c.dirOffset name inode
end Driver

/-- The records of a block from an offset on, up to the end of the block. -/
def Chain (size : Nat) (block : Block) : Nat → List Entry → Prop
  | a, [] => a=size
  | a, e::es => entryAt block a=e ∧ 4 ∣ e.recLen ∧ 8+e.name.length≤e.recLen ∧
      a + e.recLen ≤ size ∧ Chain size block (a+e.recLen) es

/-- The directory is well formed, with the given records in each of its blocks, and no block is
used twice. -/
structure Holds (fs : Geometry) (dir : Dir) (ess : List (List Entry)) : Prop where
  size_eq : dir.size=fs.blockSize*dir.blocks.length
  size_lt : dir.size<2^32
  chains : List.Forall₂ (fun block es => Chain fs.blockSize block 0 es) dir.blocks ess
  distinct : (dir.numbers++dir.used).Nodup

/-- The inode of a name: that of the first record in use that has it. -/
def lookup (es : List Entry) (name : CString) : Option Nat :=
  (es.find? fun e => e.inode≠0 ∧ e.name=name).map Entry.inode

/-- The new name is there, every other name is as it was, and the directory is well formed. -/
def Inserted (fs : Geometry) (ess : List (List Entry)) (name : CString) (inode : Nat) :
    Except Fault Dir → Prop
  | .error _ => False
  | .ok dir => (∃ ess, Holds fs dir ess) ∧ finddir fs dir name = .ok (some inode) ∧
      ∀ other, 0∉other → other≠name → finddir fs dir other = .ok (lookup ess.flatten other)

/-- The record that ends the block in which the walk with its 8-bit block number ends. -/
def lastEntry (ess : List (List Entry)) : Option Entry :=
  ess[(ess.length-1)%256]?.bind getLast?

/-- The blocks taken are distinct, and none of them is in use. -/
def Taken.Free (taken : Taken) (dir : Dir) : Prop :=
  (dir.numbers++taken.block::(taken.pointers++dir.used)).Nodup

/-- That record has room behind its name, the new record fits there or a further block can be
counted and is free, and no name is only in blocks that the 8-bit number does not reach. -/
def Room (fs : Geometry) (taken : Taken) (dir : Dir) (ess : List (List Entry)) (name : CString) :
    Prop :=
  (∃ last, lastEntry ess=some last ∧ last.recLen≠recordLength last.name.length ∧
    (recordLength last.name.length + recordLength name.length<last.recLen ∨
      ess.length<256 ∧ fs.blockSize<65536 ∧ taken.Free dir)) ∧
  ∀ other, 0∉other → lookup (ess.take 256).flatten other=lookup ess.flatten other

theorem store_inside (h : i<bytes.length) : store block a bytes (a+i)=bytes.getD i 0 := by
  simp [store,h]

theorem store_outside (h : b<a ∨ a+bytes.length≤b) : store block a bytes b=block b := by
  unfold store
  rw [if_neg (by omega)]

theorem Entry.length_bytes (e : Entry) : e.bytes.length=8+e.name.length := by
  simp only [Entry.bytes,bytes16,length_append,length_cons,length_nil]

theorem le16_bytes16 (h0 : block a=UInt8.ofNat n) (h1 : block (a+1)=UInt8.ofNat (n/256)) :
    le16 block a=n%65536 := by
  rw [le16,h0,h1,UInt8.toNat_ofNat',UInt8.toNat_ofNat']
  omega

theorem entryAt_congr (h : ∀ b, a≤b → b<a+8 + (entryAt block a).name.length → block' b=block b) :
    entryAt block' a=entryAt block a := by
  have hh : ∀ i, i<8 → block' (a+i)=block (a+i) := fun i hi =>
    h _ (by omega) (by omega)
  have hlen : (block (a+6)).toNat=(entryAt block a).name.length := by simp [entryAt]
  have hn : ∀ i∈range (block (a+6)).toNat, block' (a+8+i)=block (a+8+i) :=
    fun i hi => h _ (by omega) (by have := mem_range.1 hi; omega)
  have h0 := hh 0 (by omega)
  simp only [Nat.add_zero] at h0
  simp only [entryAt,le32,le16,h0,hh 1 (by omega),hh 2 (by omega),hh 3 (by omega),
    hh 4 (by omega),hh 5 (by omega),hh 6 (by omega),Entry.mk.injEq,true_and]
  exact map_congr_left fun i hi => by simpa using hn i hi

theorem entryAt_store {e : Entry} (hin : e.inode<2^32) (hn : e.name.length<256) :
    entryAt (store block a e.bytes) a = { e with recLen := e.recLen%65536 } := by
  have hb : ∀ i, i<8 → store block a e.bytes (a+i)=e.bytes.getD i 0 := fun i hi =>
    store_inside (by rw [e.length_bytes]; omega)
  have hlen : (store block a e.bytes (a+6)).toNat=e.name.length := by
    rw [hb 6 (by omega)]
    simp only [Entry.bytes,bytes16,cons_append,nil_append,getD_cons_succ,getD_cons_zero,
      UInt8.toNat_ofNat']
    omega
  have h0 := hb 0 (by omega)
  have hlo : le16 (store block a e.bytes) a=e.inode%65536 := le16_bytes16 h0 (hb 1 (by omega))
  have hh := le16_bytes16 (hb 2 (by omega)) (hb 3 (by omega))
  have hr := le16_bytes16 (hb 4 (by omega)) (hb 5 (by omega))
  simp only [entryAt,le32,hr,hlen,Entry.mk.injEq,true_and] at ⊢
  refine ⟨by omega,ext_getElem (by simp) fun i hi hi' => ?_⟩
  rw [getElem_map,getElem_range,Nat.add_assoc,
    store_inside (by rw [Entry.length_bytes]; exact Nat.add_lt_add_left hi' 8)]
  simp [Entry.bytes,bytes16,Nat.add_comm,hi']

private theorem entryAt_store_recLen (hn : n<65536) :
    entryAt (store block (a+4) (bytes16 n)) a = { entryAt block a with recLen := n } := by
  have ho : ∀ b, b<a+4 ∨ a+6≤b → store block (a+4) (bytes16 n) b=block b :=
    fun b hb => store_outside (by simpa [bytes16] using hb)
  have hr : le16 (store block (a+4) (bytes16 n)) (a+4)=n :=
    (le16_bytes16 (store_inside (i := 0) (by simp [bytes16]))
      (store_inside (by simp [bytes16]))).trans (Nat.mod_eq_of_lt hn)
  simp only [entryAt,hr]
  simp only [le32,le16,ho a (by omega),ho (a+1) (by omega),ho (a+2) (by omega),
    ho (a+2+1) (by omega),ho (a+6) (by omega),Entry.mk.injEq,true_and]
  exact map_congr_left fun i _ => ho (a+8+i) (by omega)

theorem Chain.le (h : Chain size block a es) : a+8*es.length ≤ size := by
  induction es generalizing a with
  | nil => exact Nat.le_of_eq h
  | cons e es ih =>
    obtain ⟨-,-,hlen,-,hr⟩ := h
    have := ih hr
    rw [length_cons]
    omega

private theorem Chain.frame (h : Chain size block a es)
    (hb : ∀ b, a≤b → b < size → block' b=block b) :
    Chain size block' a es := by
  induction es generalizing a with
  | nil => exact h
  | cons e es ih =>
    obtain ⟨he,hd,hlen,hle,hr⟩ := h
    refine ⟨?_,hd,hlen,hle,ih hr fun b hab => hb b (by omega)⟩
    rw [← he]
    refine entryAt_congr fun b hab hlt => hb b hab ?_
    rw [he] at hlt
    omega

private theorem Chain.append (h : Chain mid block a es) (h' : Chain size block mid es') :
    Chain size block a (es++es') := by
  have hle := h'.le
  induction es generalizing a with
  | nil =>
    obtain rfl : a=mid := h
    exact h'
  | cons e es ih =>
    obtain ⟨he,hd,hlen,hm,hr⟩ := h
    exact ⟨he,hd,hlen,by omega,ih hr⟩

private theorem Chain.split (h : Chain size block a (init++[last])) :
    ∃ mid, Chain mid block a init ∧ entryAt block mid=last ∧ 4 ∣ last.recLen ∧
      8 + last.name.length≤last.recLen ∧ mid+last.recLen=size := by
  induction init generalizing a with
  | nil =>
    obtain ⟨he,hd,hlen,-,hen⟩ := h
    exact ⟨a,rfl,he,hd,hlen,hen⟩
  | cons e es ih =>
    obtain ⟨he,hd,hlen,hle,hr⟩ := h
    obtain ⟨mid,hm,hla⟩ := ih hr
    exact ⟨mid,⟨he,hd,hlen,by have := hm.le; omega,hm⟩,hla⟩

theorem le_recordLength (n : Nat) : 8+n ≤ recordLength n := by
  simp only [recordLength]
  omega

private theorem four_dvd_recordLength : 4 ∣ recordLength n := by
  simp only [recordLength]
  split <;> omega

/-- The last record of a block gives up the room behind its name to a new one. -/
theorem Chain.insert (hs : size≤65536) (h : Chain mid block a init)
    (hla : entryAt block mid=last) (hen : mid+last.recLen=size) (h4 : 4 ∣ last.recLen)
    (hi : inode<2^32) (hn : name.length<256)
    (hf : recordLength last.name.length + recordLength name.length<last.recLen) :
    let len := recordLength last.name.length
    let new : Entry := ⟨inode,size-(mid+len),name⟩
    Chain size (store (store block (mid+4) (bytes16 len)) (mid+len) new.bytes) a
      (init++[{ last with recLen := len }, new]) := by
  intro len new
  have hlen : 8+last.name.length≤len := le_recordLength _
  have hd : 4 ∣ len := four_dvd_recordLength
  have hne := le_recordLength name.length
  have ho : ∀ b, b < mid+len → store (store block (mid+4) (bytes16 len)) (mid+len) new.bytes b =
        store block (mid+4) _ b := fun b hb => store_outside (.inl hb)
  have hp : entryAt (store (store block (mid+4) (bytes16 len)) (mid+len) new.bytes) mid =
      { last with recLen := len } := by
    have he : entryAt (store block (mid+4) (bytes16 len)) mid = { last with recLen := len } :=
      (entryAt_store_recLen (by omega)).trans (by rw [hla])
    rw [← he]
    refine entryAt_congr fun b _ hb => ho b ?_
    rw [he] at hb
    exact hb.trans_le (by simp only; omega)
  refine Chain.append (h.frame fun b _ hb => ?_) ⟨hp,hd,hlen,by simp only; omega,?_⟩
  · rw [ho b (by omega),store_outside (.inl (by omega))]
  have hm : new.recLen%65536=new.recLen := by
    simp only [new]
    omega
  refine ⟨(entryAt_store hi hn).trans (by rw [hm]),?_,?_,?_,?_⟩
  all_goals simp only [new,Chain]; omega

section Walk
variable {fs : Geometry} {dir : Dir}

def cursorAt (fs : Geometry) (dir : Dir) (i a : Nat) : Cursor :=
  ⟨i%256,inodeReadBlock dir (i%256),a,fs.blockSize*i+a⟩

/-- The cursor behind the first `i` blocks, before the head of the next round. -/
def boundary (fs : Geometry) (dir : Dir) : Nat → Cursor
  | 0 => start dir
  | i+1 => cursorAt fs dir i fs.blockSize

def offsets : Nat → List Entry → List Nat
  | _, [] => []
  | a, e::es => a::offsets (a+e.recLen) es

def cursors (fs : Geometry) (dir : Dir) (ess : List (List Entry)) (i k : Nat) : List Cursor :=
  (range' i k).flatMap fun j => (offsets 0 (ess.getD (j%256) [])).map (cursorAt fs dir j)

private theorem cursors_cons : cursors fs dir ess i (k+1) =
      (offsets 0 (ess.getD (i%256) [])).map (cursorAt fs dir i) ++ cursors fs dir ess (i+1) k :=
  rfl

def exitAt (last : Cursor) : Option Cursor → Bool × Cursor
  | some c => (true, c)
  | none => (false, last)

theorem nextBlock_cursorAt (h : a<fs.blockSize) :
    nextBlock fs dir (cursorAt fs dir i a)=cursorAt fs dir i a := by
  simp [nextBlock,cursorAt,Nat.not_le.2 h]

private theorem nextBlock_boundary : nextBlock fs dir (boundary fs dir i)=cursorAt fs dir i 0 := by
  have hpos := fs.le_blockSize
  cases i with
  | zero => exact nextBlock_cursorAt (i := 0) (by omega)
  | succ i =>
    have hnr : (i%256+1)%256=(i+1)%256 := by omega
    simp only [boundary,nextBlock,cursorAt,Nat.le_refl,hnr,Nat.sub_self]
    rfl

private theorem walk_mono {fuel : Nat} {c : Cursor} (h : walk fs dir found fuel c=some r)
    (hle : fuel≤fuel') : walk fs dir found fuel' c=some r := by
  induction fuel generalizing c fuel' with
  | zero => cases h
  | succ fuel ih =>
    obtain ⟨fuel',rfl⟩ := Nat.exists_eq_add_of_lt hle
    simp only [walk] at h ⊢
    split at h
    · rename_i hlt
      rw [if_pos hlt]
      split at h
      · rename_i hf
        rw [if_pos hf]
        exact h
      · rename_i hf
        rw [if_neg hf]
        exact ih h (by omega)
    · rename_i hlt
      rw [if_neg hlt]
      exact h

theorem cursorAt_lt_size (hs : dir.size=fs.blockSize*dir.blocks.length)
    (hi : i<dir.blocks.length) (ha : a<fs.blockSize) :
    (cursorAt fs dir i a).totalOffset<dir.size := by
  have hm := hs ▸ Nat.mul_le_mul_left _ hi
  rw [Nat.mul_succ] at hm
  simp only [cursorAt]
  omega

theorem totalOffset_boundary : (boundary fs dir i).totalOffset=fs.blockSize*i := by
  cases i with
  | zero => rfl
  | succ i => simp only [boundary,cursorAt,Nat.mul_succ]

section
variable (hs : dir.size=fs.blockSize*dir.blocks.length) (hi : i<dir.blocks.length) (fuel : Nat)
include hs hi fuel

private theorem walk_boundary :
    walk fs dir found fuel (boundary fs dir i)=walk fs dir found fuel (cursorAt fs dir i 0) := by
  have hpos : 0<fs.blockSize := by have := fs.le_blockSize; omega
  have hlt := cursorAt_lt_size hs hi hpos
  have hlt' : (boundary fs dir i).totalOffset<dir.size := by
    rw [totalOffset_boundary]
    exact hlt
  cases fuel with
  | zero => rfl
  | succ fuel =>
    simp [walk,if_pos hlt,if_pos hlt',nextBlock_boundary,nextBlock_cursorAt hpos]

private theorem walk_block (h : Chain fs.blockSize (inodeReadBlock dir (i%256)) a es) :
    walk fs dir found (fuel+es.length) (cursorAt fs dir i a) =
      match ((offsets a es).map (cursorAt fs dir i)).find? found with
      | some c => some (true, c)
      | none => walk fs dir found fuel (cursorAt fs dir i fs.blockSize) := by
  induction es generalizing a with
  | nil =>
    obtain rfl : a=fs.blockSize := h
    rfl
  | cons e es ih =>
    obtain ⟨he,-,hlen,hle,hr⟩ := h
    have ha : a<fs.blockSize := by omega
    have hen : (cursorAt fs dir i a).entry=e := he
    simp only [length_cons,walk,if_pos (cursorAt_lt_size hs hi ha),
      nextBlock_cursorAt ha,hen,offsets,map_cons,find?_cons]
    cases found (cursorAt fs dir i a) with
    | true => rfl
    | false =>
      rw [← ih hr]
      simp [cursorAt,Nat.add_assoc]

end

theorem length_offsets : (offsets a es).length=es.length := by
  induction es generalizing a with
  | nil => rfl
  | cons e es ih => simp only [offsets,length_cons,ih]

private theorem walk_blocks (hs : dir.size=fs.blockSize*dir.blocks.length) {ess : List (List Entry)}
    (hc : ∀ i<dir.blocks.length,
      Chain fs.blockSize (inodeReadBlock dir (i%256)) 0 (ess.getD (i%256) []))
    {i k : Nat} (hik : i+k=dir.blocks.length) :
    walk fs dir found ((cursors fs dir ess i k).length + 1) (boundary fs dir i) =
      some (exitAt (boundary fs dir dir.blocks.length) ((cursors fs dir ess i k).find? found)) := by
  induction k generalizing i with
  | zero =>
    obtain rfl : i=dir.blocks.length := hik
    simp [cursors,walk,totalOffset_boundary,← hs, exitAt]
  | succ k ih =>
    have hi : i<dir.blocks.length := by omega
    have hf : (cursors fs dir ess i (k+1)).length + 1 =
        (cursors fs dir ess (i+1) k).length + 1 + (ess.getD (i%256) []).length := by
      simp only [cursors_cons,length_append,length_map,length_offsets]
      omega
    rw [hf,walk_boundary hs hi,walk_block hs hi _ (hc i hi),cursors_cons,find?_append]
    cases ((offsets 0 (ess.getD (i%256) [])).map (cursorAt fs dir i)).find? found with
    | some c => rfl
    | none => exact ih (by omega)

private theorem length_cursors_le {ess : List (List Entry)}
    (hc : ∀ i<n, Chain fs.blockSize (inodeReadBlock dir (i%256)) 0 (ess.getD (i%256) []))
    (hik : i+k=n) : (cursors fs dir ess i k).length≤fs.blockSize*k := by
  induction k generalizing i with
  | zero => exact Nat.zero_le _
  | succ k ih =>
    have hf := (hc i (by omega)).le
    have hr := ih (i := i+1) (by omega)
    simp only [cursors_cons,length_append,length_map,length_offsets,Nat.mul_succ]
    omega

section
variable (h : Holds fs dir ess)
include h

theorem Holds.length_eq : dir.blocks.length=ess.length := h.chains.length_eq

theorem Holds.length_numbers : dir.numbers.length=ess.length := by
  rw [← h.length_eq,Dir.blocks,length_map]

theorem Holds.chain (hi : i<ess.length) :
    Chain fs.blockSize (inodeReadBlock dir i) 0 (ess.getD i []) := by
  have hi' := h.length_eq ▸ hi
  have := h.chains.get hi' hi
  simpa [inodeReadBlock,hi,hi'] using this

theorem Holds.chain_mod : ∀ i<ess.length,
      Chain fs.blockSize (inodeReadBlock dir (i%256)) 0 (ess.getD (i%256) []) := fun i hi =>
  h.chain (lt_of_le_of_lt (Nat.mod_le i 256) hi)

theorem Holds.walk_eq : walk fs dir found (dir.size+1) (start dir) =
      some (exitAt (boundary fs dir ess.length)
        ((cursors fs dir ess 0 ess.length).find? found)) := by
  have hw := @walk_blocks fs dir found h.size_eq ess (h.length_eq ▸ h.chain_mod) 0 _
    (Nat.zero_add _)
  rw [h.length_eq] at hw
  have hlen := length_cursors_le h.chain_mod (Nat.zero_add _)
  exact walk_mono hw (by rw [h.size_eq,h.length_eq]; omega)

end

private theorem Chain.map_entryAt (h : Chain size block a es) :
    (offsets a es).map (entryAt block)=es := by
  induction es generalizing a with
  | nil => rfl
  | cons e es ih =>
    obtain ⟨he,-,-,-,hr⟩ := h
    rw [offsets,map_cons,he,ih hr]

private theorem map_entry_cursors
    (hc : ∀ i<n, Chain fs.blockSize (inodeReadBlock dir (i%256)) 0 (ess.getD (i%256) [])) :
    (cursors fs dir ess 0 n).map Cursor.entry =
      ((range' 0 n).map fun j => ess.getD (j%256) []).flatten := by
  rw [cursors,map_flatMap]
  refine flatMap_congr fun j hj => ?_
  rw [map_map]
  exact (hc j (by simpa using hj)).map_entryAt

theorem lookup_append : lookup (es++es') name=(lookup es name).or (lookup es' name) := by
  simp [lookup,Option.map_or]

private theorem lookup_append_of_subset (h : es' ⊆ es) : lookup (es++es') name=lookup es name := by
  rw [lookup_append]
  cases hf : es.find? fun e => e.inode≠0 ∧ e.name=name with
  | some e => simp only [lookup,hf,Option.map_some,Option.some_or]
  | none =>
    have hn := find?_eq_none.2 fun e he => find?_eq_none.1 hf e (h he)
    simp only [lookup,hn,Option.map_none,Option.or_none]

private theorem getD_subset_take (ess : List (List Entry)) :
    ess.getD (j%256) [] ⊆ (ess.take 256).flatten := by
  intro e he
  by_cases hj : j%256<ess.length
  · have hb : ess.getD (j%256) []∈ess.take 256 := by
      rw [getD_eq_getElem _ _ hj,mem_take_iff_getElem]
      exact ⟨j%256,by omega,rfl⟩
    exact mem_flatten.2 ⟨_,hb,he⟩
  · rw [getD_eq_default _ _ (by omega)] at he
    cases he

/-- The blocks past the 256th repeat the first ones in the walk. -/
theorem visited_eq (ess : List (List Entry)) :
    ∃ rest, ((range' 0 ess.length).map fun j => ess.getD (j%256) []).flatten =
      (ess.take 256).flatten++rest ∧ rest ⊆ (ess.take 256).flatten := by
  have hf : (range' 0 (min 256 ess.length)).map (fun j => ess.getD (j%256) [])=ess.take 256 := by
    refine ext_getElem (by simp) fun j hj hj' => ?_
    have hlt : j<256 ∧ j<ess.length := by simpa using hj
    simp [Nat.mod_eq_of_lt hlt.1,hlt.2]
  have hr : range' 0 ess.length=range' 0 (min 256 ess.length) ++
      range' (0 + min 256 ess.length) (ess.length - min 256 ess.length) := by
    rw [range'_append_1]
    congr 1
    omega
  refine ⟨((range' (0 + min 256 ess.length) (ess.length - min 256 ess.length)).map
    fun j => ess.getD (j%256) []).flatten,?_,fun e he => ?_⟩
  · rw [hr,map_append,hf,flatten_append]
  obtain ⟨es,hes,he⟩ := mem_flatten.1 he
  obtain ⟨j,-,rfl⟩ := mem_map.1 hes
  exact getD_subset_take ess he

private theorem isNamed_eq (h : 0∉name) : isNamed name e=decide (e.inode≠0 ∧ e.name=name) := by
  rw [Bool.eq_iff_iff]
  simp only [isNamed,Bool.and_eq_true,decide_eq_true_eq,beq_iff_eq]
  constructor
  · rintro ⟨⟨hi,hlen⟩,ht⟩
    have hw : e.name.takeWhile (· ≠ 0)=e.name :=
      (List.takeWhile_prefix _).eq_of_length (by rw [ht,hlen])
    exact ⟨hi,hw ▸ ht⟩
  · rintro ⟨hi,rfl⟩
    refine ⟨⟨hi,rfl⟩,takeWhile_eq_self_iff.2 fun c hc => ?_⟩
    exact decide_eq_true fun hz => h (hz ▸ hc)

/-- What `finddir` finds is what the first 256 blocks hold. -/
theorem Holds.finddir_eq (h : Holds fs dir ess) (hn : 0∉name) :
    finddir fs dir name = .ok (lookup (ess.take 256).flatten name) := by
  obtain ⟨rest,hr,hsub⟩ := visited_eq ess
  have he := (map_entry_cursors h.chain_mod).trans hr
  have hlo : lookup (ess.take 256).flatten name =
      ((cursors fs dir ess 0 ess.length).find? fun c => isNamed name c.entry).map
        fun c => c.entry.inode := by
    rw [← lookup_append_of_subset hsub,← he,lookup,find?_map,Option.map_map]
    simp only [isNamed_eq hn]
    rfl
  simp only [finddir,h.walk_eq,hlo]
  cases (cursors fs dir ess 0 ess.length).find? fun c => isNamed name c.entry with
  | some c => rfl
  | none => rfl

private theorem Chain.offsets_concat (h : Chain mid block a init) :
    offsets a (init++[last])=offsets a init++[mid] := by
  induction init generalizing a with
  | nil =>
    obtain rfl : a=mid := h
    rfl
  | cons e es ih => rw [cons_append,offsets,ih h.2.2.2.2,offsets,cons_append]

theorem Chain.mem_offsets (h : Chain size block a es) (hb : b∈offsets a es) :
    b + (entryAt block b).recLen ≤ size := by
  induction es generalizing a with
  | nil => cases hb
  | cons e es ih =>
    obtain ⟨he,-,-,hle,hr⟩ := h
    obtain rfl | hb := mem_cons.1 hb
    · rw [he]
      exact hle
    · exact ih hr hb

private theorem le_of_mem_cursors
    (hch : ∀ i<n, Chain fs.blockSize (inodeReadBlock dir (i%256)) 0 (ess.getD (i%256) []))
    (hk : k≤n) (hc : c∈cursors fs dir ess 0 k) :
    c.totalOffset + c.entry.recLen≤fs.blockSize*k := by
  obtain ⟨j,hj,hc⟩ := mem_flatMap.1 hc
  obtain ⟨b,hb,rfl⟩ := mem_map.1 hc
  have hjk : j<k := by simpa using hj
  have hb : b + (entryAt (inodeReadBlock dir (j%256)) b).recLen≤fs.blockSize :=
    (hch j (by omega)).mem_offsets hb
  have hm := Nat.mul_le_mul_left fs.blockSize hjk
  rw [Nat.mul_succ] at hm
  simp only [cursorAt,Cursor.entry]
  omega

/-- The last block of the walk, with its last record taken apart. -/
structure LastBlock (fs : Geometry) (dir : Dir) (ess : List (List Entry)) (init : List Entry)
    (last : Entry) (mid : Nat) : Prop where
  pos : 0<ess.length
  block_eq : ess[(ess.length-1)%256]? = some (init++[last])
  init_chain : Chain mid (inodeReadBlock dir ((ess.length-1)%256)) 0 init
  last_eq : entryAt (inodeReadBlock dir ((ess.length-1)%256)) mid=last
  four_dvd : 4 ∣ last.recLen
  length_le : 8+last.name.length≤last.recLen
  end_eq : mid+last.recLen=fs.blockSize

private theorem Holds.lastBlock (h : Holds fs dir ess) (hpos : 0<ess.length) :
    ∃ init last mid, LastBlock fs dir ess init last mid := by
  have hlt : (ess.length-1)%256<ess.length := lt_of_le_of_lt (Nat.mod_le _ _) (by omega)
  have hc := h.chain hlt
  rw [getD_eq_getElem _ _ hlt] at hc
  have hne : ess[(ess.length-1)%256]≠[] := by
    intro hn
    rw [hn] at hc
    have : 0=fs.blockSize := hc
    have := fs.le_blockSize
    omega
  have hs := dropLast_append_getLast hne
  rw [← hs] at hc
  obtain ⟨mid,hi,hla,hd,hlen,he⟩ := hc.split
  exact ⟨_,_,mid,hpos,by rw [hs,getElem?_eq_getElem],hi,hla,hd,hlen,he⟩

private theorem LastBlock.lastEntry_eq (hl : LastBlock fs dir ess init last mid) :
    lastEntry ess=some last := by
  rw [lastEntry,hl.block_eq,Option.bind_some,getLast?_concat]

theorem Holds.walk_endsWithRoom (h : Holds fs dir ess) (hl : LastBlock fs dir ess init last mid) :
    walk fs dir (endsWithRoom dir) (dir.size+1) (start dir) =
      if last.recLen=recordLength last.name.length then
        some (false, cursorAt fs dir (ess.length-1) fs.blockSize)
      else some (true, cursorAt fs dir (ess.length-1) mid) := by
  obtain ⟨n,hn⟩ : ∃ n, ess.length=n+1 := ⟨ess.length-1,by have := hl.pos; omega⟩
  have hs : dir.size=fs.blockSize*n+fs.blockSize := by
    rw [h.size_eq,h.length_eq,hn,Nat.mul_succ]
  have hlen := hl.length_le
  have hend := hl.end_eq
  have hbl := hl.block_eq
  have hi := hl.init_chain
  have hla := hl.last_eq
  simp only [hn,Nat.add_sub_cancel] at hbl hi hla
  have he : (cursors fs dir ess 0 n++(offsets 0 init).map (cursorAt fs dir n)).find?
      (endsWithRoom dir)=none := by
    refine find?_eq_none.2 fun c hc => ?_
    have hlt : c.totalOffset+c.entry.recLen<dir.size := by
      obtain hc | hc := mem_append.1 hc
      · have := le_of_mem_cursors h.chain_mod (by omega) hc
        omega
      obtain ⟨b,hb,rfl⟩ := mem_map.1 hc
      have : b + (entryAt (inodeReadBlock dir (n%256)) b).recLen ≤ mid := hi.mem_offsets hb
      simp only [cursorAt,Cursor.entry]
      omega
    simp [endsWithRoom,Nat.ne_of_lt hlt]
  have hcu : cursors fs dir ess 0 (n+1) =
      (cursors fs dir ess 0 n++(offsets 0 init).map (cursorAt fs dir n)) ++
        [cursorAt fs dir n mid] := by
    simp only [cursors,range'_1_concat,flatMap_append,flatMap_singleton,Nat.zero_add]
    rw [getD_eq_getElem?_getD,hbl,Option.getD_some,hi.offsets_concat,
      map_append,append_assoc,map_singleton]
  have hen : (cursorAt fs dir n mid).entry=last := hla
  have ht : endsWithRoom dir (cursorAt fs dir n mid) =
      !decide (last.recLen=recordLength last.name.length) := by
    have hto : (cursorAt fs dir n mid).totalOffset + last.recLen=dir.size := by
      simp only [cursorAt]
      omega
    simp [endsWithRoom,hen,hto]
  rw [h.walk_eq,hn,hcu,find?_append,he,find?_singleton,ht]
  by_cases hf : last.recLen=recordLength last.name.length
  · simp [hf,exitAt,boundary]
  · simp [hf,exitAt]
end Walk

section Create
variable {fs : Geometry} {dir : Dir} {ess : List (List Entry)} {name : CString}

/-- The directory with one of its blocks written. -/
def Dir.write (dir : Dir) (nr : Nat) (block : Block) : Dir :=
  { dir with disk := Function.update dir.disk (dir.numbers.getD nr 0) block }

private theorem blocks_write (hn : dir.numbers.Nodup) (h : nr<dir.numbers.length) (block : Block) :
    (dir.write nr block).blocks=dir.blocks.set nr block := by
  refine ext_getElem (by simp [Dir.blocks,Dir.write]) fun i hi hi' => ?_
  have hi : i<dir.numbers.length := by simpa [Dir.blocks,Dir.write] using hi
  by_cases he : nr=i
  · subst he
    simp [Dir.blocks,Dir.write,h]
  · have hne : dir.numbers[i]≠dir.numbers[nr] := fun hg => he ((hn.getElem_inj_iff.1 hg).symm)
    simp [Dir.blocks,Dir.write,h,he,hne]

section
variable (h : Holds fs dir ess) (hl : LastBlock fs dir ess init last mid)
include h hl

/-- Behind an exactly full last record the new one is written past the end of the block. -/
theorem createEntry_full (hf : last.recLen=recordLength last.name.length) :
    createEntry fs taken dir name inode = .error .outOfBounds := by
  have ho : ¬ fs.blockSize +
      (⟨inode,fs.blockSize-fs.blockSize,name⟩ : Entry).bytes.length≤fs.blockSize := by
    rw [Entry.length_bytes]
    omega
  simp only [createEntry,h.walk_endsWithRoom hl,if_pos hf,writeEntry,cursorAt,if_neg ho]

private theorem createEntry_fits (hn : name.length<256) (hi : inode<2^32)
    (hf : recordLength last.name.length + recordLength name.length<last.recLen) :
    ∃ block recLen recLen', (ess.length-1)%256<dir.numbers.length ∧
      createEntry fs taken dir name inode = .ok (dir.write ((ess.length-1)%256) block) ∧
      Chain fs.blockSize block 0
        (init++[{ last with recLen := recLen }, ⟨inode,recLen',name⟩]) := by
  have hs : last.recLen≠recordLength last.name.length := by omega
  have he := hl.end_eq
  have hen : (cursorAt fs dir (ess.length-1) mid).entry=last := hl.last_eq
  have hr : ¬ fs.blockSize ≤
      (cursorAt fs dir (ess.length-1) mid).dirOffset + recordLength last.name.length +
        recordLength name.length := by
    simp only [cursorAt]
    omega
  have hne := le_recordLength name.length
  have hlt : (ess.length-1)%256<dir.numbers.length := by
    rw [h.length_numbers]
    exact lt_of_le_of_lt (Nat.mod_le _ _) (Nat.sub_lt hl.pos Nat.one_pos)
  refine ⟨_,_,_,hlt,?_,.insert fs.blockSize_le hl.init_chain hl.last_eq he hl.four_dvd hi hn hf⟩
  simp only [createEntry,h.walk_endsWithRoom hl,if_neg hs,hen,if_neg hr]
  simp only [writeEntry,cursorAt,Entry.length_bytes]
  rw [if_pos (by omega),inodeWriteBlock,if_pos hlt,Dir.write]

theorem createEntry_grows (hn : name.length<256) (hs : last.recLen≠recordLength last.name.length)
    (hf : last.recLen ≤ recordLength last.name.length + recordLength name.length) :
    createEntry fs taken dir name inode = .ok (inodeWriteBlock taken
      { allocateInodeBlock taken dir (ess.length%256) with
        size := (dir.size+fs.blockSize)%2 ^ 32 }
      (ess.length%256) (store zeros 0 (⟨inode,fs.blockSize,name⟩ : Entry).bytes)) := by
  have hen := hl.end_eq
  have hpos := hl.pos
  have hnr : ((ess.length-1)%256 + 1)%256=ess.length%256 := by omega
  have he : (cursorAt fs dir (ess.length-1) mid).entry=last := hl.last_eq
  have hr : fs.blockSize ≤
      (cursorAt fs dir (ess.length-1) mid).dirOffset + recordLength last.name.length +
        recordLength name.length := by
    simp only [cursorAt]
    omega
  have hsi := fs.le_blockSize
  simp only [createEntry,h.walk_endsWithRoom hl,if_neg hs,he,if_pos hr]
  simp only [writeEntry,Entry.length_bytes,cursorAt,hnr]
  rw [if_pos (by omega)]
  rfl

end

private theorem lookup_recLen : lookup [{ e with recLen := recLen }] other=lookup [e] other := by
  simp only [lookup,find?_singleton]
  split <;> simp

private theorem lookup_set (hj : ess[j]? = some (init++[last])) :
    ∃ before after : Option Nat, lookup ess.flatten other=before.or after ∧
      lookup (ess.set j (init++[{ last with recLen := recLen }, new])).flatten other =
        before.or ((lookup [new] other).or after) := by
  obtain ⟨hlt,hg⟩ := List.getElem?_eq_some_iff.1 hj
  have hs : ess=ess.take j++(init++[last])::ess.drop (j+1) := by
    conv_lhs => rw [← List.take_append_drop j ess,List.drop_eq_getElem_cons hlt,hg]
  refine ⟨lookup ((ess.take j).flatten++(init++[last])) other,
    lookup (ess.drop (j+1)).flatten other,?_,?_⟩
  · conv_lhs => rw [hs]
    rw [List.flatten_append,List.flatten_cons,← List.append_assoc,lookup_append]
  rw [List.set_eq_take_append_cons_drop,if_pos hlt,List.flatten_append,List.flatten_cons]
  have hp : [{ last with recLen := recLen }, new]=[{ last with recLen := recLen }]++[new] := rfl
  simp only [hp,lookup_append,lookup_recLen,Option.or_assoc]

theorem lookup_new (hi : 0 < inode) : lookup [⟨inode,recLen,name⟩] name=some inode := by
  simp [lookup,Nat.ne_of_gt hi]

theorem lookup_new_of_ne (h : other≠name) : lookup [⟨inode,recLen,name⟩] other=none := by
  simp [lookup,Ne.symm h]

private theorem Holds.write (h : Holds fs dir ess) (hj : j<dir.numbers.length)
    (hes : Chain fs.blockSize block 0 es) : Holds fs (dir.write j block) (ess.set j es) := by
  have hb := blocks_write h.distinct.of_append_left hj block
  refine ⟨?_,h.size_lt,forall₂_iff_get.2 ⟨?_,fun i hi hi' => ?_⟩,h.distinct⟩
  · rw [hb,length_set]
    exact h.size_eq
  · rw [hb,length_set,length_set,h.length_eq]
  simp only [hb,get_eq_getElem,getElem_set]
  split
  · exact hes
  · exact h.chains.get _ _

private theorem lookup_take_eq_none (h : lookup ess.flatten name=none) :
    lookup (ess.take n).flatten name=none := by
  rw [← take_append_drop n ess,flatten_append,lookup_append] at h
  exact (Option.or_eq_none_iff.1 h).1

/-- With the new record behind the last one, what may be missing are the blocks out of reach. -/
theorem inserted_fits_iff (h : Holds fs dir ess) (hl : LastBlock fs dir ess init last mid)
    (hn : name.length<256) (hnu : 0∉name) (hnew : lookup ess.flatten name=none)
    (hpos : 0 < inode) (hi : inode<2^32)
    (hfi : recordLength last.name.length + recordLength name.length<last.recLen) :
    Inserted fs ess name inode (createEntry fs taken dir name inode) ↔
      ∀ other, 0∉other → lookup (ess.take 256).flatten other=lookup ess.flatten other := by
  obtain ⟨block,recLen,recLen',hlt,hcr,hc⟩ := createEntry_fits h hl hn hi hfi
  have hd := h.write hlt hc
  have hj : (ess.take 256)[(ess.length-1)%256]? = some (init++[last]) := by
    rw [getElem?_take_of_lt (Nat.mod_lt _ (by decide)),hl.block_eq]
  have ho : ∀ other, 0∉other → other≠name →
      finddir fs (dir.write ((ess.length-1)%256) block) other =
        .ok (lookup (ess.take 256).flatten other) := by
    intro other hz hne
    obtain ⟨before,after,hold,hs⟩ := lookup_set hj
    rw [hd.finddir_eq hz,take_set,hs,lookup_new_of_ne hne,Option.none_or,hold]
  have hf : finddir fs (dir.write ((ess.length-1)%256) block) name = .ok (some inode) := by
    obtain ⟨before,after,hold,hs⟩ := lookup_set hj
    rw [lookup_take_eq_none hnew,eq_comm,Option.or_eq_none_iff] at hold
    rw [hd.finddir_eq hnu,take_set,hs,lookup_new hpos,hold.1]
    rfl
  rw [hcr]
  constructor
  · rintro ⟨-,-,ha⟩ other hz
    by_cases hne : other=name
    · subst hne
      rw [hnew,lookup_take_eq_none hnew]
    · exact Except.ok.inj ((ho other hz hne).symm.trans (ha other hz hne))
  · intro ha
    refine ⟨⟨_,hd⟩,hf,fun other hz hne => ?_⟩
    rw [ho other hz hne,ha other hz]

/-- The directory with the block taken behind its blocks. -/
def Dir.grow (dir : Dir) (taken : Taken) (size : Nat) (block : Block) : Dir where
  size := size
  numbers := dir.numbers++[taken.block]
  used := taken.pointers++dir.used
  disk := Function.update
    (fun b => if b∈taken.block::taken.pointers then zeros else dir.disk b) taken.block block

theorem Holds.grow_eq (h : Holds fs dir ess) (hc : ess.length<256) :
    inodeWriteBlock taken { allocateInodeBlock taken dir (ess.length%256) with size := size }
      (ess.length%256) block=dir.grow taken size block := by
  rw [Nat.mod_eq_of_lt hc,← h.length_numbers]
  simp [inodeWriteBlock,allocateInodeBlock,Dir.grow]

theorem blocks_grow (hf : taken.Free dir) :
    (dir.grow taken size block).blocks=dir.blocks++[block] := by
  have hd := disjoint_of_nodup_append hf
  have hb : ∀ b∈dir.numbers, b≠taken.block ∧ b∉taken.pointers := fun b hb =>
    ⟨fun he => hd hb (he ▸ mem_cons_self),
      fun hp => hd hb (mem_cons_of_mem _ (mem_append_left _ hp))⟩
  simp only [Dir.blocks,Dir.grow,map_append,map_singleton,Function.update_self]
  refine congrArg (· ++ [block]) (map_congr_left fun b hm => ?_)
  simp [hb b hm]

private theorem Holds.grow (h : Holds fs dir ess) (hf : taken.Free dir)
    (hes : Chain fs.blockSize block 0 es) (hlt : dir.size+fs.blockSize<2^32) :
    Holds fs (dir.grow taken (dir.size+fs.blockSize) block) (ess++[es]) where
  size_eq := by
    rw [blocks_grow hf,length_append,Nat.mul_add,← h.size_eq,length_singleton,Nat.mul_one]
    rfl
  size_lt := hlt
  chains := by
    rw [blocks_grow hf]
    exact rel_append h.chains (.cons hes .nil)
  distinct := by
    simpa [Taken.Free,Dir.grow] using hf

private theorem chain_new (hs : fs.blockSize<65536) (hn : name.length<256) (hi : inode<2^32) :
    Chain fs.blockSize (store zeros 0 (⟨inode,fs.blockSize,name⟩ : Entry).bytes) 0
      [⟨inode,fs.blockSize,name⟩] := by
  have hlen := fs.le_blockSize
  refine ⟨(entryAt_store hi hn).trans ?_,fs.four_dvd,?_,?_,?_⟩
  · rw [Nat.mod_eq_of_lt hs]
  all_goals simp only [Chain]; omega

section
variable (h : Holds fs dir ess) (hl : LastBlock fs dir ess init last mid) (hn : name.length<256)
include h hl hn

private theorem inserted_grows (hnu : 0∉name) (hnew : lookup ess.flatten name=none)
    (hpos : 0 < inode) (hi : inode<2^32) (hsl : last.recLen≠recordLength last.name.length)
    (hf : last.recLen ≤ recordLength last.name.length + recordLength name.length)
    (hc : ess.length<256) (hs : fs.blockSize<65536) (hfr : taken.Free dir) :
    Inserted fs ess name inode (createEntry fs taken dir name inode) := by
  have hlt : dir.size+fs.blockSize<2^32 := by
    have : fs.blockSize*ess.length≤65536*256 := Nat.mul_le_mul hs.le hc.le
    rw [h.size_eq,h.length_eq]
    omega
  have hd := h.grow hfr (chain_new hs hn hi) hlt
  have ht : (ess++[[(⟨inode,fs.blockSize,name⟩ : Entry)]]).take 256 =
      ess++[[⟨inode,fs.blockSize,name⟩]] := by
    refine take_of_length_le ?_
    rw [length_append,length_singleton]
    omega
  rw [createEntry_grows h hl hn hsl hf,h.grow_eq hc,Nat.mod_eq_of_lt hlt]
  refine ⟨⟨_,hd⟩,?_,fun other hz hne => ?_⟩
  · rw [hd.finddir_eq hnu,ht,flatten_append,lookup_append,hnew]
    exact congrArg _ (lookup_new hpos)
  · rw [hd.finddir_eq hz,ht,flatten_append,lookup_append]
    exact congrArg _ ((congrArg _ (lookup_new_of_ne hne)).trans Option.or_none)

/-- The new block has the place of an old one, a record of 64 KiB has the length 0, or a block is
used twice. -/
theorem not_inserted_grows (hi : inode<2^32) (hsl : last.recLen≠recordLength last.name.length)
    (hfi : last.recLen ≤ recordLength last.name.length + recordLength name.length)
    (hcn : 256≤ess.length ∨ fs.blockSize=65536 ∨ ¬ taken.Free dir) :
    ¬ Inserted fs ess name inode (createEntry fs taken dir name inode) := by
  have hlo := fs.le_blockSize
  have hh := fs.blockSize_le
  rw [createEntry_grows h hl hn hsl hfi]
  rintro ⟨⟨ess',hd⟩,-⟩
  by_cases hf : ess.length<256
  · rw [h.grow_eq hf] at hd
    have hfr : taken.Free dir := by simpa [Taken.Free,Dir.grow] using hd.distinct
    have hlt : dir.blocks.length<ess'.length := by
      rw [← hd.length_eq,blocks_grow hfr,length_append]
      exact Nat.lt_succ_self _
    have hc := hd.chain hlt
    simp only [inodeReadBlock,blocks_grow hfr,getD_eq_getElem?_getD,getElem?_concat_length,
      Option.getD_some] at hc
    cases hes : ess'[dir.blocks.length]?.getD [] with
    | nil =>
      rw [hes] at hc
      have : 0=fs.blockSize := hc
      omega
    | cons e es =>
      rw [hes] at hc
      obtain ⟨he,-,hlen,-,-⟩ := hc
      rw [entryAt_store hi hn] at he
      rw [← he] at hlen
      simp only at hlen
      exact hcn.elim (by omega) fun hcn => hcn.elim (by omega) fun hnf => hnf hfr
  · have hlt : ess.length%256<dir.numbers.length := by
      rw [h.length_numbers]
      omega
    have hs := hd.size_eq
    have hse := h.size_eq
    simp only [inodeWriteBlock,allocateInodeBlock,if_pos hlt,length_set,Dir.blocks,length_map]
      at hs hse
    omega

end

private theorem not_inserted_empty (h : Holds fs dir []) :
    ¬ Inserted fs [] name inode (createEntry fs taken dir name inode) := by
  have hs : dir.size=0 := by rw [h.size_eq,h.length_eq]; rfl
  have hc : createEntry fs taken dir name inode=writeEntry fs taken dir 0
      (inodeReadBlock dir 0) 0 name inode := by
    simp [createEntry,walk,hs,start]
  rw [hc,writeEntry]
  split
  · rintro ⟨-,hf,-⟩
    have hz : (inodeWriteBlock taken dir 0 (store (inodeReadBlock dir 0) 0
        (⟨inode,fs.blockSize-0,name⟩ : Entry).bytes)).size=0 := by
      simp only [inodeWriteBlock]
      split <;> exact hs
    simp only [finddir,walk,hz] at hf
    cases hf
  · exact id

def smallFs : Geometry := ⟨1024,by decide,by decide,by decide⟩

def layOut (block : Block) : Nat → List Entry → Block
  | _, [] => block
  | a, e::es => layOut (store block a e.bytes) (a+e.recLen) es

/-- The last record has 4 bytes to spare, so a block has to be added. -/
def newEntries : List Entry :=
  [⟨2,12,cString "."⟩, ⟨2,992,cString ".."⟩, ⟨11,20,cString "download"⟩]

def newDir : Dir := ⟨1024,[24],range 24,fun _ => layOut zeros 0 newEntries⟩

private theorem holds_newDir : Holds smallFs newDir [newEntries] :=
  ⟨rfl,by decide,.cons (by simp only [newEntries,Chain]; decide) .nil,by decide⟩

def fullEntries : List Entry :=
  [⟨2,12,cString "."⟩, ⟨2,996,cString ".."⟩, ⟨11,16,cString "download"⟩]

def fullDir : Dir := ⟨1024,[24],range 24,fun _ => layOut zeros 0 fullEntries⟩

end Create
end RazionOS.Modules.Ext2Dir
