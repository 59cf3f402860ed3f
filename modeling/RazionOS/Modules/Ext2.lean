import Mathlib.Algebra.Order.Ring.Int
import RazionOS.Framework.TableTree

/-!
# The block map of ext2

The blocks of a file are numbered from 0. An inode has the numbers of the first ones itself; the
others are in tables of one, two or three levels that the driver allocates as it needs them.
-/

namespace RazionOS.Modules.Ext2
open Framework Function List Nat

def ext2DirectBlocks : Nat := 12

inductive Status where
  | success
  | badBlock
  | noSpace
deriving DecidableEq

abbrev Block := Nat → Nat

/-- What the driver knows about its file system and the inode it works on. -/
structure Fs where
  blockSize : Nat
  blockSize_mem : blockSize∈[1024, 2048, 4096]
  inodeBlock : Nat
  storeInode : (Nat → Nat) → Block → Block

def Fs.pointersPerBlock (fs : Fs) : Nat := fs.blockSize/4

/-- `free` is what `allocate_block` will return, in this order. -/
structure State where
  block : Nat → Nat
  device : Nat → Block
  free : List Nat

section Driver
variable (fs : Fs)

/-- The product is an `unsigned int`. -/
def offset (blockNo : Nat) : Nat := blockNo*fs.blockSize%2^32

/-- The buffer stays as it is for block 0. -/
def readBlock (blockNo : Nat) (buf : Block) (st : State) : Block :=
  if blockNo=0 then buf else st.device (offset fs blockNo)

def writeBlock (blockNo : Nat) (buf : Block) (st : State) : State :=
  if blockNo=0 then st
  else { st with device := update st.device (offset fs blockNo) buf }

def writeInode (buf : Block) (st : State) : State :=
  writeBlock fs fs.inodeBlock (fs.storeInode st.block (readBlock fs fs.inodeBlock buf st)) st

def allocateBlock (st : State) : Nat × State :=
  match st.free with
  | [] => (0, st)
  | blockNo::free => (blockNo, writeBlock fs blockNo (fun _ => 0) { st with free := free })

/-- The entry of the inode for a table, which is allocated if there is none. -/
def inodeTable (slot : Nat) (buf : Block) (st : State) : Bool × State :=
  if st.block slot=0 then
    let (blockNo, st) := allocateBlock fs st
    if blockNo=0 then (false, st)
    else (true, writeInode fs buf { st with block := update st.block slot blockNo })
  else (true, st)

/-- The entry `c` of a table that is in the buffer, which is allocated if there is none. -/
def tableEntry (table c : Nat) (tmp : Block) (st : State) : Bool × Block × State :=
  if tmp c=0 then
    let (blockNo, st) := allocateBlock fs st
    if blockNo=0 then (false, tmp, st)
    else
      let tmp := update tmp c blockNo
      (true, tmp, writeBlock fs table tmp st)
  else (true, tmp, st)

/-- `buf` is what a buffer has when it comes from `malloc`. -/
def setBlockNumber (buf : Block) (iblock rblock : Nat) (st : State) : Status × State :=
  let p := fs.pointersPerBlock
  if iblock<ext2DirectBlocks then
    (.success, { st with block := update st.block iblock rblock })
  else if iblock<ext2DirectBlocks+p then
    match inodeTable fs ext2DirectBlocks buf st with
    | (false, st) => (.noSpace, st)
    | (true, st) =>
      let tmp := readBlock fs (st.block ext2DirectBlocks) buf st
      let tmp := update tmp (iblock-ext2DirectBlocks) rblock
      (.success, writeBlock fs (st.block ext2DirectBlocks) tmp st)
  else if iblock<ext2DirectBlocks+p+p*p then
    let a := iblock-ext2DirectBlocks
    let b := a-p
    let c := b/p
    let d := b-c*p
    match inodeTable fs (ext2DirectBlocks+1) buf st with
    | (false, st) => (.noSpace, st)
    | (true, st) =>
      let tmp := readBlock fs (st.block (ext2DirectBlocks+1)) buf st
      match tableEntry fs (st.block (ext2DirectBlocks+1)) c tmp st with
      | (false, _, st) => (.noSpace, st)
      | (true, tmp, st) =>
        let nblock := tmp c
        let tmp := readBlock fs nblock tmp st
        let tmp := update tmp d rblock
        (.success, writeBlock fs nblock tmp st)
  else if iblock<ext2DirectBlocks+p+p*p+p then
    let a := iblock-ext2DirectBlocks
    let b := a-p
    let c := b-p*p
    let d := c/(p*p)
    let e := c-d*p*p
    let f := e/p
    let g := e-f*p
    match inodeTable fs (ext2DirectBlocks+2) buf st with
    | (false, st) => (.noSpace, st)
    | (true, st) =>
      let tmp := readBlock fs (st.block (ext2DirectBlocks+2)) buf st
      match tableEntry fs (st.block (ext2DirectBlocks+2)) d tmp st with
      | (false, _, st) => (.noSpace, st)
      | (true, tmp, st) =>
        let nblock := tmp d
        let tmp := readBlock fs nblock tmp st
        match tableEntry fs nblock f tmp st with
        | (false, _, st) => (.noSpace, st)
        | (true, tmp, st) =>
          let nblock := tmp f
          let tmp := readBlock fs nblock tmp st
          -- the number of the table, not `rblock`
          let tmp := update tmp g nblock
          (.success, writeBlock fs nblock tmp st)
  else (.badBlock, st)

def getBlockNumber (buf : Block) (iblock : Nat) (st : State) : Nat :=
  let p := fs.pointersPerBlock
  if iblock<ext2DirectBlocks then st.block iblock
  else if iblock<ext2DirectBlocks+p then
    let tmp := readBlock fs (st.block ext2DirectBlocks) buf st
    tmp (iblock-ext2DirectBlocks)
  else if iblock<ext2DirectBlocks+p+p*p then
    let a := iblock-ext2DirectBlocks
    let b := a-p
    let c := b/p
    let d := b-c*p
    let tmp := readBlock fs (st.block (ext2DirectBlocks+1)) buf st
    let nblock := tmp c
    let tmp := readBlock fs nblock tmp st
    tmp d
  else if iblock<ext2DirectBlocks+p+p*p+p then
    let a := iblock-ext2DirectBlocks
    let b := a-p
    let c := b-p*p
    let d := c/(p*p)
    let e := c-d*p*p
    let f := e/p
    let g := e-f*p
    let tmp := readBlock fs (st.block (ext2DirectBlocks+2)) buf st
    let nblock := tmp d
    let tmp := readBlock fs nblock tmp st
    let nblock := tmp f
    let tmp := readBlock fs nblock tmp st
    tmp g
  else 0
end Driver

section Positions
variable (fs : Fs)

def tables (st : State) : Tables where
  root := st.block
  table b := st.device (offset fs b)

inductive IsTable : List Nat → Prop
  | single : IsTable [12]
  | double : IsTable [13]
  | triple : IsTable [14]
  | doubleEntry (hc : c<fs.pointersPerBlock) : IsTable [c, 13]
  | tripleEntry (hd : d<fs.pointersPerBlock) : IsTable [d, 14]
  | tripleEntryEntry (hf : f<fs.pointersPerBlock) (hd : d<fs.pointersPerBlock) :
      IsTable [f, d, 14]

def leaf (i : Nat) : List Nat :=
  let p := fs.pointersPerBlock
  if i<12 then [i]
  else if i<12+p then [i-12, 12]
  else if i<12+p+p*p then
    let b := i-12-p
    [b-b/p*p, b/p, 13]
  else
    let c := i-12-p-p*p
    let d := c/(p*p)
    let e := c-d*p*p
    [e-e/p*p, e/p, d, 14]

/-- One more than the last block that `set_block_number` and `get_block_number` reach. -/
def limit : Nat :=
  12 + fs.pointersPerBlock+fs.pointersPerBlock*fs.pointersPerBlock+fs.pointersPerBlock

/-- Tables are blocks of their own, what is free is free, and numbers are small enough. -/
structure Apart (st : State) : Prop where
  inj : ∀ Q Q', IsTable fs Q → IsTable fs Q' → (tables fs st).entry Q≠0 →
    (tables fs st).entry Q=(tables fs st).entry Q' → Q=Q'
  inode : ∀ Q, IsTable fs Q → (tables fs st).entry Q≠0 → (tables fs st).entry Q≠fs.inodeBlock
  small : ∀ Q, IsTable fs Q → (tables fs st).entry Q * fs.blockSize<2^32

structure Fresh (st : State) : Prop where
  nodup : st.free.Nodup
  ne_zero : ∀ b∈st.free, b≠0
  inode : ∀ b∈st.free, b≠fs.inodeBlock
  table : ∀ b∈st.free, ∀ Q, IsTable fs Q → (tables fs st).entry Q≠b

/-- The file system is one of less than 4 GiB. -/
def Small (st : State) : Prop :=
  fs.inodeBlock * fs.blockSize<2^32 ∧ ∀ b∈st.free, b*fs.blockSize<2^32
end Positions

variable {fs : Fs} {st st' : State}

private theorem blockSize_pos : 0<fs.blockSize := by
  have h := fs.blockSize_mem
  simp only [mem_cons,not_mem_nil,or_false] at h
  omega

theorem pointersPerBlock_pos (fs : Fs) : 0<fs.pointersPerBlock := by
  have h := fs.blockSize_mem
  simp only [mem_cons,not_mem_nil,or_false] at h
  rw [Fs.pointersPerBlock]
  omega

theorem offset_ne (ha : a*fs.blockSize<2^32) (hb : b*fs.blockSize<2^32) (hne : a≠b) :
    offset fs a≠offset fs b := by
  rw [offset,offset,mod_eq_of_lt ha,mod_eq_of_lt hb]
  exact fun heq => hne (eq_of_mul_eq_mul_right blockSize_pos heq)

theorem IsTable.tail (h : IsTable fs (x::y::Q)) : IsTable fs (y::Q) := by
  cases h with
  | doubleEntry => exact .double
  | tripleEntry => exact .triple
  | tripleEntryEntry hf hd => exact .tripleEntry hd

def IsPos (fs : Fs) (P : List Nat) : Prop := P≠[] ∧ ∀ x y Q, P=x::y::Q → IsTable fs (y::Q)

theorem IsTable.isPos (h : IsTable fs Q) : IsPos fs Q := by
  constructor
  · rintro rfl
    cases h
  · rintro x y R rfl
    exact h.tail

private theorem IsPos.tail (h : IsPos fs P) (ht : P.tail≠[]) : IsTable fs P.tail := by
  match P, h, ht with
  | x::y::Q, h, _ => exact h.2 x y Q rfl

/-- What is in use stays, and so does every leaf. -/
def Keeps (fs : Fs) (st st' : State) : Prop :=
  ∀ P, IsPos fs P → (IsTable fs P → (tables fs st).entry P≠0) →
    (tables fs st').entry P=(tables fs st).entry P

theorem Keeps.refl : Keeps fs st st := fun _ _ _ => rfl

private theorem Keeps.trans (h : Keeps fs st st') (h' : Keeps fs st' st'') : Keeps fs st st'' := by
  intro P hP hu
  have hf := h P hP hu
  rw [h' P hP fun ht => hf ▸ hu ht,hf]

theorem entry_change (hb : ∀ s, st'.block s=if w=[s] then v else st.block s)
    (hd : ∀ x y Q, IsTable fs (y::Q) → (tables fs st).entry (y::Q)≠0 →
      st'.device (offset fs ((tables fs st).entry (y::Q))) x =
        if w=x::y::Q then v else st.device (offset fs ((tables fs st).entry (y::Q))) x)
    (hp : ∀ x y Q, w=x::y::Q → (tables fs st).entry (y::Q)≠0)
    (hn : IsTable fs w → (tables fs st).entry w=0 ∧ ∀ x, st'.device (offset fs v) x=0)
    (hP : IsPos fs P) : (tables fs st').entry P=if P=w then v else (tables fs st).entry P := by
  have hs : (tables fs st').entry P=if P≠[] ∧ P=w then v else (tables fs st).entry P :=
    Tables.entry_set (fun _ _ _ h => IsTable.tail h) hb hd hp hn hP.2
  rw [hs]
  simp [hP.1]

structure Good (fs : Fs) (st : State) : Prop where
  apart : Apart fs st
  fresh : Fresh fs st
  small : Small fs st

theorem Good.attach (h : Good fs st) (hf : st.free=b::st'.free) (hw : IsTable fs w)
    (hz : (tables fs st).entry w=0)
    (he : ∀ P, IsPos fs P → (tables fs st').entry P=if P=w then b else (tables fs st).entry P) :
    Good fs st' ∧ Keeps fs st st' := by
  have hb := hf ▸ mem_cons_self
  have hsub : ∀ a∈st'.free, a∈st.free := fun a ha => hf ▸ mem_cons_of_mem b ha
  have hnd := nodup_cons.1 (hf ▸ h.fresh.nodup)
  have hb' := h.fresh.table b hb
  refine ⟨⟨⟨?_,?_,?_⟩,⟨hnd.2,?_,?_,?_⟩,h.small.1,?_⟩,?_⟩
  · intro Q Q' hQ hQ' hne heq
    rw [he Q hQ.isPos] at hne heq
    rw [he Q' hQ'.isPos] at heq
    by_cases hQw : Q=w
    · by_cases hQw' : Q' = w
      · rw [hQw,hQw']
      · rw [if_pos hQw,if_neg hQw'] at heq
        exact absurd heq.symm (hb' Q' hQ')
    · by_cases hQw' : Q' = w
      · rw [if_neg hQw,if_pos hQw'] at heq
        exact absurd heq (hb' Q hQ)
      · rw [if_neg hQw] at hne heq
        rw [if_neg hQw'] at heq
        exact h.apart.inj Q Q' hQ hQ' hne heq
  · intro Q hQ hne
    rw [he Q hQ.isPos] at hne ⊢
    by_cases hQw : Q=w
    · rw [if_pos hQw]
      exact h.fresh.inode b hb
    · rw [if_neg hQw] at hne ⊢
      exact h.apart.inode Q hQ hne
  · intro Q hQ
    rw [he Q hQ.isPos]
    by_cases hQw : Q=w
    · rw [if_pos hQw]
      exact h.small.2 b hb
    · rw [if_neg hQw]
      exact h.apart.small Q hQ
  · exact fun a ha => h.fresh.ne_zero a (hsub a ha)
  · exact fun a ha => h.fresh.inode a (hsub a ha)
  · intro a ha Q hQ
    rw [he Q hQ.isPos]
    by_cases hQw : Q=w
    · rw [if_pos hQw]
      rintro rfl
      exact hnd.1 ha
    · rw [if_neg hQw]
      exact h.fresh.table a (hsub a ha) Q hQ
  · exact fun a ha => h.small.2 a (hsub a ha)
  · intro P hP hu
    have hPw : P≠w := by
      rintro rfl
      exact hu hw hz
    rw [he P hP,if_neg hPw]

theorem Good.setLeaf (h : Good fs st) (hf : st'.free=st.free) (hw : ¬ IsTable fs w)
    (he : ∀ P, IsPos fs P → (tables fs st').entry P=if P=w then r else (tables fs st).entry P) :
    Good fs st' := by
  have hs : ∀ Q, IsTable fs Q → (tables fs st').entry Q=(tables fs st).entry Q := by
    intro Q hQ
    rw [he Q hQ.isPos,if_neg fun heq : Q=w => hw (heq ▸ hQ)]
  constructor
  · constructor
    · intro Q Q' hQ hQ' hne heq
      rw [hs Q hQ] at hne heq
      rw [hs Q' hQ'] at heq
      exact h.apart.inj Q Q' hQ hQ' hne heq
    · intro Q hQ hne
      rw [hs Q hQ] at hne ⊢
      exact h.apart.inode Q hQ hne
    · intro Q hQ
      rw [hs Q hQ]
      exact h.apart.small Q hQ
  · constructor
    · exact hf ▸ h.fresh.nodup
    · exact hf ▸ h.fresh.ne_zero
    · exact hf ▸ h.fresh.inode
    · intro b hb Q hQ
      rw [hs Q hQ]
      exact h.fresh.table b (hf ▸ hb) Q hQ
  · exact ⟨h.small.1,hf ▸ h.small.2⟩

@[simp] theorem writeBlock_block : (writeBlock fs blockNo buf st).block=st.block := by
  rw [writeBlock]
  split <;> rfl

@[simp] theorem writeBlock_free : (writeBlock fs blockNo buf st).free=st.free := by
  rw [writeBlock]
  split <;> rfl

theorem writeBlock_device_of_ne (ho : o≠offset fs blockNo) :
    (writeBlock fs blockNo buf st).device o=st.device o := by
  rw [writeBlock]
  by_cases hz : blockNo=0
  · rw [if_pos hz]
  · rw [if_neg hz]
    exact update_of_ne ho ..

theorem writeBlock_device (hne : blockNo≠0) :
    (writeBlock fs blockNo buf st).device (offset fs blockNo)=buf := by
  rw [writeBlock,if_neg hne]
  exact update_self ..

theorem Good.offset_ne_free (h : Good fs st) (hb : b∈st.free) (hQ : IsTable fs Q) :
    offset fs ((tables fs st).entry Q)≠offset fs b :=
  offset_ne (h.apart.small Q hQ) (h.small.2 b hb) (h.fresh.table b hb Q hQ)

private theorem Good.offset_ne_inode (h : Good fs st) (hQ : IsTable fs Q)
    (hne : (tables fs st).entry Q≠0) :
    offset fs ((tables fs st).entry Q)≠offset fs fs.inodeBlock :=
  offset_ne (h.apart.small Q hQ) h.small.1 (h.apart.inode Q hQ hne)

private theorem inodeTable_good (h : Good fs st) (hsl : IsTable fs [slot]) :
    Good fs (inodeTable fs slot buf st).2 ∧ Keeps fs st (inodeTable fs slot buf st).2 ∧
      ((inodeTable fs slot buf st).1=true → (inodeTable fs slot buf st).2.block slot≠0) := by
  rw [inodeTable]
  by_cases hz : st.block slot=0
  · rw [if_pos hz,allocateBlock]
    cases hf : st.free with
    | nil =>
      exact ⟨h,Keeps.refl,nofun⟩
    | cons b free =>
      have hb := hf ▸ mem_cons_self
      have hb0 := h.fresh.ne_zero b hb
      have hbi := offset_ne (h.small.2 b hb) h.small.1 (h.fresh.inode b hb)
      simp only [if_neg hb0]
      refine and_assoc.1 ⟨h.attach (b := b) ?_ hsl hz fun P hP => ?_,?_⟩
      · simp [writeInode,hf]
      · apply entry_change _ _ (by simp) _ hP
        · intro s
          by_cases hs : s=slot
          · simp [writeInode,hs]
          · have hs' : slot≠s := fun heq => hs heq.symm
            simp [writeInode,hs,hs']
        · intro x y Q hQ hne
          rw [if_neg (by simp),writeInode,writeBlock_device_of_ne (h.offset_ne_inode hQ hne)]
          exact congrFun (writeBlock_device_of_ne (h.offset_ne_free hb hQ)) x
        · refine fun _ => ⟨hz,fun x => ?_⟩
          rw [writeInode,writeBlock_device_of_ne hbi]
          exact congrFun (writeBlock_device hb0) x
      · simpa [writeInode] using hb0
  · rw [if_neg hz]
    exact ⟨h,Keeps.refl,fun _ => hz⟩

theorem entry_writeTable (hne : (tables fs st).entry (y::Q)≠0) (hb : st'.block=st.block)
    (hd : st'.device (offset fs ((tables fs st).entry (y::Q))) =
      update (st.device (offset fs ((tables fs st).entry (y::Q)))) c v)
    (ho : ∀ Q', IsTable fs Q' → (tables fs st).entry Q' ≠ 0 → Q' ≠ y::Q →
      st'.device (offset fs ((tables fs st).entry Q')) =
        st.device (offset fs ((tables fs st).entry Q')))
    (hn : IsTable fs (c::y::Q) →
      (tables fs st).entry (c::y::Q)=0 ∧ ∀ x, st'.device (offset fs v) x=0)
    (hP : IsPos fs P) :
    (tables fs st').entry P=if P=c::y::Q then v else (tables fs st).entry P := by
  apply entry_change _ _ _ hn hP
  · simp [hb]
  · intro x z Q' hQ' hne'
    by_cases heq : z::Q' = y::Q
    · rw [heq,hd]
      by_cases hx : x=c
      · rw [hx,update_self,if_pos rfl]
      · have hcx : c≠x := fun heq => hx heq.symm
        rw [update_of_ne hx,if_neg (by simp [hcx])]
    · rw [ho _ hQ' hne' heq,if_neg]
      intro hw
      exact heq (cons.inj hw).2.symm
  · intro x z Q' hw
    rw [← (cons.inj hw).2]
    exact hne

private theorem tableEntry_good (h : Good fs st) (hc : IsTable fs (c::y::Q))
    (hp : (tables fs st).entry (y::Q)≠0)
    (he : tableEntry fs ((tables fs st).entry (y::Q)) c
      (st.device (offset fs ((tables fs st).entry (y::Q)))) st=(ok, tmp, st')) :
    Good fs st' ∧ Keeps fs st st' ∧
      (ok=true → tmp c≠0 ∧ (tables fs st').entry (c::y::Q)=tmp c) := by
  have hQ := hc.tail
  have hch : (tables fs st).entry (c::y::Q) = st.device _ c := Tables.entry_of_ne hp
  rw [tableEntry] at he
  by_cases hz : st.device (offset fs ((tables fs st).entry (y::Q))) c=0
  · rw [if_pos hz,allocateBlock] at he
    rw [hz] at hch
    cases hf : st.free with
    | nil =>
      simp only [hf] at he
      cases he
      exact ⟨h,Keeps.refl,nofun⟩
    | cons b free =>
      have hb := hf ▸ mem_cons_self
      have hb0 := h.fresh.ne_zero b hb
      simp only [hf,if_neg hb0,Prod.mk.injEq] at he
      obtain ⟨-,rfl,hst'⟩ := he
      have hs : ∀ P, IsPos fs P → (tables fs st').entry P =
          if P=c::y::Q then b else (tables fs st).entry P := by
        intro P hP
        rw [← hst']
        apply entry_writeTable hp _ _ _ _ hP
        · simp
        · exact writeBlock_device hp
        · intro Q' hQ' hne' hQQ'
          have ho := offset_ne (h.apart.small Q' hQ') (h.apart.small _ hQ)
            fun heq => hQQ' (h.apart.inj Q' _ hQ' hQ hne' heq)
          rw [writeBlock_device_of_ne ho,writeBlock_device_of_ne (h.offset_ne_free hb hQ')]
        · refine fun _ => ⟨hch,fun x => ?_⟩
          rw [writeBlock_device_of_ne (h.offset_ne_free hb hQ).symm]
          exact congrFun (writeBlock_device hb0) x
      have ha := h.attach (by simp [hf,← hst']) hc hch hs
      refine ⟨ha.1,ha.2,fun _ => ?_⟩
      rw [update_self,hs _ hc.isPos,if_pos rfl]
      exact ⟨hb0,rfl⟩
  · rw [if_neg hz] at he
    cases he
    exact ⟨h,Keeps.refl,fun _ => ⟨hz,hch⟩⟩

private theorem writeLeaf_good (h : Good fs st) (hQ : IsTable fs (y::Q))
    (hne : (tables fs st).entry (y::Q)≠0) (hl : ¬ IsTable fs (c::y::Q))
    (hst' : st' = writeBlock fs ((tables fs st).entry (y::Q))
      (update (st.device (offset fs ((tables fs st).entry (y::Q)))) c r) st) :
    Good fs st' ∧ ∀ P, IsPos fs P →
      (tables fs st').entry P=if P=c::y::Q then r else (tables fs st).entry P := by
  have hs : ∀ P, IsPos fs P →
      (tables fs st').entry P=if P=c::y::Q then r else (tables fs st).entry P := by
    intro P hP
    rw [hst']
    apply entry_writeTable hne _ _ _ _ hP
    · simp
    · exact writeBlock_device hne
    · intro Q' hQ' hne' hQQ'
      have ho := offset_ne (h.apart.small Q' hQ') (h.apart.small _ hQ)
        fun heq => hQQ' (h.apart.inj Q' _ hQ' hQ hne' heq)
      rw [writeBlock_device_of_ne ho]
    · exact fun ht => absurd ht hl
  exact ⟨h.setLeaf (by simp [hst']) hl hs,hs⟩

/-- The blocks within reach and their positions. -/
inductive IsLeaf (fs : Fs) : Nat → List Nat → Prop
  | direct (hi : i<12) : IsLeaf fs i [i]
  | single (hx : x<fs.pointersPerBlock) : IsLeaf fs (12+x) [x, 12]
  | double (hc : c<fs.pointersPerBlock) (hd : d<fs.pointersPerBlock) :
      IsLeaf fs (12+fs.pointersPerBlock+(c*fs.pointersPerBlock+d)) [d, c, 13]
  | triple (hg : g<fs.pointersPerBlock) :
      IsLeaf fs (12+fs.pointersPerBlock+fs.pointersPerBlock*fs.pointersPerBlock+g) [g, 0, 0, 14]

theorem isLeaf_leaf (hi : i<limit fs) : IsLeaf fs i (leaf fs i) := by
  have hp := pointersPerBlock_pos fs
  rw [leaf]
  rw [limit] at hi
  generalize hpp : fs.pointersPerBlock=p at *
  dsimp only
  by_cases hdi : i<12
  · rw [if_pos hdi]
    exact .direct hdi
  rw [if_neg hdi]
  by_cases hs : i<12+p
  · rw [if_pos hs]
    obtain ⟨x,rfl⟩ : ∃ x, i=12+x := ⟨i-12,by omega⟩
    rw [Nat.add_sub_cancel_left]
    exact .single (by omega)
  rw [if_neg hs]
  by_cases hdo : i<12+p+p*p
  · rw [if_pos hdo]
    obtain ⟨b,rfl⟩ : ∃ b, i=12+p+b := ⟨i-(12+p),by omega⟩
    have hb : 12+p+b-12-p=b := by omega
    have hdiv : b/p<p := Nat.div_lt_of_lt_mul (by omega)
    have hm : b-b/p*p=b%p := by
      rw [Nat.mul_comm,mod_eq_sub_mul_div]
    have hsu : b=b/p*p+b%p := by
      rw [Nat.mul_comm,div_add_mod]
    have hl := @IsLeaf.double fs _ _ (hpp ▸ hdiv) (hpp ▸ mod_lt b hp)
    rw [hpp,← hsu] at hl
    rwa [hb,hm]
  · rw [if_neg hdo]
    obtain ⟨g,rfl⟩ : ∃ g, i=12+p+p*p+g := ⟨i-(12+p+p*p),by omega⟩
    have hg : 12+p+p*p+g-12-p-p*p=g := by omega
    have hgp : g<p := by omega
    have hd : g/(p*p)=0 := div_eq_of_lt (Nat.lt_of_lt_of_le hgp (Nat.le_mul_self p))
    have hf : g/p=0 := div_eq_of_lt hgp
    have hl := @IsLeaf.triple fs _ (hpp ▸ hgp)
    rw [hpp] at hl
    simpa [hg,hd,hf] using hl

namespace IsLeaf

theorem isPos (h : IsLeaf fs i P) : IsPos fs P := by
  cases h with
  | direct => exact ⟨by simp,by simp⟩
  | single =>
    refine ⟨by simp,fun x y Q heq => ?_⟩
    cases heq
    exact .single
  | double hc =>
    refine ⟨by simp,fun x y Q heq => ?_⟩
    cases heq
    exact .doubleEntry hc
  | triple hg =>
    refine ⟨by simp,fun x y Q heq => ?_⟩
    cases heq
    have hp := pointersPerBlock_pos fs
    exact .tripleEntryEntry hp hp

theorem not_isTable (h : IsLeaf fs i P) : ¬ IsTable fs P := by
  intro ht
  cases h with
  | direct hi => cases ht <;> omega
  | single => cases ht
  | double => cases ht
  | triple => cases ht

private theorem unique (h : IsLeaf fs i P) (h' : IsLeaf fs j P) : i=j := by
  cases h <;> cases h' <;> rfl
end IsLeaf

/-- The tables that lead to a block of the file are there. -/
def Mapped (fs : Fs) (st : State) (i : Nat) : Prop :=
  i<limit fs → (leaf fs i).tail≠[] → (tables fs st).entry (leaf fs i).tail≠0

private theorem entry_parent (h : (tables fs st).entry (x::y::Q)≠0) :
    (tables fs st).entry (y::Q)≠0 :=
  fun hz => h (Tables.entry_of_eq hz)

private theorem readBlock_entry (h : (tables fs st).entry (y::Q)≠0) :
    readBlock fs ((tables fs st).entry (y::Q)) buf st x=(tables fs st).entry (x::y::Q) := by
  rw [readBlock,if_neg h,Tables.entry_of_ne h]
  rfl

private theorem readBlock_of_ne (h : blockNo≠0) :
    readBlock fs blockNo buf st=st.device (offset fs blockNo) := by
  rw [readBlock,if_neg h]

private theorem getBlockNumber_of_limit_le (hi : limit fs ≤ i) : getBlockNumber fs buf i st=0 := by
  rw [limit] at hi
  rw [getBlockNumber,ext2DirectBlocks]
  rw [if_neg (by omega),if_neg (by omega),if_neg (by omega),if_neg (by omega)]

private theorem getBlockNumber_eq (hi : i<limit fs) (hm : Mapped fs st i) :
    getBlockNumber fs buf i st=(tables fs st).entry (leaf fs i) := by
  have ht := hm hi
  rw [limit] at hi
  rw [leaf] at ht ⊢
  rw [getBlockNumber,ext2DirectBlocks]
  dsimp only at ht ⊢
  by_cases hdi : i<12
  · rw [if_pos hdi,if_pos hdi]
    rfl
  rw [if_neg hdi] at ht ⊢
  rw [if_neg hdi]
  by_cases hs : i<12+fs.pointersPerBlock
  · rw [if_pos hs] at ht ⊢
    rw [if_pos hs]
    have h12 := ht (by simp)
    exact readBlock_entry h12
  rw [if_neg hs] at ht ⊢
  rw [if_neg hs]
  by_cases hdo : i<12+fs.pointersPerBlock+fs.pointersPerBlock*fs.pointersPerBlock
  · rw [if_pos hdo] at ht ⊢
    rw [if_pos hdo]
    generalize i - 12-fs.pointersPerBlock=b at *
    have hc := ht (by simp)
    have hr : readBlock fs (st.block (12+1)) buf st (b/fs.pointersPerBlock)=_ :=
      readBlock_entry (entry_parent hc)
    rw [hr,readBlock_entry hc]
  · rw [if_neg hdo] at ht ⊢
    rw [if_neg hdo,if_pos hi]
    generalize i - 12-fs.pointersPerBlock-fs.pointersPerBlock*fs.pointersPerBlock=c at *
    generalize c / (fs.pointersPerBlock*fs.pointersPerBlock)=d at *
    have hf := ht (by simp)
    have hd := entry_parent hf
    have hr : readBlock fs (st.block (12+2)) buf st d=_ := readBlock_entry (entry_parent hd)
    rw [hr,readBlock_entry hd,readBlock_entry hf]

structure SetsLeaf (fs : Fs) (st : State) (P : List Nat) (r : Nat) (st' : State) : Prop where
  leaf : (tables fs st').entry P=r
  mapped : P.tail≠[] → (tables fs st').entry P.tail≠0
  other : ∀ P', IsPos fs P' → P' ≠ P → (IsTable fs P' → (tables fs st).entry P' ≠ 0) →
    (tables fs st').entry P' = (tables fs st).entry P'

private theorem SetsLeaf.of_keeps (hk : Keeps fs st st1) (hQ : IsTable fs (y::Q))
    (hne : (tables fs st1).entry (y::Q)≠0) (hpos : IsPos fs (x::y::Q))
    (hl : ∀ P, IsPos fs P →
      (tables fs st').entry P=if P=x::y::Q then r else (tables fs st1).entry P) :
    SetsLeaf fs st (x::y::Q) r st' where
  leaf := by rw [hl _ hpos,if_pos rfl]
  mapped _ := by
    have hs : y::Q≠x::y::Q := by
      intro heq
      have hlen := congrArg length heq
      simp at hlen
    rwa [tail_cons,hl _ hQ.isPos,if_neg hs]
  other P hP hp hu := by rw [hl P hP,if_neg hp,hk P hP hu]

private theorem setDirect_spec (h : Good fs st) (hil : IsLeaf fs i [i]) :
    Good fs { st with block := update st.block i r } ∧
      SetsLeaf fs st [i] r { st with block := update st.block i r } := by
  have hse : ∀ P, IsPos fs P → (tables fs { st with block := update st.block i r }).entry P =
        if P=[i] then r else (tables fs st).entry P := by
    intro P hP
    apply entry_change _ _ (by simp) _ hP
    · intro s
      by_cases hs : s=i
      · simp [hs]
      · have hs' : i≠s := fun heq => hs heq.symm
        simp [hs,hs']
    · intro x y Q _ _
      rw [if_neg (by simp)]
    · exact fun ht => absurd ht hil.not_isTable
  refine ⟨h.setLeaf rfl hil.not_isTable hse,?_,by simp,?_⟩
  · rw [hse _ hil.isPos,if_pos rfl]
  · intro P hP hne _
    rw [hse P hP,if_neg hne]

theorem setBlockNumber_spec (h : Good fs st)
    (hi : i<12+fs.pointersPerBlock+fs.pointersPerBlock*fs.pointersPerBlock) :
    Good fs (setBlockNumber fs buf i r st).2 ∧ ((setBlockNumber fs buf i r st).1 = .success →
        SetsLeaf fs st (leaf fs i) r (setBlockNumber fs buf i r st).2) := by
  have hli : i<limit fs := by
    rw [limit]
    omega
  have hil := isLeaf_leaf hli
  rw [leaf] at hil ⊢
  rw [setBlockNumber,ext2DirectBlocks]
  dsimp only at hil ⊢
  by_cases hd : i<12
  · rw [if_pos hd] at hil ⊢
    rw [if_pos hd]
    obtain ⟨hg,hse⟩ := setDirect_spec (r := r) h hil
    exact ⟨hg,fun _ => hse⟩
  rw [if_neg hd] at hil ⊢
  rw [if_neg hd]
  by_cases hs : i<12+fs.pointersPerBlock
  · rw [if_pos hs] at hil ⊢
    rw [if_pos hs]
    have hin : Good fs (inodeTable fs 12 buf st).2 ∧ _ := inodeTable_good h .single
    generalize inodeTable fs 12 buf st=result at *
    obtain ⟨ok,st1⟩ := result
    cases ok with
    | false => exact ⟨hin.1,nofun⟩
    | true =>
      have h12 := hin.2.2 rfl
      have hl := writeLeaf_good (r := r) hin.1 .single h12 hil.not_isTable rfl
      have hr : readBlock fs (st1.block 12) buf st1=st1.device (offset fs (st1.block 12)) :=
        readBlock_of_ne h12
      simp only [hr]
      exact ⟨hl.1,fun _ => .of_keeps hin.2.1 .single h12 hil.isPos hl.2⟩
  rw [if_neg hs,if_pos hi] at hil ⊢
  rw [if_neg hs,if_pos hi]
  generalize i - 12-fs.pointersPerBlock=b at *
  have hc := hil.isPos.2 _ _ _ rfl
  generalize b / fs.pointersPerBlock=c at *
  have hin : Good fs (inodeTable fs (12+1) buf st).2 ∧ _ := inodeTable_good h .double
  generalize inodeTable fs (12+1) buf st=result at *
  obtain ⟨ok,st1⟩ := result
  cases ok with
  | false => exact ⟨hin.1,nofun⟩
  | true =>
    have h13 := hin.2.2 rfl
    have hr : readBlock fs (st1.block (12+1)) buf st1 = st1.device _ := readBlock_of_ne h13
    simp only [hr]
    generalize he : tableEntry fs (st1.block (12+1)) c
      _ st1=result
    obtain ⟨ok,tmp,st2⟩ := result
    have ht := tableEntry_good hin.1 hc h13 he
    cases ok with
    | false => exact ⟨ht.1,nofun⟩
    | true =>
      obtain ⟨hne,heq⟩ := ht.2.2 rfl
      rw [← heq] at hne
      simp only [← heq,readBlock_of_ne hne]
      have hl := writeLeaf_good (r := r) ht.1 hc hne hil.not_isTable rfl
      exact ⟨hl.1,fun _ =>
        .of_keeps (hin.2.1.trans ht.2.1) hc hne hil.isPos hl.2⟩

/-- Other files may allocate and free blocks between the calls. -/
inductive Reached (fs : Fs) : State → Prop
  | start {st : State} : Apart fs st → Reached fs st
  | allocator {st : State} (free : List Nat) : Reached fs st → Reached fs { st with free := free }
  | set {st : State} (buf : Block) (i r : Nat) : Reached fs st → Fresh fs st → Small fs st →
      i<12+fs.pointersPerBlock+fs.pointersPerBlock*fs.pointersPerBlock →
      Reached fs (setBlockNumber fs buf i r st).2

private theorem apart_of_empty (hb : ∀ s, st.block s=0) : Apart fs st := by
  have hz : ∀ Q, (tables fs st).entry Q=0 := by
    intro Q
    induction Q with
    | nil => rfl
    | cons x Q ih =>
      cases Q with
      | nil => exact hb x
      | cons y Q => exact Tables.entry_of_eq ih
  constructor
  · exact fun Q Q' _ _ hne => absurd (hz Q) hne
  · exact fun Q _ hne => absurd (hz Q) hne
  intro Q _
  rw [hz,Nat.zero_mul]
  decide

private theorem Reached.apart (h : Reached fs st) : Apart fs st := by
  induction h with
  | start ha => exact ha
  | allocator free _ ih => exact ⟨ih.inj,ih.inode,ih.small⟩
  | set buf i r _ hf hs hi ih => exact (setBlockNumber_spec ⟨ih,hf,hs⟩ hi).1.apart

/-- Below the triple indirect blocks, `set_block_number` sets one number. The others stay as far as
their tables are there. -/
theorem setBlockNumber_getBlockNumber (h : Reached fs st) (hfresh : Fresh fs st)
    (hsmall : Small fs st) {i r : Nat}
    (hi : i < 12+fs.pointersPerBlock+fs.pointersPerBlock*fs.pointersPerBlock)
    (hset : setBlockNumber fs buf i r st = (.success, st')) :
    (∀ buf', getBlockNumber fs buf' i st' = r) ∧ ∀ j ≠ i, Mapped fs st j → ∀ buf1 buf2,
        getBlockNumber fs buf1 j st' = getBlockNumber fs buf2 j st := by
  have hs : SetsLeaf fs st (leaf fs i) r st' := by
    have hr : (setBlockNumber fs buf i r st).2=st' := congrArg Prod.snd hset
    rw [← hr]
    exact (setBlockNumber_spec ⟨h.apart,hfresh,hsmall⟩ hi).2 (congrArg Prod.fst hset)
  have hli : i<limit fs := by
    rw [limit]
    omega
  constructor
  · intro buf'
    rw [getBlockNumber_eq hli fun _ => hs.mapped,hs.leaf]
  intro j hji hm buf1 buf2
  by_cases hj : j<limit fs
  · have hl := isLeaf_leaf hj
    have hne : leaf fs j≠leaf fs i := by
      intro heq
      rw [heq] at hl
      exact hji (hl.unique (isLeaf_leaf hli))
    have hm' : Mapped fs st' j := by
      intro hj' ht
      have hta := hl.isPos.tail ht
      have ho : (leaf fs j).tail≠leaf fs i :=
        fun heq => (isLeaf_leaf hli).not_isTable (heq ▸ hta)
      rw [hs.other _ hta.isPos ho fun _ => hm hj' ht]
      exact hm hj' ht
    rw [getBlockNumber_eq hj hm',getBlockNumber_eq hj hm]
    exact hs.other _ hl.isPos hne fun hta => absurd hta hl.not_isTable
  · rw [getBlockNumber_of_limit_le (by omega),getBlockNumber_of_limit_le (by omega)]

def smallFs : Fs := ⟨1024,by decide,5,fun _ block => block⟩
def largeFs : Fs := ⟨4096,by decide,5,fun _ block => block⟩
def newInode (free : List Nat) : State := ⟨fun _ => 0,fun _ _ => 0,free⟩
def zeros : Block := fun _ => 0

private theorem newInode_entry : (tables smallFs (newInode free)).entry Q=0 := by
  induction Q with
  | nil => rfl
  | cons x Q ih =>
    cases Q with
    | nil => rfl
    | cons y Q => exact Tables.entry_of_eq ih

/-- The first double indirect block of a new inode. -/
theorem setBlockNumber_getBlockNumber_newInode : (∀ buf, getBlockNumber smallFs buf 268
      (setBlockNumber smallFs zeros 268 100 (newInode [50, 51])).2 = 100) ∧
    ∀ j ≠ 268, Mapped smallFs (newInode [50, 51]) j → ∀ buf1 buf2,
      getBlockNumber smallFs buf1 j (setBlockNumber smallFs zeros 268 100 (newInode [50, 51])).2 =
        getBlockNumber smallFs buf2 j (newInode [50, 51]) := by
  have hf : Fresh smallFs (newInode [50, 51]) := by
    refine ⟨by decide,by decide,by decide,fun b hb Q _ => ?_⟩
    rw [newInode_entry]
    rintro rfl
    exact absurd hb (by decide)
  have hs : Small smallFs (newInode [50, 51]) := ⟨by decide +kernel,by decide +kernel⟩
  have hse : (setBlockNumber smallFs zeros 268 100 (newInode [50, 51])).1 = .success := by
    decide +kernel
  generalize hr : setBlockNumber smallFs zeros 268 100 (newInode [50, 51])=result at *
  obtain ⟨status,st⟩ := result
  cases hse
  exact setBlockNumber_getBlockNumber (.start (apart_of_empty fun _ => rfl)) hf hs
    (by decide +kernel) hr

/-- The first triple indirect block gets the table's own number. A number in a missing table of the
second level is read from that of the first, and a new table with too large a number is written over
an old one. -/
theorem setBlockNumber_wrong :
    (let (status, st) := setBlockNumber smallFs zeros 65804 100 (newInode [50, 51, 52])
    status = .success ∧ getBlockNumber smallFs zeros 65804 st = 52) ∧
    (let (_, st1) := setBlockNumber smallFs zeros 268 100 (newInode [50, 51, 52])
    let (status, st2) := setBlockNumber smallFs zeros 524 101 st1
    status = .success ∧ getBlockNumber smallFs zeros 781 st1 = 0 ∧
      getBlockNumber smallFs zeros 781 st2 = 52) ∧
    (let (_, st1) := setBlockNumber largeFs zeros 12 100 (newInode [50, 1048626, 51])
    let (status, st2) := setBlockNumber largeFs zeros 1036 101 st1
    status = .success ∧ getBlockNumber largeFs zeros 12 st1 = 100 ∧
      getBlockNumber largeFs zeros 12 st2 = 51) := by
  decide +kernel
end RazionOS.Modules.Ext2
