import RazionOS.Kernel.Vfs.Tmpfs.File

/-! # The content of a tmpfs file -/

namespace RazionOS.Kernel
open Framework List Option TmpfsFile

variable {n m o b size : Nat}

theorem u64_natCast (h : n<2^64) : u64 (n : Int)=n := by
  unfold u64
  omega

theorem u64_sub (h : m<2^64) (hn : n ≤ m) : u64 ((m : Int)-n)=m-n := by
  unfold u64
  omega

@[simp] theorem blockSize_eq : blockSize=4096 := rfl

variable (frame : Nat → Block)

theorem allocateBlocks_spec (t : TmpfsFile) :
    ∃ new : List Block, (allocateBlocks frame zeroed n t).blocks=t.blocks++new ∧
      new.length=n ∧ (zeroed → ∀ block∈new, block=fun _ => 0) ∧
      (allocateBlocks frame zeroed n t).length=t.length := by
  induction n generalizing t with
  | zero => exact ⟨[],by simp [allocateBlocks]⟩
  | succ n ih =>
    obtain ⟨new,hb,hlen,hze,hl⟩ := ih { t with
        blocks := t.blocks++[if zeroed then fun _ => 0 else frame _]
        allocated := t.allocated+1 }
    refine ⟨(if zeroed then fun _ => 0 else frame t.allocated)::new,?_,by simp [hlen],?_,?_⟩
    · rw [allocateBlocks,hb]
      simp
    · intro hz block hbl
      rcases mem_cons.mp hbl with rfl | hbl
      · simp [hz]
      · exact hze hz block hbl
    · rw [allocateBlocks,hl]

def Covered (t : TmpfsFile) : Prop := ∀ p<t.length, p/blockSize<t.blocks.length

private theorem offset_tmod : (o : Int).tmod blockSize=(o%blockSize : Nat) := by
  exact (Int.ofNat_tmod o blockSize).symm

private theorem offset_tdiv (h : o<2^64) : u64 ((o : Int).tdiv blockSize)=o/blockSize := by
  exact u64_natCast (by simp only [blockSize_eq]; omega)

/-- What a copy loop has moved after `r` blocks from offset `o` on. -/
def moved (o r : Nat) : Nat := r*blockSize-o%blockSize

/-- Each round continues where the last one stopped and ends with its block. -/
theorem loopPiece_spec (ho : o<2^64) : ∃ off size, loopPiece o r=(off, size, (moved o r : Int)) ∧
      o + moved o r=(o/blockSize+r)*blockSize + off ∧ off+size=blockSize ∧ 0 < size ∧
      moved o r + size=moved o (r+1) := by
  unfold loopPiece moved
  split_ifs with hr
  · subst hr
    refine ⟨o%blockSize,blockSize-o%blockSize,?_,?_⟩
    · rw [u64_natCast ho,offset_tmod,u64_sub (by simp) (by simp only [blockSize_eq]; omega)]
      simp
    · simp only [blockSize_eq]
      omega
  · refine ⟨0,blockSize,?_,?_⟩
    · rw [offset_tmod]
      simp only [blockSize_eq,Prod.mk.injEq,true_and]
      omega
    · refine ⟨?_,?_,?_,?_⟩ <;> simp only [blockSize_eq] <;> omega

/-- The loop stops at the start of the last block, and what is left over is in that block. -/
private theorem moved_stop (h : o/blockSize≠(o+m)/blockSize) :
    o + moved o ((o+m)/blockSize - o/blockSize)=(o+m)/blockSize * blockSize ∧
      moved o ((o+m)/blockSize - o/blockSize) + (o+m-(o+m) / blockSize*blockSize)=m := by
  simp only [moved,blockSize_eq] at h ⊢
  omega

private theorem last_pos (h : o/blockSize≠(o+m)/blockSize) :
    (blockSize*((o+m)/blockSize - o/blockSize : Nat) - (o : Int).tmod blockSize : Int) =
      (moved o ((o+m)/blockSize - o/blockSize) : Nat) := by
  rw [offset_tmod]
  simp only [moved,blockSize_eq] at h ⊢
  omega

theorem getsetBlock_no (hb : b<t.blocks.length) : getsetBlock frame t b .no=some t := by
  simp [getsetBlock,hb]

theorem TmpfsFile.copyOut_filled {t : TmpfsFile}
    (h : Filled blockSize 0 t.blocks o len buffer0 buffer) (hb : o+len=b*blockSize+off)
    (hn : off+n≤blockSize) : ∃ buffer', t.copyOut b off n buffer len=some buffer' ∧
      Filled blockSize 0 t.blocks o (len+n) buffer0 buffer' :=
  ⟨_,if_pos hn,h.copyOut hb hn⟩

private theorem readLoop_filled {t : TmpfsFile} (ho : o<2^64) (r : Nat)
    (hco : ∀ k < r+n, o/blockSize+k<t.blocks.length)
    (h : Filled blockSize 0 t.blocks o (moved o r) buffer0 buffer) :
    ∃ buffer', readLoop frame t o (o/blockSize) n r buffer=some buffer' ∧
      Filled blockSize 0 t.blocks o (moved o (r+n)) buffer0 buffer' := by
  induction n generalizing r buffer with
  | zero => exact ⟨buffer,rfl,h⟩
  | succ n ih =>
    obtain ⟨off,size,hp,hpos,he,-,hm⟩ := loopPiece_spec ho
    obtain ⟨buffer',hc,hf⟩ := t.copyOut_filled h hpos (Nat.le_of_eq he)
    rw [hm] at hf
    obtain ⟨buffer'',hl,hd⟩ := ih (r+1) (fun k hk => hco k (by omega)) hf
    refine ⟨buffer'',?_,by rwa [show r+(n+1)=r+1+n by omega]⟩
    simp only [readLoop,getsetBlock_no frame (hco r (by omega)),hp,bind_eq_bind, bind_some,hc,hl]

theorem readTmpfs_filled {t : TmpfsFile} (hco : Covered t) (hlen : t.length<2^64)
    (hn : o+n<2^64) (buffer : Int → UInt8) :
    ∃ buffer', readTmpfs frame t o n buffer=some (min n (t.length-o), buffer') ∧
      Filled blockSize 0 t.blocks o (min n (t.length-o)) buffer buffer' := by
  have ho : o<2^64 := by omega
  have hi := Filled.zero (B := blockSize) 0 t.blocks o buffer
  unfold readTmpfs
  rw [u64_natCast ho,offset_tdiv ho,← Int.natCast_add,u64_natCast hn]
  by_cases hp : t.length≤o
  · rw [if_pos hp,show min n _=0 by omega]
    exact ⟨buffer,rfl,hi⟩
  rw [if_neg hp]
  have hst : (if t.length<o+n then t.length else o+n)=o + min n (t.length-o) := by
    split_ifs <;> omega
  have hbo : o + min n (t.length-o)≤t.length := by omega
  rw [hst]
  generalize min n (t.length-o)=m at hbo
  dsimp only
  rw [u64_sub (by omega) (by omega),Nat.add_sub_cancel_left]
  by_cases hs : o/blockSize=(o+m)/blockSize
  · by_cases he : o=o+m
    · obtain rfl : m=0 := by omega
      exact ⟨buffer,by simp,hi⟩
    · have hbl := hco o (by omega)
      obtain ⟨buffer',hc,hf⟩ := t.copyOut_filled hi
        (show o+0=o/blockSize*blockSize+o%blockSize by simp; omega)
        (show o%blockSize+m≤blockSize by simp only [blockSize_eq] at hs ⊢; omega)
      refine ⟨buffer',?_,by simpa using hf⟩
      rw [if_neg (fun h => he h.2),if_pos hs,getsetBlock_no frame hbl]
      simp only [bind_eq_bind,bind_some]
      rw [show (0 : Int)=((0 : Nat) : Int) from rfl,hc,bind_some]
  have hb : ∀ k<0+((o+m)/blockSize - o/blockSize), o/blockSize+k<t.blocks.length := by
    intro k hk
    have := hco ((o/blockSize+k)*blockSize) (by simp only [blockSize_eq] at hk ⊢; omega)
    simpa using this
  have hsta : Filled blockSize 0 t.blocks o (moved o 0) buffer buffer := by
    simpa [moved] using hi
  obtain ⟨buffer',hl,hf⟩ := readLoop_filled frame ho 0 hb hsta
  rw [Nat.zero_add] at hf
  obtain ⟨hst,hr⟩ := moved_stop hs
  rw [if_neg (fun h => hs h.1),if_neg hs]
  simp only [bind_eq_bind,hl,bind_some]
  by_cases hen : o+m-(o+m) / blockSize*blockSize=0
  · rw [if_pos hen]
    rw [hen] at hr
    exact ⟨buffer',rfl,hr ▸ hf⟩
  have hbl : (o+m)/blockSize<t.blocks.length := by
    have := hco ((o+m)/blockSize * blockSize) (by omega)
    simpa using this
  obtain ⟨buffer'',hc,hd⟩ := t.copyOut_filled hf (hst.trans (Nat.add_zero _).symm)
    (show 0+(o+m-(o+m) / blockSize*blockSize)≤blockSize by
      simp only [blockSize_eq]; omega)
  rw [hr] at hd
  refine ⟨buffer'',?_,hd⟩
  rw [if_neg hen,getsetBlock_no frame hbl,bind_some,last_pos hs,hc,bind_some]

/-- The effect of a write of `len` bytes at `o`. Blocks it had to allocate hold other bytes
besides, but none of them starts after the written range. -/
structure Written (t0 t : TmpfsFile) (o len : Nat) (buffer : Int → UInt8) : Prop where
  length : t.length=t0.length
  inside : ∀ p, o≤p → p<o+len → t.byteAt p=buffer (p-o : Nat)
  outside : ∀ p, p<o ∨ o+len≤p →
    p / blockSize<t0.blocks.length ∨ t.blocks.length≤p/blockSize → t.byteAt p=t0.byteAt p
  grows : t0.blocks.length≤t.blocks.length
  covers : ∀ p, o≤p → p<o+len → p/blockSize<t.blocks.length
  fresh : ∀ b, t0.blocks.length≤b → b<t.blocks.length → b*blockSize<o+len

private theorem Written.zero (t : TmpfsFile) (o : Nat) (buffer : Int → UInt8) :
    Written t t o 0 buffer :=
  ⟨rfl,by omega,fun _ _ _ => rfl,Nat.le_refl _,by omega,by omega⟩

theorem allocateBlocks_byteAt (hp : p/blockSize<t.blocks.length ∨
      (allocateBlocks frame zeroed n t).blocks.length≤p/blockSize) :
    (allocateBlocks frame zeroed n t).byteAt p=t.byteAt p := by
  obtain ⟨new,hb,-⟩ := allocateBlocks_spec frame t
  rw [hb] at hp
  rw [byteAt,hb]
  exact blockByte_append 0 hp

theorem allocateBlocks_count (zeroed : Bool) (n : Nat) (t : TmpfsFile) :
    (allocateBlocks frame zeroed n t).blocks.length=t.blocks.length+n := by
  obtain ⟨new,hb,hn,-⟩ := allocateBlocks_spec frame t
  rw [hb,length_append,hn]

private theorem allocateBlocks_length : (allocateBlocks frame zeroed n t).length=t.length := by
  obtain ⟨new,-,-,-,hlen⟩ := allocateBlocks_spec frame t
  exact hlen

theorem TmpfsFile.copyIn_spec {t : TmpfsFile} (hb : b<t.blocks.length) (hn : off+n≤blockSize)
    (buffer : Int → UInt8) (pos : Int) :
    ∃ t', t.copyIn b off n buffer pos=some t' ∧ t'.length=t.length ∧
      t'.blocks.length=t.blocks.length ∧
      ∀ p, t'.byteAt p=if b*blockSize+off≤p ∧ p<b*blockSize+off+n then
        buffer (pos+(p-(b*blockSize+off) : Nat)) else t.byteAt p :=
  ⟨_,if_pos hn,rfl,length_set,blockByte_copyIn 0 hb hn buffer pos⟩

theorem Written.piece {t0 t : TmpfsFile} (h : Written t0 t o len buffer)
    (hb : o+len=b*blockSize+off) (hn : off+n≤blockSize) (hpos : 0<n ∨ b<t.blocks.length) :
    ∃ t1 t2, getsetBlock frame t b .yes=some t1 ∧ t1.copyIn b off n buffer len=some t2 ∧
      Written t0 t2 o (len+n) buffer := by
  have hcn := allocateBlocks_count frame false (b+1-t.blocks.length) t
  obtain ⟨t2,hc,hlen,hcn',hby⟩ := (allocateBlocks frame false (b+1-t.blocks.length) t).copyIn_spec
      (show b<_ by omega) hn buffer len
  have hg := h.grows
  refine ⟨_,t2,rfl,hc,?_,?_,?_,by omega,?_,?_⟩
  · rw [hlen,allocateBlocks_length,h.length]
  · intro p hop hp
    rw [hby]
    split_ifs with hin
    · congr 1
      omega
    · rw [allocateBlocks_byteAt frame (.inl (h.covers p hop (by omega)))]
      exact h.inside p hop (by omega)
  · intro p ho hp
    rw [hby,if_neg (by omega),allocateBlocks_byteAt frame (by omega)]
    exact h.outside p (by omega) (by omega)
  · intro p hop hp
    by_cases hin : p<o+len
    · have := h.covers p hop hin
      omega
    have : p/blockSize=b := by
      simp only [blockSize_eq] at hb hn ⊢
      omega
    omega
  · intro b' hb' hlt
    by_cases hold : b' < t.blocks.length
    · have := h.fresh b' hb' hold
      omega
    · have : b'*blockSize≤b*blockSize := Nat.mul_le_mul_right _ (by omega)
      omega

private theorem writeLoop_written (ho : o<2^64) (n r : Nat)
    (h : Written t0 t o (moved o r) buffer) :
    ∃ t', writeLoop frame buffer o (o/blockSize) n r t=some t' ∧
      Written t0 t' o (moved o (r+n)) buffer := by
  induction n generalizing r t with
  | zero => exact ⟨t,rfl,h⟩
  | succ n ih =>
    obtain ⟨off,size,hp,hpos,he,hs,hm⟩ := loopPiece_spec ho
    obtain ⟨t1,t2,hg,hc,hw⟩ := h.piece frame hpos (Nat.le_of_eq he) (.inl hs)
    rw [hm] at hw
    obtain ⟨t',hl,hd⟩ := ih (r+1) hw
    refine ⟨t',?_,by rwa [show r+(n+1)=r+1+n by omega]⟩
    simp only [writeLoop,hg,hp,bind_eq_bind,bind_some,hc,hl]

theorem writeTmpfs_written (hn : o+n<2^64)
    (hpos : 0<n ∨ o/blockSize<t.blocks.length) (buffer : Int → UInt8) :
    ∃ t', writeTmpfs frame t o n buffer=some (n, t') ∧
      Written { t with length := max t.length (o+n) } t' o n buffer := by
  have ho : o<2^64 := by omega
  unfold writeTmpfs
  rw [offset_tdiv ho,← Int.natCast_add,u64_natCast hn]
  dsimp only
  rw [u64_sub hn (by omega), Nat.add_sub_cancel_left,
    show (if t.length<o+n then o+n else t.length)=max t.length (o+n) by
      split_ifs <;> omega]
  generalize ht0 : { t with length := max t.length (o+n) }=t0
  have hz := Written.zero t0 o buffer
  by_cases hs : o/blockSize=(o+n)/blockSize
  · obtain ⟨t1,t2,hg,hc,hw⟩ := hz.piece frame
      (show o+0=o/blockSize*blockSize+o%blockSize by simp; omega)
      (show o%blockSize+n≤blockSize by simp only [blockSize_eq] at hs ⊢; omega)
      (by subst ht0; exact hpos)
    refine ⟨t2,?_,by simpa using hw⟩
    rw [if_pos hs,hg,u64_natCast ho]
    simp only [bind_eq_bind,bind_some]
    rw [show (0 : Int)=((0 : Nat) : Int) from rfl,hc,bind_some]
  have hst : Written t0 t0 o (moved o 0) buffer := by simpa [moved] using hz
  obtain ⟨t',hl,hw⟩ := writeLoop_written frame ho ((o+n)/blockSize - o/blockSize) 0 hst
  rw [Nat.zero_add] at hw
  obtain ⟨hsto,hr⟩ := moved_stop hs
  rw [if_neg hs]
  simp only [bind_eq_bind,hl,bind_some]
  by_cases he : o+n-(o+n) / blockSize*blockSize=0
  · rw [if_pos he]
    rw [he] at hr
    exact ⟨t',rfl,hr ▸ hw⟩
  obtain ⟨t1,t2,hg,hc,hd⟩ := hw.piece frame (hsto.trans (Nat.add_zero _).symm)
    (show 0+(o+n-(o+n) / blockSize*blockSize)≤blockSize by
      simp only [blockSize_eq]; omega) (.inl (Nat.pos_of_ne_zero he))
  rw [hr] at hd
  refine ⟨t2,?_,hd⟩
  rw [if_neg he,hg,bind_some,last_pos hs,hc,bind_some]

/-- A missing block reads as zero, so zeroed blocks change nothing. -/
theorem allocateBlocks_zeroed_byteAt (p : Nat) :
    (allocateBlocks frame true n t).byteAt p=t.byteAt p := by
  obtain ⟨new,hb,-,hz,-⟩ := allocateBlocks_spec frame t
  by_cases hp : p/blockSize<t.blocks.length ∨ (t.blocks++new).length≤p/blockSize
  · rw [← hb] at hp
    exact allocateBlocks_byteAt frame hp
  have hlt : p/blockSize<(t.blocks++new).length := by omega
  rw [byteAt,byteAt,hb,blockByte,blockByte,
    getD_eq_default t.blocks _ (by omega),getD_eq_getElem _ _ hlt,getElem_append_right (by omega),
    hz rfl _ (getElem_mem _)]

private theorem clear_end {t t1 : TmpfsFile} (hb : t.length/blockSize<t1.blocks.length)
    (hs : ∀ p, t1.byteAt p=t.byteAt p)
    (hn : t.length-t.length/blockSize*blockSize+n≤blockSize) :
    ∃ t2, t1.copyIn (t.length/blockSize) (t.length-t.length/blockSize*blockSize) n
        (fun _ => 0) 0=some t2 ∧ t2.blocks.length=t1.blocks.length ∧
      ∀ p, t2.byteAt p=if t.length≤p ∧ p<t.length+n then 0 else t.byteAt p := by
  obtain ⟨t2,hc,-,hcn,hby⟩ := t1.copyIn_spec hb hn (fun _ => 0) 0
  have hl : t.length/blockSize*blockSize+(t.length-t.length/blockSize*blockSize)=t.length := by
    simp only [blockSize_eq]
    omega
  rw [hl] at hby
  exact ⟨t2,hc,hcn,fun p => by rw [hby,hs]⟩

private theorem truncateTmpfs_grow {t : TmpfsFile} (hcov : Covered t) (hsi : t.length < size) :
    ∃ t' n, truncateTmpfs frame t size=some t' ∧ t'.length=size ∧
      size / blockSize<t'.blocks.length ∧
      (t.length+n=size ∨ t.length+n=(t.length/blockSize+1)*blockSize) ∧
      ∀ p, t'.byteAt p=if t.length≤p ∧ p<t.length+n then 0 else t.byteAt p := by
  unfold truncateTmpfs
  rw [if_neg (by omega)]
  rw [if_pos hsi]
  by_cases hs : t.length/blockSize=size/blockSize
  · have hg : ∃ t1, getsetBlock frame t (t.length/blockSize)
          (if t.length-t.length/blockSize*blockSize=0 then .zeroed else .no)=some t1 ∧
        t.length / blockSize<t1.blocks.length ∧ ∀ p, t1.byteAt p=t.byteAt p := by
      split_ifs with he
      · refine ⟨_,rfl,?_,allocateBlocks_zeroed_byteAt frame⟩
        rw [allocateBlocks_count]
        omega
      · have hb := hcov (t.length/blockSize*blockSize) (by omega)
        rw [Nat.mul_div_cancel _ (by simp)] at hb
        exact ⟨t,getsetBlock_no frame hb,hb,fun _ => rfl⟩
    obtain ⟨t1,hg,hb,hby⟩ := hg
    have hn : size-size/blockSize*blockSize -
        (t.length-t.length/blockSize*blockSize)=size-t.length := by
      simp only [blockSize_eq] at hs ⊢
      omega
    obtain ⟨t2,hco,hcn,hc⟩ := clear_end hb hby
      (show _+(size-t.length)≤blockSize by simp only [blockSize_eq] at hs ⊢; omega)
    refine ⟨{ t2 with length := size },size-t.length,?_,rfl,?_,.inl (by omega),hc⟩
    · rw [if_pos hs,hg,hn]
      simp only [bind_eq_bind,bind_some,hco]
    · rw [← hs]
      exact hcn ▸ hb
  · have hle : t.length/blockSize ≤ size/blockSize := Nat.div_le_div_right (Nat.le_of_lt hsi)
    have hcn1 := allocateBlocks_count frame true (size/blockSize+1-t.blocks.length) t
    have hb : t.length/blockSize <
        (allocateBlocks frame true (size/blockSize+1-t.blocks.length) t).blocks.length := by
      omega
    obtain ⟨t2,hco,hcn,hc⟩ := clear_end hb (allocateBlocks_zeroed_byteAt frame)
      (show _+(blockSize-(t.length-t.length/blockSize*blockSize))≤blockSize by
        simp only [blockSize_eq]; omega)
    refine ⟨{ t2 with length := size },_,?_,rfl,?_,.inr ?_,hc⟩
    · rw [if_neg hs]
      simp only [getsetBlock,bind_eq_bind,bind_some,hb,if_true,hco]
    · show size/blockSize<t2.blocks.length
      omega
    · simp only [blockSize_eq]
      omega

private theorem blocksFor_le_iff (size b : Nat) : blocksFor size≤b ↔ size≤b*blockSize := by
  unfold blocksFor
  split_ifs with h <;> simp only [blockSize_eq] at h ⊢ <;> omega

private theorem truncateTmpfs_shrink (hc : Covered t) (hs : size<t.length) :
    ∃ t', truncateTmpfs frame t size=some t' ∧ t'.length=size ∧ Covered t' ∧
      (∀ p < size, t'.byteAt p=t.byteAt p) ∧ ∀ p, size≤p/blockSize*blockSize → t'.byteAt p=0 ∨
        t'.byteAt p=t.byteAt p ∧ t.length≤p/blockSize*blockSize := by
  unfold truncateTmpfs
  rw [if_neg (by omega)]
  rw [if_neg (by omega)]
  by_cases hz : size=0
  · subst hz
    refine ⟨_,if_pos rfl,rfl,?_,by simp,fun p _ => .inl ?_⟩
    · intro p hp
      simp at hp
    · simp [byteAt,blockByte]
  rw [if_neg hz]
  by_cases hd : blocksFor size<blocksFor t.length
  · have hin : ∀ p < size, p/blockSize<blocksFor size := by
      intro p hp
      by_contra h
      have := (blocksFor_le_iff size (p/blockSize)).mp (by omega)
      simp only [blockSize_eq] at this
      omega
    refine ⟨_,if_pos hd,rfl,?_,?_,fun p hp => .inl ?_⟩
    · intro p hp
      have := hc p (Nat.lt_trans hp hs)
      rw [length_take]
      exact Nat.lt_min.mpr ⟨hin p hp,this⟩
    · intro p hp
      simp only [byteAt,blockByte,getD_eq_getElem?_getD]
      rw [getElem?_take_of_lt (hin p hp)]
    · have := (blocksFor_le_iff size (p/blockSize)).mpr hp
      rw [byteAt,blockByte,getD_eq_default]
      rw [length_take]
      omega
  · refine ⟨_,if_neg hd,rfl,fun p hp => hc p (Nat.lt_trans hp hs),fun p _ => rfl,
      fun p hp => .inr ⟨rfl,?_⟩⟩
    have := (blocksFor_le_iff size (p/blockSize)).mpr hp
    exact (blocksFor_le_iff t.length (p/blockSize)).mp (by omega)

inductive FileCall where
  | write (offset : Nat) (data : List UInt8)
  | truncate (size : Nat)
  | read (offset size : Nat)

/-- The byte last written at `p` since the file was last truncated there. The latest call is first.
-/
def lastWritten : List FileCall → Nat → UInt8
  | [], _ => 0
  | .write offset data::history, p =>
    if offset≤p ∧ p<offset+data.length then data.getD (p-offset) 0
    else lastWritten history p
  | .truncate size::history, p => if size≤p then 0 else lastWritten history p
  | .read _ _::history, p => lastWritten history p

def fileLength : List FileCall → Nat
  | [] => 0
  | .write offset data::history => max (fileLength history) (offset+data.length)
  | .truncate size::_ => size
  | .read _ _::history => fileLength history

private theorem lastWritten_beyond (h : fileLength history≤p) : lastWritten history p=0 := by
  induction history with
  | nil => rfl
  | cons c history ih =>
    cases c with
    | write offset data =>
      simp only [fileLength] at h
      rw [lastWritten,if_neg (by omega)]
      exact ih (by omega)
    | truncate size => exact if_pos h
    | read offset size => exact ih h

def writeBuffer (data : List UInt8) : Int → UInt8 := fun i => data.getD i.toNat 0

def fileStep (frame : Nat → Block) (t : TmpfsFile) : FileCall → Option TmpfsFile
  | .write offset data => (writeTmpfs frame t offset data.length (writeBuffer data)).map Prod.snd
  | .truncate size => truncateTmpfs frame t size
  | .read offset size => (readTmpfs frame t offset size fun _ => 0).map fun _ => t

/-- A write starts at or before the end of the file, an empty one finds its block, and no range
wraps around. -/
def Gapless (t : TmpfsFile) : FileCall → Prop
  | .write offset data => offset≤t.length ∧ offset+data.length<2^64 ∧
      (data=[] → offset/blockSize<t.blocks.length)
  | .truncate size => size<2^64
  | .read offset size => offset+size<2^64

instance (t : TmpfsFile) (c : FileCall) : Decidable (Gapless t c) :=
  match c with
  | .write _ _ => inferInstanceAs (Decidable (_ ∧ _ ∧ (_ → _)))
  | .truncate _ => inferInstanceAs (Decidable (_<_))
  | .read _ _ => inferInstanceAs (Decidable (_<_))

inductive FileReachable (frame : Nat → Block) : List FileCall → TmpfsFile → Prop
  | new : FileReachable frame [] tmpfsFileNew
  | step :
      FileReachable frame history t → Gapless t c → fileStep frame t c=some t' →
      FileReachable frame (c::history) t'

/-- The file holds the byte array, and what lies in blocks after its end is zero. -/
structure FileInv (history : List FileCall) (t : TmpfsFile) : Prop where
  length_eq : t.length=fileLength history
  length_lt : t.length<2^64
  covered : Covered t
  content : ∀ p<t.length, t.byteAt p=lastWritten history p
  beyond : ∀ p, t.length≤p/blockSize*blockSize → t.byteAt p=0

theorem FileInv.new : FileInv [] tmpfsFileNew :=
  ⟨rfl,by simp [tmpfsFileNew],by simp [Covered,tmpfsFileNew],by simp [tmpfsFileNew],
    fun p _ => by simp [tmpfsFileNew,byteAt,blockByte]⟩

private theorem block_start_le (p : Nat) : p/blockSize*blockSize≤p :=
  Nat.div_mul_le_self p blockSize

section
variable (h : FileInv history t)
include h

private theorem FileInv.write (hg : Gapless t (.write offset data)) :
    ∃ t', fileStep frame t (.write offset data)=some t' ∧
      FileInv (.write offset data::history) t' := by
  obtain ⟨hof,hrn,he⟩ := hg
  have hpos : 0<data.length ∨ offset/blockSize<t.blocks.length := by
    rcases eq_nil_or_concat data with hn | ⟨_,_,rfl⟩
    · exact .inr (he hn)
    · exact .inl (by simp)
  obtain ⟨t',hwr,hw⟩ := writeTmpfs_written frame hrn hpos (writeBuffer data)
  have hlen : t'.length=max t.length (offset+data.length) := hw.length
  have hin : ∀ p<t'.length, ¬ (offset≤p ∧ p<offset+data.length) →
      p<t.length ∧ (p<offset ∨ offset+data.length≤p) := by
    omega
  refine ⟨t',by simp [fileStep,hwr],?_,?_,?_,?_,?_⟩
  · rw [hlen,fileLength,h.length_eq]
  · have := h.length_lt
    omega
  · intro p hp
    by_cases hr : offset≤p ∧ p<offset+data.length
    · exact hw.covers p hr.1 hr.2
    · exact Nat.lt_of_lt_of_le (h.covered p (hin p hp hr).1) hw.grows
  · intro p hp
    by_cases hr : offset≤p ∧ p<offset+data.length
    · rw [lastWritten,if_pos hr,hw.inside p hr.1 hr.2]
      simp [writeBuffer]
    · obtain ⟨hlt,ho⟩ := hin p hp hr
      rw [lastWritten,if_neg hr,hw.outside p ho (.inl (h.covered p hlt))]
      exact h.content p hlt
  · intro p hp
    have hs := block_start_le p
    have hne := hw.fresh (p/blockSize)
    rw [hw.outside p (.inr (by omega)) (by omega)]
    exact h.beyond p (by omega)

private theorem FileInv.truncate (hs : size<2^64) :
    ∃ t', fileStep frame t (.truncate size)=some t' ∧ FileInv (.truncate size::history) t' := by
  rcases Nat.lt_trichotomy t.length size with hlt | heq | hgt
  · obtain ⟨t',n,hr,hlen,hcn,hn,hb⟩ := truncateTmpfs_grow frame h.covered hlt
    refine ⟨t',hr,hlen,hlen ▸ hs,?_,?_,?_⟩
    · intro p hp
      have : p/blockSize ≤ size/blockSize := Nat.div_le_div_right (by omega)
      omega
    · intro p hp
      rw [lastWritten,if_neg (by omega),hb]
      split_ifs with hin
      · exact (lastWritten_beyond (h.length_eq ▸ hin.1)).symm
      by_cases hold : p<t.length
      · exact h.content p hold
      rw [lastWritten_beyond (h.length_eq ▸ Nat.le_of_not_lt hold)]
      apply h.beyond
      simp only [blockSize_eq] at hn ⊢
      omega
    · intro p hp
      rw [hb]
      split_ifs
      · rfl
      · exact h.beyond p (by omega)
  · subst heq
    refine ⟨t,by simp [fileStep,truncateTmpfs],rfl,hs,h.covered,?_,h.beyond⟩
    intro p hp
    rw [lastWritten,if_neg (by omega)]
    exact h.content p hp
  · obtain ⟨t',hr,hlen,hc,hb,ha⟩ := truncateTmpfs_shrink frame h.covered hgt
    refine ⟨t',hr,hlen,hlen ▸ hs,hc,?_,?_⟩
    · intro p hp
      rw [lastWritten,if_neg (by omega),hb p (by omega)]
      exact h.content p (by omega)
    · intro p hp
      rcases ha p (by omega) with hz | ⟨heq,he⟩
      · exact hz
      · rw [heq]
        exact h.beyond p he

theorem FileInv.step (hg : Gapless t c) :
    ∃ t', fileStep frame t c=some t' ∧ FileInv (c::history) t' := by
  cases c with
  | write offset data => exact h.write frame hg
  | truncate size => exact h.truncate frame hg
  | read offset size =>
    obtain ⟨buffer',hr,-⟩ := readTmpfs_filled frame h.covered h.length_lt hg fun _ => 0
    exact ⟨t,by simp [fileStep,hr],h.length_eq,h.length_lt,h.covered,h.content,h.beyond⟩

end

private theorem FileReachable.inv (h : FileReachable frame history t) : FileInv history t := by
  induction h with
  | new => exact .new
  | step _ hg hs ih =>
    obtain ⟨t',hs',hinv⟩ := ih.step frame hg
    obtain rfl := some.inj (hs.symm.trans hs')
    exact hinv

/-- After gapless calls the next call goes through, and a read delivers the bytes last written, zero
where there are none, up to the end of the file, and touches nothing else of its buffer. -/
theorem tmpfs_content_law {history : List FileCall} {t : TmpfsFile}
    (h : FileReachable frame history t) : t.length = fileLength history ∧
    (∀ c, Gapless t c → (fileStep frame t c).isSome) ∧
    ∀ (o n : Nat) (buffer : Int → UInt8), o+n < 2^64 →
      ∃ buffer', readTmpfs frame t o n buffer = some (min n (fileLength history - o), buffer') ∧
        (∀ i < min n (fileLength history - o), buffer' i = lastWritten history (o+i)) ∧
        ∀ i : Int, i < 0 ∨ min n (fileLength history - o) ≤ i → buffer' i = buffer i := by
  have hinv := h.inv
  rw [← hinv.length_eq]
  refine ⟨rfl,?_,?_⟩
  · intro c hg
    obtain ⟨t',hs,-⟩ := hinv.step frame hg
    simp [hs]
  intro o n buffer hn
  obtain ⟨buffer',hr,hf⟩ := readTmpfs_filled frame hinv.covered hinv.length_lt hn buffer
  refine ⟨buffer',hr,?_,?_⟩
  · intro i hi
    rw [hf,if_pos (by omega)]
    exact hinv.content (o+i) (by omega)
  · intro i hi
    rw [hf,if_neg (by omega)]

/-- A file that is grown, partly written and shrunk inside its last block. -/
theorem tmpfs_content_law_shrunk :
    ∃ t, FileReachable (fun _ _ => 7) [.truncate 2, .write 1 [5, 6], .truncate 4] t ∧
      t.length = 2 ∧ lastWritten [.truncate 2, .write 1 [5, 6], .truncate 4] 1 = 5 := by
  have g1 : Gapless tmpfsFileNew (.truncate 4) := by decide
  obtain ⟨t1,h1,i1⟩ := FileInv.new.step (fun _ _ => 7) g1
  have g2 : Gapless t1 (.write 1 [5, 6]) := ⟨by rw [i1.length_eq]; decide,by decide,by simp⟩
  obtain ⟨t2,h2,i2⟩ := i1.step (fun _ _ => 7) g2
  have g3 : Gapless t2 (.truncate 2) := show 2<2^64 by decide
  obtain ⟨t3,h3,-⟩ := i2.step (fun _ _ => 7) g3
  have hr := ((FileReachable.new.step g1 h1).step g2 h2).step g3 h3
  exact ⟨t3,hr,(tmpfs_content_law _ hr).1,by decide⟩

/-- One byte written after the end of an empty file: the byte before it reads as what the
frame held. -/
theorem read_hole_leftover :
    ((fileStep (fun _ _ => 7) tmpfsFileNew (.write 1 [5])).bind fun t =>
        readTmpfs (fun _ _ => 7) t 0 1 fun _ => 0).map (fun r => (r.1, r.2 0)) = some (1, 7) ∧
      lastWritten [.write 1 [5]] 0 = 0 := by
  decide
end RazionOS.Kernel
