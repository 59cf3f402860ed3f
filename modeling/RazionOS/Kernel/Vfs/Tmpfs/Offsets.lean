import RazionOS.Kernel.Vfs.Tmpfs.Content

/-! # Offsets in a tmpfs file -/

namespace RazionOS.Kernel
open Framework

/-- What `sys_pread`, `sys_pwrite`, and reads and writes after `sys_seek` pass down: any offset,
and a size other than 0 that `mmu_validate_user_pointer` admits. -/
structure PassedDown (offset : Int) (size : Nat) : Prop where
  low : -2^63≤offset
  high : offset<2^63
  positive : 0 < size
  checked : size≤0x800000000000

structure Sound (t : TmpfsFile) : Prop where
  covered : Covered t
  length : t.length≤2^63

def OutOfRange (offset : Int) (size : Nat) : Prop := offset<0 ∨ 2^63≤offset+size

section
variable (frame : Nat → Block) (t : TmpfsFile) (offset : Int) (size : Nat)

/-- The call finds its blocks, copies within them, and stores to the first bytes of the buffer. -/
def SafeRead : Prop := ∀ buffer, ∃ n buffer', readTmpfs frame t offset size buffer =
  some (n, buffer') ∧ n ≤ size ∧ (OutOfRange offset size → n=0) ∧
    ∀ i : Int, i<0 ∨ n ≤ i → buffer' i=buffer i

/-- The call copies within the blocks of the file, and takes the first bytes of the buffer. -/
def SafeWrite : Prop := ∀ buffer, ∃ n t', writeTmpfs frame t offset size buffer=some (n, t') ∧
  n ≤ size ∧ (OutOfRange offset size → n=0) ∧ Sound t' ∧
    Written { t with length := t'.length } t' offset.toNat n buffer

end

theorem Sound.new : Sound tmpfsFileNew := ⟨by simp [Covered,tmpfsFileNew],by simp [tmpfsFileNew]⟩

private theorem writeTmpfs_count (h : PassedDown offset size)
    (hw : writeTmpfs frame t offset size buffer=some (n, t')) : n=size := by
  have hs : u64 ((u64 (offset+size) : Int)-offset)=size := by
    have hc := h.checked
    unfold u64
    omega
  simp only [writeTmpfs,Option.bind_eq_bind] at hw
  split_ifs at hw <;> simp only [Option.bind_eq_some_iff] at hw <;> grind

private theorem safeRead_iff (ht : Sound t) (h : PassedDown offset size) :
    SafeRead frame t offset size ↔ offset+size<2^63 ∨ t.length≤offset := by
  have hlen := ht.length
  have hc := h.checked
  by_cases hne : offset<0
  · have hp : t.length≤u64 offset := by
      have hl := h.low
      unfold u64
      omega
    refine iff_of_true (fun buffer => ⟨0,buffer,if_pos hp,by simp⟩) (.inl (by omega))
  obtain ⟨o,rfl⟩ := Int.eq_ofNat_of_zero_le (Int.not_lt.1 hne)
  have hh := h.high
  have hf := readTmpfs_filled frame ht.covered (n := size) (o := o) (by omega) (by omega)
  constructor
  · intro hs
    obtain ⟨n,buffer',hr,-,hrn,-⟩ := hs fun _ => 0
    obtain ⟨buffer'',hr',-⟩ := hf fun _ => 0
    rw [hr'] at hr
    have hn := (Prod.mk.inj (Option.some.inj hr)).1
    unfold OutOfRange at hrn
    omega
  · intro hrn buffer
    obtain ⟨buffer',hr,hf⟩ := hf buffer
    refine ⟨_,buffer',hr,by omega,?_,fun i hi => ?_⟩
    · unfold OutOfRange
      omega
    · rw [hf,if_neg (by omega)]

private theorem Written.sound (ht : Sound t)
    (h : Written { t with length := max t.length (o+n) } t' o n buffer) (hn : 0<n)
    (hr : o+n≤2^63) : Sound t' := by
  have hlen := h.length
  have hb := ht.length
  refine ⟨fun p hp => ?_,by simp only at hlen; omega⟩
  by_cases hold : p<t.length
  · exact Nat.lt_of_lt_of_le (ht.covered p hold) h.grows
  by_cases hin : o≤p
  · exact h.covers p hin (by simp only at hlen; omega)
  · have hs := h.covers o le_rfl (by omega)
    exact Nat.lt_of_le_of_lt (Nat.div_le_div_right (by omega)) hs

private theorem safeWrite_iff (ht : Sound t) (h : PassedDown offset size) :
    SafeWrite frame t offset size ↔ 0≤offset ∧ offset+size<2^63 := by
  constructor
  · intro hs
    obtain ⟨n,t',hwr,-,hr,-⟩ := hs fun _ => 0
    have hc := writeTmpfs_count h hwr
    have hp := h.positive
    unfold OutOfRange at hr
    omega
  · rintro ⟨hpos,hr⟩ buffer
    obtain ⟨o,rfl⟩ := Int.eq_ofNat_of_zero_le hpos
    obtain ⟨t',hwr,hw⟩ := writeTmpfs_written frame (o := o) (by omega)
      (.inl h.positive) buffer
    refine ⟨size,t',hwr,Nat.le_refl _,?_,hw.sound ht h.positive (by omega),?_⟩
    · unfold OutOfRange
      omega
    · rw [hw.length]
      exact hw

/-- Negative offsets are read as the end of the file, and are not looked at by writes. -/
theorem tmpfs_offsets_safe_iff (frame : Nat → Block) (ht : Sound t) (h : PassedDown offset size) :
    (SafeRead frame t offset size ↔ offset+size < 2^63 ∨ t.length ≤ offset) ∧
      (SafeWrite frame t offset size ↔ 0 ≤ offset ∧ offset+size < 2^63) :=
  ⟨safeRead_iff ht h,safeWrite_iff ht h⟩

theorem tmpfs_offsets_safe_new : SafeRead (fun _ _ => 0) tmpfsFileNew (-1) 10 := by
  have h : PassedDown (-1) 10 := ⟨by decide,by decide,by decide,by decide⟩
  exact (tmpfs_offsets_safe_iff (fun _ _ => 0) .new h).1.2 (.inl (by decide))

/-- Ten bytes at the offset -1 are copied to the end of the first block and behind it. -/
theorem writeTmpfs_crosses_block : PassedDown (-1) 10 ∧ Sound tmpfsFileNew ∧
    writeTmpfs (fun _ _ => 0) tmpfsFileNew (-1) 10 (fun _ => 0) = none :=
  ⟨⟨by decide,by decide,by decide,by decide⟩,.new,by decide⟩
end RazionOS.Kernel
