import RazionOS.Kernel.Arch.Mmu

/-! # What the operations on address spaces do -/

namespace RazionOS.Kernel
open Framework

variable {s s' : MMU}

/-- A failure is not one of a page that waits for a copy. -/
abbrev Benign (x : Except Fatal α) : Prop := Yields Fatal.Benign (fun _ => True) x

theorem mmuMapFromPhysical_of_lt (h : f < s.nframes) : mmuMapFromPhysical f=f :=
  Nat.mod_eq_of_lt (Nat.lt_of_lt_of_le h s.nframes_le)

@[simp] theorem PML.directory_present : (PML.directory f).present=true := by
  simp [PML.directory,PML.ofRaw,userPmlAccess]

@[simp] theorem PML.directory_size : (PML.directory f).size=false := by
  have hb : (f*pageSize).testBit 7=false := by
    rw [show f*pageSize=f <<< 12 from (Nat.shiftLeft_eq f 12).symm,Nat.testBit_shiftLeft]
    rfl
  change (BitVec.ofNat 64 (f*pageSize) ||| userPmlAccess).getLsbD 7=false
  rw [BitVec.getLsbD_or,BitVec.getLsbD_ofNat,hb]
  rfl

theorem PML.directory_page (h : f<2^27) : (PML.directory f).page.toNat=f := by
  have hs : f*pageSize=f <<< 12 := by
    rw [Nat.shiftLeft_eq]
    rfl
  have hlt : f <<< 12<2^64 := by
    omega
  simp only [PML.directory,PML.ofRaw,userPmlAccess,hs,BitVec.extractLsb'_toNat,BitVec.toNat_or,
    BitVec.toNat_ofNat,Nat.mod_eq_of_lt hlt]
  rw [Nat.shiftRight_or_distrib]
  simp
  omega

theorem PML.directory_frame (h : f<2^27) : (PML.directory f).frame=f := by
  rw [PML.frame,PML.directory_page h,mmuMapFromPhysical,Nat.mod_eq_of_lt h]

theorem PML.eq_readonly {e : PML} (hw : e.writable=false) (hc : e.cowPending=false) :
    e = { e with writable := false, cowPending := false } := by
  cases e
  simp_all

theorem ofNat_page (h : f < s.nframes) : (BitVec.ofNat 28 f).toNat=f := by
  have := s.nframes_le
  simp
  omega

theorem shiftedAsInt_of_lt (h : page.toNat<2^19) : shiftedAsInt page=page.toNat*pageSize := by
  have hm : (page.setWidth 32 <<< 12).msb=false := by
    rw [BitVec.msb_eq_decide,decide_eq_false_iff_not,BitVec.toNat_shiftLeft,BitVec.toNat_setWidth]
    omega
  rw [shiftedAsInt,BitVec.signExtend_eq_setWidth_of_msb_false hm,BitVec.toNat_setWidth,
    BitVec.toNat_shiftLeft,BitVec.toNat_setWidth,pageSize]
  omega

private theorem ensureEntry_false : ensureEntry false t i s = .ok ((s.mem t i).present, s) := by
  unfold ensureEntry
  cases (s.mem t i).present <;> simp

theorem mmuGetPage_false (root a : Nat) (s : MMU) :
    mmuGetPage root a false s = .ok (mmuGetPageOther root a s, s) := by
  unfold mmuGetPage mmuGetPageOther
  simp only [ensureEntry_false]
  split
  · simp_all
  split <;> simp_all
  split
  · simp_all
  · split <;> simp_all
    split <;> simp_all

theorem mmuAllocateAFrame_yields (s : MMU) :
    Yields Fatal.Benign (fun x => Allocates s x.1 x.2) (mmuAllocateAFrame s) := by
  have hf : Benign (mmuAllocateAFrame s) := by
    apply Yields.bind (P := fun _ => True)
    · unfold mmuFirstFrame
      split
      · exact .ok trivial
      · exact .error (by decide)
    · intro x _
      exact .ok trivial
  exact hf.and_ok fun x hok => mmuAllocateAFrame_spec hok

theorem refcountInc_benign (f : Nat) (s : MMU) : Benign (refcountInc f s) := by
  unfold refcountInc
  split
  · exact .error (by decide)
  · split <;> exact .ok trivial

theorem refcountDec_benign (f : Nat) (s : MMU) : Benign (refcountDec f s) := by
  unfold refcountDec
  split
  · exact .error (by decide)
  split
  · exact .error (by decide)
  · exact .ok trivial

theorem newDirectory_benign (t i : Nat) (s : MMU) : Benign (newDirectory t i s) :=
  (mmuAllocateAFrame_yields s).bind fun _ _ => .ok trivial

theorem copyPage_benign (ptIn ptOut l : Nat) (writable : Bool) (s : MMU) :
    Benign (copyPage ptIn ptOut l writable s) := by
  refine (mmuAllocateAFrame_yields s).bind fun x _ => ?_
  dsimp only
  split
  · exact .error (by decide)
  · exact .ok trivial

theorem refcountDec_eq_ok (h : refcountDec f s = .ok (n, s')) :
    f < s.nframes ∧ s.refs f=n.toNat+1 ∧ s' = s.setRefcount f n := by
  unfold refcountDec at h
  split at h
  · cases h
  split at h
  · cases h
  simp only [Except.ok.injEq,Prod.mk.injEq] at h
  refine ⟨by omega,?_,by rw [← h.1,← h.2]⟩
  rw [MMU.refs]
  bv_omega

theorem refcountInc_eq_ok (h : refcountInc f s = .ok (full, s')) : full=true ∧ s' = s ∨
      full=false ∧ ∃ n : BitVec 8, n.toNat=s.refs f + 1 ∧ s' = s.setRefcount f n := by
  unfold refcountInc at h
  split at h
  · cases h
  split at h <;> simp only [Except.ok.injEq,Prod.mk.injEq] at h
  · exact .inl ⟨h.1.symm,h.2.symm⟩
  refine .inr ⟨h.1.symm,s.memRefcounts f + 1,?_,h.2.symm⟩
  rw [MMU.refs]
  bv_omega

/-- What a completed write fault leaves of the entry `(t, l)`. -/
inductive CowDone (s : MMU) (t l : Nat) : MMU → Prop
  | last (hrefs : s.refs (s.mem t l).page.toNat=1) :
    CowDone s t l ((s.setRefcount (s.mem t l).page.toNat 0).setEntry t l
      { s.mem t l with writable := true, cowPending := false })
  | copy (hn : n.toNat≠0)
    (hrefs : s.refs (s.mem t l).page.toNat=n.toNat+1)
    (halloc : Allocates (s.setRefcount (s.mem t l).page.toNat n) fresh s1) :
    CowDone s t l ((s1.setFrame fresh (s.mem (s.mem t l).frame)).setEntry t l
      { (s1.setFrame fresh (s.mem (s.mem t l).frame)).mem t l with
        page := BitVec.ofNat 28 fresh
        writable := true
        cowPending := false })

theorem mmuCopyOnWrite_cases (h : mmuCopyOnWrite root a s = .ok (failed, s')) :
    ∃ t l, mmuGetPageOther root a s=some (t, l) ∧
      (failed=true ∧ (s.mem t l).cowPending=false ∧ s' = s ∨
        failed=false ∧ (s.mem t l).cowPending=true ∧
          (s.mem t l).page.toNat < s.nframes ∧ CowDone s t l s') := by
  simp only [mmuCopyOnWrite,mmuGetPage_false] at h
  obtain ⟨⟨page,s0⟩,hp,h⟩ := bind_eq_ok.1 h
  cases hp
  dsimp only at h
  split at h
  · cases h
  rename_i t l he
  refine ⟨t,l,he,?_⟩
  split at h
  · rename_i hc
    cases h
    exact .inl ⟨rfl,by simpa using hc,rfl⟩
  rename_i hc
  obtain ⟨⟨n,s1⟩,hd,h⟩ := bind_eq_ok.1 h
  obtain ⟨hlt,hr,rfl⟩ := refcountDec_eq_ok hd
  refine .inr ?_
  dsimp only at h
  split at h
  · rename_i hn
    cases h
    have hn' : n.toNat=0 := by
      rw [hn]
      rfl
    refine ⟨rfl,by simpa using hc,hlt,?_⟩
    subst hn
    exact CowDone.last (by omega)
  rename_i hn
  obtain ⟨⟨fresh,s2⟩,ha,h⟩ := bind_eq_ok.1 h
  have ha := mmuAllocateAFrame_spec ha
  split at h
  · cases h
  cases h
  refine ⟨rfl,by simpa using hc,hlt,?_⟩
  have hf := mmuMapFromPhysical_of_lt ha.lt
  have hmem := ha.mem
  rw [hf,hmem]
  refine CowDone.copy ?_ hr ha
  intro h0
  exact hn (BitVec.eq_of_toNat_eq h0)
end RazionOS.Kernel
