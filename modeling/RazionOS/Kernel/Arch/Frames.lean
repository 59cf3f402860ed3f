import Mathlib.Algebra.Order.Ring.Int

/-! # Physical frames -/

namespace RazionOS.Kernel
open Function BitVec List

/-- A word of physical memory, by the bit fields of a page-table entry. -/
structure PML where
  present : Bool
  writable : Bool
  user : Bool
  writethrough : Bool
  nocache : Bool
  accessed : Bool
  available1 : Bool
  size : Bool
  global : Bool
  cowPending : Bool
  available2 : BitVec 2
  page : BitVec 28
  reserved : BitVec 12
  available3 : BitVec 11
  nx : Bool
deriving DecidableEq, Repr

def PML.ofRaw (raw : BitVec 64) : PML where
  present := raw.getLsbD 0
  writable := raw.getLsbD 1
  user := raw.getLsbD 2
  writethrough := raw.getLsbD 3
  nocache := raw.getLsbD 4
  accessed := raw.getLsbD 5
  available1 := raw.getLsbD 6
  size := raw.getLsbD 7
  global := raw.getLsbD 8
  cowPending := raw.getLsbD 9
  available2 := raw.extractLsb' 10 2
  page := raw.extractLsb' 12 28
  reserved := raw.extractLsb' 40 12
  available3 := raw.extractLsb' 52 11
  nx := raw.getLsbD 63

def pageSize : Nat := 4096
def userPmlAccess : BitVec 64 := 0x07

/-- `(newPage) | USER_PML_ACCESS` of the frame `newPage`. -/
def PML.directory (frame : Nat) : PML :=
  .ofRaw (BitVec.ofNat 64 (frame*pageSize) ||| userPmlAccess)

/-- What ends in `arch_fatal`, or does not end at all. -/
inductive Fatal where
  | outOfMemory
  | badFrame
  | noReferences
  | writableShared
  | assertion
  | nullPointer
  | mappingCow
  | neverReturns
deriving DecidableEq, Repr

/-- Not one of the checks that a right account of the mappings makes idle. -/
def Fatal.Benign (e : Fatal) : Prop := e ≠ .mappingCow ∧ e ≠ .writableShared

instance (e : Fatal) : Decidable e.Benign := inferInstanceAs (Decidable (_ ∧ _))

/-- Physical memory, frame by frame, with the allocator's tables. -/
structure MMU where
  nframes : Nat
  nframes_le : nframes≤2^27
  frames : Nat → BitVec 32
  lowestAvailable : Nat
  memRefcounts : Nat → BitVec 8
  mem : Nat → Nat → PML

namespace MMU

def setEntry (s : MMU) (t i : Nat) (e : PML) : MMU :=
  { s with mem := update s.mem t (update (s.mem t) i e) }

def setFrame (s : MMU) (t : Nat) (words : Nat → PML) : MMU :=
  { s with mem := update s.mem t words }

def setRefcount (s : MMU) (frame : Nat) (n : BitVec 8) : MMU :=
  { s with memRefcounts := update s.memRefcounts frame n }
end MMU

def mmuFrameSet (frameAddr : Nat) (s : MMU) : MMU :=
  if frameAddr < s.nframes*pageSize then
    let frame := frameAddr/pageSize
    { s with
      frames := update s.frames (frame/32) (s.frames (frame/32) ||| 1#32 <<< (frame%32)) }
  else s

def mmuFrameClear (frameAddr : Nat) (s : MMU) : MMU :=
  if frameAddr < s.nframes*pageSize then
    let frame := frameAddr/pageSize
    { s with
      frames := update s.frames (frame/32) (s.frames (frame/32) &&& ~~~(1#32 <<< (frame%32)))
      lowestAvailable := if frame < s.lowestAvailable then frame else s.lowestAvailable }
  else s

def mmuFrameTest (frameAddr : Nat) (s : MMU) : Bool :=
  if frameAddr < s.nframes*pageSize then
    let frame := frameAddr/pageSize
    (s.frames (frame/32) &&& 1#32 <<< (frame%32)) != 0
  else true

def scanFrames (frames : Nat → BitVec 32) : Nat → Nat → Option Nat
  | 0, _ => none
  | n+1, i =>
    if frames i≠allOnes 32 then
      match (range 32).find? fun j => frames i &&& 1#32 <<< j == 0 with
      | some j => some (i*32+j)
      | none => scanFrames frames n (i+1)
    else scanFrames frames n (i+1)

def mmuFirstFrame (s : MMU) : Except Fatal (Nat × MMU) :=
  match scanFrames s.frames (s.nframes/32-s.lowestAvailable/32) (s.lowestAvailable/32) with
  | some out => .ok (out, { s with lowestAvailable := out+1 })
  | none => .error .outOfMemory

def mmuAllocateAFrame (s : MMU) : Except Fatal (Nat × MMU) := do
  let (index, s) ← mmuFirstFrame s
  return (index, mmuFrameSet (index*pageSize) s)

/-- The result says whether there are too many references already. -/
def refcountInc (frame : Nat) (s : MMU) : Except Fatal (Bool × MMU) :=
  if s.nframes≤frame then .error .badFrame
  else if s.memRefcounts frame=255 then .ok (true, s)
  else .ok (false, s.setRefcount frame (s.memRefcounts frame + 1))

def refcountDec (frame : Nat) (s : MMU) : Except Fatal (BitVec 8 × MMU) :=
  if s.nframes≤frame then .error .badFrame
  else if s.memRefcounts frame=0 then .error .noReferences
  else .ok (s.memRefcounts frame - 1, s.setRefcount frame (s.memRefcounts frame - 1))

namespace MMU

def Used (s : MMU) (f : Nat) : Prop := f < s.nframes ∧ (s.frames (f/32)).getLsbD (f%32)=true

instance (s : MMU) (f : Nat) : Decidable (s.Used f) := inferInstanceAs (Decidable (_ ∧ _))

def refs (s : MMU) (f : Nat) : Nat := (s.memRefcounts f).toNat

variable (s : MMU) (t i f : Nat) (e : PML) (words : Nat → PML) (n : BitVec 8)

@[simp] theorem setEntry_used : (s.setEntry t i e).Used f ↔ s.Used f := Iff.rfl

@[simp] theorem setRefcount_used : (s.setRefcount g n).Used f ↔ s.Used f := Iff.rfl

@[simp] theorem setEntry_refs : (s.setEntry t i e).refs=s.refs := rfl

@[simp] theorem setFrame_refs : (s.setFrame t words).refs=s.refs := rfl

@[simp] theorem setRefcount_refs : (s.setRefcount f n).refs=update s.refs f n.toNat := by
  funext g
  by_cases hg : g=f <;> simp [refs,setRefcount,hg]

@[simp] theorem setRefcount_mem : (s.setRefcount f n).mem=s.mem := rfl

theorem setEntry_mem (t' j : Nat) :
    (s.setEntry t i e).mem t' j=if t' = t ∧ j=i then e else s.mem t' j := by
  by_cases ht : t' = t
  · subst ht
    by_cases hj : j=i <;> simp [setEntry,hj]
  · simp [setEntry,ht]

@[simp] theorem setEntry_self : s.setEntry t i (s.mem t i)=s := by
  simp [setEntry]

theorem setFrame_mem (t' : Nat) :
    (s.setFrame t words).mem t' = if t' = t then words else s.mem t' := by
  by_cases ht : t' = t <;> simp [setFrame,ht]
end MMU

private theorem one_shift_getLsbD (hj : j<32) : (1#32 <<< k).getLsbD j=decide (j=k) := by
  by_cases h : j=k
  · simp [h]
    omega
  by_cases hlt : j<k
  · simp [h,hlt]
  · have : j-k≠0 := by omega
    simp [h,this]

private theorem word_set (hj : j<32) :
    (w ||| 1#32 <<< k).getLsbD j=if j=k then true else w.getLsbD j := by
  rw [getLsbD_or,one_shift_getLsbD hj]
  by_cases hjk : j=k <;> simp [hjk]

private theorem word_clear (hj : j<32) :
    (w &&& ~~~(1#32 <<< k)).getLsbD j=if j=k then false else w.getLsbD j := by
  rw [getLsbD_and,getLsbD_not,one_shift_getLsbD hj]
  by_cases hjk : j=k <;> simp [hj,hjk]

private theorem word_test (hk : k<32) : w &&& 1#32 <<< k=0#32 ↔ w.getLsbD k=false := by
  constructor
  · intro h
    have hb := congrArg (fun x : BitVec 32 => x.getLsbD k) h
    simpa [one_shift_getLsbD hk] using hb
  intro h
  apply eq_of_getLsbD_eq
  intro j hj
  rw [getLsbD_and,one_shift_getLsbD hj]
  by_cases hjk : j=k
  · simp [hjk,h]
  · simp [hjk]

private theorem bit_update {frames : Nat → BitVec 32}
    (hwo : ∀ j<32, w.getLsbD j=if j=f%32 then b else (frames (f/32)).getLsbD j) :
    (update frames (f/32) w (g/32)).getLsbD (g%32) =
      if g=f then b else (frames (g/32)).getLsbD (g%32) := by
  by_cases hg : g=f
  · rw [hg,update_self,hwo _ (by omega),if_pos rfl,if_pos rfl]
  by_cases hw : g/32=f/32
  · rw [hw,update_self,hwo _ (by omega),if_neg (by omega),if_neg hg]
  · rw [update_of_ne hw,if_neg hg]

section Bitmap
variable (s : MMU) (f g : Nat)

theorem frame_lt_iff : f*pageSize < s.nframes*pageSize ↔ f < s.nframes :=
  Nat.mul_lt_mul_right (by decide)

theorem frame_div : f*pageSize/pageSize=f := Nat.mul_div_cancel _ (by decide)

theorem mmuFrameSet_used (hf : f < s.nframes) :
    (mmuFrameSet (f*pageSize) s).Used g ↔ s.Used g ∨ g=f := by
  simp only [mmuFrameSet,frame_lt_iff,hf,if_true,frame_div,MMU.Used,bit_update fun _ => word_set]
  by_cases hg : g=f <;> simp [hg,hf]

theorem mmuFrameClear_used : (mmuFrameClear (f*pageSize) s).Used g ↔ s.Used g ∧ g≠f := by
  by_cases hf : f < s.nframes
  · simp only [mmuFrameClear,frame_lt_iff,hf,if_true,frame_div,MMU.Used,
      bit_update fun _ => word_clear]
    by_cases hg : g=f <;> simp [hg]
  · simp only [mmuFrameClear,frame_lt_iff,hf]
    constructor
    · intro hg
      exact ⟨hg,fun hgf => hf (hgf ▸ hg.1)⟩
    · exact fun hg => hg.1

theorem mmuFrameTest_eq_false : mmuFrameTest (f*pageSize) s=false ↔ f < s.nframes ∧ ¬ s.Used f := by
  by_cases hf : f < s.nframes
  · simp only [mmuFrameTest,frame_lt_iff,hf,if_true,frame_div,bne_eq_false_iff_eq,MMU.Used,true_and,
      Bool.not_eq_true]
    exact word_test (by omega)
  · simp [mmuFrameTest,frame_lt_iff,hf]

@[simp] theorem mmuFrameSet_mem : (mmuFrameSet f s).mem=s.mem := by
  unfold mmuFrameSet
  split <;> rfl

@[simp] theorem mmuFrameSet_refs : (mmuFrameSet f s).refs=s.refs := by
  unfold mmuFrameSet
  split <;> rfl

@[simp] theorem mmuFrameSet_nframes : (mmuFrameSet f s).nframes=s.nframes := by
  unfold mmuFrameSet
  split <;> rfl

@[simp] theorem mmuFrameClear_mem : (mmuFrameClear f s).mem=s.mem := by
  unfold mmuFrameClear
  split <;> rfl

@[simp] theorem mmuFrameClear_refs : (mmuFrameClear f s).refs=s.refs := by
  unfold mmuFrameClear
  split <;> rfl

@[simp] theorem mmuFrameClear_nframes : (mmuFrameClear f s).nframes=s.nframes := by
  unfold mmuFrameClear
  split <;> rfl
end Bitmap

theorem scanFrames_spec (h : scanFrames frames n i=some out) :
    (frames (out/32)).getLsbD (out%32)=false ∧ i≤out/32 ∧ out/32 < i+n := by
  induction n generalizing i with
  | zero => cases h
  | succ n ih =>
    have hn : scanFrames frames n (i+1)=some out →
        (frames (out/32)).getLsbD (out%32)=false ∧ i≤out/32 ∧ out/32 < i+(n+1) := by
      intro h
      have := ih h
      exact ⟨this.1,by omega,by omega⟩
    rw [scanFrames] at h
    split at h
    · split at h
      · rename_i j hf
        have hj : j<32 := by
          simpa using mem_of_find?_eq_some hf
        have ht := find?_some hf
        have hc := (word_test hj).1 (beq_iff_eq.1 ht)
        cases h
        have hd : (i*32+j)/32=i := by omega
        have hm : (i*32+j)%32=j := by omega
        rw [hd,hm]
        exact ⟨hc,by omega,by omega⟩
      · exact hn h
    · exact hn h

theorem scanFrames_passed (frames : Nat → BitVec 32) (n i : Nat) (hl : i*32≤g)
    (hh : g<(scanFrames frames n i).getD ((i+n)*32)) : (frames (g/32)).getLsbD (g%32)=true := by
  induction n generalizing i with
  | zero =>
    simp only [scanFrames,Option.getD_none] at hh
    omega
  | succ n ih =>
    -- A word in which the scan finds nothing has all its bits set.
    have hfu : (∀ j<32, (frames i).getLsbD j=true) →
        g<(scanFrames frames n (i+1)).getD ((i+1+n)*32) →
        (frames (g/32)).getLsbD (g%32)=true := by
      intro hw hg
      by_cases hi : g/32=i
      · rw [hi]
        exact hw _ (by omega)
      · exact ih (i+1) (by omega) hg
    have he : i+(n+1)=i+1+n := by omega
    rw [scanFrames,he] at hh
    split at hh
    · split at hh
      · rename_i j hf
        simp only [Option.getD_some] at hh
        have hj : j<32 := by simpa using mem_of_find?_eq_some hf
        have hd : g/32=i := by omega
        have hb := (find?_range_eq_some.1 hf).2.2 (g%32) (by omega)
        rw [hd]
        simpa [word_test (show g%32<32 by omega)] using hb
      · rename_i hf
        refine hfu (fun j hj => ?_) hh
        have hbi := find?_eq_none.1 hf j (by simpa using hj)
        simpa [word_test hj] using hbi
    · rename_i ha
      refine hfu (fun j hj => ?_) hh
      rw [not_not.1 ha,getLsbD_allOnes]
      exact decide_eq_true hj

structure Allocates (s : MMU) (f : Nat) (s' : MMU) : Prop where
  lt : f < s.nframes
  fresh : ¬ s.Used f
  used : ∀ g, s'.Used g ↔ s.Used g ∨ g=f
  mem : s'.mem=s.mem
  refs : s'.refs=s.refs
  nframes : s'.nframes=s.nframes

theorem mmuAllocateAFrame_spec (h : mmuAllocateAFrame s = .ok (f, s')) : Allocates s f s' := by
  simp only [mmuAllocateAFrame,mmuFirstFrame] at h
  split at h
  · rename_i out hs
    obtain ⟨hb,hl,hh⟩ := scanFrames_spec hs
    obtain ⟨rfl,rfl⟩ := h
    have hlt : out < s.nframes := by omega
    refine ⟨hlt,?_,?_,?_,?_,?_⟩
    · intro hu
      rw [hu.2] at hb
      cases hb
    · intro g
      exact mmuFrameSet_used _ _ _ hlt
    · simp
    · simp
      rfl
    · simp
  · simp [bind,Except.bind] at h
end RazionOS.Kernel
