import Mathlib.Order.Bounds.Basic
import RazionOS.Kernel.Arch.Frames

/-! # The bitmap of frames over runs -/

namespace RazionOS.Kernel
open List

/-- The inner loop of `mmu_first_n_frames`: `bad` after the tests of the `n` frames from the
address `i` on. -/
def testNFrames (n i : Nat) (s : MMU) : Nat :=
  (range n).foldl (fun bad j => if mmuFrameTest (i+pageSize*j) s then j+1 else bad) 0

def scanNFrames (n : Nat) (s : MMU) : Nat → Nat → Option Nat
  | 0, _ => none
  | count+1, i =>
    if testNFrames n i s=0 then some (i/pageSize)
    else scanNFrames n s count (i+pageSize)

def mmuFirstNFrames (n : Nat) (s : MMU) : Except Fatal Nat :=
  match scanNFrames n s s.nframes 0 with
  | some index => .ok index
  | none => .error .outOfMemory

def mmuAllocateNFrames (n : Nat) (s : MMU) : Except Fatal (Nat × MMU) := do
  let index ← mmuFirstNFrames n s
  return (index, (range n).foldl (fun s i => mmuFrameSet ((index+i)*pageSize) s) s)

inductive FrameCall where
  | frameSet (addr : Nat)
  | frameClear (addr : Nat)
  | allocateAFrame
  | allocateNFrames (n : Nat)
deriving DecidableEq, Repr

def FrameCall.run : FrameCall → MMU → Except Fatal (List Nat × MMU)
  | .frameSet addr, s => .ok ([], mmuFrameSet addr s)
  | .frameClear addr, s => .ok ([], mmuFrameClear addr s)
  | .allocateAFrame, s => (mmuAllocateAFrame s).map fun r => ([r.1], r.2)
  | .allocateNFrames n, s => (mmuAllocateNFrames n s).map fun r => (range' r.1 n, r.2)

def runFrameCalls (calls : List FrameCall) (s : MMU) : Except Fatal MMU :=
  calls.foldlM (fun s c => (c.run s).map Prod.snd) s

section Addresses
variable (s : MMU) (addr g : Nat)

theorem addr_lt_iff : addr < s.nframes*pageSize ↔ addr/pageSize < s.nframes :=
  (Nat.div_lt_iff_lt_mul (by decide)).symm

private theorem mmuFrameSet_addr : mmuFrameSet addr s=mmuFrameSet (addr/pageSize*pageSize) s := by
  simp [mmuFrameSet,addr_lt_iff,frame_div]

private theorem mmuFrameClear_addr :
    mmuFrameClear addr s=mmuFrameClear (addr/pageSize*pageSize) s := by
  simp [mmuFrameClear,addr_lt_iff,frame_div]

theorem mmuFrameSet_used_addr :
    (mmuFrameSet addr s).Used g ↔ s.Used g ∨ (g=addr/pageSize ∧ g < s.nframes) := by
  rw [mmuFrameSet_addr]
  by_cases hlt : addr/pageSize < s.nframes
  · rw [mmuFrameSet_used s _ g hlt]
    constructor
    · rintro (h | rfl)
      · exact .inl h
      · exact .inr ⟨rfl,hlt⟩
    · rintro (h | ⟨h,-⟩)
      · exact .inl h
      · exact .inr h
  · have ha : ¬ addr/pageSize*pageSize < s.nframes*pageSize := by
      rwa [addr_lt_iff,frame_div]
    rw [mmuFrameSet,if_neg ha]
    constructor
    · exact .inl
    rintro (h | ⟨rfl,h⟩)
    · exact h
    · exact absurd h hlt

theorem mmuFrameClear_used_addr : (mmuFrameClear addr s).Used g ↔ s.Used g ∧ g≠addr/pageSize := by
  rw [mmuFrameClear_addr,mmuFrameClear_used]

@[simp] theorem mmuFrameSet_lowestAvailable :
    (mmuFrameSet addr s).lowestAvailable=s.lowestAvailable := by
  unfold mmuFrameSet
  split <;> rfl
end Addresses

section Search
variable (s : MMU) (n i : Nat)

def MMU.FreeRange : Prop := ∀ j<n, i+j < s.nframes ∧ ¬ s.Used (i+j)

instance : Decidable (s.FreeRange n i) := inferInstanceAs (Decidable (∀ j<n, _ ∧ _))

theorem testNFrames_eq_zero : testNFrames n (i*pageSize) s=0 ↔ s.FreeRange n i := by
  induction n with
  | zero => simp [testNFrames,MMU.FreeRange]
  | succ n ih =>
    have ha : i*pageSize+pageSize*n=(i+n)*pageSize := by
      rw [Nat.add_mul,Nat.mul_comm pageSize]
    have hs : testNFrames (n+1) (i*pageSize) s =
        if mmuFrameTest ((i+n)*pageSize) s then n+1
        else testNFrames n (i*pageSize) s := by
      simp [testNFrames,range_succ,ha]
    have hr : s.FreeRange (n+1) i ↔ s.FreeRange n i ∧ mmuFrameTest ((i+n)*pageSize) s=false := by
      rw [mmuFrameTest_eq_false]
      exact Nat.forall_lt_succ_right
    rw [hs,hr,← ih]
    by_cases ht : mmuFrameTest ((i+n)*pageSize) s=true
    · simp [ht]
    · simp [ht]

theorem scanNFrames_found (count : Nat) (h : scanNFrames n s count (i*pageSize)=some f) :
    s.FreeRange n f := by
  induction count generalizing i with
  | zero => cases h
  | succ count ih =>
    rw [scanNFrames,← Nat.succ_mul] at h
    split at h
    · rename_i ht
      rw [frame_div,Option.some.injEq] at h
      rw [← h,← testNFrames_eq_zero]
      exact ht
    · exact ih (i+1) h

private theorem scanNFrames_passed (count : Nat) (hl : i≤k)
    (hh : k<(scanNFrames n s count (i*pageSize)).getD (i+count)) : ¬ s.FreeRange n k := by
  induction count generalizing i with
  | zero =>
    simp only [scanNFrames,Option.getD_none] at hh
    omega
  | succ count ih =>
    have he : i+(count+1)=i+1+count := by omega
    rw [scanNFrames,← Nat.succ_mul,he] at hh
    split at hh
    · rw [frame_div] at hh
      simp only [Option.getD_some] at hh
      omega
    · rename_i ht
      by_cases hk : k=i
      · rw [hk,← testNFrames_eq_zero]
        exact ht
      · exact ih (i+1) (by omega) hh
end Search

/-- The `n` frames from the lowest index on at which they are free; it is fatal if there is none. -/
def HandsOut (n : Nat) (free : Nat → Prop) (s : MMU) : Except Fatal (Nat × MMU) → Prop
  | .ok (f, s') => IsLeast {i | free i} f ∧ ∀ g, s'.Used g ↔ s.Used g ∨ (f≤g ∧ g<f+n)
  | .error e => e = .outOfMemory ∧ ∀ i, ¬ free i

def MMU.LowUsed (s : MMU) : Prop := ∀ f < s.lowestAvailable, s.Used f

theorem mmuAllocateAFrame_handsOut (hs : s.LowUsed) :
    HandsOut 1 (fun i => i < s.nframes/32*32 ∧ ¬ s.Used i) s (mmuAllocateAFrame s) := by
  -- Below the word in which the scan starts every frame is used, by the hint.
  have hp : ∀ g < s.nframes/32*32, g<(scanFrames s.frames (s.nframes/32-s.lowestAvailable/32)
        (s.lowestAvailable/32)).getD (s.nframes/32*32) → s.Used g := by
    intro g hg hsc
    by_cases hl : s.lowestAvailable/32*32≤g
    · have he : s.lowestAvailable/32+(s.nframes/32-s.lowestAvailable/32) =
          s.nframes / 32 := by omega
      refine ⟨by omega,scanFrames_passed s.frames (s.nframes/32-s.lowestAvailable/32)
        (s.lowestAvailable/32) hl ?_⟩
      rwa [he]
    · exact hs g (by omega)
  rw [mmuAllocateAFrame,mmuFirstFrame]
  cases hsc : scanFrames s.frames (s.nframes/32-s.lowestAvailable/32) (s.lowestAvailable/32) with
  | none =>
    rw [hsc] at hp
    exact ⟨rfl,fun i hi => hi.2 (hp i hi.1 hi.1)⟩
  | some out =>
    rw [hsc,Option.getD_some] at hp
    obtain ⟨hb,hl,hh⟩ := scanFrames_spec hsc
    have hlt : out < s.nframes := by omega
    refine ⟨⟨⟨by omega,?_⟩,?_⟩,?_⟩
    · intro hu
      rw [hu.2] at hb
      cases hb
    · intro i hi
      by_contra ho
      exact hi.2 (hp i hi.1 (by omega))
    · intro g
      refine (mmuFrameSet_used { s with lowestAvailable := out+1 } out g hlt).trans ?_
      exact or_congr_right (by omega)

private theorem mmuAllocateAFrame_lowestAvailable (h : mmuAllocateAFrame s = .ok (f, s')) :
    s'.lowestAvailable=f+1 := by
  rw [mmuAllocateAFrame,mmuFirstFrame] at h
  split at h
  · cases h
    exact mmuFrameSet_lowestAvailable _ _
  · cases h

private theorem mmuAllocateAFrame_lowUsed (hs : s.LowUsed) (h : mmuAllocateAFrame s = .ok (f, s')) :
    s'.LowUsed := by
  have ho := mmuAllocateAFrame_handsOut hs
  rw [h] at ho
  obtain ⟨⟨hf,hl⟩,hu⟩ := ho
  intro g hg
  rw [mmuAllocateAFrame_lowestAvailable h] at hg
  rw [hu]
  by_cases hgf : g=f
  · exact .inr ⟨by omega,by omega⟩
  refine .inl (by_contra fun hfr => ?_)
  have := hl ⟨Nat.lt_trans (by omega) hf.1,hfr⟩
  omega

theorem setNFrames_spec :
    let s' := (range n).foldl (fun s i => mmuFrameSet ((index+i)*pageSize) s) s
    (∀ g, s'.Used g ↔ s.Used g ∨ ((index≤g ∧ g < index+n) ∧ g < s.nframes)) ∧
      s'.nframes=s.nframes ∧ s'.lowestAvailable=s.lowestAvailable := by
  induction n with
  | zero => exact ⟨fun g => by simp,rfl,rfl⟩
  | succ n ih =>
    obtain ⟨hu,hf,hl⟩ := ih
    rw [range_succ,foldl_append,foldl_cons,foldl_nil]
    refine ⟨fun g => ?_,?_,?_⟩
    · rw [mmuFrameSet_used_addr,hu,frame_div,or_assoc]
      exact or_congr_right (by omega)
    · rw [mmuFrameSet_nframes,hf]
    · rw [mmuFrameSet_lowestAvailable,hl]

theorem setNFrames_used (hf : s.FreeRange n f) (g : Nat) :
    ((range n).foldl (fun s i => mmuFrameSet ((f+i)*pageSize) s) s).Used g ↔
      s.Used g ∨ (f≤g ∧ g<f+n) := by
  refine (setNFrames_spec.1 g).trans (or_congr_right (and_iff_left_of_imp ?_))
  intro hg
  have hlt := (hf (g-f) (by omega)).1
  omega

private theorem mmuAllocateNFrames_handsOut (hn : 1≤n) :
    HandsOut n (s.FreeRange n) s (mmuAllocateNFrames n s) := by
  have hp : ∀ k, k<(scanNFrames n s s.nframes 0).getD s.nframes → ¬ s.FreeRange n k := by
    intro k hk
    exact scanNFrames_passed s n 0 s.nframes (Nat.zero_le k) (by simpa using hk)
  rw [mmuAllocateNFrames,mmuFirstNFrames]
  cases hs : scanNFrames n s s.nframes 0 with
  | none =>
    rw [hs,Option.getD_none] at hp
    refine ⟨rfl,fun i hi => hp i ?_ hi⟩
    have := (hi 0 hn).1
    omega
  | some index =>
    rw [hs,Option.getD_some] at hp
    have hf := scanNFrames_found s n 0 s.nframes (by simpa using hs)
    refine ⟨⟨hf,fun i hi => ?_⟩,setNFrames_used hf⟩
    by_contra hlt
    exact hp i (by omega) hi

private theorem mmuAllocateNFrames_ok (h : mmuAllocateNFrames n s = .ok (f, s')) :
    s.FreeRange n f ∧ (∀ g, s'.Used g ↔ s.Used g ∨ (f≤g ∧ g<f+n)) ∧
      s'.lowestAvailable=s.lowestAvailable := by
  rw [mmuAllocateNFrames,mmuFirstNFrames] at h
  cases hs : scanNFrames n s s.nframes 0 with
  | none =>
    rw [hs] at h
    cases h
  | some index =>
    rw [hs] at h
    cases h
    have hf := scanNFrames_found s n 0 s.nframes (by simpa using hs)
    exact ⟨hf,setNFrames_used hf,setNFrames_spec.2.2⟩

private theorem mmuFrameClear_lowestAvailable : (mmuFrameClear addr s).lowestAvailable =
      if addr/pageSize < s.nframes then min (addr/pageSize) s.lowestAvailable
      else s.lowestAvailable := by
  simp only [mmuFrameClear,addr_lt_iff]
  split
  · simp only
    split <;> omega
  · rfl

private theorem mmuFrameClear_lowUsed (hs : s.LowUsed) : (mmuFrameClear addr s).LowUsed := by
  intro f hf
  rw [mmuFrameClear_lowestAvailable] at hf
  have hu := hs f (by split at hf <;> omega)
  rw [mmuFrameClear_used_addr]
  refine ⟨hu,?_⟩
  rintro rfl
  rw [if_pos hu.1] at hf
  omega

/-- A frame that is handed out was free, and only `mmu_frame_clear` takes a mark away. -/
structure FrameCall.Marks (c : FrameCall) (s : MMU) (given : List Nat) (s' : MMU) : Prop where
  lowUsed : s'.LowUsed
  given_free : ∀ f∈given, ¬ s.Used f
  given_used : ∀ f∈given, s'.Used f
  kept : ∀ f, s.Used f → s'.Used f ∨ ∃ addr, c = .frameClear addr ∧ addr/pageSize=f

theorem FrameCall.run_marks (c : FrameCall) (hs : s.LowUsed) (h : c.run s = .ok (given, s')) :
    c.Marks s given s' := by
  cases c with
  | frameSet addr =>
    cases h
    refine ⟨?_,by simp,by simp,?_⟩
    · intro f hf
      rw [mmuFrameSet_lowestAvailable] at hf
      exact (mmuFrameSet_used_addr s addr f).2 (.inl (hs f hf))
    · intro f hf
      exact .inl ((mmuFrameSet_used_addr s addr f).2 (.inl hf))
  | frameClear addr =>
    cases h
    refine ⟨mmuFrameClear_lowUsed hs,by simp,by simp,?_⟩
    intro f hf
    by_cases hfa : f=addr/pageSize
    · exact .inr ⟨addr,rfl,hfa.symm⟩
    · exact .inl ((mmuFrameClear_used_addr s addr f).2 ⟨hf,hfa⟩)
  | allocateAFrame =>
    have ho := mmuAllocateAFrame_handsOut hs
    rw [FrameCall.run] at h
    cases ha : mmuAllocateAFrame s with
    | error e =>
      rw [ha] at h
      cases h
    | ok r =>
      rw [ha] at h ho
      cases h
      obtain ⟨⟨hfr,-⟩,hu⟩ := ho
      refine ⟨mmuAllocateAFrame_lowUsed hs ha,?_,?_,fun f hf => .inl ((hu f).2 (.inl hf))⟩
      · simpa using hfr.2
      · simpa using (hu r.1).2 (.inr (by omega))
  | allocateNFrames n =>
    rw [FrameCall.run] at h
    cases ha : mmuAllocateNFrames n s with
    | error e =>
      rw [ha] at h
      cases h
    | ok r =>
      obtain ⟨hfr,hu,hl⟩ := mmuAllocateNFrames_ok ha
      rw [ha] at h
      cases h
      refine ⟨?_,?_,?_,fun f hf => .inl ((hu f).2 (.inl hf))⟩
      · intro f hf
        rw [hl] at hf
        exact (hu f).2 (.inl (hs f hf))
      · intro f hf
        obtain ⟨i,hi,rfl⟩ := mem_range'.1 hf
        rw [Nat.one_mul]
        exact (hfr i hi).2
      · intro f hf
        exact (hu f).2 (.inr (mem_range'_1.1 hf))

theorem runFrameCalls_cons : runFrameCalls (c::calls) s = .ok s' ↔
      ∃ given s1, c.run s = .ok (given, s1) ∧ runFrameCalls calls s1 = .ok s' := by
  rw [runFrameCalls,foldlM_cons]
  cases hr : c.run s with
  | error e => simp [Except.map,bind,Except.bind]
  | ok r =>
    obtain ⟨given,s1⟩ := r
    simp [Except.map,bind,Except.bind,runFrameCalls]

private theorem runFrameCalls_lowUsed (hs : s.LowUsed) (h : runFrameCalls calls s = .ok s') :
    s'.LowUsed := by
  induction calls generalizing s with
  | nil =>
    cases h
    exact hs
  | cons c calls ih =>
    obtain ⟨given,s1,hc,hr⟩ := runFrameCalls_cons.1 h
    exact ih (c.run_marks hs hc).lowUsed hr

private theorem runFrameCalls_used (hs : s.LowUsed) (hf : s.Used f)
    (h : runFrameCalls calls s = .ok s') :
    s'.Used f ∨ ∃ addr, .frameClear addr∈calls ∧ addr/pageSize=f := by
  induction calls generalizing s with
  | nil =>
    cases h
    exact .inl hf
  | cons c calls ih =>
    obtain ⟨given,s1,hc,hr⟩ := runFrameCalls_cons.1 h
    have hm := c.run_marks hs hc
    rcases hm.kept f hf with hf1 | ⟨addr,rfl,ha⟩
    · rcases ih hm.lowUsed hf1 hr with hu | ⟨addr,hmem,ha⟩
      · exact .inl hu
      · exact .inr ⟨addr,mem_cons_of_mem _ hmem,ha⟩
    · exact .inr ⟨addr,mem_cons_self,ha⟩

/-- Over every run from start-up, with any bitmap to begin with. -/
theorem frameBitmap_correct (boot : MMU) (hboot : boot.lowestAvailable = 0)
    (calls : List FrameCall) (s : MMU) (hrun : runFrameCalls calls boot = .ok s) :
    (∀ f < s.lowestAvailable, s.Used f) ∧
    HandsOut 1 (fun i => i < s.nframes/32*32 ∧ ¬ s.Used i) s (mmuAllocateAFrame s) ∧
    (∀ n, 1 ≤ n → HandsOut n (s.FreeRange n) s (mmuAllocateNFrames n s)) ∧
    ∀ (c c' : FrameCall) (between : List FrameCall) (given given' : List Nat) (s1 s2 s3 : MMU)
      (f : Nat), c.run s = .ok (given, s1) → f ∈ given →
      runFrameCalls between s1 = .ok s2 → c'.run s2 = .ok (given', s3) → f ∈ given' →
      ∃ addr, .frameClear addr ∈ between ∧ addr/pageSize = f := by
  have hl : s.LowUsed := by
    refine runFrameCalls_lowUsed ?_ hrun
    intro f hf
    omega
  refine ⟨hl,mmuAllocateAFrame_handsOut hl,fun n hn => mmuAllocateNFrames_handsOut hn,?_⟩
  intro c c' between given given' s1 s2 s3 f hc hf hb hc' hf'
  have hm := c.run_marks hl hc
  have hl2 := runFrameCalls_lowUsed hm.lowUsed hb
  rcases runFrameCalls_used hm.lowUsed (hm.given_used f hf) hb with hu | hcl
  · exact absurd hu ((c'.run_marks hl2 hc').given_free f hf')
  · exact hcl

def freeMemory : MMU where
  nframes := 64
  nframes_le := by decide
  frames _ := 0
  lowestAvailable := 0
  memRefcounts _ := 0
  mem _ _ := .ofRaw 0

theorem freeMemory_bitmap : freeMemory.lowestAvailable = 0 ∧
    ∃ s, runFrameCalls [.allocateAFrame, .allocateNFrames 2, .allocateAFrame, .frameClear 8192]
        freeMemory = .ok s ∧ s.lowestAvailable = 2 ∧ ∀ f < s.lowestAvailable, s.Used f := by
  have hl : (runFrameCalls [.allocateAFrame, .allocateNFrames 2, .allocateAFrame,
      .frameClear 8192] freeMemory).toOption.map MMU.lowestAvailable=some 2 := by decide +kernel
  refine ⟨rfl,?_⟩
  cases hr : runFrameCalls [.allocateAFrame, .allocateNFrames 2, .allocateAFrame,
      .frameClear 8192] freeMemory with
  | error e => simp [hr,Except.toOption] at hl
  | ok s =>
    rw [hr] at hl
    exact ⟨s,rfl,by simpa [Except.toOption] using hl,(frameBitmap_correct freeMemory rfl _ s hr).1⟩
end RazionOS.Kernel
