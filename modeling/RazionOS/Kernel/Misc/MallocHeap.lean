import Mathlib.Data.List.Pairwise
import RazionOS.Framework.Linked
import RazionOS.Framework.SkipList
import RazionOS.Kernel.Misc.Malloc

/-! # The allocator's account of its memory -/

namespace RazionOS.Kernel.Malloc
open Framework

inductive Kind where
  | small (bin : Nat)
  | big (pages : Nat)
deriving DecidableEq

structure Run where
  base : Nat
  kind : Kind
deriving DecidableEq

namespace Kind

def length : Kind → Nat
  | small _ => pageSize
  | big pages => pageSize*pages

def size : Kind → Nat
  | small bin => bin
  | big pages => pages*pageSize-bigHeader

def Valid : Kind → Prop
  | small bin => bin<bigBin
  | big pages => 0<pages
end Kind

def Run.Apart (R R' : Run) : Prop :=
  R.base + R.kind.length≤R'.base ∨ R'.base+R'.kind.length≤R.base

instance : Std.Symm Run.Apart := ⟨fun _ _ h => h.symm⟩

def cellSize (bin : Nat) : Nat := 2^(bin+smallestBinLog)

def IsCell (base bin c : Nat) : Prop :=
  ∃ k, c=base+binHeader+k * cellSize bin ∧ (k+1) * cellSize bin≤pageSize-binHeader

structure Shape where
  runs : List Run
  free : Nat → List Nat
  pages : Nat → List Nat
  levels : Nat → List Nat

namespace Heap

variable (st : Heap)

def cells (header : Nat) : Option Nat → Option Nat
  | none => toPtr (st.mem (headAt header))
  | some c => toPtr (st.mem c)

def pageList (bin : Nat) : Option Nat → Option Nat
  | none => toPtr (st.binHead bin)
  | some header => toPtr (st.mem (nextAt header))
end Heap

structure Runs (st : Heap) (runs : List Run) : Prop where
  regions : st.regions=runs.map fun R => (R.base, R.kind.length)
  apart : runs.Pairwise Run.Apart
  aligned : ∀ R∈runs, R.base%pageSize=0
  start : ∀ R∈runs, kernelHeapStart≤R.base
  valid : ∀ R∈runs, R.kind.Valid
  size : ∀ R∈runs, st.mem (sizeAt R.base)=R.kind.size
  magic : ∀ R∈runs, st.mem (magicAt R.base)=binMagic

structure Stacks (st : Heap) (runs : List Run) (free : Nat → List Nat) : Prop where
  linked : ∀ x b, ⟨x,.small b⟩∈runs → Linked (st.cells x) (free x)
  cell : ∀ x b, ⟨x,.small b⟩∈runs → ∀ c∈free x, IsCell x b c

structure Bins (st : Heap) (runs : List Run) (free pages : Nat → List Nat) : Prop where
  linked : ∀ b<bigBin, Linked (st.pageList b) (pages b)
  /-- The pages in the list of a bin are those with a free cell. -/
  page : ∀ b<bigBin, ∀ x, x∈pages b ↔ ⟨x,.small b⟩∈runs ∧ free x≠[]

def bigSize (st : Heap) (x : Nat) : Nat := st.mem (sizeAt x)

structure FreeRuns (st : Heap) (runs : List Run) (levels : Nat → List Nat) : Prop where
  linked : ∀ i ≤ skipMaxLevel, Linked (st.forward i) (levels i)
  sorted : Levels (bigSize st) levels
  big : ∀ x∈levels 0, ∃ n, ⟨x,.big n⟩∈runs
  top : st.level ≤ skipMaxLevel
  empty : ∀ i, st.level < i → levels i=[]

structure RunStacks (st : Heap) (runs : List Run) (levels : Nat → List Nat) : Prop where
  freed : ∀ x n, ⟨x,.big n⟩∈runs → x∈levels 0 →
    st.mem (headAt x)=x+bigHeader ∧ st.mem (x+bigHeader)=0
  taken : ∀ x n, ⟨x,.big n⟩∈runs → x∉levels 0 → st.mem (headAt x)=0

structure HeapInv (st : Heap) (sh : Shape) : Prop where
  runs : Runs st sh.runs
  cells : Stacks st sh.runs sh.free
  bins : Bins st sh.runs sh.free sh.pages
  freeRuns : FreeRuns st sh.runs sh.levels
  runStacks : RunStacks st sh.runs sh.levels
  newest : st.newestBig=0 ∨ ∃ n, ⟨st.newestBig,.big n⟩∈sh.runs

theorem Kind.header_le_length {k : Kind} (h : k.Valid) : bigHeader<k.length := by
  cases k with
  | small b =>
    change bigHeader<pageSize
    decide
  | big n =>
    have hn : 0<n := h
    simp only [Kind.length,pageSize,bigHeader]
    omega

variable {a x b n : Nat}

theorem toPtr_eq_some (h : toPtr a=some x) : a=x ∧ x≠0 := by
  unfold toPtr at h
  split at h
  · cases h
  rename_i ha
  cases h
  exact ⟨rfl,ha⟩

theorem toPtr_eq_none (h : toPtr a=none) : a=0 := by
  unfold toPtr at h
  split at h
  · assumption
  · cases h

@[simp] theorem toPtr_zero : toPtr 0=none := rfl

theorem toPtr_of_ne (h : a≠0) : toPtr a=some a := if_neg h

@[simp] theorem toPtr_getD (h : o≠some 0) : toPtr (o.getD 0)=o := by
  cases o with
  | none => rfl
  | some a =>
    have ha : a≠0 := fun ha => h (by rw [ha])
    exact toPtr_of_ne ha

variable {R R' : Run}

namespace Runs

variable (h : Runs st runs)
include h

section
variable (hR : R∈runs) (hR' : R' ∈ runs)
include hR hR'

theorem eq_or_apart : R=R' ∨ R.Apart R' := by
  by_cases heq : R=R'
  · exact .inl heq
  · exact .inr (h.apart.forall hR hR' heq)

theorem offset_inj (ho : o<R.kind.length)
    (ho' : o' < R'.kind.length) (heq : R.base+o=R'.base+o') : R=R' ∧ o=o' := by
  rcases h.eq_or_apart hR hR' with rfl | ha
  · exact ⟨rfl,by omega⟩
  · unfold Run.Apart at ha
    omega

theorem base_inj (heq : R.base=R'.base) : R=R' := by
  have hlen : 0<R.kind.length := Nat.zero_lt_of_lt (Kind.header_le_length (h.valid R hR))
  have hlen' : 0<R'.kind.length := Nat.zero_lt_of_lt (Kind.header_le_length (h.valid R' hR'))
  exact (h.offset_inj hR hR' hlen hlen' (by omega)).1

end

theorem base_pos (hR : R∈runs) : R.base≠0 := by
  have := h.start R hR
  unfold kernelHeapStart at this
  omega
end Runs

/-! ## Parts of the memory

Each part of the account has its own words. -/

inductive Part where
  | run
  | stack
  | bin
  | forward
  | runStack
deriving DecidableEq

def partOf (k : Kind) (o : Nat) : Option Part :=
  match k with
  | .small _ =>
    if o=0 then some .bin
    else if o=16 ∨ o=24 then some .run
    else if o=8 ∨ 32≤o then some .stack
    else none
  | .big _ =>
    if o=16 ∨ o=24 then some .run
    else if 40≤o ∧ o<96 then some .forward
    else if o=8 ∨ 96≤o then some .runStack
    else none

def InPart (runs : List Run) (part : Part) (a : Nat) : Prop :=
  ∃ R∈runs, ∃ o<R.kind.length, a=R.base+o ∧ partOf R.kind o=some part

def Touches (runs : List Run) (part : Part) (st st' : Heap) : Prop :=
  ∀ a, ¬ InPart runs part a → st'.mem a=st.mem a

namespace Runs

variable (h : Runs st runs)
include h

theorem part_unique (hp : InPart runs p a) (hq : InPart runs q a) : p=q := by
  obtain ⟨R,hR,o,ho,rfl,hp⟩ := hp
  obtain ⟨R',hR',o',ho',heq,hq⟩ := hq
  obtain ⟨rfl,rfl⟩ := h.offset_inj hR hR' ho ho' heq
  rw [hp] at hq
  exact Option.some.inj hq

theorem keeps (ht : Touches runs p st1 st2) (hne : q≠p) (ha : InPart runs q a) :
    st2.mem a=st1.mem a :=
  ht a fun hp => hne (h.part_unique ha hp)

theorem inPart (hR : R∈runs) (ho : o≤bigHeader) (hp : partOf R.kind o=some p) :
    InPart runs p (R.base+o) :=
  ⟨R,hR,o,Nat.lt_of_le_of_lt ho (Kind.header_le_length (h.valid R hR)),rfl,hp⟩

theorem inPart_run (hR : R∈runs) :
    InPart runs .run (sizeAt R.base) ∧ InPart runs .run (magicAt R.base) := by
  have hp : ∀ o, o=16 ∨ o=24 → partOf R.kind o=some .run := by
    rintro o (rfl | rfl) <;> cases R.kind <;> rfl
  exact ⟨h.inPart hR (by decide) (hp 16 (.inl rfl)),h.inPart hR (by decide) (hp 24 (.inr rfl))⟩

theorem inPart_next (hx : ⟨x,.small b⟩∈runs) : InPart runs .bin (nextAt x) :=
  h.inPart hx (Nat.zero_le _) rfl

theorem inPart_head (hx : ⟨x,.small b⟩∈runs) : InPart runs .stack (headAt x) :=
  h.inPart hx (by decide) rfl

theorem inPart_bigHead (hx : ⟨x,.big n⟩∈runs) : InPart runs .runStack (headAt x) :=
  h.inPart hx (by decide) rfl

theorem inPart_bigCell (hx : ⟨x,.big n⟩∈runs) : InPart runs .runStack (x+bigHeader) :=
  h.inPart hx (Nat.le_refl _) rfl

theorem inPart_forward (hx : ⟨x,.big n⟩∈runs) (hi : i ≤ skipMaxLevel) :
    InPart runs .forward (forwardAt x i) := by
  unfold skipMaxLevel at hi
  have hp : partOf (.big n) (40+8*i)=some .forward := by
    simp only [partOf]
    rw [if_neg (by omega),if_pos (by omega)]
  have hle : 40+8*i≤bigHeader := by
    unfold bigHeader
    omega
  have hin := h.inPart hx hle hp
  rwa [forwardAt,Nat.add_assoc]
end Runs

theorem IsCell.bounds (hc : IsCell x b c) : x + binHeader≤c ∧ c + cellSize b≤x+pageSize := by
  obtain ⟨k,rfl,hk⟩ := hc
  rw [Nat.add_mul] at hk
  unfold binHeader pageSize at *
  omega

theorem IsCell.inPart (hx : ⟨x,.small b⟩∈runs) (hc : IsCell x b c) : InPart runs .stack c := by
  obtain ⟨hl,hh⟩ := hc.bounds
  have hs : 0<cellSize b := Nat.two_pow_pos _
  unfold binHeader at hl
  refine ⟨_,hx,c-x,?_,?_,?_⟩
  · change c - x<pageSize
    omega
  · dsimp only
    omega
  · simp only [partOf]
    rw [if_neg (by omega),if_neg (by omega),if_pos (by omega)]

def StackWord (runs : List Run) (free : Nat → List Nat) (a : Nat) : Prop :=
  ∃ x b, ⟨x,.small b⟩∈runs ∧ (a=headAt x ∨ a∈free x)

def RunStackWord (runs : List Run) (levels : Nat → List Nat) (a : Nat) : Prop :=
  ∃ x n, ⟨x,.big n⟩∈runs ∧ (a=headAt x ∨ x∈levels 0 ∧ a=x+bigHeader)

section Congr
variable {free pages levels : Nat → List Nat}

theorem Stacks.congr (h : Stacks st runs free)
    (hmem : ∀ a, StackWord runs free a → st'.mem a=st.mem a) : Stacks st' runs free := by
  refine ⟨?_,h.cell⟩
  intro x b hx
  apply (h.linked x b hx).congr
  · simp [Heap.cells,hmem _ ⟨x,b,hx,.inl rfl⟩]
  · intro c hc
    simp [Heap.cells,hmem _ ⟨x,b,hx,.inr hc⟩]

theorem RunStacks.congr (h : RunStacks st runs levels)
    (hmem : ∀ a, RunStackWord runs levels a → st'.mem a=st.mem a) :
    RunStacks st' runs levels := by
  constructor
  · intro x n hx hf
    rw [hmem _ ⟨x,n,hx,.inl rfl⟩,hmem _ ⟨x,n,hx,.inr ⟨hf,rfl⟩⟩]
    exact h.freed x n hx hf
  · intro x n hx hf
    rw [hmem _ ⟨x,n,hx,.inl rfl⟩]
    exact h.taken x n hx hf

variable (hruns : Runs st runs)
include hruns

theorem StackWord.inPart (h : Stacks st runs free) (ha : StackWord runs free a) :
    InPart runs .stack a := by
  obtain ⟨x,b,hx,rfl | hc⟩ := ha
  · exact hruns.inPart_head hx
  · exact (h.cell x b hx a hc).inPart hx

theorem RunStackWord.inPart (ha : RunStackWord runs levels a) : InPart runs .runStack a := by
  obtain ⟨x,n,hx,rfl | ⟨-,rfl⟩⟩ := ha
  · exact hruns.inPart_bigHead hx
  · exact hruns.inPart_bigCell hx

theorem Runs.congr (hr : st'.regions=st.regions)
    (hmem : ∀ a, InPart runs .run a → st'.mem a=st.mem a) : Runs st' runs := by
  refine ⟨hr.trans hruns.regions,hruns.apart,hruns.aligned,hruns.start,hruns.valid,?_,?_⟩
  · intro R hR
    rw [hmem _ (hruns.inPart_run hR).1,hruns.size R hR]
  · intro R hR
    rw [hmem _ (hruns.inPart_run hR).2,hruns.magic R hR]

theorem Bins.congr (h : Bins st runs free pages) (hh : st'.binHead=st.binHead)
    (hmem : ∀ a, InPart runs .bin a → st'.mem a=st.mem a) : Bins st' runs free pages := by
  refine ⟨?_,h.page⟩
  intro b hb
  apply (h.linked b hb).congr
  · simp [Heap.pageList,hh]
  · intro x hx
    simp [Heap.pageList,hmem _ (hruns.inPart_next ((h.page b hb x).1 hx).1)]

private theorem FreeRuns.size_congr (h : FreeRuns st runs levels)
    (hmem : ∀ a, InPart runs .run a → st'.mem a=st.mem a) : Levels (bigSize st') levels := by
  refine ⟨h.sorted.ascending.imp_of_mem ?_,h.sorted.sub⟩
  intro x y hx hy hxy
  obtain ⟨n,hx⟩ := h.big x hx
  obtain ⟨m,hy⟩ := h.big y hy
  have hs : ∀ z k, ⟨z,.big k⟩∈runs → bigSize st' z=bigSize st z :=
    fun z k hz => hmem _ (hruns.inPart_run hz).1
  rwa [hs x n hx,hs y m hy]

theorem FreeRuns.congr (h : FreeRuns st runs levels) (hl : st'.level=st.level)
    (hh : st'.bigForward=st.bigForward)
    (hmem : ∀ a, InPart runs .forward a ∨ InPart runs .run a → st'.mem a=st.mem a) :
    FreeRuns st' runs levels := by
  refine ⟨?_,h.size_congr hruns fun a ha => hmem a (.inr ha),h.big,hl ▸ h.top,hl ▸ h.empty⟩
  intro i hi
  apply (h.linked i hi).congr
  · simp [Heap.forward,hh]
  intro x hx
  obtain ⟨n,hx⟩ := h.big x ((h.sorted.sub_zero i).subset hx)
  simp [Heap.forward,hmem _ (.inl (hruns.inPart_forward hx hi))]
end Congr

theorem HeapInv.frame (h : HeapInv st sh) (hr : ∀ a, InPart sh.runs .run a → mem a=st.mem a)
    (hb : ∀ a, InPart sh.runs .bin a → mem a=st.mem a)
    (hf : ∀ a, InPart sh.runs .forward a → mem a=st.mem a)
    (hs : ∀ a, StackWord sh.runs sh.free a → mem a=st.mem a)
    (hrs : ∀ a, RunStackWord sh.runs sh.levels a → mem a=st.mem a) :
    HeapInv { st with mem } sh := by
  refine ⟨h.runs.congr rfl hr,h.cells.congr hs,h.bins.congr h.runs rfl hb,
    h.freeRuns.congr h.runs rfl rfl ?_,h.runStacks.congr hrs,h.newest⟩
  rintro a (ha | ha)
  · exact hf a ha
  · exact hr a ha
end RazionOS.Kernel.Malloc
