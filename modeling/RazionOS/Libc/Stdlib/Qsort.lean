import RazionOS.Framework.Loop
import Mathlib.Tactic.Linarith

/-!
# Sorting

`qsort` sorts in place, with swaps of elements byte by byte. The pivot is a copy of the last
element.
-/

namespace RazionOS.Libc.Qsort
open Framework Function

inductive Fault where
  | outOfBounds
  | rounds
deriving DecidableEq

/-- Bytes by their distance from the start of the array. -/
abbrev Memory := Int → UInt8

/-- No object has more bytes than a `ssize_t` can count. -/
structure SortableArray where
  nmemb : Nat
  size : Nat
  size_pos : 0 < size
  func : List UInt8 → List UInt8 → Int
  fits : nmemb*size<2^63

namespace SortableArray

variable (array : SortableArray)

def address (k : Int) (x : Nat) : Int := array.size*k+x

def elem (mem : Memory) (k : Int) : List UInt8 :=
  (List.range array.size).map fun x => mem (array.address k x)

def object (mem : Memory) (k : Int) : Except Fault (List UInt8) :=
  if 0≤array.address k 0 ∧ array.address k array.size≤array.size*array.nmemb then
    .ok (array.elem mem k)
  else .error .outOfBounds

def load (mem : Memory) (a : Int) : Except Fault UInt8 :=
  if 0≤a ∧ a<array.size*array.nmemb then .ok (mem a) else .error .outOfBounds

def swapByte (i j : Int) (x : Nat) (mem : Memory) : Except Fault Memory := do
  let tmp ← array.load mem (array.address i x)
  let byte ← array.load mem (array.address j x)
  return update (update mem (array.address i x) byte) (array.address j x) tmp

def swap (i j : Int) (mem : Memory) : Except Fault Memory :=
  if j≠i then forRange (array.swapByte i j) array.size mem else .ok mem

/-- A round of the loop of `partition`, with the index `i` and the memory. -/
def compareAt (pivot : List UInt8) (j : Int) (s : Int × Memory) : Except Fault (Int × Memory) := do
  let obj ← array.object s.2 j
  if array.func obj pivot≤0 then
    let mem ← array.swap (s.1+1) j s.2
    return (s.1+1, mem)
  return s

def partition (lo hi : Int) (mem : Memory) : Except Fault (Int × Memory) := do
  let pivot ← array.object mem hi
  forRange (fun r => array.compareAt pivot (lo+r)) (hi+1-lo).toNat (lo-1, mem)

def quicksort : Nat → Int → Int → Memory → Except Fault Memory
  | 0, _, _, _ => .error .rounds
  | fuel+1, lo, hi, mem =>
    if lo ≥ 0 ∧ hi ≥ 0 ∧ lo<hi then do
      let (pivot, mem) ← array.partition lo hi mem
      let mem ← quicksort fuel lo (pivot-1) mem
      quicksort fuel (pivot+1) hi mem
    else .ok mem

/-- The last index is a `ssize_t`. -/
def qsortR (fuel : Nat) (mem : Memory) : Except Fault Memory :=
  if array.nmemb<2 ∨ array.size=0 then .ok mem
  else array.quicksort fuel 0 (Int.bmod (array.nmemb-1) (2^64)) mem
end SortableArray

variable {a : SortableArray} {i j k lo hi : Int}

private theorem address_inj (hx : x<a.size) (hy : y<a.size) (h : a.address j x=a.address k y) :
    j=k ∧ x=y := by
  have hd := congrArg (· / (a.size : Int)) h
  have hpos : (a.size : Int)≠0 := by omega
  simp only [SortableArray.address,Int.add_comm,Int.add_mul_ediv_left _ _ hpos] at hd h
  rw [Int.ediv_eq_zero_of_lt (by omega) (by omega),Int.ediv_eq_zero_of_lt (by omega) (by omega)]
    at hd
  obtain rfl : j=k := by omega
  omega

private theorem load_address (hj : 0≤j) (hlt : j<a.nmemb) (hx : x<a.size) :
    a.load mem (a.address j x) = .ok (mem (a.address j x)) := by
  refine if_pos ?_
  unfold SortableArray.address
  constructor <;> nlinarith

theorem object_eq (hj : 0≤j) (hlt : j<a.nmemb) : a.object mem j = .ok (a.elem mem j) := by
  refine if_pos ?_
  unfold SortableArray.address
  constructor <;> nlinarith

private theorem swap_yields (hi : 0 ≤ i) (hi' : i<a.nmemb) (hj : 0≤j) (hj' : j<a.nmemb) :
    Yields (fun _ => False) (fun mem' => ∀ k, a.elem mem' k=a.elem mem (Equiv.swap i j k))
      (a.swap i j mem) := by
  rw [SortableArray.swap]
  split
  swap
  · next heq => exact .ok fun k => by rw [not_not.1 heq,Equiv.swap_self,Equiv.refl_apply]
  next hne =>
  -- after `n` rounds the first `n` bytes of the elements are exchanged
  refine (forRange_yields (fun n mem' => ∀ k x, x<a.size → mem' (a.address k x) =
    mem (a.address (if x<n then Equiv.swap i j k else k) x)) (by simp) ?_).mono ?_
  · intro n mem1 hn h
    simp only [SortableArray.swapByte,load_address, *]
    refine .ok fun k x hx => ?_
    have hs : ∀ l, a.address k x=a.address l n ↔ k=l ∧ x=n :=
      fun l => ⟨address_inj hx hn,by rintro ⟨rfl,rfl⟩; rfl⟩
    simp only [update_apply,hs]
    by_cases hxn : x=n
    · subst hxn
      by_cases hkj : k=j
      · simp [hkj]
      by_cases hki : k=i
      · simp [hki,hne.symm]
      · simp [hkj,hki,Equiv.swap_apply_of_ne_of_ne,h,hx]
    · have hlt : x<n+1 ↔ x<n := by omega
      simp [hxn,hlt,h,hx]
  · intro mem' h k
    refine List.map_congr_left fun x hx => ?_
    rw [h k x (List.mem_range.1 hx),if_pos (List.mem_range.1 hx)]

/-- The elements from `lo` to `hi` are in another order, and all else is as it was. -/
def Rearranges (a : SortableArray) (lo hi : Int) (mem mem' : Memory) : Prop :=
  ∃ σ : Equiv.Perm Int, (∀ k, k<lo ∨ hi<k → σ k=k) ∧ ∀ k, a.elem mem' k=a.elem mem (σ k)

namespace Rearranges

theorem refl : Rearranges a lo hi mem mem := ⟨Equiv.refl _,fun _ _ => rfl,fun _ => rfl⟩

theorem trans (h : Rearranges a lo hi mem mem') (h' : Rearranges a lo hi mem' mem'') :
    Rearranges a lo hi mem mem'' := by
  obtain ⟨σ,hσ,he⟩ := h
  obtain ⟨τ,hτ,he'⟩ := h'
  refine ⟨τ.trans σ,fun k hk => ?_,fun k => ?_⟩
  · rw [Equiv.trans_apply,hτ k hk,hσ k hk]
  · rw [he',he,Equiv.trans_apply]

theorem widen (h : Rearranges a i j mem mem') (hlo : lo ≤ i) (hhi : j≤hi) :
    Rearranges a lo hi mem mem' := by
  obtain ⟨σ,hσ,he⟩ := h
  exact ⟨σ,fun k hk => hσ k (by omega),he⟩

theorem elem_eq (h : Rearranges a lo hi mem mem') (hk : k<lo ∨ hi<k) :
    a.elem mem' k=a.elem mem k := by
  obtain ⟨σ,hσ,he⟩ := h
  rw [he,hσ k hk]

private theorem forall_elem (h : Rearranges a lo hi mem mem') (P : List UInt8 → Prop)
    (hP : ∀ k, lo≤k → k≤hi → P (a.elem mem k)) (hlo : lo≤k) (hhi : k≤hi) :
    P (a.elem mem' k) := by
  obtain ⟨σ,hσ,he⟩ := h
  rw [he]
  by_contra hn
  -- what is outside is its own image, and so no image of `k`
  have ho : σ k<lo ∨ hi<σ k := by
    by_contra hin
    exact hn (hP _ (by omega) (by omega))
  have hf := σ.injective (hσ _ ho)
  omega
end Rearranges

/-- The elements before `j` have been compared with the pivot; those up to `i` are not above it. -/
structure Divides (a : SortableArray) (pivot : List UInt8) (lo j : Int) (mem : Memory) (i : Int)
    (mem' : Memory) : Prop where
  from_lo : lo-1 ≤ i
  before : i<j
  rearranges : Rearranges a lo (j-1) mem mem'
  low : ∀ k, lo≤k → k ≤ i → a.func (a.elem mem' k) pivot≤0
  high : ∀ k, i<k → k<j → ¬a.func (a.elem mem' k) pivot≤0

section Divides
variable (h : Divides a pivot lo j mem i mem')
include h

private theorem Divides.take (hle : a.func (a.elem mem' j) pivot≤0)
    (hs : ∀ k, a.elem mem'' k=a.elem mem' (Equiv.swap (i+1) j k)) :
    Divides a pivot lo (j+1) mem (i+1) mem'' := by
  have hfr := h.from_lo
  have hb := h.before
  have hf : ∀ k, k≠i+1 → k≠j → Equiv.swap (i+1) j k=k :=
    fun k => Equiv.swap_apply_of_ne_of_ne
  refine ⟨by omega,by omega,?_,fun k hk hk' => ?_,fun k hk hk' => ?_⟩
  · have hw : Rearranges a lo (j+1-1) mem mem' := h.rearranges.widen le_rfl (by omega)
    exact hw.trans ⟨_,fun k hk => hf k (by omega) (by omega),hs⟩
  · rw [hs]
    rcases eq_or_ne k (i+1) with rfl | hki
    · rwa [Equiv.swap_apply_left]
    · rw [hf k hki (by omega)]
      exact h.low k hk (by omega)
  · rw [hs]
    rcases eq_or_ne k j with rfl | hkj
    · rw [Equiv.swap_apply_right]
      exact h.high _ (by omega) (by omega)
    · rw [hf k (by omega) hkj]
      exact h.high k (by omega) (by omega)

private theorem Divides.leave (hgt : ¬a.func (a.elem mem' j) pivot≤0) :
    Divides a pivot lo (j+1) mem i mem' := by
  have hb := h.before
  refine ⟨h.from_lo,by omega,h.rearranges.widen le_rfl (by omega),h.low,fun k hk hk' => ?_⟩
  rcases eq_or_ne k j with rfl | hne
  · exact hgt
  · exact h.high k hk (by omega)

/-- An element that is not above the pivot is at the new index. -/
theorem compareAt_yields (hlo : 0≤lo) (hj : j<a.nmemb) :
    Yields (fun _ => False) (fun s => Divides a pivot lo (j+1) mem s.1 s.2 ∧
      (a.func (a.elem mem j) pivot≤0 →
        lo ≤ s.1 ∧ a.elem s.2 s.1=a.elem mem j)) (a.compareAt pivot j (i, mem')) := by
  have hf := h.from_lo
  have hb := h.before
  have hk : a.elem mem' j=a.elem mem j := h.rearranges.elem_eq (by omega)
  simp only [SortableArray.compareAt,object_eq (by omega) hj,ok_bind]
  split
  · next hle =>
    refine (swap_yields (by omega) (by omega) (by omega) hj).bind
      fun mem'' hs => .ok ⟨h.take hle hs,fun _ => ⟨?_,?_⟩⟩
    · omega
    · rw [hs,Equiv.swap_apply_left,hk]
  · next hgt => exact .ok ⟨h.leave hgt,fun hle => absurd (hk ▸ hle) hgt⟩
end Divides

private theorem partition_yields (hlo : 0≤lo) (hlt : lo<hi) (hhi : hi<a.nmemb)
    (hre : ∀ x, a.func x x≤0) :
    Yields (fun _ => False) (fun s => lo ≤ s.1 ∧ a.elem s.2 s.1=a.elem mem hi ∧
      Divides a (a.elem mem hi) lo (hi+1) mem s.1 s.2) (a.partition lo hi mem) := by
  simp only [SortableArray.partition,object_eq (by omega) hhi,ok_bind]
  obtain ⟨n,rfl⟩ : ∃ n : Nat, hi=lo+n := ⟨(hi-lo).toNat,by omega⟩
  have hrn : (lo+n+1-lo).toNat=n+1 := by omega
  rw [hrn]
  -- the last element, which is the pivot, is compared last
  refine Yields.bind (forRange_yields
    (fun r s => Divides a _ lo (lo+r) mem s.1 s.2) ?_ fun r s hr hs => ?_)
    fun s hs => (compareAt_yields hs hlo hhi).mono fun s' h => ?_
  · exact ⟨by simp,by simp,.refl,fun k hk hk' => by simp at hk'; omega,
      fun k hk hk' => by simp at hk'; omega⟩
  · refine (compareAt_yields hs hlo (by omega)).mono fun s' h => ?_
    have hn := h.1
    rwa [Int.add_assoc] at hn
  · obtain ⟨hd,hl⟩ := h
    obtain ⟨hf,hp⟩ := hl (hre _)
    exact ⟨hf,hp,hd⟩

structure Ordered (a : SortableArray) : Prop where
  total : ∀ x y, a.func x y≤0 ∨ a.func y x≤0
  trans : ∀ x y z, a.func x y≤0 → a.func y z≤0 → a.func x z≤0

def Sorted (a : SortableArray) (lo hi : Int) (mem : Memory) : Prop :=
  ∀ k l, lo≤k → k<l → l≤hi → a.func (a.elem mem k) (a.elem mem l)≤0

private theorem quicksort_yields {fuel : Nat} (hlo : 0≤lo) (hhi : hi<a.nmemb)
    (hre : ∀ x, a.func x x≤0) (hf : hi+1-lo<fuel) (hf' : 0<fuel) :
    Yields (fun _ => False) (fun mem' => Rearranges a lo hi mem mem' ∧
      (Ordered a → Sorted a lo hi mem')) (a.quicksort fuel lo hi mem) := by
  induction fuel generalizing lo hi mem with
  | zero => omega
  | succ fuel ih =>
    rw [SortableArray.quicksort]
    split
    · next hrn =>
      refine (partition_yields hlo hrn.2.2 hhi hre).bind ?_
      rintro ⟨i,mem1⟩ ⟨hfr,hp,hd⟩
      have hto := hd.before
      refine (ih hlo (by omega) (by omega) (by omega)).bind ?_
      rintro mem2 ⟨hle,hs⟩
      refine (ih (by omega) hhi (by omega) (by omega)).mono ?_
      rintro mem3 ⟨hr,hs'⟩
      refine ⟨?_,fun ho => ?_⟩
      · have ha : Rearranges a lo hi mem mem1 := hd.rearranges.widen le_rfl (by omega)
        exact (ha.trans (hle.widen le_rfl (by omega))).trans (hr.widen (by omega) le_rfl)
      have hm : a.elem mem3 i=a.elem mem hi := by
        rw [hr.elem_eq (by omega),hle.elem_eq (by omega),hp]
      have hlow : ∀ k, lo≤k → k ≤ i → a.func (a.elem mem3 k) (a.elem mem3 i)≤0 := by
        intro k hk hki
        rcases eq_or_ne k i with rfl | hne
        · exact hre _
        rw [hm,hr.elem_eq (by omega)]
        exact hle.forall_elem (a.func · _≤0)
          (fun k hk hk' => hd.low k hk (by omega)) hk (by omega)
      have hh : ∀ k, i≤k → k≤hi → a.func (a.elem mem3 i) (a.elem mem3 k)≤0 := by
        intro k hk hkh
        rcases eq_or_ne k i with rfl | hne
        · exact hre _
        rw [hm]
        refine hr.forall_elem (a.func _ · ≤ 0) (fun k hk hk' => ?_) (by omega) hkh
        rw [hle.elem_eq (by omega)]
        exact (ho.total _ _).resolve_right (hd.high k (by omega) (by omega))
      intro k l hk hkl hl
      by_cases hli : l < i
      · rw [hr.elem_eq (by omega),hr.elem_eq (by omega)]
        exact hs ho k l hk hkl (by omega)
      by_cases hki : i<k
      · exact hs' ho k l (by omega) hkl hl
      · exact ho.trans _ _ _ (hlow k hk (by omega)) (hh l (by omega) hl)
    · next hn => exact .ok ⟨.refl,fun _ k l hk hkl hl => by omega⟩

/-- Whatever the comparison says of different elements, the sort ends within the array. -/
theorem qsortR_sorts (hrefl : ∀ x, a.func x x ≤ 0) {fuel : Nat} (hfuel : a.nmemb < fuel) :
    ∃ mem', a.qsortR fuel mem = .ok mem' ∧ Rearranges a 0 (a.nmemb-1) mem mem' ∧
      (Ordered a → Sorted a 0 (a.nmemb-1) mem') := by
  have hs := a.size_pos
  have hla : Int.bmod (a.nmemb-1) (2^64)=a.nmemb-1 := by
    have hf := a.fits
    have hle := Nat.le_mul_of_pos_right a.nmemb hs
    refine Int.bmod_eq_of_le ?_ ?_ <;> omega
  refine Yields.exists_ok ?_
  rw [SortableArray.qsortR]
  split
  · exact .ok ⟨.refl,fun _ k l hk hkl hl => by omega⟩
  · rw [hla]
    exact quicksort_yields le_rfl (by omega) hrefl (by omega) (by omega)

/-- Three elements of two bytes, by their first bytes. -/
def pairs : SortableArray :=
  ⟨3,2,by decide,fun x y => (x.headD 0).toNat - (y.headD 0).toNat,by decide⟩

theorem qsortR_sorts_pairs :
    ∃ mem', pairs.qsortR 4 (fun k => (7-k).toNat.toUInt8) = .ok mem' ∧ Sorted pairs 0 2 mem' := by
  have ho : Ordered pairs := by
    constructor <;> simp only [pairs] <;> omega
  obtain ⟨mem',hok,-,hs⟩ :=
    qsortR_sorts (fun x => (ho.total x x).elim id id) (by decide : pairs.nmemb<4)
  exact ⟨mem',hok,hs ho⟩
end RazionOS.Libc.Qsort
