import Mathlib.Algebra.Order.Ring.Int

/-!
# The terminal emulator

The loop over the parameters of the sequence `m` reads entries of `argv` beside the one it is at.
A parameter is the value that `atoi` gives, and what is left of `argv` is a list.

`term_shift_region` moves the rows of a region within the cells of the terminal and clears the
rows that become free. The cells are given by row and column: the offsets and the size of the move
are multiples of the width, which is not zero, and stand here for rows. Redrawing, which copies
the cells, is left out.
-/

namespace RazionOS.Lib.Termemu
open List

structure Rendition where
  (fg bg flags : UInt32)

def ansiSpecbg : UInt32 := 0x10

def maxArgs : Nat := 1024

def rgba (r g b a : Int) : UInt32 :=
  (UInt8.ofInt a).toUInt32 <<< 24 ||| (UInt8.ofInt r).toUInt32 <<< 16 |||
    (UInt8.ofInt g).toUInt32 <<< 8 ||| (UInt8.ofInt b).toUInt32

namespace Rendition
variable (s : Rendition)

def setBg (c : UInt32) : Rendition := { s with bg := c, flags := s.flags ||| ansiSpecbg }

def set (flag : UInt32) : Rendition := { s with flags := s.flags ||| flag }

def unset (flag : UInt32) : Rendition := { s with flags := s.flags &&& ~~~flag }

/-- The colour that a colour sequence gives is for the entry before it. -/
def setColor (before : Int) (c : UInt32) : Rendition :=
  if before=48 then s.setBg c else if before=38 then { s with fg := c } else s

/-- The branches that read `argv[i]` alone. -/
def simple (arg : Int) : Rendition :=
  if 100≤arg ∧ arg<110 then s.setBg (.ofInt (8+(arg-100)))
  else if 90≤arg ∧ arg<100 then { s with fg := .ofInt (8+(arg-90)) }
  else if 40≤arg ∧ arg<49 then s.setBg (.ofInt (arg-40))
  else if arg=49 then { s.unset ansiSpecbg with bg := 0x10 }
  else if 30≤arg ∧ arg<39 then { s with fg := .ofInt (arg-30) }
  else if arg=39 then { s with fg := 7 }
  else if arg=24 then s.unset 0x02
  else if arg=23 then s.unset 0x04
  else if arg=21 ∨ arg=22 then s.unset 0x01
  else if arg=9 then s.set 0x80
  else if arg=29 then s.unset 0x80
  else if arg=7 then s.set 0x1000
  else if arg=27 then s.unset 0x1000
  else if arg=4 then s.set 0x02
  else if arg=3 then s.set 0x04
  else if arg=1 then s.set 0x01
  else if arg=0 then ⟨7,0x10,0⟩
  else s
end Rendition

/-- `before` is the entry before, if there is one. `none` is a read at or beyond `argc`. -/
def sgrLoop : Option Int → List Int → Rendition → Option Rendition
  | _, [], s => some s
  | none, arg::argv, s =>
    if arg=6 ∨ arg=5 ∨ arg=2 then some s else sgrLoop (some arg) argv (s.simple arg)
  | some before, arg::argv, s =>
    if arg=6 then
      match argv with
      | r::g::b::a::argv =>
        sgrLoop (some a) argv (s.setColor before (rgba r g b (if a=0 then 1 else a)))
      | _ => none
    else if arg=5 then
      match argv with
      | n::argv => sgrLoop (some n) argv (s.setColor before (.ofInt n))
      | [] => if before=48 ∨ before=38 then none else some s
    else if arg=2 then
      match argv with
      | r::g::b::argv => sgrLoop (some b) argv (s.setColor before (rgba r g b 0xFF))
      | [_, _] => none
      | [n] => sgrLoop (some 2) [n] s
      | [] => some s
    else sgrLoop (some arg) argv (s.simple arg)

/-- The tokens are stored before `argc` is compared with the size. -/
def storeArgs : Nat → List Int → Option (List Int)
  | _, [] => some []
  | argc, pch::rest =>
    if argc < maxArgs then (storeArgs (argc+1) rest).map (pch :: ·) else none

def ansiSgr (params : List Int) (s : Rendition) : Option Rendition := do
  let argv ← storeArgs 0 params
  sgrLoop none (if argv.length=0 then [0] else argv) s

/-- Each colour sequence that the loop comes to has the parameters that it reads. -/
inductive Complete : Option Int → List Int → Prop where
  | nil : Complete before []
  | first (h : arg=6 ∨ arg=5 ∨ arg=2) :
      Complete none (arg::argv)
  | simple {arg : Int} {argv : List Int} (h : ¬(arg=6 ∨ arg=5 ∨ arg=2))
      (hrest : Complete (some arg) argv) : Complete before (arg::argv)
  | rgba (hrest : Complete (some a) argv) :
      Complete (some before) (6::r::g::b::a::argv)
  | index (hrest : Complete (some n) argv) :
      Complete (some before) (5::n::argv)
  | blink (h : ¬(before=48 ∨ before=38)) : Complete (some before) [5]
  | rgb (hrest : Complete (some b) argv) :
      Complete (some before) (2::r::g::b::argv)
  | faint {argv : List Int} (h : argv.length<2) (hrest : Complete (some 2) argv) :
      Complete (some before) (2::argv)

private theorem sgrLoop_isSome_iff (s : Rendition) :
    (sgrLoop before argv s).isSome ↔ Complete before argv := by
  constructor
  · intro h
    fun_induction sgrLoop before argv s
    case case1 => exact .nil
    case case2 hf => exact .first hf
    case case3 hf ih => exact .simple hf (ih h)
    case case4 ih => exact .rgba (ih h)
    case case6 ih => exact .index (ih h)
    case case8 hb _ => exact .blink hb
    case case9 ih => exact .rgb (ih h)
    case case11 ih => exact .faint (Nat.lt_succ_self 1) (ih h)
    case case12 => exact .faint Nat.two_pos .nil
    case case13 h6 h5 h2 ih => exact .simple (by simp [h6,h5,h2]) (ih h)
    all_goals cases h
  · intro h
    induction h generalizing s with
    | nil => simp [sgrLoop]
    | first h => simp [sgrLoop,h]
    | @simple before arg argv h _ ih =>
      obtain ⟨h6,h5,h2⟩ : arg≠6 ∧ arg≠5 ∧ arg≠2 := by simpa using h
      cases before with
      | none => simpa [sgrLoop,h] using ih _
      | some before => rw [sgrLoop.eq_def]; simpa [h6,h5,h2] using ih _
    | rgba _ ih => exact ih _
    | index _ ih => rw [sgrLoop.eq_def]; exact ih _
    | rgb _ ih => rw [sgrLoop.eq_def]; exact ih _
    | blink h => simp [sgrLoop,h]
    | @faint _ argv h _ ih =>
      rcases argv with _ | ⟨n,_ | ⟨m,argv⟩⟩
      · simp [sgrLoop]
      · simpa [sgrLoop] using ih s
      · exact absurd h (by simp)

private theorem storeArgs_eq : storeArgs argc params =
    if params=[] ∨ argc+params.length ≤ maxArgs then some params else none := by
  induction params generalizing argc with
  | nil => rfl
  | cons pch rest ih =>
    rw [storeArgs]
    grind

theorem rendition_by_parameters_iff (s : Rendition) (params : List Int) :
    (ansiSgr params s).isSome ↔ params.length ≤ maxArgs ∧ Complete none params := by
  rw [ansiSgr,storeArgs_eq]
  cases params with
  | nil => exact iff_of_true rfl ⟨Nat.zero_le _,.nil⟩
  | cons arg argv =>
    rw [← sgrLoop_isSome_iff s]
    by_cases h : argv.length+1 ≤ maxArgs
    · simp [h]
    · simp [h]

theorem truncated_colour_reads_on : ¬∃ s, (ansiSgr [38,5] s).isSome := by
  rintro ⟨s,h⟩
  cases h

structure Cell where
  (c fg bg flags : Nat)

/-- Coordinates are passed on in 16 bits. -/
structure Terminal where
  (width height y currentFg currentBg flags : Nat)
  termBuffer : Nat → Nat → Cell
  width_lt : width<2^16
  height_le : height≤2^16
  y_lt : y<height

namespace Terminal
variable (t : Terminal)

def blank : Cell := ⟨32,t.currentFg,t.currentBg,t.flags⟩

def termCellSet (x y : Nat) (cell : Cell) (buffer : Nat → Nat → Cell) : Nat → Nat → Cell :=
  if x ≥ t.width ∨ y ≥ t.height then buffer
  else fun y' x' => if y' = y ∧ x' = x then cell else buffer y' x'

/-- `memmove` of rows. As a size, a count below zero is one that no buffer has. -/
def memmove (destination source count : Int) : Option (Nat → Nat → Cell) :=
  if 0 ≤ count ∧ 0≤destination ∧ destination+count≤t.height ∧ 0 ≤ source ∧
      source+count≤t.height then
    some fun y => t.termBuffer
      (if destination≤y ∧ y<destination+count then (y-destination+source).toNat else y)
  else none

def clearRow (y : Nat) (buffer : Nat → Nat → Cell) : Nat → Nat → Cell :=
  (range t.width).foldl (fun buffer x => t.termCellSet x (y%2^16) t.blank buffer) buffer

def clearRows (top n : Nat) (buffer : Nat → Nat → Cell) : Nat → Nat → Cell :=
  (range n).foldl (fun buffer i => t.clearRow (top+i) buffer) buffer

/-- The end of `term_shift_region`, for the numbers that it chooses. -/
def moveAndClear (destination source count newTop newBottom : Int) : Option Terminal :=
  (if count≠0 then t.memmove destination source count else some t.termBuffer).map fun buffer =>
    { t with termBuffer := t.clearRows newTop.toNat (newBottom-newTop).toNat buffer }

def termShiftRegion (top height : Nat) (howMuch : Int) : Option Terminal :=
  if howMuch=0 then some t
  else if height<howMuch then t.moveAndClear 0 0 0 top (top+height)
  else if 0<howMuch then
    t.moveAndClear top (top+howMuch) (height-howMuch) (top+height-howMuch) (top+height)
  else t.moveAndClear (top-howMuch) top (height+howMuch) top (top-howMuch)

def termInsertDeleteLines (howMany : Int) : Option Terminal :=
  if howMany=0 then some t else t.termShiftRegion t.y (t.height-t.y) (-howMany)

/-- The rows of the region are those `k` rows further on, or blank; the others are unchanged. -/
def Shifts (top height : Nat) (k : Int) (r : Option Terminal) : Prop :=
  ∃ t', r=some t' ∧ ∀ y x, y<t.height → x<t.width → t'.termBuffer y x =
    if top≤y ∧ y<top+height then
      if top≤y+k ∧ y+k<top+height then t.termBuffer (y+k).toNat x else t.blank
    else t.termBuffer y x

variable {t}

private theorem clearRow_apply {y x a : Nat} (ha : a<t.height) (hx : x<t.width) :
    t.clearRow a buffer y x=if y=a then t.blank else buffer y x := by
  have h (n : Nat) (hn : n≤t.width) :
      (range n).foldl (fun b x => t.termCellSet x a t.blank b) buffer y x =
        if y=a ∧ x<n then t.blank else buffer y x := by
    induction n with
    | zero => simp
    | succ n ih =>
      rw [range_succ,foldl_append,foldl_cons,foldl_nil,termCellSet,if_neg (by omega),ih (by omega)]
      split_ifs <;> first | rfl | omega
  rw [clearRow,Nat.mod_eq_of_lt (Nat.lt_of_lt_of_le ha t.height_le),h _ (Nat.le_refl _)]
  simp [hx]

private theorem clearRows_apply {y x top : Nat} (hn : top+n≤t.height) (hx : x<t.width) :
    t.clearRows top n buffer y x=if top≤y ∧ y<top+n then t.blank else buffer y x := by
  induction n with
  | zero =>
    rw [if_neg (by omega)]
    rfl
  | succ n ih =>
    rw [clearRows] at ih ⊢
    rw [range_succ,foldl_append,foldl_cons,foldl_nil,clearRow_apply (by omega) hx,ih (by omega)]
    split_ifs <;> first | rfl | omega

private theorem moveAndClear_shifts {top height : Nat} {d s c a b : Int} (k : Int) (hc : 0≤c)
    (hd : 0≤d ∧ d+c≤t.height) (hs : 0 ≤ s ∧ s+c≤t.height)
    (ha : 0≤a ∧ a≤b ∧ b≤t.height)
    (h : ∀ y : Nat, if top≤y ∧ y<top+height then if top≤y+k ∧ y+k<top+height then
        (d≤y ∧ y<d+c ∧ y-d+s=y+k) ∧ ¬(a≤y ∧ y<b) else a≤y ∧ y<b
      else ¬(d≤y ∧ y<d+c) ∧ ¬(a≤y ∧ y<b)) :
    t.Shifts top height k (t.moveAndClear d s c a b) := by
  have hmove : (if c≠0 then t.memmove d s c else some t.termBuffer)=some fun y : Nat =>
      t.termBuffer (if d≤y ∧ y<d+c then (y-d+s).toNat else y) := by
    split_ifs with h0
    · exact if_pos ⟨hc,hd.1,hd.2,hs.1,hs.2⟩
    · congr 1
      funext y
      rw [if_neg (by omega)]
  refine ⟨_,by rw [moveAndClear,hmove]; rfl,fun y x _ hx => ?_⟩
  have hy := h y
  change t.clearRows _ _ _ y x=_
  rw [clearRows_apply (by omega) hx]
  split_ifs at hy ⊢ <;> first | rfl | omega | (congr 2; omega)

private theorem termShiftRegion_shifts_iff {top height : Nat} (hin : top+height≤t.height)
    (k : Int) :
    t.Shifts top height k (t.termShiftRegion top height k) ↔ -(height : Int)≤k := by
  rw [termShiftRegion]
  by_cases h0 : k=0
  · subst h0
    refine iff_of_true ⟨t,rfl,fun y x _ _ => ?_⟩ (by omega)
    split_ifs <;> first | rfl | omega
  rw [if_neg h0]
  by_cases hk : -(height : Int)≤k
  · refine iff_of_true ?_ hk
    split_ifs <;> exact moveAndClear_shifts k (by omega) (by omega) (by omega) (by omega)
      fun y => by split_ifs <;> omega
  · refine iff_of_false ?_ hk
    rw [if_neg (by omega),if_neg (by omega),moveAndClear,if_pos (by omega),memmove,
      if_neg fun h => absurd h.1 (by omega)]
    rintro ⟨t',ht,-⟩
    cases ht

/-- Scrolling by an amount, and inserting or deleting lines at the cursor. -/
theorem region_scrolling_iff (t : Terminal) :
    (∀ top height : Nat, top+height ≤ t.height → ∀ k : Int,
      (t.Shifts top height k (t.termShiftRegion top height k) ↔ -(height : Int) ≤ k)) ∧
    ∀ n : Int, t.Shifts t.y (t.height-t.y) (-n) (t.termInsertDeleteLines n) ↔ n ≤ t.height-t.y := by
  refine ⟨fun top height hin k => termShiftRegion_shifts_iff hin k,fun n => ?_⟩
  have hy := t.y_lt
  have h := termShiftRegion_shifts_iff (show t.y+(t.height-t.y)≤t.height by omega) (-n)
  rw [termInsertDeleteLines]
  split_ifs with hn
  · subst hn
    exact h.trans (by omega)
  · exact h.trans (by omega)

/-- A terminal of one row, the cursor in it. -/
def oneRow : Terminal :=
  ⟨1,1,0,7,0,0,fun _ _ => ⟨65,7,0,0⟩,by decide,by decide,Nat.one_pos⟩

/-- Two inserted lines would move minus one row. -/
theorem insert_two_lines_overruns : oneRow.termInsertDeleteLines 2 = none := rfl
end Terminal
end RazionOS.Lib.Termemu
