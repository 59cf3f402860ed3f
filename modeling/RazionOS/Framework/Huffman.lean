import Mathlib.Algebra.BigOperators.Intervals
import Mathlib.Algebra.Order.BigOperators.Group.Finset
import Mathlib.Data.Nat.Bitwise
import Mathlib.Tactic.Ring

/-!
# Canonical Huffman codes

Numbers as strings of bits, and the prefix code that a list of code lengths stands for: among
the codewords of one length the symbols are in order, and shorter codewords come first.
-/

namespace RazionOS.Framework
open List Finset

/-- The number with these bits, the least significant one first. -/
def ofBits : List Bool → Nat
  | [] => 0
  | bit::bits => bit.toNat+2 * ofBits bits

/-- The low `width` bits of a number, the least significant one first. -/
def toBits : Nat → Nat → List Bool
  | 0, _ => []
  | width+1, n => n.testBit 0::toBits width (n/2)

/-- The low `width` bits of a number, the most significant one first. -/
def toBitsBE : Nat → Nat → List Bool
  | 0, _ => []
  | width+1, n => n.testBit width::toBitsBE width n

theorem ofBits_lt (bits : List Bool) : ofBits bits<2^bits.length := by
  induction bits with
  | nil => decide
  | cons bit bits ih =>
    have hb := bit.toNat_lt
    simp only [ofBits,length_cons]
    omega

@[simp]
theorem toBits_length (width n : Nat) : (toBits width n).length=width := by
  induction width generalizing n with
  | zero => rfl
  | succ width ih => simp [toBits,ih]

@[simp]
private theorem toBitsBE_length : (toBitsBE width n).length=width := by
  induction width with
  | zero => rfl
  | succ width ih => simp [toBitsBE,ih]

theorem testBit_zero_toNat (n : Nat) : (n.testBit 0).toNat=n%2 := by
  rcases Nat.mod_two_eq_zero_or_one n with h | h <;> simp [h]

theorem ofBits_toBits (width n : Nat) (h : n<2^width) : ofBits (toBits width n)=n := by
  induction width generalizing n with
  | zero =>
    simp only [Nat.pow_zero,Nat.lt_one_iff] at h
    simp [toBits,ofBits,h]
  | succ width ih =>
    rw [toBits,ofBits,ih (n/2) (by omega),testBit_zero_toNat]
    omega

theorem toBits_mod (width n : Nat) : toBits width (n%2^width)=toBits width n := by
  induction width generalizing n with
  | zero => rfl
  | succ width ih =>
    have hh : n%2^(width+1) / 2=n/2%2^width := by
      rw [Nat.pow_succ,Nat.mul_comm,Nat.mod_mul_right_div_self]
    rw [toBits,toBits,hh,ih]
    simp

theorem toBits_add (v w n : Nat) : toBits (v+w) n=toBits v n++toBits w (n/2^v) := by
  induction v generalizing n with
  | zero => simp [toBits]
  | succ v ih =>
    rw [show v+1+w=v+w+1 by omega,toBits,toBits,ih,cons_append,Nat.div_div_eq_div_mul,
      Nat.pow_succ,Nat.mul_comm]

namespace Huffman

variable (lengths : List Nat)

/-- The number of symbols with codewords of length `l`; length 0 means that there is none. -/
def count (l : Nat) : Nat := if l=0 then 0 else lengths.count l

def first : Nat → Nat
  | 0 => 0
  | l+1 => 2*(first l + count lengths l)

def before (l : Nat) : Nat := ∑ j∈Finset.range l, count lengths j
def length (s : Nat) : Nat := lengths.getD s 0
def rank (s : Nat) : Nat := (lengths.take s).count (length lengths s)
def code (s : Nat) : Nat := first lengths (length lengths s) + rank lengths s
def codeword (s : Nat) : List Bool := toBitsBE (length lengths s) (code lengths s)

theorem codeword_length (s : Nat) : (codeword lengths s).length=length lengths s := toBitsBE_length

/-- The place of `s` among all symbols sorted by the lengths of their codewords. -/
def slot (s : Nat) : Nat := before lengths (length lengths s) + rank lengths s

/-- The part of the codewords of length `bits` that begin with a codeword. -/
def kraft (bits : Nat) : Nat := ∑ l∈Finset.range (bits+1), count lengths l * 2^(bits-l)

/-- No length exceeds `bits` and there is room for all codewords. -/
structure Fits (bits : Nat) : Prop where
  le : ∀ l∈lengths, l≤bits
  room : kraft lengths bits≤2^bits

instance (bits : Nat) : Decidable (Fits lengths bits) :=
  decidable_of_iff ((∀ l∈lengths, l≤bits) ∧ kraft lengths bits≤2^bits)
    ⟨fun ⟨h,h'⟩ => ⟨h,h'⟩,fun ⟨h,h'⟩ => ⟨h,h'⟩⟩

variable {lengths}

theorem length_mem (h : length lengths s≠0) : length lengths s∈lengths := by
  rw [length,getD_eq_getElem?_getD] at h ⊢
  cases hs : lengths[s]? with
  | none => simp [hs] at h
  | some l => simpa using mem_of_getElem? hs

theorem rank_lt_count (h : length lengths s≠0) :
    rank lengths s<count lengths (length lengths s) := by
  have hs : s<lengths.length := by
    by_contra hge
    exact h (getD_eq_default _ _ (by omega))
  have hg : length lengths s=lengths[s] := getD_eq_getElem _ _ hs
  have hsp : lengths.take s++lengths[s]::lengths.drop (s+1)=lengths := by
    rw [← drop_eq_getElem_cons,take_append_drop]
  have hc : lengths.count lengths[s] =
      (lengths.take s).count lengths[s] + ((lengths.drop (s+1)).count lengths[s] + 1) := by
    rw [← count_cons_self,← count_append,hsp]
  rw [count,if_neg h,rank,hg]
  omega

/-- Seen from a longer length, the codewords of length `l` lie before its first codeword. -/
theorem first_le (h : l < m) : 2 ^ (m-l)*(first lengths l + count lengths l)≤first lengths m := by
  induction m with
  | zero => omega
  | succ m ih =>
    rw [first]
    obtain heq | hlt : l=m ∨ l < m := by omega
    · subst heq
      rw [Nat.add_sub_cancel_left,pow_one]
    have hp : 2^(m+1-l)=2*2^(m-l) := by
      rw [show m+1-l=m-l+1 by omega,Nat.pow_succ,Nat.mul_comm]
    rw [hp,Nat.mul_assoc]
    omega

private theorem first_mul (h : l≤bits) : first lengths l * 2^(bits-l) =
      ∑ j∈Finset.range l, count lengths j * 2^(bits-j) := by
  induction l with
  | zero => simp [first]
  | succ l ih =>
    have hp : 2^(bits-l)=2*2^(bits-(l+1)) := by
      rw [show bits-l=bits-(l+1) + 1 by omega,Nat.pow_succ,Nat.mul_comm]
    rw [Finset.sum_range_succ,← ih (by omega),first,hp]
    ring

private theorem first_add_count_le (h : Fits lengths bits) (hl : l≤bits) :
    first lengths l + count lengths l≤2^l := by
  have hs : (first lengths l + count lengths l)*2 ^ (bits-l)≤kraft lengths bits := by
    rw [Nat.add_mul,first_mul hl,← Finset.sum_range_succ]
    exact sum_le_sum_of_subset (range_mono (by omega))
  have hp : 2^bits=2^l*2^(bits-l) := by
    rw [← Nat.pow_add,Nat.add_sub_cancel' hl]
  refine Nat.le_of_mul_le_mul_right ?_ (Nat.two_pow_pos (bits-l))
  exact hp ▸ hs.trans h.room

private theorem code_lt (h : Fits lengths bits) (hs : length lengths s≠0) :
    code lengths s<2 ^ length lengths s := by
  have hro := first_add_count_le h (h.le _ (length_mem hs))
  have hr := rank_lt_count hs
  rw [code]
  omega

/-- The bits of a codeword that a walk has read after `i` steps, as a number. -/
def high (lengths : List Nat) (s i : Nat) : Nat :=
  code lengths s / 2^(length lengths s - i)

theorem high_zero (h : Fits lengths bits) (hs : length lengths s≠0) :
    high lengths s 0=0 := Nat.div_eq_of_lt (code_lt h hs)

theorem high_succ (hi : i<length lengths s) : high lengths s (i+1) =
      2 * high lengths s i + ((code lengths s).testBit (length lengths s - (i+1))).toNat := by
  have hp : 2^(length lengths s - i)=2^(length lengths s - (i+1)) * 2 := by
    rw [show length lengths s - i=length lengths s - (i+1)+1 by omega,Nat.pow_succ]
  have hb := testBit_zero_toNat (code lengths s / 2^(length lengths s - (i+1)))
  rw [Nat.testBit_div_two_pow,Nat.zero_add] at hb
  rw [high,high,hp,← Nat.div_div_eq_div_mul]
  omega

/-- Before its last bit a codeword is beyond all codewords of the length read. -/
theorem le_high (hi : i<length lengths s) : first lengths i + count lengths i≤high lengths s i := by
  rw [high,Nat.le_div_iff_mul_le (Nat.two_pow_pos _),Nat.mul_comm]
  exact (first_le hi).trans (Nat.le_add_right _ _)

theorem high_length (s : Nat) : high lengths s (length lengths s)=code lengths s := by
  simp [high]

theorem before_succ (l : Nat) : before lengths (l+1)=before lengths l + count lengths l :=
  Finset.sum_range_succ _ _

private theorem before_mono (h : l ≤ m) : before lengths l≤before lengths m :=
  sum_le_sum_of_subset (range_mono h)

private theorem before_le_length : before lengths l≤lengths.length := by
  have hc : before lengths l ≤ ∑ j∈Finset.range l, lengths.count j := by
    refine Finset.sum_le_sum fun j _ => ?_
    rw [count]
    split <;> omega
  refine hc.trans ?_
  clear hc
  induction lengths with
  | nil => simp
  | cons k lengths ih =>
    have ho : ∑ j∈Finset.range l, (if k == j then 1 else 0)≤1 := by
      simp only [beq_iff_eq,sum_ite_eq]
      split <;> omega
    simp only [count_cons,sum_add_distrib,length_cons]
    omega

theorem slot_lt_before (h : length lengths s≠0) :
    slot lengths s<before lengths (length lengths s + 1) := by
  rw [before_succ,slot]
  have := rank_lt_count h
  omega

theorem slot_lt_length (h : length lengths s≠0) : slot lengths s<lengths.length :=
  (slot_lt_before h).trans_le before_le_length

private theorem slot_lt_of_length_lt (hs : length lengths s≠0)
    (h : length lengths s<length lengths t) :
    slot lengths s < slot lengths t :=
  (slot_lt_before hs).trans_le ((before_mono h).trans (Nat.le_add_right _ _))

theorem slot_ne (hs : length lengths s≠0) (ht : length lengths t≠0) (h : s<t) :
    slot lengths s≠slot lengths t := by
  rcases Nat.lt_trichotomy (length lengths s) (length lengths t) with hlt | heq | hgt
  · exact (slot_lt_of_length_lt hs hlt).ne
  · have hr : rank lengths s < rank lengths t := by
      have hta : length (lengths.take t) s=length lengths s := by
        rw [length,length,getD_eq_getElem?_getD,getD_eq_getElem?_getD,getElem?_take_of_lt h]
      have hlt := rank_lt_count (hta ▸ hs)
      rw [count,if_neg (hta ▸ hs),rank,hta,take_take,Nat.min_eq_left h.le] at hlt
      rw [rank,rank,← heq]
      exact hlt
    rw [slot,slot,heq]
    omega
  · exact (slot_lt_of_length_lt ht hgt).ne'
end Huffman
end RazionOS.Framework
