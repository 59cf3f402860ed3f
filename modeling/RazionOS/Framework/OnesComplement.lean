import Mathlib.Algebra.Order.Ring.Int
import Mathlib.Algebra.BigOperators.Group.List.Basic

/-!
# Ones' complement sums of 16-bit words

A carry out of the word is added in at the bottom. The sum of words, carried until it is a word
itself, is found by its residue modulo `2^16-1` and by whether it is zero.
-/

namespace RazionOS.Framework.OnesComplement

def carry (sum : Nat) : Nat :=
  if sum<2^16 then sum else carry (sum/2^16 + sum%2^16)
termination_by sum
decreasing_by omega

theorem carry_spec (sum : Nat) :
    carry sum<2^16 ∧ carry sum%(2^16-1)=sum%(2^16-1) ∧ (carry sum=0 ↔ sum=0) := by
  fun_induction carry sum with
  | case1 sum h => exact ⟨h,rfl,Iff.rfl⟩
  | case2 sum h ih =>
    obtain ⟨hlt,hmod,hz⟩ := ih
    exact ⟨hlt,by omega,by omega⟩

theorem eq_carry {word sum : Nat} (h : word<2^16) (hmod : word%(2^16-1)=sum%(2^16-1))
    (hz : word=0 ↔ sum=0) : word=carry sum := by
  obtain ⟨hlt,hmod',hz'⟩ := carry_spec sum
  omega

theorem carry_add (a b : Nat) : carry (carry a + b)=carry (a+b) := by
  obtain ⟨hlt,hmod,hz⟩ := carry_spec (carry a + b)
  obtain ⟨-,hmod',hz'⟩ := carry_spec a
  exact eq_carry hlt (by omega) (by omega)

/-- A sum and the complement of what it carries to are all ones. -/
theorem carry_complement (sum : Nat) : carry (sum + (0xFFFF - carry sum))=0xFFFF := by
  obtain ⟨hlt,hmod,hz⟩ := carry_spec sum
  refine (eq_carry (by decide) ?_ ?_).symm <;> omega

/-- The words of some data in network order, the last one padded. -/
def words : List UInt8 → List Nat
  | [] => []
  | [a] => [a.toNat*2^8]
  | a::b::rest => (a.toNat*2^8 + b.toNat)::words rest

theorem words_append {front : List UInt8} (h : front.length%2=0) (back : List UInt8) :
    words (front++back)=words front++words back := by
  fun_induction words front with
  | case1 => rfl
  | case2 a => cases h
  | case3 a b rest ih =>
    rw [List.length_cons,List.length_cons] at h
    rw [List.cons_append,List.cons_append,words,ih (by omega),List.cons_append]

def checksum (data : List UInt8) : Nat := 0xFFFF - carry (words data).sum
end RazionOS.Framework.OnesComplement
