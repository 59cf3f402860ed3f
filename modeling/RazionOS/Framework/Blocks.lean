import Mathlib.Data.List.GetD
import Mathlib.Data.Nat.Basic

/-!
# Byte ranges over fixed-size blocks

A store is a list of blocks of `B` positions each, read through one flat address. Ranges that
stay inside one block are copied between it and a buffer; positions of the buffer are
integers, so that a pointer before its start is a position too.
-/

namespace RazionOS.Framework
open List

variable {α : Type*} {B : Nat}

/-- The value at a flat address; a block that is not there reads as zero. -/
def blockByte (B : Nat) (zero : α) (blocks : List (Nat → α)) (p : Nat) : α :=
  blocks.getD (p/B) (fun _ => zero) (p%B)

def copyIn (block : Nat → α) (off n : Nat) (buffer : Int → α) (pos : Int) : Nat → α := fun k =>
  if off≤k ∧ k<off+n then buffer (pos+(k-off : Nat)) else block k

def copyOut (buffer : Int → α) (pos : Int) (block : Nat → α) (off n : Nat) : Int → α := fun i =>
  if pos ≤ i ∧ i<pos+n then block (off + (i-pos).toNat) else buffer i

/-- The buffer holds `len` values from the flat address `o` on, and is `buffer0` elsewhere. -/
def Filled (B : Nat) (zero : α) (blocks : List (Nat → α)) (o len : Nat)
    (buffer0 buffer : Int → α) : Prop :=
  ∀ i : Int, buffer i=if 0 ≤ i ∧ i<len then blockByte B zero blocks (o+i.toNat)
    else buffer0 i

theorem Filled.zero (zero : α) (blocks : List (Nat → α)) (o : Nat) (buffer : Int → α) :
    Filled B zero blocks o 0 buffer buffer := by
  intro i
  rw [if_neg (by omega)]

theorem div_mod_of_block (hp : p=b*B+off) (ho : off<B) : p / B=b ∧ p%B=off := by
  subst hp
  rw [Nat.mul_comm]
  exact ⟨by rw [Nat.mul_add_div (by omega),Nat.div_eq_of_lt ho,Nat.add_zero],
    by rw [Nat.mul_add_mod,Nat.mod_eq_of_lt ho]⟩

theorem Filled.copyOut {zero : α} (h : Filled B zero blocks o len buffer0 buffer)
    (hb : o+len=b*B+off) (hn : off+n≤B) : Filled B zero blocks o (len+n) buffer0
      (copyOut buffer len (blocks.getD b fun _ => zero) off n) := by
  intro i
  simp only [Framework.copyOut]
  by_cases hin : (len : Int) ≤ i ∧ i<len+n
  · rw [if_pos hin,if_pos (by omega)]
    have hp : o+i.toNat=b*B+(off + (i-len).toNat) := by omega
    obtain ⟨hd,hm⟩ := div_mod_of_block hp (by omega)
    rw [blockByte,hd,hm]
  · rw [if_neg hin,h]
    congr 1
    exact propext ⟨by omega,by omega⟩

theorem blockByte_append (zero : α) (hp : p/B<blocks.length ∨ (blocks++new).length≤p/B) :
    blockByte B zero (blocks++new) p=blockByte B zero blocks p := by
  rcases hp with hp | hp
  · rw [blockByte,blockByte,getD_append _ _ _ _ hp]
  · rw [blockByte,blockByte,getD_eq_default _ _ hp,
      getD_eq_default _ _ (by rw [length_append] at hp; omega)]

private theorem blockByte_set (hb : b<blocks.length) : blockByte B zero (blocks.set b block) p =
      if p/B=b then block (p%B) else blockByte B zero blocks p := by
  unfold blockByte
  split_ifs with h
  · subst h
    rw [getD_eq_getElem _ _ (by simpa using hb),getElem_set_self]
  by_cases hlt : p/B<blocks.length
  · rw [getD_eq_getElem _ _ (by simpa using hlt),getD_eq_getElem,getElem_set_ne (Ne.symm h)]
  · rw [getD_eq_default _ _ (by simpa using hlt),getD_eq_default _ _ (by omega)]

theorem blockByte_copyIn (zero : α) (hb : b<blocks.length)
    (hn : off+n≤B) (buffer : Int → α) (pos : Int) (p : Nat) :
    blockByte B zero (blocks.set b (copyIn (blocks.getD b fun _ => zero) off n buffer pos)) p =
      if b*B+off≤p ∧ p<b*B+off+n then buffer (pos+(p-(b*B+off) : Nat))
      else blockByte B zero blocks p := by
  rw [blockByte_set hb]
  by_cases hin : b*B+off≤p ∧ p<b*B+off+n
  · have hp : p=b*B+(p-b*B) := by omega
    obtain ⟨hd,hm⟩ := div_mod_of_block hp (by omega)
    rw [if_pos hd,if_pos hin,copyIn,if_pos (by omega)]
    congr 3
    omega
  · split_ifs with hd
    · have hp : p=b*B+p%B := by
        rw [← hd,Nat.mul_comm]
        exact (Nat.div_add_mod p B).symm
      rw [copyIn,if_neg (by omega),blockByte,hd]
    · rfl
end RazionOS.Framework
