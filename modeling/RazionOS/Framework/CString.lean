import Mathlib.Algebra.Order.Ring.Int
import Mathlib.Data.List.Basic
import Mathlib.Data.List.TakeWhile

/-!
# Byte strings

A C string is its list of bytes, without the terminating NUL. A buffer is the list of its bytes, a
pointer into it a position. An access outside the buffer gives nothing.
-/

namespace RazionOS.Framework

abbrev CString := List UInt8
def cString (s : String) : CString := s.toList.map Char.toUInt8

/-- What a string leaves in an array of the given size when it is copied or printed there. -/
def truncate (size : Nat) (text : CString) : CString := text.take (size-1)

structure CArray (size : Nat) where
  text : CString
  length_lt : text.length < size
  noNul : 0∉text

/-- `strncpy` into an array, with the last byte kept for the terminator. -/
def CArray.copy (size : Nat) [NeZero size] (source : CString) : CArray size where
  text := truncate size (source.takeWhile (· ≠ 0))
  length_lt := by
    have := NeZero.ne size
    simp only [truncate,List.length_take]
    omega
  noNul h := by simpa using List.mem_takeWhile_imp (List.mem_of_mem_take h)

def isDigit (c : UInt8) : Bool := 48 ≤ c && c≤57
def isAlpha (c : UInt8) : Bool := (65 ≤ c && c≤90) || (97 ≤ c && c≤122)
def isAlnum (c : UInt8) : Bool := isAlpha c || isDigit c
def isSpace (c : UInt8) : Bool := (9 ≤ c && c≤13) || c == 32
def toLower (c : UInt8) : UInt8 := if 65 ≤ c ∧ c≤90 then c-65+97 else c

/-- The text of `%d`, `%ld`, `%lu` and `%u`. -/
def decimal (n : Int) : CString :=
  (if n<0 then cString "-" else [])++(Nat.toDigits 10 n.natAbs).map Char.toUInt8

def hexadecimal (n : Nat) : CString := (Nat.toDigits 16 n).map Char.toUInt8

open List

variable {run old new w : List UInt8} {p : UInt8 → Bool} {c : UInt8}

/-- How many bytes from a position on have the property; there must be one that has not. -/
def span (p : UInt8 → Bool) (buf : List UInt8) (pos : Nat) : Option Nat :=
  (buf.drop pos).findIdx? fun c => !p c

def stringAt (buf : List UInt8) (pos : Nat) : Option CString :=
  (span (· != 0) buf pos).map fun n => (buf.drop pos).take n

def store (pos : Nat) (bytes buf : List UInt8) : Option (List UInt8) :=
  if pos+bytes.length≤buf.length then
    some (buf.take pos++(bytes++buf.drop (pos+bytes.length)))
  else none

section Positions
variable (before after : List UInt8)

theorem span_eq (hr : ∀ x∈run, p x=true) (hc : p c=false) :
    span p (before++(run++c::after)) before.length=some run.length := by
  rw [span,drop_left]
  induction run with
  | nil => simp [findIdx?_cons,hc]
  | cons x run ih =>
    have hx := hr x mem_cons_self
    rw [cons_append,findIdx?_cons,ih fun y hy => hr y (mem_cons_of_mem x hy)]
    simp [hx]

theorem stringAt_eq (hw : 0∉w) : stringAt (before++(w++0::after)) before.length=some w := by
  have hs : span (· != 0) (before++(w++0::after)) before.length=some w.length := by
    refine span_eq before after (fun x hx => ?_) rfl
    have hne : x≠0 := fun heq => hw (heq ▸ hx)
    simpa using hne
  rw [stringAt,hs,drop_left,Option.map_some,take_left]

theorem store_eq (hlen : new.length=old.length) :
    store before.length new (before++(old++after))=some (before++(new++after)) := by
  have hf : before.length+new.length≤(before++(old++after)).length := by
    simp only [length_append]
    omega
  rw [store,if_pos hf,take_left,hlen,← drop_drop,drop_left,drop_left]
end Positions
end RazionOS.Framework
