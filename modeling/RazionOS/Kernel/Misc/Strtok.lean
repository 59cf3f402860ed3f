import RazionOS.Framework.CString

/-!
# Tokens in a buffer

`strtok_r` cuts a terminated string at the bytes of `delim`, in place: the byte after a token is
overwritten by the terminator, and `saveptr` is where the next search begins.
-/

namespace RazionOS.Kernel.Strtok
open Framework List

section Functions
variable (delim : CString)

def strspn (s : Nat) (buf : List UInt8) : Option Nat := span (fun c => decide (c∈delim)) buf s

def strcspn (s : Nat) (buf : List UInt8) : Option Nat :=
  span (fun c => c != 0 && decide (c∉delim)) buf s

def strpbrk (s : Nat) (buf : List UInt8) : Option (Option Nat) := do
  let s := s+(← strcspn delim s buf)
  let c ← buf[s]?
  return if c≠0 then some s else none

def strtokR (str : Nat) (buf : List UInt8) : Option ((Option Nat × Nat) × List UInt8) := do
  let str := str+(← strspn delim str buf)
  if (← buf[str]?)=0 then return ((none, str), buf)
  let token := str
  match ← strpbrk delim token buf with
  | none => return ((some token, token+(← span (· != 0) buf token)), buf)
  | some str => return ((some token, str+1), ← store str [0] buf)
end Functions

variable (before after : List UInt8)

def IsToken (delim w : CString) : Prop := w≠[] ∧ ∀ c∈w, c≠0 ∧ c∉delim

theorem strspn_eq (hz : ∀ c∈z, c∈delim) (hc : c∉delim) :
    strspn delim before.length (before++(z++c::after))=some z.length :=
  span_eq before after (fun x hx => decide_eq_true (hz x hx)) (decide_eq_false hc)

private theorem strcspn_eq (hw : ∀ c∈w, c≠0 ∧ c∉delim) (hd : d=0 ∨ d∈delim) :
    strcspn delim before.length (before++(w++d::after))=some w.length := by
  apply span_eq
  · intro x hx
    simpa using hw x hx
  · rcases hd with rfl | hd
    · rfl
    · simp [hd]

theorem getElem?_middle : (before++(z++c::after))[before.length+z.length]? =
    some c := by
  rw [← append_assoc,← length_append,getElem?_append_right le_rfl,Nat.sub_self]
  rfl

private theorem strpbrk_eq (hw : ∀ c∈w, c≠0 ∧ c∉delim) (hd : d=0 ∨ d∈delim) :
    strpbrk delim before.length (before++(w++d::after)) =
      some (if d≠0 then some (before.length+w.length) else none) := by
  simp only [strpbrk,strcspn_eq before after hw hd,bind,Option.bind,getElem?_middle,pure]

theorem strtokR_end (hd : 0∉delim) (hz : ∀ c∈z, c∈delim) :
    strtokR delim before.length (before++(z++0::after)) =
      some ((none, before.length+z.length), before++(z++0::after)) := by
  simp [strtokR,strspn_eq before after hz hd]

theorem strtokR_token (hz : ∀ c∈z, c∈delim) (hw : IsToken delim w) (hd : d=0 ∨ d∈delim) :
    strtokR delim before.length (before++(z++(w++d::after))) =
      some ((some (before++z).length, (before++z).length + w.length + if d=0 then 0 else 1),
        before++(z++(w++0::after))) := by
  obtain ⟨x,rest,rfl⟩ := exists_cons_of_ne_nil hw.1
  have hx := hw.2 x mem_cons_self
  have hsp : strspn delim before.length (before++(z++(x::rest++d::after))) =
      some z.length := strspn_eq before _ hz hx.2
  have hb : (before++(z++(x::rest++d::after)))[before.length+z.length]? = some x :=
    getElem?_middle before _
  have hassoc : before++(z++(x::rest++d::after)) =
      (before++z)++(x::rest++d::after) := (append_assoc ..).symm
  have hbr := strpbrk_eq (before++z) after hw.2 hd
  rw [← hassoc,length_append] at hbr
  simp only [strtokR,hsp,bind,Option.bind,hb,if_neg hx.1,hbr,pure]
  by_cases hze : d=0
  · have hr : ∀ c∈x::rest, (c != 0)=true := fun c hc => by simpa using (hw.2 c hc).1
    have hlen := span_eq (before++z) after (c := d) hr (by simp [hze])
    rw [← hassoc,length_append] at hlen
    simp only [hze,ne_eq,not_true_eq_false,if_false,if_true]
    rw [hze] at hlen
    simp only [hlen,length_append,Nat.add_zero]
  · have hs := store_eq ((before++z)++x::rest) after
      (show [(0 : UInt8)].length=[d].length from rfl)
    simp only [length_append,append_assoc,singleton_append] at hs
    rw [← Nat.add_assoc] at hs
    simp only [hze,ne_eq,not_false_eq_true,if_true,if_false,hs,length_append]
end RazionOS.Kernel.Strtok
