import Mathlib.Data.List.Infix
import RazionOS.Framework.CString

/-!
# Multibyte strings

`wcstombs` encodes into an array of bytes and `mbstowcs` decodes into one of wide characters. A
string is given without its terminator; an access outside an array gives nothing.
-/

namespace RazionOS.Libc.Wide
open Framework List

def continuation (c shift : Nat) : Nat := 0x80 ||| c >>> shift &&& 0x3F

/-- The string that `to_eight` leaves in its array. -/
def toEight (c : Nat) : CString :=
  let bytes := if c<0x80 then [c]
    else if c<0x800 then [0xC0 ||| c >>> 6,continuation c 0]
    else if c<0x10000 then [0xE0 ||| c >>> 12,continuation c 6,continuation c 0]
    else if c<0x200000 then
      [0xF0 ||| c >>> 18,continuation c 12,continuation c 6,continuation c 0]
    else if c<0x4000000 then
      [0xF8 ||| c >>> 24,0x80 ||| c >>> 18,continuation c 12,continuation c 6,continuation c 0]
    else [0xF8 ||| c >>> 30,continuation c 24,continuation c 18,continuation c 12,
      continuation c 6,continuation c 0]
  (bytes.map UInt8.ofNat).takeWhile (· != 0)

/-- The loop of `wcstombs` from `src` on, with what it returns and what is in the array. -/
def wcstombsFrom (n : Nat) : List Nat → Nat → Option CString → Option (Nat × Option CString)
  | [], count, dest => match dest with
    | some buf => if count<n then (store count [0] buf).map fun buf => (count, some buf)
      else some (count, dest)
    | none => some (count, none)
  | c::src, count, dest =>
    if dest.isSome ∧ n ≤ count then some (count, dest)
    else if n < count+(toEight c).length then some (n, dest)
    else do
      -- `memcpy` to `NULL` faults
      wcstombsFrom n src (count+(toEight c).length) (some (← store count (toEight c) (← dest)))

def wcstombs (dest : Option CString) (src : List Nat) (n : Nat) : Option (Nat × Option CString) :=
  wcstombsFrom n src 0 dest

/-- `decode` with its state and code point. -/
def decode (state : Nat × Nat) (byte : Nat) : Nat × Nat :=
  if state.1=0 then
    let table := byte >>> 3
    if table<16 then (0, byte &&& 0x7F)
    else if table<24 then (1, 0)
    else if table<28 then (2, byte &&& 0x1F)
    else if table<30 then (3, byte &&& 0x0F)
    else if table<31 then (4, byte &&& 0x07)
    else (1, 0)
  else ([0,1,0,2,3].getD state.1 0, byte &&& 0x3F ||| state.2 <<< 6)

/-- The result is `none` for `(size_t)-1`. -/
def mbstowcsFrom (n : Nat) :
    CString → Nat × Nat → Nat → Option (List Nat) → Option Nat × Option (List Nat)
  | [], _, count, dest =>
    (some count, dest.map fun buf => if count<n then buf.set count 0 else buf)
  | b::src, state, count, dest =>
    if dest.isSome ∧ n ≤ count then (some count, dest)
    else
      let state := decode state b.toNat
      if state.1=0 then mbstowcsFrom n src (0, 0) (count+1) (dest.map (·.set count state.2))
      else if state.1=1 then (none, dest)
      else mbstowcsFrom n src state count dest

def mbstowcs (dest : Option (List Nat)) (src : CString) (n : Nat) :
    Option Nat × Option (List Nat) :=
  mbstowcsFrom n src (0, 0) 0 dest

def encode (w : List Nat) : CString := w.flatMap toEight

def overwrite {α : Type} (new old : List α) : List α := new++old.drop new.length

/-- The longest prefix that fits is stored with a terminator if there is room, and counted. -/
def Stored (w : List Nat) (n : Nat) (dest : CString) : Prop :=
  ∃ p, p <+: w ∧ (∀ q, q <+: w → ((encode q).length≤n ↔ q <+: p)) ∧ wcstombs (some dest) w n =
      some ((encode p).length, some (overwrite ((encode p++[0]).take n) dest))

/-- The decoder gives the character back after the last byte, and accepts none of the others. -/
def decodes (c : Nat) : Nat × Nat → CString → Bool
  | _, [] => false
  | state, [b] => decode state b.toNat=(0, c)
  | state, b::b' :: bytes =>
    (decode state b.toNat).1∉[0,1] && decodes c (decode state b.toNat) (b' :: bytes)

private theorem toEight_ne_nil (h : c≠0 ∧ c<0x110000) : toEight c≠[] := by
  have hs : c<0x80 → UInt8.ofNat c≠0 := by
    intro hc hz
    have hm : c%2^8=0 := congrArg UInt8.toNat hz
    omega
  unfold toEight
  split_ifs <;> simp [*]

/-- The prefix that the loop converts. -/
def fitting : Nat → List Nat → List Nat
  | _, [] => []
  | n, c::w =>
    if (toEight c).length≤n then c::fitting (n-(toEight c).length) w else []

theorem encode_cons : encode (c::w)=toEight c++encode w := rfl

private theorem fitting_spec (n : Nat) (q : List Nat) (hq : q <+: w) :
    (encode q).length≤n ↔ q <+: fitting n w := by
  induction w generalizing n q with
  | nil => simp [prefix_nil.1 hq,encode]
  | cons c w ih =>
    cases q with
    | nil => simp [encode]
    | cons d q =>
      obtain ⟨rfl,hq'⟩ := cons_prefix_cons.1 hq
      rw [encode_cons,length_append,fitting]
      split_ifs with hf
      · rw [prefix_cons_inj,← ih _ q hq']
        omega
      · simp
        omega

private theorem fitting_prefix (n : Nat) (w : List Nat) : fitting n w <+: w := by
  induction w generalizing n with
  | nil => exact prefix_rfl
  | cons c w ih =>
    rw [fitting]
    split_ifs
    · exact (prefix_cons_inj c).2 (ih _)
    · exact nil_prefix

private theorem overwrite_append (h : a.length=old.length) :
    overwrite (a++b) (old++rest)=a++overwrite b rest := by
  rw [overwrite,overwrite,length_append,h,← drop_drop,drop_left,append_assoc]

private theorem wcstombsFrom_eq (hw : ∀ c∈w, c≠0 ∧ c<0x110000) (before after : CString) :
    wcstombsFrom (before.length+after.length) w before.length (some (before++after)) =
      if fitting after.length w=w then
        some ((before++encode w).length,
          some (before++overwrite ((encode w++[0]).take after.length) after))
      else some (before.length+after.length,
        some (before++overwrite (encode (fitting after.length w)) after)) := by
  induction w generalizing before after with
  | nil =>
    cases after with
    | nil => simp [wcstombsFrom,fitting,encode,overwrite]
    | cons b after =>
      have hs : store before.length [0] (before++b::after)=some (before++0::after) :=
        @store_eq [b] [0] before after rfl
      simp [wcstombsFrom,fitting,encode,overwrite,hs]
  | cons c w ih =>
    have hpos := length_pos_iff.2 (toEight_ne_nil (hw c mem_cons_self))
    by_cases hf : (toEight c).length≤after.length
    · obtain ⟨old,rest,rfl,hold⟩ : ∃ old rest, after=old++rest ∧ (toEight c).length=old.length :=
        ⟨_,_,(take_append_drop (toEight c).length after).symm,by simp [hf]⟩
      have hr := ih (fun d hd => hw d (mem_cons_of_mem c hd)) (before++toEight c) rest
      have hs := store_eq before rest hold
      have hst : wcstombsFrom (before.length+(old++rest).length) (c::w) before.length
          (some (before++(old++rest))) =
            wcstombsFrom ((before++toEight c).length+rest.length) w (before++toEight c).length
              (some (before++toEight c++rest)) := by
        have hro : ¬before.length+(old++rest).length<before.length+(toEight c).length := by
          omega
        rw [wcstombsFrom,if_neg (fun hfu => by omega),if_neg hro]
        simp [hs,hold,Nat.add_assoc]
      have ht : (encode (c::w)++[0]).take (old++rest).length =
          toEight c++(encode w++[0]).take rest.length := by
        rw [encode_cons,append_assoc,length_append,← hold,take_length_add_append]
      rw [hst,hr,fitting,if_pos hf,ht,overwrite_append hold,encode_cons,encode_cons,
        overwrite_append hold]
      simp [Nat.add_assoc,hold]
    · have he : wcstombsFrom (before.length+after.length) (c::w) before.length
          (some (before++after))=some (before.length+after.length,some (before++after)) := by
        rw [wcstombsFrom]
        split_ifs with hfu
        · have : after.length=0 := by omega
          simp [this]
        · rfl
        · omega
      rw [he,fitting,if_neg hf]
      simp [encode,overwrite]

theorem stored_iff (hw : ∀ c∈w, c≠0 ∧ c<0x110000) (dest : CString) : Stored w dest.length dest ↔
      (encode w).length≤dest.length ∨ ∃ q, q <+: w ∧ (encode q).length=dest.length := by
  have hp := fitting_prefix dest.length w
  have hf := (fitting_spec dest.length _ hp).2 prefix_rfl
  have hre := wcstombsFrom_eq hw [] dest
  simp only [length_nil,Nat.zero_add,nil_append] at hre
  constructor
  · rintro ⟨p,hpw,hs,heq⟩
    have hle := ((fitting_spec _ p hpw).1 ((hs p hpw).2 prefix_rfl)).length_le
    obtain rfl := ((hs _ hp).1 hf).eq_of_length_le hle
    rw [wcstombs,hre] at heq
    split_ifs at heq with ha
    · exact .inl (ha ▸ hf)
    · simp only [Option.some.injEq,Prod.mk.injEq] at heq
      exact .inr ⟨_,hp,heq.1.symm⟩
  · intro h
    refine ⟨_,hp,fun q hq => fitting_spec _ q hq,?_⟩
    rw [wcstombs,hre]
    split_ifs with ha
    · rw [ha]
    obtain hw' | ⟨q,hq,hlen⟩ := h
    · have := ((fitting_spec _ w prefix_rfl).1 hw').length_le
      exact absurd (hp.eq_of_length_le this) ha
    · obtain ⟨rest,hr⟩ := (fitting_spec _ q hq).1 hlen.le
      have he : (encode (fitting dest.length w)).length=dest.length := by
        refine hf.antisymm ?_
        rw [← hr,encode,flatMap_append,length_append]
        exact hlen ▸ Nat.le_add_right _ _
      rw [he,take_left' he]

private theorem wcstombs_null_iff (n : Nat) :
    wcstombs none w n=some ((encode w).length, none) ↔ w=[] := by
  cases w with
  | nil => simp [wcstombs,wcstombsFrom,encode]
  | cons c w =>
    rw [wcstombs,wcstombsFrom,encode_cons,length_append]
    split_ifs with hn hl
    · cases hn.1
    · simp only [Option.some.injEq,Prod.mk.injEq,iff_false]
      omega
    · simp

section Decode
variable {c n count : Nat}

private theorem mbstowcsFrom_char (h : decodes c state bytes) (hr : ¬(dest.isSome ∧ n≤count)) :
    mbstowcsFrom n (bytes++src) state count dest =
      mbstowcsFrom n src (0, 0) (count+1) (dest.map (·.set count c)) := by
  induction bytes generalizing state with
  | nil => cases h
  | cons b bytes ih =>
    rw [cons_append,mbstowcsFrom,if_neg hr]
    cases bytes with
    | nil =>
      have hl := of_decide_eq_true h
      simp [hl]
    | cons b' bytes =>
      obtain ⟨hm,h⟩ := Bool.and_eq_true_iff.1 h
      simp only [mem_cons,not_or,decide_eq_true_eq] at hm
      simp only [hm,if_false,ih h]

private theorem mbstowcsFrom_encode (hw : ∀ c∈w, decodes c (0, 0) (toEight c))
    (done after : List Nat) (h : w.length≤after.length) :
    mbstowcsFrom (done.length+after.length) (encode w) (0, 0) done.length (some (done++after)) =
      (some (done++w).length, some (done++overwrite ((w++[0]).take after.length) after)) := by
  induction w generalizing done after with
  | nil => cases after <;> simp [mbstowcsFrom,encode,overwrite]
  | cons c w ih =>
    cases after with
    | nil => cases h
    | cons x after =>
      have hr := ih (fun d hd => hw d (mem_cons_of_mem c hd)) (done++[c]) after
        (Nat.le_of_succ_le_succ h)
      rw [encode_cons,mbstowcsFrom_char (hw c mem_cons_self) (by simp)]
      simpa [overwrite,Nat.add_assoc,Nat.add_comm 1] using hr
end Decode

/-- What is stored and returned is right if and only if the string fits or its prefix fills the
array; the length without an array is right for the empty string only. -/
theorem wcstombs_mbstowcs_iff (w : List Nat) (hw : ∀ c ∈ w, c ≠ 0 ∧ c < 0x110000) (dest : CString) :
    (Stored w dest.length dest ↔
      (encode w).length ≤ dest.length ∨ ∃ q, q <+: w ∧ (encode q).length = dest.length) ∧
    (∀ n, wcstombs none w n = some ((encode w).length, none) ↔ w = []) ∧
    ((∀ c ∈ w, decodes c (0, 0) (toEight c)) → ∀ out : List Nat, w.length ≤ out.length →
      mbstowcs (some out) (encode w) out.length =
        (some w.length, some (overwrite ((w ++ [0]).take out.length) out))) := by
  refine ⟨stored_iff hw dest,wcstombs_null_iff,fun hd out hlen => ?_⟩
  have hr := mbstowcsFrom_encode hd [] out hlen
  simpa [mbstowcs] using hr

theorem wcstombs_mbstowcs_iff_euro :
    Stored [0x61,0x20AC] 5 [1,2,3,4,5] ∧ mbstowcs (some [7,8,9]) (encode [0x61,0x20AC]) 3 =
      (some 2, some [0x61,0x20AC,0]) := by
  obtain ⟨hs,-,hb⟩ := wcstombs_mbstowcs_iff [0x61,0x20AC] (by decide) [1,2,3,4,5]
  exact ⟨hs.2 (.inl (by decide)),hb (by decide) [7,8,9] (by decide)⟩

/-- Of `a€` one byte fits into three, and three are returned; without an array it faults. -/
theorem wcstombs_euro : wcstombs (some [1,2,3]) [0x61,0x20AC] 3 = some (3, some [0x61,2,3]) ∧
    ¬Stored [0x61,0x20AC] 3 [1,2,3] ∧ wcstombs none [0x61,0x20AC] 3 = none := by
  refine ⟨by decide,fun h => ?_,by decide⟩
  obtain h | ⟨q,hq,hlen⟩ := (stored_iff (by decide) [1,2,3]).1 h
  · revert h
    decide
  · rw [← mem_inits] at hq
    revert q
    decide
end RazionOS.Libc.Wide
