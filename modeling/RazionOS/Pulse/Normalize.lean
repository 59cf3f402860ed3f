import RazionOS.Pulse.Actions
import Mathlib.Data.List.Chain

/-!
# Normalized requests

What `normalize_request` leaves in its buffer is compared with the words of the request.
-/

namespace RazionOS.Pulse
open Framework List

def words (request : CString) : List CString :=
  (request.splitOnP (!isAlnum ·)).filter (· ≠ [])

/-- The words in lower case, with single spaces between them. -/
def joinedWords (request : CString) : CString :=
  [32].intercalate ((words request).map (·.map toLower))

/-- Lower-case letters and digits, with single spaces of which none is last. -/
structure Spaced (text : CString) : Prop where
  bytes : ∀ c∈text, c=32 ∨ isAlnum c ∧ toLower c=c
  single : text.IsChain fun a b => a≠32 ∨ b≠32
  last : text.getLast? ≠ some 32

structure Normalized (text : CString) : Prop extends Spaced text where
  head : text.head? ≠ some 32

/-- The last byte that is stored is the terminator, at the index `length`. -/
structure Lawful (request : CString) (size : Nat) : Prop where
  inside : (normalizeRequest request size).length < size
  normalized : Normalized (normalizeRequest request size)
  words : normalizeRequest request size <+: joinedWords request
  complete : (joinedWords request).length < size → normalizeRequest request size=joinedWords request
  again : normalizeRequest (normalizeRequest request size) size=normalizeRequest request size

def unwritten (started pendingSpace : Bool) : CString → CString
  | [] => []
  | c::rest =>
    if isAlnum c then
      (if pendingSpace && started then [32] else [])++toLower c::unwritten true false rest
    else unwritten started true rest

theorem toLower_of_isAlnum (h : isAlnum c) :
    isAlnum (toLower c) ∧ toLower (toLower c)=toLower c ∧ toLower c≠32 := by
  simp only [isAlnum,isAlpha,isDigit,Bool.or_eq_true,Bool.and_eq_true,decide_eq_true_eq] at *
  by_cases hu : 65≤c ∧ c≤90
  · rw [toLower,toLower]
    grind
  · rw [toLower,toLower]
    grind

private theorem unwritten_words :
    unwritten true true request=(words request).flatMap (32 :: ·.map toLower) ∧
      ∀ word≠[], ((request.splitOnPPrepend (!isAlnum ·) word).filter (· ≠ [])).flatMap
        (32 :: ·.map toLower)=32::word.reverse.map toLower++unwritten true false request := by
  induction request with
  | nil => simp +contextual [unwritten, words]
  | cons c rest ih =>
    by_cases hc : isAlnum c
    · refine ⟨?_,fun word _ => ?_⟩
      · rw [words,splitOnP_cons_eq_if_splitOnPPrepend,if_neg (by simp [hc]),ih.2 [c] (by simp)]
        simp [unwritten,hc]
      · rw [splitOnPPrepend_cons_neg (by simp [hc]),ih.2 _ (by simp)]
        simp [unwritten,hc]
    · refine ⟨?_,fun word hw => ?_⟩
      · rw [words,splitOnP_cons_eq_if_splitOnPPrepend]
        simpa [unwritten,hc,words] using ih.1
      · rw [splitOnPPrepend_cons_pos (by simp [hc])]
        simpa [unwritten,hc,hw,words] using ih.1.symm

private theorem unwritten_false :
    unwritten false pendingSpace request=(unwritten true true request).tail := by
  induction request generalizing pendingSpace with
  | nil => rfl
  | cons c rest ih => by_cases hc : isAlnum c <;> simp [unwritten,hc,ih]

private theorem intercalate_eq_tail (ws : List CString) :
    [32].intercalate ws=(ws.flatMap (32 :: ·)).tail := by
  cases ws with
  | nil => rfl
  | cons w ws =>
    induction ws generalizing w with
    | nil => simp
    | cons w' ws ih => simp [ih]

theorem unwritten_eq_joinedWords : unwritten false false request=joinedWords request := by
  rw [unwritten_false,unwritten_words.1,joinedWords,intercalate_eq_tail,flatMap_map]

private theorem Spaced.cons (h : Spaced rest) (hc : isAlnum c) : Spaced (toLower c::rest) := by
  obtain ⟨ha,hl,hs⟩ := toLower_of_isAlnum hc
  refine ⟨?_,h.single.cons fun _ _ => .inl hs,?_⟩
  · simpa [ha,hl] using h.bytes
  cases rest with
  | nil => simp [hs]
  | cons d rest => simpa using h.last

private theorem unwritten_spaced (started pendingSpace : Bool) :
    Spaced (unwritten started pendingSpace request) := by
  induction request generalizing started pendingSpace with
  | nil => exact ⟨by simp [unwritten],.nil,by simp [unwritten]⟩
  | cons c rest ih =>
    by_cases hc : isAlnum c
    · have hco := (ih true false).cons hc
      simp only [unwritten,if_pos hc]
      split
      · refine ⟨by simpa using hco.bytes,?_,by simpa using hco.last⟩
        exact hco.single.cons_cons (.inr (toLower_of_isAlnum hc).2.2)
      · exact hco
    · simpa [unwritten,hc] using ih started true

private theorem unwritten_head (pendingSpace : Bool) :
    (unwritten false pendingSpace request).head? ≠ some 32 := by
  induction request generalizing pendingSpace with
  | nil => simp [unwritten]
  | cons c rest ih =>
    by_cases hc : isAlnum c
    · simpa [unwritten,hc] using (toLower_of_isAlnum hc).2.2
    · simpa [unwritten,hc] using ih true

private theorem Spaced.unwritten_self (h : Spaced text) : unwritten true false text=text := by
  induction text with
  | nil => rfl
  | cons c rest ih =>
    have ih := fun hl => ih ⟨fun d hd => h.bytes d (mem_cons_of_mem c hd),h.single.tail,hl⟩
    obtain rfl | ⟨hc,hlo⟩ := h.bytes c mem_cons_self
    · -- a space is written with the byte after it, of which there is one
      cases rest with
      | nil => simpa using h.last
      | cons d rest =>
        have hs : d≠32 := by simpa using (isChain_cons_cons.1 h.single).1
        obtain ⟨hd,-⟩ := (h.bytes d (by simp)).resolve_left hs
        have ih := ih (by simpa using h.last)
        simpa [unwritten,hd,show isAlnum 32=false from rfl] using ih
    · simpa [unwritten,hc,hlo] using ih (by have := h.last; cases rest <;> simp_all)

private theorem Normalized.joinedWords_eq (h : Normalized text) : joinedWords text=text := by
  rw [← unwritten_eq_joinedWords]
  cases text with
  | nil => rfl
  | cons c rest =>
    have hc : isAlnum c := ((h.bytes c mem_cons_self).resolve_left (by simpa using h.head)).1
    simpa [unwritten,hc] using h.unwritten_self

theorem joinedWords_normalized (request : CString) : Normalized (joinedWords request) := by
  rw [← unwritten_eq_joinedWords]
  exact ⟨unwritten_spaced false false,unwritten_head false⟩

/-- The loop stops at the bound, or one byte behind it if a space comes last. -/
theorem normalizeLoop_eq (hs : stop=if text[size-1]? = some 32 then size+1 else size)
    (ht : text=output++unwritten (output≠[]) pendingSpace request)
    (hle : output.length ≤ stop) (hf : size≤output.length → output.length=stop) :
    normalizeLoop (size+1) request output pendingSpace=text.take stop := by
  have hsi : size ≤ stop := by
    rw [hs]
    split <;> omega
  induction request generalizing output pendingSpace with
  | nil =>
    rw [ht,unwritten,append_nil,take_of_length_le hle,normalizeLoop]
  | cons c rest ih =>
    rw [normalizeLoop]
    by_cases hr : output.length+1 < size+1
    · rw [if_pos hr]
      by_cases hc : isAlnum c
      · rw [if_pos hc]
        obtain ⟨-,-,hsp⟩ := toLower_of_isAlnum hc
        simp only [unwritten,if_pos hc] at ht
        by_cases hd : pendingSpace && output≠[]
        · rw [if_pos (by simpa using hd)]
          rw [if_pos hd] at ht
          have ho : output.length+1=size → stop=size+1 := fun h => by
            rw [hs,← h,if_pos (by simp [ht])]
          have he : output.length+2=size → stop=size := fun h => by
            rw [hs,← h,if_neg (by simp [ht, hsp])]
          apply ih (by simpa using ht) <;> simp <;> omega
        · rw [if_neg (by simpa using hd)]
          rw [if_neg hd] at ht
          have he : output.length+1=size → stop=size := fun h => by
            rw [hs,← h,if_neg (by simp [ht, hsp])]
          apply ih (by simpa using ht) <;> simp <;> omega
      · rw [if_neg hc]
        exact ih (by simpa [unwritten,hc] using ht) hle hf
    · rw [if_neg hr,← hf (by omega),ht,take_left]

private theorem normalizeRequest_eq (request : CString) (size : Nat) :
    normalizeRequest request (size+1)=(joinedWords request).take
      (if (joinedWords request)[size-1]? = some 32 then size+1 else size) := by
  refine normalizeLoop_eq rfl unwritten_eq_joinedWords.symm (Nat.zero_le _) ?_
  intro hs
  have hh := (joinedWords_normalized request).head
  rw [head?_eq_getElem?] at hh
  simp [Nat.le_zero.1 hs,hh]

/-- The guard of the loop leaves room for one byte, and a separator with its letter are two. -/
theorem normalizeRequest_lawful_iff (request : CString) (size : Nat) :
    Lawful request (size+1) ↔ (joinedWords request)[size-1]? ≠ some 32 := by
  have hj := joinedWords_normalized request
  have heq := normalizeRequest_eq request size
  constructor
  · intro h hs
    have hi := h.inside
    rw [heq,if_pos hs,length_take] at hi
    obtain ⟨hlt,-⟩ := List.getElem?_eq_some_iff.1 hs
    have hl := hj.last
    rw [getLast?_eq_getElem?] at hl
    refine hl ?_
    rwa [show (joinedWords request).length - 1=size-1 by omega]
  · intro hs
    rw [if_neg hs] at heq
    have hn : Normalized ((joinedWords request).take size) := by
      refine ⟨⟨fun c hc => hj.bytes c (mem_of_mem_take hc),hj.single.take size,?_⟩,?_⟩
      · rw [getLast?_take]
        split <;> simp [hs,hj.last]
      · rw [head?_take]
        split <;> simp [hj.head]
    refine ⟨?_,heq ▸ hn,heq ▸ List.take_prefix _ _,fun h => ?_,?_⟩
    · rw [heq,length_take]
      omega
    · rw [heq,take_of_length_le (by omega)]
    · rw [heq,normalizeRequest_eq,hn.joinedWords_eq,take_of_length_le]
      rw [length_take]
      split <;> omega

theorem normalizeRequest_overflow :
    ¬ Lawful (List.replicate 38 97 ++ cString " b") maxActionId := by
  intro h
  exact absurd h.inside (by decide)
end RazionOS.Pulse
