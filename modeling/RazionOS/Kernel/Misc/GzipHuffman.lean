import RazionOS.Kernel.Misc.Deflate
import RazionOS.Kernel.Misc.Gzip

/-! # Decoding bits and codewords -/

namespace RazionOS.Kernel.Gzip
open RazionOS.Framework RazionOS.Kernel.Deflate Huffman

def State.bits (st : State) : List Bool :=
  toBits st.bufferSize st.bitBuffer.toNat++st.input.flatMap byteBits

/-- Since `st0` the decoder has produced `out`, and the ring has the end of it. -/
structure Holds (st0 : State) (out : List UInt8) (st : State) : Prop where
  output_eq : st.output=st0.output++out
  lengths_eq : st.fixedLengths=st0.fixedLengths
  dists_eq : st.fixedDists=st0.fixedDists
  ring : ∀ d, 1≤d → d≤32768 → d≤out.length →
    st.data.data[(st.data.pointer+32768-d)%32768]? = out[out.length-d]?

/-- The decoder holds `out`, and `bits` come next. -/
structure At (st0 : State) (out : List UInt8) (bits : List Bool) (st : State) : Prop
    extends Holds st0 out st where
  bits_eq : st.bits=bits
  size_lt : st.bufferSize<8

theorem At.start (hb : st.bits=bits) (hs : st.bufferSize<8) : At st [] bits st := by
  refine ⟨⟨(List.append_nil _).symm,rfl,rfl,?_⟩,hb,hs⟩
  intro d hpos _ hd
  exact absurd (hpos.trans hd) (Nat.not_succ_le_zero 0)

/-- `f` reads just the bits that come next, returns `value` and leaves `out'` produced. -/
def Decodes (f : Decoder α) (bits : List Bool) (out : List UInt8) (value : α)
    (out' : List UInt8) : Prop :=
  ∀ st0 rest st, At st0 out (bits++rest) st →
    ∃ st', f.run st = .ok (value, st') ∧ At st0 out' rest st'

theorem run_bind_ok {g : α → Decoder β} (h : f.run st = .ok (value, st')) :
    (f >>= g).run st=(g value).run st' := by
  rw [StateT.run_bind,h]
  rfl

variable (st : State)

theorem run_get_bind {g : State → Decoder β} : (get >>= g).run st=(g st).run st := by
  rfl

theorem run_lift {x : Except Fault α} (h : x = .ok value) (st : State) :
    (liftM x : Decoder α).run st = .ok (value, st) := by
  subst h
  rfl

namespace Decodes

theorem bind (hf : Decodes f bits out value out1) (hg : Decodes (g value) bits' out1 value' out') :
    Decodes (f >>= g) (bits++bits') out value' out' := by
  intro st0 rest st h
  rw [List.append_assoc] at h
  obtain ⟨st1,hr,h1⟩ := hf st0 _ st h
  obtain ⟨st',hr',h'⟩ := hg st0 _ st1 h1
  exact ⟨st',(run_bind_ok hr).trans hr',h'⟩

theorem bind_nil (hf : Decodes f [] out value out1)
    (hg : Decodes (g value) bits out1 value' out') : Decodes (f >>= g) bits out value' out' :=
  hf.bind hg

theorem bind_last (hf : Decodes f bits out value out1)
    (hg : Decodes (g value) [] out1 value' out') : Decodes (f >>= g) bits out value' out' := by
  simpa using hf.bind hg

theorem pure : Decodes (Pure.pure value) [] out value out :=
  fun _ _ st h => ⟨st,rfl,h⟩

theorem lift {x : Except Fault α} (h : x = .ok value) : Decodes (liftM x) [] out value out :=
  fun _ _ st h' => ⟨st,run_lift h st,h'⟩

theorem get_bind {g : State → Decoder β} (hg : ∀ st0 rest st, At st0 out (bits++rest) st → ∃ st',
      (g st).run st = .ok (value', st') ∧ At st0 out' rest st') :
    Decodes (get >>= g) bits out value' out' := by
  intro st0 rest st h
  obtain ⟨st',hr,h'⟩ := hg st0 rest st h
  exact ⟨st',(run_get_bind st).trans hr,h'⟩
end Decodes

theorem flatMap_byteBits_length (bytes : List UInt8) :
    (bytes.flatMap byteBits).length=8*bytes.length := by
  induction bytes with
  | nil => rfl
  | cons byte bytes ih =>
    rw [List.flatMap_cons,List.length_append,byteBits,toBits_length,List.length_cons]
    omega

theorem State.bits_length : st.bits.length=st.unread := by
  rw [State.bits,List.length_append,toBits_length,flatMap_byteBits_length,State.unread]

theorem At.size_eq (h : At st0 out bits st) : st.bufferSize=bits.length%8 := by
  have hs := h.size_lt
  rw [← h.bits_eq,State.bits_length,State.unread]
  omega

private theorem and_one_ne_zero (byte : UInt8) : (byte &&& 1 != 0)=byte.toNat.testBit 0 := by
  rw [Nat.testBit_zero,bne,Bool.eq_iff_iff]
  simp only [Bool.not_eq_true',beq_eq_false_iff_ne,ne_eq,decide_eq_true_eq,← UInt8.toNat_inj]
  change ¬byte.toNat &&& 1=0 ↔ byte.toNat%2=1
  rw [Nat.and_one_is_mod]
  omega

private theorem State.bits_shift (h : st.bufferSize≠0) :
    st.bits=(st.bitBuffer &&& 1 != 0)::State.bits
      { st with bitBuffer := st.bitBuffer >>> 1, bufferSize := st.bufferSize-1 } := by
  obtain ⟨n,hn⟩ := Nat.exists_eq_succ_of_ne_zero h
  have hs : (st.bitBuffer >>> 1).toNat=st.bitBuffer.toNat/2 := by
    simp [Nat.shiftRight_eq_div_pow]
  simp [State.bits,hn,toBits,hs,and_one_ne_zero]

theorem Holds.source {st0 st : State} (h : Holds st0 out st) (input : List UInt8)
    (bitBuffer : UInt8) (bufferSize : Nat) :
    Holds st0 out { st with input := input, bitBuffer := bitBuffer, bufferSize := bufferSize } :=
  ⟨h.output_eq,h.lengths_eq,h.dists_eq,h.ring⟩

private theorem readBit_full (h : st.bufferSize≠0) : readBit.run st = .ok (st.bitBuffer &&& 1 != 0,
      { st with bitBuffer := st.bitBuffer >>> 1, bufferSize := st.bufferSize-1 }) := by
  simp [readBit,h]

private theorem readBit_refill {byte : UInt8} (h : st.bufferSize=0) (hi : st.input=byte::input) :
    readBit.run st =
      readBit.run { st with input := input, bitBuffer := byte, bufferSize := 8 } := by
  simp [readBit,refill,readByte,h,hi]

theorem readBit_decodes (bit : Bool) (out : List UInt8) : Decodes readBit [bit] out bit out := by
  intro st0 rest st h
  have hf : ∀ st1 : State, Holds st0 out st1 → st1.bits=bit::rest →
      st1.bufferSize≠0 → st1.bufferSize≤8 →
      ∃ st', readBit.run st1 = .ok (bit, st') ∧ At st0 out rest st' := by
    intro st1 hh hb hne hle
    rw [st1.bits_shift hne] at hb
    obtain ⟨hbi,hr⟩ := List.cons.inj hb
    refine ⟨_,hbi ▸ readBit_full st1 hne,hh.source _ _ _,hr,?_⟩
    show st1.bufferSize-1<8
    omega
  by_cases hs : st.bufferSize=0
  · cases hi : st.input with
    | nil =>
      have hb := h.bits_eq
      simp [State.bits,hs,hi,toBits] at hb
    | cons byte input =>
      rw [readBit_refill st hs hi]
      refine hf _ (h.toHolds.source _ _ _) ?_ (Nat.succ_ne_zero 7) le_rfl
      rw [← List.singleton_append,← h.bits_eq]
      simp [State.bits,hs,hi,toBits,byteBits]
  · exact hf st h.toHolds h.bits_eq hs h.size_lt.le

theorem or_shiftLeft (h : out<2^bit) : out ||| value <<< bit=out+2^bit*value := by
  rw [Nat.or_comm,Nat.shiftLeft_eq,Nat.mul_comm,← Nat.two_pow_add_eq_or_of_lt h,Nat.add_comm]

private theorem readBitsLoop_decodes (bits : List Bool) (bit acc : Nat) (out : List UInt8)
    (h : acc<2^bit) :
    Decodes (readBitsLoop bits.length bit acc) bits out (acc+2^bit * ofBits bits) out := by
  induction bits generalizing bit acc with
  | nil => exact .pure
  | cons value bits ih =>
    have hv := value.toNat_lt
    have ha : acc ||| value.toNat <<< bit<2^(bit+1) := by
      rw [or_shiftLeft h]
      have : 2^bit*value.toNat≤2^bit*1 := Nat.mul_le_mul_left _ (by omega)
      omega
    have hs : acc+2^bit * ofBits (value::bits) =
        (acc ||| value.toNat <<< bit) + 2^(bit+1) * ofBits bits := by
      rw [or_shiftLeft h,ofBits]
      ring
    rw [hs]
    exact (readBit_decodes value out).bind (ih (bit+1) _ ha)

theorem readBits_decodes (bits : List Bool) (out : List UInt8) {count : Nat}
    (h : bits.length=count) : Decodes (readBits count) bits out (ofBits bits) out := by
  have := readBitsLoop_decodes bits 0 0 out (by decide)
  rw [Nat.zero_add,Nat.pow_zero,Nat.one_mul] at this
  exact h ▸ this

theorem fetch_eq_ok (h : array[i]? = some value) : fetch array i = .ok value := by
  rw [fetch,h]

theorem store_eq_ok {array : Vector α n} (value : α) (h : i<n) :
    store array i value = .ok (array.setIfInBounds i value) := if_pos h

theorem getElem?_stored {array : Vector α n} (h : i<n) :
    (array.setIfInBounds i value)[j]? = if i=j then some value else array[j]? := by
  rw [Vector.getElem?_setIfInBounds]
  simp [h]

theorem count_take_succ {lengths : List Nat} {i : Nat} (h : i<lengths.length) :
    (lengths.take (i+1)).count l =
      (lengths.take i).count l + if lengths.getD i 0=l then 1 else 0 := by
  rw [List.take_add_one,List.getElem?_eq_getElem h,List.count_append,List.getD_eq_getElem _ _ h]
  simp [List.count_singleton]

structure Table (lengths : List Nat) (huff : Huff) : Prop where
  counts : ∀ l<16, huff.counts[l]? = some (count lengths l)
  symbols : ∀ s, Huffman.length lengths s≠0 → huff.symbols[slot lengths s]? = some (some s)

section Build
variable {lengths : List Nat} (hle : ∀ l ∈ lengths, l ≤ 15)
include hle

theorem getD_lt_sixteen (i : Nat) : lengths.getD i 0<16 := by
  by_cases h : Huffman.length lengths i=0
  · rw [Huffman.length] at h
    omega
  · have := hle _ (length_mem h)
    rw [Huffman.length] at this
    omega

private theorem countLength_yields : Yields (fun _ => False)
    (fun counts : Vector Nat 16 => ∀ l<16, counts[l]? = some (lengths.count l))
    (forRange (countLength lengths) lengths.length (Vector.replicate 16 0)) := by
  have hlo : Yields (fun _ => False) _
      (forRange (countLength lengths) lengths.length (Vector.replicate 16 0)) :=
    forRange_yields
      (fun i (counts : Vector Nat 16) => ∀ l<16, counts[l]? = some ((lengths.take i).count l))
      (by intro l hl; simp [hl]) ?_
  · rw [List.take_length] at hlo
    exact hlo
  intro i counts hi hc
  have hl := getD_lt_sixteen hle i
  rw [countLength,fetch_eq_ok (hc _ hl),ok_bind,store_eq_ok _ hl]
  refine .ok fun l hl' => ?_
  rw [getElem?_stored hl,count_take_succ hi]
  split
  · next heq => rw [heq]
  · rw [hc l hl',Nat.add_zero]

omit hle in
private theorem makeOffset_yields (hc : ∀ l<16, counts[l]? = some (count lengths l)) :
    Yields (fun _ => False)
      (fun s : Vector Nat 16 × Nat => ∀ l<16, s.1[l]? = some (before lengths l))
      (forRange (makeOffset counts) 16 (Vector.replicate 16 0, 0)) := by
  have hlo : Yields (fun _ => False) _
      (forRange (makeOffset counts) 16 (Vector.replicate 16 0, 0)) :=
    forRange_yields (fun i (s : Vector Nat 16 × Nat) => s.2=before lengths i ∧
      ∀ l < i, s.1[l]? = some (before lengths l)) ⟨rfl,by simp⟩ ?_
  · exact hlo.mono fun s hs => hs.2
  rintro i ⟨offsets,count⟩ hi ⟨rfl,ho⟩
  rw [makeOffset,store_eq_ok _ hi,fetch_eq_ok (hc i hi),ok_bind]
  refine .ok ⟨(before_succ i).symm,fun l hl => ?_⟩
  rw [getElem?_stored hi]
  split
  · next heq => rw [heq]
  · exact ho l (by omega)

private theorem orderSymbol_yields (hsi : lengths.length≤288)
    (ho : ∀ l<16, offsets[l]? = some (before lengths l)) :
    Yields (fun _ => False)
      (fun s : Vector Nat 16 × Vector (Option Nat) 288 => ∀ t, Huffman.length lengths t≠0 →
        s.2[slot lengths t]? = some (some t))
      (forRange (orderSymbol lengths) lengths.length (offsets, symbols)) := by
  have hlo : Yields (fun _ => False) _
      (forRange (orderSymbol lengths) lengths.length (offsets, symbols)) :=
    -- The next free slot of each length, and the slots filled so far.
    forRange_yields (fun i (s : Vector Nat 16 × Vector _ 288) =>
      (∀ l<16, l≠0 → s.1[l]? = some (before lengths l + (lengths.take i).count l)) ∧
      ∀ t < i, Huffman.length lengths t≠0 → s.2[slot lengths t]? = some (some t))
      ⟨fun l hl _ => by simpa using ho l hl,by simp⟩ ?_
  · refine hlo.mono fun s hs t ht => hs.2 t ?_ ht
    by_contra hge
    exact ht (List.getD_eq_default _ _ (by omega))
  rintro i ⟨offsets,symbols⟩ hi ⟨ho,hsy⟩
  have hl := getD_lt_sixteen hle i
  by_cases hz : lengths.getD i 0=0
  · rw [orderSymbol,if_pos hz]
    refine .ok ⟨fun l hl' hl0 => ?_,fun t ht hc => hsy t ?_ hc⟩
    · rw [count_take_succ hi,hz,if_neg (Ne.symm hl0)]
      exact ho l hl' hl0
    · have hne : t≠i := fun heq => hc (heq ▸ hz)
      omega
  have hsl := (Huffman.slot_lt_length hz).trans_le hsi
  have hof : offsets[lengths.getD i 0]? = some (slot lengths i) := ho _ hl hz
  simp only [orderSymbol,hz,fetch_eq_ok hof,ok_bind,store_eq_ok _ hsl,store_eq_ok _ hl]
  refine .ok ⟨fun l hl' hl0 => ?_,fun t ht hc => ?_⟩
  · rw [getElem?_stored hl,count_take_succ hi]
    split
    · next heq =>
      subst heq
      rfl
    · exact ho l hl' hl0
  · rw [getElem?_stored hsl]
    obtain heq | hlt : t=i ∨ t < i := by omega
    · rw [heq,if_pos rfl]
    · rw [if_neg (Huffman.slot_ne hc hz hlt).symm]
      exact hsy t hlt hc

theorem buildHuffman_table (hs : lengths.length≤288) (out : Huff) :
    ∃ huff, buildHuffman lengths out = .ok huff ∧ Table lengths huff := by
  obtain ⟨counts,hcn,hc⟩ := (countLength_yields hle).exists_ok
  have hc' : ∀ l<16, (counts.setIfInBounds 0 0)[l]? = some (count lengths l) := by
    intro l hl
    rw [getElem?_stored (by decide),count,hc l hl]
    by_cases h : l=0
    · rw [if_pos h.symm,if_pos h]
    · rw [if_neg (Ne.symm h),if_neg h]
  obtain ⟨offsets,hm,ho⟩ := (makeOffset_yields hc').exists_ok
  obtain ⟨ordered,hor,hsy⟩ := (orderSymbol_yields hle hs ho).exists_ok
  refine ⟨⟨counts.setIfInBounds 0 0,ordered.2⟩,?_,hc',hsy⟩
  rw [buildHuffman,hcn,ok_bind,store_eq_ok _ (by decide),ok_bind,hm,ok_bind,hor]
  rfl
end Build

section
variable {lengths : List Nat} (ht : Table lengths huff) (hf : Fits lengths bits) (hb : bits≤15)
  (hs : Huffman.length lengths s≠0) (out : List UInt8)
include ht hf hb hs out

private theorem decodeLoop_decodes (i rounds : Nat)
    (hi : i+left=Huffman.length lengths s) (hrn : left < rounds) :
    Decodes (decodeLoop huff rounds (i+1) (before lengths (i+1))
      (high lengths s i - first lengths i - count lengths i))
      (toBitsBE left (code lengths s)) out (slot lengths s) out := by
  obtain _ | rounds := rounds
  · omega
  induction left generalizing i rounds with
  | zero =>
    obtain rfl : i=Huffman.length lengths s := by omega
    have hr := Huffman.rank_lt_count hs
    rw [Huffman.high_length,code,decodeLoop,if_pos (by omega),before_succ]
    have hsu : ((before lengths (Huffman.length lengths s) +
        count lengths (Huffman.length lengths s) : Nat) : Int) +
        (((first lengths (Huffman.length lengths s) + rank lengths s : Nat) : Int) -
        first lengths (Huffman.length lengths s) -
        count lengths (Huffman.length lengths s)) =
        ((before lengths (Huffman.length lengths s) + rank lengths s : Nat) : Int) := by
      omega
    rw [hsu]
    exact .pure
  | succ left ih =>
    have hlt : i<Huffman.length lengths s := by omega
    have hh := Huffman.le_high hlt
    have hlen := hf.le _ (length_mem hs)
    obtain ⟨n,rfl⟩ : ∃ n, rounds=n+1 := ⟨rounds-1,by omega⟩
    rw [decodeLoop,if_neg (by omega)]
    refine (readBit_decodes _ out).bind (Decodes.bind_nil
      (.lift (fetch_eq_ok (ht.counts (i+1) (by omega)))) ?_)
    have hn := ih (i+1) (by omega) n (by omega)
    have hc : ((high lengths s (i+1) : Nat) : Int) - first lengths (i+1) - count lengths (i+1) =
        2 * (high lengths s i - first lengths i - count lengths i) +
          ((code lengths s).testBit left).toNat - count lengths (i+1) := by
      rw [Huffman.high_succ hlt,show Huffman.length lengths s - (i+1)=left by omega,first]
      push_cast
      ring
    rw [hc,before_succ (i+1)] at hn
    exact hn

theorem decode_decodes : Decodes (decode huff) (codeword lengths s) out s out := by
  have hlen := hf.le _ (length_mem hs)
  have hl := decodeLoop_decodes ht hf hb hs out 0 17
    (Nat.zero_add _) (by omega)
  have hst : ((high lengths s 0 : Nat) : Int) - first lengths 0 - count lengths 0=0 := by
    rw [Huffman.high_zero hf hs]
    rfl
  rw [hst] at hl
  refine Decodes.bind_last hl (.lift ?_)
  show (fetch huff.symbols (slot lengths s) >>= _)=_
  rw [fetch_eq_ok (ht.symbols s hs)]
  rfl

end

end RazionOS.Kernel.Gzip
