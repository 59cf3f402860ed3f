import RazionOS.Kernel.Misc.GzipHuffman

/-! # The decompressor follows the format -/

namespace RazionOS.Kernel.Gzip
open Decodes
open List (length_append append_assoc replicate length_singleton flatMap_cons length append_inj)
open RazionOS.Framework RazionOS.Kernel.Deflate

theorem and_mask : n &&& 0x7FFF=n%32768 := Nat.and_two_pow_sub_one_eq_mod n 15

private theorem Holds.push (h : Holds st0 out st) (byte : UInt8) : Holds st0 (out++[byte])
      { st with output := st.output++[byte], data := st.data.push byte } where
  output_eq := by
    rw [h.output_eq,append_assoc]
  lengths_eq := h.lengths_eq
  dists_eq := h.dists_eq
  ring := by
    intro d hpos hle hd
    have hlt := st.data.pointer_lt
    rw [length_append,length_singleton] at hd ⊢
    show (st.data.data.set st.data.pointer byte hlt)[
      (((st.data.pointer+1) &&& 0x7FFF)+32768 - d) % 32768]? = _
    rw [and_mask,Vector.getElem?_set]
    by_cases ho : d=1
    · subst ho
      rw [if_pos (by omega),Nat.add_sub_cancel,List.getElem?_concat_length]
    rw [if_neg (by omega),List.getElem?_append_left (by omega),
      show out.length+1-d=out.length-(d-1) by omega,
      ← h.ring (d-1) (by omega) (by omega) (by omega)]
    congr 1
    omega

theorem emit_decodes : Decodes (emit byte) [] out () (out++[byte]) := by
  intro st0 rest st h
  exact ⟨_,rfl,h.toHolds.push byte,h.bits_eq,h.size_lt⟩

private theorem peekIndex_eq (hp : pointer<32768) (ho : offset≤32768) :
    peekIndex pointer offset=(pointer+32768-offset)%32768 := by
  rw [peekIndex,and_mask]
  omega

private theorem peek_decodes (hpos : 1≤offset) (hle : offset≤32768) (hw : offset≤out.length) :
    Decodes (peek offset) [] out () (out++[out.getD (out.length-offset) 0]) := by
  refine .get_bind fun st0 rest st h => ?_
  have hb : fetch st.data.data (peekIndex st.data.pointer offset) =
      .ok (out.getD (out.length-offset) 0) := by
    apply fetch_eq_ok
    rw [peekIndex_eq st.data.pointer_lt hle,h.ring offset hpos hle hw,List.getD_eq_getElem?_getD,
      List.getElem?_eq_getElem (by omega),Option.getD_some]
  exact (lift hb).bind_nil emit_decodes st0 rest st h

private theorem peekLoop_decodes (hpos : 1≤offset) (hle : offset≤32768) (length : Nat)
    (hw : offset≤out.length) :
    Decodes (peekLoop offset length) [] out () (copy offset length out) := by
  induction length generalizing out with
  | zero => exact .pure
  | succ length ih =>
    refine (peek_decodes hpos hle hw).bind_nil (ih ?_)
    rw [length_append]
    omega

private theorem lookup_eq_ok (h : table=(List.range n).map f) (hi : i<n) :
    lookup table i = .ok (f i) := by
  rw [lookup,h,List.getElem?_map,List.getElem?_range hi]
  rfl

private theorem lext_eq : lext=(List.range 29).map lengthExtra := by decide

private theorem lens_eq : lens=(List.range 29).map lengthBase := by decide

private theorem dext_eq : dext=(List.range 30).map distanceExtra := by decide

private theorem dists_eq : dists=(List.range 30).map distanceBase := by decide

private theorem distance_le (hd : d<30) (hb : bits.length=distanceExtra d) :
    distanceBase d + ofBits bits≤32768 := by
  have ht : ∀ d<30, distanceBase d + 2 ^ distanceExtra d≤32769 := by decide
  have := ht d hd
  have hlt := ofBits_lt bits
  rw [hb] at hlt
  omega

/-- The table decodes the codewords of the symbols below `bound`. -/
def Reads (huff : Huff) (lengths : List Nat) (bound : Nat) : Prop :=
  ∀ s<bound, Huffman.length lengths s≠0 → ∀ out,
    Decodes (decode huff) (Huffman.codeword lengths s) out s out

private theorem Table.reads {bits : Nat} (h : Table lengths huff) (hf : Huffman.Fits lengths bits)
    (hb : bits≤15) : Reads huff lengths bound :=
  fun _ _ hs out => decode_decodes h hf hb hs out

variable {dist : List Nat}

private theorem copyMatch_decodes (hdis : Reads huffDist dist 30) (hs : s<29)
    (hlen : lengthBits.length=lengthExtra s) (hd : d<30) (hc : Huffman.length dist d≠0)
    (hdi : distanceBits.length=distanceExtra d)
    (hw : distanceBase d + ofBits distanceBits≤out.length) :
    Decodes (copyMatch huffDist s) (lengthBits++(Huffman.codeword dist d++distanceBits)) out ()
      (copy (distanceBase d + ofBits distanceBits) (lengthBase s + ofBits lengthBits) out) := by
  have hle := distance_le hd hdi
  refine (lift (lookup_eq_ok lext_eq hs)).bind_nil ?_
  refine (readBits_decodes lengthBits out hlen).bind ?_
  refine (lift (lookup_eq_ok lens_eq hs)).bind_nil ?_
  refine (hdis d hd hc out).bind ?_
  refine (lift (lookup_eq_ok dext_eq hd)).bind_nil ?_
  refine (readBits_decodes distanceBits out hdi).bind_last ?_
  refine (lift (lookup_eq_ok dists_eq hd)).bind_nil ?_
  rw [Nat.add_comm,Nat.add_comm (ofBits lengthBits)]
  refine peekLoop_decodes ?_ hle _ hw
  rw [distanceBase]
  omega

/-- Every symbol takes at least a bit, so that as many rounds as bits suffice. -/
theorem inflateLoop_decodes (hl : Reads huffLen lit 286) (hdi : Reads huffDist dist 30)
    (hb : Body lit dist out bits out') (rounds : Nat) (hr : bits.length ≤ rounds) :
    Decodes (inflateLoop huffLen huffDist rounds) bits out () out' := by
  induction hb generalizing rounds with
  | stop hc =>
    rw [Huffman.codeword_length] at hr
    obtain _ | rounds := rounds
    · omega
    refine (hl 256 (by omega) hc _).bind_last ?_
    exact .pure
  | @literal out byte bits out' hc _ ih =>
    rw [length_append,Huffman.codeword_length] at hr
    have hby := byte.toNat_lt
    obtain _ | rounds := rounds
    · omega
    refine (hl _ (by omega) hc _).bind ?_
    rw [if_pos hby,UInt8.ofNat_toNat]
    exact emit_decodes.bind_nil (ih rounds (by omega))
  | @copy s d _ _ out bits out' hs hc hlen hd hdc hdis hw _ ih =>
    simp only [length_append,Huffman.codeword_length] at hr
    obtain _ | rounds := rounds
    · omega
    simp only [append_assoc]
    refine (hl (257+s) (by omega) hc _).bind ?_
    rw [if_neg (by omega),if_neg (by omega)]
    have hco := copyMatch_decodes hdi hs hlen hd hdc hdis hw
    simpa using hco.bind (ih rounds (by omega))

theorem inflate_decodes (hl : Reads huffLen lit 286) (hd : Reads huffDist dist 30)
    (hb : Body lit dist out bits out') : Decodes (inflate huffLen huffDist) bits out 0 out' := by
  refine .get_bind fun st0 rest st h => ?_
  have hu : bits.length ≤ st.unread+1 := by
    rw [← st.bits_length,h.bits_eq,length_append]
    omega
  have hr : Decodes (inflateLoop huffLen huffDist (st.unread+1) >>= fun _ => pure 0) bits out 0
      out' := (inflateLoop_decodes hl hd hb _ hu).bind_last .pure
  exact hr st0 rest st h

private theorem clens_getElem? (hi : i<19) (hs : s<19) :
    clens[i]? = some s ↔ codeLengthOrder.idxOf s=i := by
  have ha : ∀ i<19, ∀ s<19, clens[i]? = some s ↔ codeLengthOrder.idxOf s=i := by
    decide
  exact ha i hi s hs

private theorem getD_concat :
    (done++[value]).getD i 0=if i=done.length then value else done.getD i 0 := by
  simp only [List.getD_eq_getElem?_getD,List.getElem?_append]
  rcases Nat.lt_trichotomy i done.length with h | h | h
  · rw [if_pos h,if_neg (by omega)]
  · rw [if_pos h,h]
    simp
  · rw [if_neg (by omega),if_neg (by omega)]
    simp [show ¬i - done.length=0 by omega,show done.length ≤ i by omega]

private theorem readCodeLengths_decodes (hse : ∀ l∈sent, l<2^3) (done : List Nat)
    (hsi : done.length+sent.length≤19) {lengths : Vector Nat 320}
    (hle : ∀ s<19, lengths[s]? = some (done.getD (codeLengthOrder.idxOf s) 0)) :
    ∃ lengths' : Vector Nat 320,
      Decodes (readCodeLengths sent.length done.length lengths) (sent.flatMap (toBits 3)) out
        lengths' out ∧
      ∀ s<19, lengths'[s]? = some ((done++sent).getD (codeLengthOrder.idxOf s) 0) := by
  induction sent generalizing done lengths with
  | nil =>
    refine ⟨lengths,.pure,?_⟩
    rwa [List.append_nil]
  | cons value sent ih =>
    rw [List.length_cons] at hsi
    obtain ⟨symbol,hsy,hlt⟩ : ∃ symbol, clens[done.length]? = some symbol ∧ symbol<19 := by
      have ha : ∀ i<19, ∃ symbol, clens[i]? = some symbol ∧ symbol<19 := by decide
      exact ha _ (by omega)
    have hst : ∀ s<19, (lengths.setIfInBounds symbol value)[s]? =
        some ((done++[value]).getD (codeLengthOrder.idxOf s) 0) := by
      intro s hs
      rw [getElem?_stored (by omega),getD_concat,hle s hs]
      by_cases h : symbol=s
      · rw [if_pos h,if_pos ((clens_getElem? (by omega) hs).1 (h ▸ hsy))]
      rw [if_neg h,if_neg]
      intro hi
      have := (clens_getElem? (by omega) hs).2 hi
      exact h (Option.some.inj (hsy.symm.trans this))
    obtain ⟨lengths',hr,hle'⟩ := ih (fun l hl => hse l (List.mem_cons_of_mem _ hl))
      _ (by simp; omega) hst
    refine ⟨lengths',?_,by simpa using hle'⟩
    have hv := readBits_decodes (toBits 3 value) out (toBits_length 3 value)
    rw [ofBits_toBits 3 value (hse value List.mem_cons_self)] at hv
    have hlo : lookup clens done.length = .ok symbol := by rw [lookup,hsy]
    rw [length_append] at hr
    refine hv.bind ?_
    refine (lift hlo).bind_nil ?_
    exact (lift (store_eq_ok value (by omega))).bind_nil hr

def Begins (done : List Nat) (lengths : Vector Nat 320) : Prop :=
  ∀ i<done.length, lengths[i]? = done[i]?

private theorem storeRun_ok (n : Nat) {lengths : Vector Nat 320} (h : Begins done lengths)
    (hs : done.length+n≤320) :
    ∃ lengths', storeRun rep n done.length lengths = .ok (lengths', done.length+n) ∧
      Begins (done++replicate n rep) lengths' := by
  induction n generalizing done lengths with
  | zero => exact ⟨lengths,rfl,by simpa using h⟩
  | succ n ih =>
    have hst : Begins (done++[rep]) (lengths.setIfInBounds done.length rep) := by
      intro i hi
      rw [length_append,length_singleton] at hi
      rw [getElem?_stored (by omega)]
      by_cases heq : done.length=i
      · rw [if_pos heq,← heq,List.getElem?_concat_length]
      · rw [if_neg heq,List.getElem?_append_left (by omega)]
        exact h i (by omega)
    rw [← Nat.add_assoc,Nat.add_right_comm] at hs
    obtain ⟨lengths',hr,hb⟩ := ih hst (by simpa using hs)
    refine ⟨lengths',?_,?_⟩
    · rw [storeRun,store_eq_ok _ (by omega),ok_bind]
      rw [length_append,length_singleton] at hr
      rw [hr,Nat.add_assoc,Nat.add_comm 1]
    · rwa [append_assoc] at hb

theorem length_le_of_lengths (h : Lengths code done bits lengths) : done.length≤lengths.length := by
  induction h with
  | stop => exact le_rfl
  | length _ _ _ ih => exact le_trans (by simp) ih
  | previous _ _ _ _ ih => exact le_trans (by simp) ih
  | zeros _ _ _ ih => exact le_trans (by simp) ih
  | manyZeros _ _ _ ih => exact le_trans (by simp) ih

private theorem readLengths_run {codes : Huff} (hco : Reads codes code 19) (hs : s<19)
    (hc : Huffman.length code s≠0)
    (hru : Decodes (runOf array done.length s) extra out (rep, n) out) (hn : 1≤n)
    (hb : Begins done array) (ht : Lengths code (done++replicate n rep) bits lengths)
    (hsi : lengths.length≤320) (hrn : lengths.length<done.length+rounds)
    (ih : ∀ rounds, lengths.length<(done++replicate n rep).length + rounds →
      ∀ {array}, Begins (done++replicate n rep) array → ∃ array', Begins lengths array' ∧ Decodes
          (readLengths codes lengths.length rounds (done++replicate n rep).length array)
          bits out array' out) : ∃ array', Begins lengths array' ∧
      Decodes (readLengths codes lengths.length rounds done.length array)
        (Huffman.codeword code s++(extra++bits)) out array' out := by
  have hlen := length_le_of_lengths ht
  rw [length_append,List.length_replicate] at hlen
  obtain _ | rounds := rounds
  · omega
  obtain ⟨stored,hst,hsto⟩ := storeRun_ok n hb (by omega)
  have hrn' : lengths.length<(done++replicate n rep).length + rounds := by
    rw [length_append,List.length_replicate]
    omega
  obtain ⟨array',hb',hr⟩ := ih rounds hrn' hsto
  refine ⟨array',hb',?_⟩
  rw [readLengths,if_pos (by omega)]
  rw [length_append,List.length_replicate] at hr
  exact (hco s hs hc out).bind (hru.bind ((lift hst).bind_nil hr))

private theorem runOf_of_lt (h : s<16) : runOf lengths count s=pure (s, 1) := by
  unfold runOf
  split
  · omega
  · omega
  · omega
  · rfl

private theorem readLengths_decodes {code done lengths : List Nat} (hco : Reads codes code 19)
    (h : Lengths code done bits lengths) (hsi : lengths.length≤320)
    (rounds : Nat) (hr : lengths.length<done.length+rounds) {array : Vector Nat 320}
    (hb : Begins done array) :
    ∃ array', Begins lengths array' ∧
      Decodes (readLengths codes lengths.length rounds done.length array) bits out array' out := by
  induction h generalizing rounds array with
  | @stop done =>
    obtain _ | rounds := rounds
    · omega
    refine ⟨array,hb,?_⟩
    rw [readLengths,if_neg (by omega)]
    exact .pure
  | @length s done bits lengths hs hc ht ih =>
    have hru : Decodes (runOf array done.length s) [] out (s, 1) out := by
      rw [runOf_of_lt hs]
      exact .pure
    exact readLengths_run hco (by omega) hc hru le_rfl hb ht hsi hr (ih hsi)
  | @previous l done extra bits lengths hc hl hextra ht ih =>
    have hpos : 0<done.length := List.length_pos_of_mem (List.mem_of_getLast? hl)
    have hle := length_le_of_lengths ht
    rw [length_append] at hle
    have hp : array[(done.length+2^32-1)%2 ^ 32]? = some l := by
      rw [show (done.length+2^32-1)%2 ^ 32=done.length-1 by omega,hb _ (by omega),
        ← List.getLast?_eq_getElem?,hl]
    have hru : Decodes (runOf array done.length 16) extra out (l, 3 + ofBits extra) out := by
      rw [Nat.add_comm]
      exact (lift (fetch_eq_ok hp)).bind_nil
        ((readBits_decodes extra out hextra).bind_last .pure)
    rw [append_assoc]
    exact readLengths_run hco (by omega) hc hru (by omega) hb ht hsi hr (ih hsi)
  | zeros hc hextra ht ih | manyZeros hc hextra ht ih =>
    rw [append_assoc]
    refine readLengths_run hco (by omega) hc ?_ (by omega) hb ht hsi hr (ih hsi)
    rw [Nat.add_comm]
    exact (readBits_decodes _ out hextra).bind_last .pure

private theorem toList_take_of_begins (h : Begins lengths array) :
    array.toList.take lengths.length=lengths := by
  apply List.ext_getElem?
  intro i
  rw [List.getElem?_take]
  split
  · next hi => rw [← h i hi,Vector.getElem?_toList]
  · next hi => rw [List.getElem?_eq_none (by omega)]

private theorem begins_codeLengthCode
    (h : ∀ s<19, array[s]? = some (sent.getD (codeLengthOrder.idxOf s) 0)) :
    Begins (codeLengthCode sent) array := by
  intro s hs
  rw [codeLengthCode,List.length_map,List.length_range] at hs
  rw [h s hs,codeLengthCode,List.getElem?_map,List.getElem?_range hs]
  rfl

private theorem readBits_toBits (h : n<2^width) :
    Decodes (readBits width) (toBits width n) out n out := by
  have hr := readBits_decodes _ out (toBits_length width n)
  rwa [ofBits_toBits width n h] at hr

theorem buildHuffman_reads {bits : Nat} (hf : Huffman.Fits lengths bits) (hb : bits≤15)
    (hs : lengths.length≤288) (out : Huff) (bound : Nat) :
    ∃ huff, buildHuffman lengths out = .ok huff ∧ Reads huff lengths bound := by
  obtain ⟨huff,hbu,ht⟩ := buildHuffman_table (fun l hl => (hf.le l hl).trans hb) hs out
  exact ⟨huff,hbu,ht.reads hf hb⟩

theorem decodeHuffman_decodes {header : List Bool} (h : Header header lit dist)
    (hbo : Body lit dist out bits out') : Decodes decodeHuffman (header++bits) out () out' := by
  obtain @⟨hli,hd,hcl,sent,lengthBits,lengths,hlit_lt,hdist_lt,hclen_lt,hse,
    hsent_lt,hsent_fits,hl,hlen,hlit_fits,hdist_fits⟩ := h
  have hc : (codeLengthCode sent).length=19 := by simp [codeLengthCode]
  have hz : ∀ s<19, (Vector.replicate 320 0)[s]? =
      some (([] : List Nat).getD (codeLengthOrder.idxOf s) 0) := by
    intro s hs
    rw [Vector.getElem?_replicate,if_pos (by omega)]
    rfl
  obtain ⟨array,hr,ha⟩ := readCodeLengths_decodes hsent_lt [] (by simp; omega) hz
  have hct := toList_take_of_begins (begins_codeLengthCode ha)
  rw [List.nil_append,hc] at hct
  obtain ⟨codes,hco,hre⟩ := buildHuffman_reads hsent_fits (by omega) (by omega) _ 19
  have he : Begins [] array := fun i hi => absurd hi (Nat.not_lt_zero i)
  obtain ⟨array',hb,hr'⟩ := readLengths_decodes hre hl (by omega)
    (lengths.length+1) (by simp) he
  have ht := toList_take_of_begins hb
  have hlt : array'.toList.take (257+hli)=lengths.take (257+hli) := by
    rw [← ht,List.take_take,Nat.min_eq_left (by omega)]
  have hdt : (array'.toList.drop (257+hli)).take (1+hd)=lengths.drop (257+hli) := by
    rw [← ht,List.drop_take,hlen,Nat.add_sub_cancel_left]
  obtain ⟨huffLen,hbl,hrl⟩ := buildHuffman_reads hlit_fits le_rfl
    (by rw [List.length_take]; omega) _ 286
  obtain ⟨huffDist,hbd,hrd⟩ := buildHuffman_reads hdist_fits le_rfl
    (by rw [List.length_drop]; omega) _ 30
  simp only [append_assoc]
  refine (readBits_toBits hlit_lt).bind ?_
  refine (readBits_toBits hdist_lt).bind ?_
  refine (readBits_toBits hclen_lt).bind ?_
  rw [← hse]
  refine hr.bind ?_
  rw [hct]
  refine (lift hco).bind_nil ?_
  rw [← hlen]
  refine hr'.bind ?_
  rw [hlt,hdt]
  refine (lift hbl).bind_nil ?_
  refine (lift hbd).bind_nil ?_
  exact (inflate_decodes hrl hrd hbo).bind_last .pure

theorem byteBits_length : (byteBits byte).length=8 := toBits_length 8 _

theorem byteBits_injective (h : byteBits a=byteBits b) : a=b := by
  have := congrArg ofBits h
  rw [byteBits,byteBits,ofBits_toBits 8 _ a.toNat_lt,ofBits_toBits 8 _ b.toNat_lt] at this
  exact UInt8.toNat_inj.1 this

theorem flatMap_byteBits_injective {as bs : List UInt8}
    (h : as.flatMap byteBits=bs.flatMap byteBits) : as=bs := by
  induction as generalizing bs with
  | nil =>
    have := congrArg length h
    rw [flatMap_byteBits_length,flatMap_byteBits_length] at this
    exact (List.length_eq_zero_iff.1 (by simpa using this.symm)).symm
  | cons a as ih =>
    cases bs with
    | nil =>
      have := congrArg length h
      rw [flatMap_byteBits_length] at this
      simp at this
    | cons b bs =>
      obtain ⟨hb,hr⟩ := append_inj h (by rw [byteBits_length,byteBits_length])
      rw [byteBits_injective hb,ih hr]

theorem readByte_at (h : At st0 out (byteBits byte++rest) st) (hr : rest.length%8=0) :
    ∃ st', readByte.run st = .ok (byte, st') ∧ At st0 out rest st' := by
  have hs : st.bufferSize=0 := by
    rw [h.size_eq,length_append,byteBits_length]
    omega
  have hb := h.bits_eq
  rw [State.bits,hs,toBits,List.nil_append] at hb
  cases hi : st.input with
  | nil =>
    have := congrArg length hb
    rw [hi,length_append,byteBits_length,List.flatMap_nil,List.length_nil] at this
    omega
  | cons b input =>
    rw [hi,flatMap_cons] at hb
    obtain ⟨hby,ht⟩ := append_inj hb (by rw [byteBits_length,byteBits_length])
    refine ⟨{ st with input := input },?_,h.toHolds.source input _ _,?_,h.size_lt⟩
    · rw [← byteBits_injective hby]
      simp [readByte,hi]
    · rw [State.bits,← ht]
      simp [hs,toBits]

private theorem toBits_sixteen : toBits 16 n =
    byteBits (UInt8.ofNat n)++byteBits (UInt8.ofNat (n/2^8)) := by
  rw [toBits_add 8 8,byteBits,byteBits,UInt8.toNat_ofNat',UInt8.toNat_ofNat',toBits_mod,toBits_mod]

private theorem toUInt16_or (hn : n<2^16) :
    (UInt8.ofNat n).toUInt16 ||| (UInt8.ofNat (n/2^8)).toUInt16 <<< 8=UInt16.ofNat n := by
  rw [← UInt16.toNat_inj,UInt16.toNat_ofNat', Nat.mod_eq_of_lt hn]
  have hl : n%2^8<2^8 := Nat.mod_lt _ (by decide)
  have hh : n/2^8%2^8=n/2^8 := Nat.mod_eq_of_lt (by omega)
  have hs : (n/2^8) <<< 8%2^16=(n/2^8) <<< 8 := by
    exact Nat.mod_eq_of_lt (by omega)
  change n % 2^8 ||| (n/2^8%2^8) <<< 8%2^16=n
  rw [hh,hs,or_shiftLeft hl]
  omega

private theorem ofNat_complement (hn : n<2^16) : UInt16.ofNat (2^16-1-n) = ~~~UInt16.ofNat n := by
  rw [← UInt16.toNat_inj,UInt16.toNat_not,UInt16.toNat_ofNat',UInt16.toNat_ofNat',
    Nat.mod_eq_of_lt hn,Nat.mod_eq_of_lt (by omega)]
  rfl

private theorem read16le_at (h : At st0 out (toBits 16 n++rest) st) (hn : n<2^16)
    (hr : rest.length%8=0) :
    ∃ st', read16le.run st = .ok (UInt16.ofNat n, st') ∧ At st0 out rest st' := by
  rw [toBits_sixteen,append_assoc] at h
  obtain ⟨st1,hru1,h1⟩ := readByte_at h (by rw [length_append,byteBits_length]; omega)
  obtain ⟨st2,hru2,h2⟩ := readByte_at h1 hr
  refine ⟨st2,?_,h2⟩
  rw [← toUInt16_or hn]
  exact (run_bind_ok hru1).trans (run_bind_ok hru2)

private theorem emitBytes_at (h : At st0 out (data.flatMap byteBits++rest) st)
    (hr : rest.length%8=0) :
    ∃ st', (emitBytes data.length).run st = .ok ((), st') ∧ At st0 (out++data) rest st' := by
  induction data generalizing out st with
  | nil => exact ⟨st,rfl,by simpa using h⟩
  | cons byte data ih =>
    rw [flatMap_cons,append_assoc] at h
    obtain ⟨st1,hru1,h1⟩ := readByte_at h (by rw [length_append,flatMap_byteBits_length]; omega)
    obtain ⟨st2,hru2,h2⟩ := emit_decodes st0 _ st1 h1
    obtain ⟨st3,hru3,h3⟩ := ih h2
    have hru : (emitBytes (data.length+1)).run st = .ok ((), st3) :=
      (run_bind_ok hru1).trans ((run_bind_ok hru2).trans hru3)
    exact ⟨st3,hru,by simpa using h3⟩

private theorem resetBits_at (h : At st0 out (padding++rest) st) (hp : padding.length<8)
    (hr : rest.length%8=0) : ∃ st', resetBits.run st = .ok ((), st') ∧ At st0 out rest st' := by
  have hs : st.bufferSize=padding.length := by
    rw [h.size_eq,length_append]
    omega
  obtain ⟨-,ht⟩ := append_inj h.bits_eq (by rw [toBits_length,hs])
  exact ⟨_,rfl,h.toHolds.source st.input 0 0,ht,Nat.zero_lt_succ 7⟩

theorem uncompressed_at
    (h : At st0 out (padding++(toBits 16 data.length++(toBits 16 (2^16-1-data.length) ++
      (data.flatMap byteBits++rest)))) st) (hp : padding.length<8) (hd : data.length<2^16)
    (hr : rest.length%8=0) :
    ∃ st', uncompressed.run st = .ok (0, st') ∧ At st0 (out++data) rest st' := by
  have hb : (data.flatMap byteBits++rest).length % 8=0 := by
    rw [length_append,flatMap_byteBits_length]
    omega
  have hw : ∀ (n : Nat) (bits : List Bool), bits.length%8=0 →
      (toBits 16 n++bits).length % 8=0 := by
    intro n bits hbi
    rw [length_append,toBits_length]
    omega
  obtain ⟨st1,hru1,h1⟩ := resetBits_at h hp (hw _ _ (hw _ _ hb))
  obtain ⟨st2,hru2,h2⟩ := read16le_at h1 hd (hw _ _ hb)
  obtain ⟨st3,hru3,h3⟩ := read16le_at h2 (by omega) hb
  obtain ⟨st4,hru4,h4⟩ := emitBytes_at h3 hr
  have hlen : (UInt16.ofNat data.length).toNat=data.length := by
    rw [UInt16.toNat_ofNat',Nat.mod_eq_of_lt hd]
  refine ⟨st4,?_,h4⟩
  rw [uncompressed,run_bind_ok hru1,run_bind_ok hru2,run_bind_ok hru3,
    if_neg (not_not.2 (ofNat_complement hd)),hlen,run_bind_ok hru4]
  rfl
end RazionOS.Kernel.Gzip
