import RazionOS.Kernel.Misc.GzipCorrect

/-! # Whole streams -/

namespace RazionOS.Kernel.Gzip
open RazionOS.Framework RazionOS.Kernel.Deflate List

private theorem fixedLitLengths_eq : fixedLitLengths=fixedLitCode := by decide +kernel

private theorem fixedLitLengths_fits : Huffman.Fits fixedLitLengths 15 := by decide +kernel

private theorem fixedDistLengths_fits : Huffman.Fits fixedDistLengths 15 := by decide

/-- The two symbols left out come last and so do not change the other codewords. -/
theorem fixedDist_codeword : ∀ d<30, Huffman.length fixedDistCode d≠0 →
    Huffman.length fixedDistLengths d≠0 ∧
      Huffman.codeword fixedDistCode d=Huffman.codeword fixedDistLengths d := by
  decide

structure Fixed (st : State) : Prop where
  lengths : Reads st.fixedLengths fixedLitCode 286
  dists : Reads st.fixedDists fixedDistCode 30

private theorem buildFixed_ok (st : State) : ∃ st', buildFixed.run st = .ok ((), st') ∧ Fixed st' ∧
    st'.bits=st.bits ∧ st'.bufferSize=st.bufferSize ∧ st'.output=st.output := by
  obtain ⟨fixedLengths,hl,hli⟩ :=
    buildHuffman_reads fixedLitLengths_fits le_rfl (by decide +kernel) _ 286
  obtain ⟨fixedDists,hdis,hdi⟩ := buildHuffman_reads fixedDistLengths_fits le_rfl (by decide) _ 30
  refine ⟨{ st with fixedLengths := fixedLengths, fixedDists := fixedDists },?_,
    ⟨fixedLitLengths_eq ▸ hli,?_⟩,rfl,rfl,rfl⟩
  · rw [buildFixed,run_get_bind,run_bind_ok (run_lift hl st),run_bind_ok (run_lift hdis st)]
    rfl
  · intro d hd hc out
    obtain ⟨hc',hco⟩ := fixedDist_codeword d hd hc
    rw [hco]
    exact hdi d hd hc' out

variable {st0 st : State}

theorem decodeBlock_at (hf : Fixed st0) (hbl : Block pos out bits out')
    (hpos : (pos + (bits++rest).length)%8=0) (h : At st0 out (bits++rest) st) :
    ∃ st', decodeBlock.run st = .ok (true, st') ∧ At st0 out' rest st' := by
  cases hbl with
  | stored hp ha hd =>
    simp only [append_assoc] at h
    have ht : Decodes (readBits 2) [false, false] out 0 out := readBits_decodes _ out rfl
    obtain ⟨st1,hru1,h1⟩ := ht st0 _ st h
    have hr : rest.length%8=0 := by
      simp only [length_append,toBits_length,flatMap_byteBits_length,length_cons,length_nil] at hpos
      omega
    obtain ⟨st2,hru2,h2⟩ := uncompressed_at h1 hp hd hr
    refine ⟨st2,?_,h2⟩
    rw [decodeBlock,run_bind_ok hru1,decodeType,run_bind_ok hru2]
    rfl
  | fixed hb =>
    have ht : Decodes (readBits 2) [true, false] out 1 out := readBits_decodes _ out rfl
    obtain ⟨st1,hru1,h1⟩ := ht st0 _ st h
    obtain ⟨st2,hru2,h2⟩ := inflate_decodes hf.lengths hf.dists hb st0 rest st1 h1
    rw [← h1.lengths_eq,← h1.dists_eq] at hru2
    refine ⟨st2,?_,h2⟩
    rw [decodeBlock,run_bind_ok hru1,decodeType,run_get_bind,run_bind_ok hru2]
    rfl
  | @dynamic header _ _ _ _ _ hh hb =>
    have ht : Decodes (readBits 2) [false, true] out 2 out := readBits_decodes _ out rfl
    have hru : Decodes (decodeType 2) (header++_) out true out' :=
      (decodeHuffman_decodes hh hb).bind_last .pure
    exact ht.bind hru st0 rest st h

/-- Past blocks that are not the last, the loop goes on with a round to spare. -/
theorem blockLoop_prior (hf : Fixed st0) (hp : Prior pos out bits out')
    (hpos : (pos + (bits++rest).length)%8=0) (rounds : Nat) (hr : bits.length < rounds)
    (h : At st0 out (bits++rest) st) :
    ∃ left st', (blockLoop rounds).run st=(blockLoop (left+1)).run st' ∧
      At st0 out' rest st' := by
  induction hp generalizing rounds st with
  | none => exact ⟨rounds-1,st,by rw [Nat.sub_add_cancel (Nat.zero_lt_of_lt hr)],h⟩
  | @more pos out out1 out' bits bits' hb ht ih =>
    rw [length_cons,length_append] at hr
    obtain _ | rounds := rounds
    · omega
    rw [cons_append,append_assoc] at h hpos
    rw [length_cons] at hpos
    obtain ⟨st1,hru1,h1⟩ := readBit_decodes false out st0 _ st h
    obtain ⟨st2,hru2,h2⟩ := decodeBlock_at hf hb (by rw [← hpos]; omega) h1
    obtain ⟨left,st3,hru3,h3⟩ := ih (by rw [length_append] at hpos; omega) rounds (by omega) h2
    exact ⟨left,st3,((run_bind_ok hru1).trans (run_bind_ok hru2)).trans hru3,h3⟩

private theorem prior_of_blocks (h : Blocks pos out bits out') :
    ∃ valid out1 last, bits=valid++true::last ∧ Prior pos out valid out1 ∧
      Block (pos+valid.length+1) out1 last out' := by
  induction h with
  | last hb => exact ⟨[],_,_,rfl,.none,hb⟩
  | @more pos _ bits _ _ _ hb _ ih =>
    obtain ⟨valid,out1,last,rfl,hp,hl⟩ := ih
    refine ⟨_,out1,last,?_,.more hb hp,?_⟩
    · simp
    · rwa [length_cons, length_append, show pos+(bits.length+valid.length+1) =
        pos + 1+bits.length+valid.length by omega]

private theorem input_eq_drop {input : List UInt8} (hi : input.flatMap byteBits=stream++rest)
    (hb : st.bits=rest) (hs : st.bufferSize<8) :
    st.input=input.drop ((stream.length+7)/8) := by
  have hlen := congrArg length hi
  rw [flatMap_byteBits_length,length_append,← hb,State.bits_length,State.unread] at hlen
  have hr : (input.take ((stream.length+7)/8)).flatMap byteBits ++
      (input.drop ((stream.length+7)/8)).flatMap byteBits =
      (stream++toBits st.bufferSize st.bitBuffer.toNat)++st.input.flatMap byteBits := by
    rw [← flatMap_append,take_append_drop,hi,← hb,State.bits,append_assoc]
  have ht : ((input.take ((stream.length+7)/8)).flatMap byteBits).length =
      (stream++toBits st.bufferSize st.bitBuffer.toNat).length := by
    rw [flatMap_byteBits_length,length_take,length_append,toBits_length]
    omega
  exact (flatMap_byteBits_injective (append_inj hr ht).2).symm

theorem deflateDecompress_prior (hi : st.input.flatMap byteBits=valid++rest)
    (hvalid : Prior 0 [] valid out) :
    ∃ rounds st0 st', deflateDecompress.run st=(blockLoop (rounds+1)).run st' ∧
      Fixed st0 ∧ st0.output=st.output ∧ At st0 out rest st' := by
  have hr : resetBits.run st = .ok ((), { st with bitBuffer := 0, bufferSize := 0 }) := rfl
  obtain ⟨st1,hbu,hf,hb,hs,ho⟩ := buildFixed_ok { st with bitBuffer := 0, bufferSize := 0 }
  have hb1 := hb.trans hi
  have hst : At st1 [] (valid++rest) st1 := .start hb1 (hs ▸ Nat.zero_lt_succ 7)
  have hpos : (0 + (valid++rest).length)%8=0 := by
    rw [← hi,flatMap_byteBits_length]
    omega
  have hu : valid.length < st1.unread+1 := by
    rw [← st1.bits_length,hb1,length_append]
    omega
  obtain ⟨left,st',hru,h'⟩ := blockLoop_prior hf hvalid hpos _ hu hst
  refine ⟨left,st1,st',?_,hf,ho,h'⟩
  rw [deflateDecompress,run_bind_ok hr,run_bind_ok hbu,run_get_bind,hru]

theorem deflateDecompress_stream (hi : st.input.flatMap byteBits=stream++rest)
    (hs : Stream stream output) :
    ∃ st', deflateDecompress.run st = .ok (0, st') ∧ st'.output=st.output++output ∧
      st'.bits=rest ∧ st'.bufferSize<8 := by
  obtain ⟨valid,out,last,rfl,hvalid,hl⟩ := prior_of_blocks hs
  have hpos := flatMap_byteBits_length st.input
  rw [append_assoc,cons_append] at hi
  rw [hi,length_append,length_cons] at hpos
  obtain ⟨_,st0,st1,hr,hf,ho,h1⟩ := deflateDecompress_prior hi hvalid
  obtain ⟨st2,hr2,h2⟩ := readBit_decodes true out st0 _ st1 h1
  obtain ⟨st3,hr3,h3⟩ := decodeBlock_at hf hl (by omega) h2
  exact ⟨st3,hr.trans ((run_bind_ok hr2).trans (run_bind_ok hr3)),
    h3.output_eq.trans (by rw [ho]),h3.bits_eq,h3.size_lt⟩

/-- Whatever the decoder held before, it decompresses every stream and stops behind it. -/
theorem deflateDecompress_correct : (∀ (st : State) (stream rest : List Bool) (output : List UInt8),
      st.input.flatMap byteBits = stream ++ rest → Stream stream output →
      ∃ st', deflateDecompress.run st = .ok (0, st') ∧ st'.output = st.output ++ output ∧
        st'.bits = rest ∧ st'.input = st.input.drop ((stream.length+7)/8)) ∧
    (∀ (lengths : List Nat) (out : Huff), Huffman.Fits lengths 15 → lengths.length ≤ 288 →
      ∃ huff, buildHuffman lengths out = .ok huff ∧ ∀ s, Huffman.length lengths s ≠ 0 →
        ∀ (st : State) (rest : List Bool), st.bufferSize < 8 →
          st.bits = Huffman.codeword lengths s ++ rest →
          ∃ st', (decode huff).run st = .ok (s, st') ∧ st'.bits = rest) := by
  constructor
  · intro st stream rest output hi hst
    obtain ⟨st',hr,ho,hb,hsi⟩ := deflateDecompress_stream hi hst
    exact ⟨st',hr,ho,hb,input_eq_drop hi hb hsi⟩
  intro lengths out hf hlen
  obtain ⟨huff,hbu,ht⟩ := buildHuffman_table hf.le hlen out
  refine ⟨huff,hbu,fun s hs st rest hsi hb => ?_⟩
  obtain ⟨st',hr,h'⟩ := decode_decodes ht hf le_rfl hs [] st rest st (.start hb hsi)
  exact ⟨st',hr,h'.bits_eq⟩

def Rejects (st : State) : Prop :=
  ∃ status st', deflateDecompress.run st = .ok (status, st') ∧ status≠0

theorem run_bind_eq_ok {g : α → Decoder β} (h : (f >>= g).run st = .ok r) :
    ∃ value st', f.run st = .ok (value, st') ∧ (g value).run st' = .ok r := by
  obtain ⟨⟨value,st'⟩,hf,hg⟩ := bind_eq_ok.1 h
  exact ⟨value,st',hf,hg⟩

private theorem decodeType_known (ht : type<3) {known : Bool}
    (h : (decodeType type).run st = .ok (known, st')) : known=true := by
  have hp : ∀ {α : Type} {f : Decoder α}, (do let _ ← f; pure true).run st = .ok (known, st') →
      known=true := by
    intro α f h
    obtain ⟨_,_,-,h⟩ := run_bind_eq_ok h
    exact (Prod.mk.inj (Except.ok.inj h)).1.symm
  obtain rfl | rfl | rfl : type=0 ∨ type=1 ∨ type=2 := by omega
  · exact hp h
  · exact hp h
  · exact hp h

private theorem type_lt_of_invalid (h : Invalid pos out bits) (hne : bits≠[true, true]) :
    ∃ a b tail, bits=[a, b]++tail ∧ ofBits [a, b]<3 := by
  cases h with
  | blockType => exact absurd rfl hne
  | complement => exact ⟨_,_,_,by rw [append_assoc,append_assoc],by decide⟩
  | _ => exact ⟨_,_,_,rfl,by decide⟩

section
variable (hvalid : Prior 0 [] valid out)
include hvalid

private theorem rejects_of_reserved
    (hi : st.input.flatMap byteBits=valid++last::([true, true]++rest)) : Rejects st := by
  obtain ⟨_,st0,st1,hr,-,-,h1⟩ := deflateDecompress_prior hi hvalid
  obtain ⟨st2,hr2,h2⟩ := readBit_decodes last out st0 _ st1 h1
  obtain ⟨st3,hr3,-⟩ := readBits_decodes [true, true] out rfl st0 _ st2 h2
  have hb : decodeBlock.run st2 = .ok (false, st3) := run_bind_ok hr3
  exact ⟨1,st3,hr.trans ((run_bind_ok hr2).trans (run_bind_ok hb)),by decide⟩

theorem not_rejects_of_last (hba : Invalid (valid.length+1) out bad) (hne : bad≠[true, true])
    (hi : st.input.flatMap byteBits=valid++true::(bad++rest)) : ¬ Rejects st := by
  rintro ⟨status,st',hs,hn⟩
  obtain ⟨a,b,tail,rfl,ht⟩ := type_lt_of_invalid hba hne
  obtain ⟨_,st0,st1,hr,-,-,h1⟩ := deflateDecompress_prior hi hvalid
  obtain ⟨st2,hr2,h2⟩ := readBit_decodes true out st0 _ st1 h1
  have htw : Decodes (readBits 2) [a, b] out (ofBits [a, b]) out := readBits_decodes _ out rfl
  obtain ⟨st3,hr3,-⟩ := htw st0 _ st2 h2
  rw [hr,blockLoop,run_bind_ok hr2] at hs
  obtain ⟨known,st4,hb,hs⟩ := run_bind_eq_ok hs
  rw [decodeBlock,run_bind_ok hr3] at hb
  obtain rfl := decodeType_known ht hb
  exact hn (Prod.mk.inj (Except.ok.inj hs)).1.symm

end

/-- After any blocks the reserved type is rejected. In a last block nothing else is. -/
theorem deflateDecompress_rejects (st : State) (valid bad rest : List Bool) (last : Bool)
    (out : List UInt8) (hvalid : Prior 0 [] valid out) (hbad : Invalid (valid.length+1) out bad)
    (hinp : st.input.flatMap byteBits = valid ++ last :: (bad ++ rest)) :
    (bad = [true, true] → Rejects st) ∧ (last = true → (Rejects st ↔ bad = [true, true])) := by
  have hr : bad=[true, true] → Rejects st := by
    rintro rfl
    exact rejects_of_reserved hvalid hinp
  refine ⟨hr,?_⟩
  rintro rfl
  refine ⟨fun h => ?_,hr⟩
  by_contra hne
  exact not_rejects_of_last hvalid hbad hne hinp h

def initial (input : List UInt8) : State where
  input := input
  output := []
  bitBuffer := 0
  bufferSize := 0
  fixedLengths := Huff.uninit
  fixedDists := Huff.uninit
  data := ⟨0,Vector.replicate 32768 0,by decide⟩

/-- An input begins with one stream at most, which has one meaning. -/
theorem stream_unique {input : List UInt8} (hs : Deflate.Stream bits out)
    (hs' : Deflate.Stream bits' out') (hi : input.flatMap byteBits = bits ++ rest)
    (hi' : input.flatMap byteBits = bits' ++ rest') : bits = bits' ∧ out = out' := by
  obtain ⟨st,hr,ho,hb,-⟩ :=
    deflateDecompress_stream (show (initial input).input.flatMap byteBits=_ from hi) hs
  obtain ⟨st',hr',ho',hb',-⟩ :=
    deflateDecompress_stream (show (initial input).input.flatMap byteBits=_ from hi') hs'
  cases hr.symm.trans hr'
  obtain rfl := hb.symm.trans hb'
  exact ⟨append_cancel_right (hi.symm.trans hi'),ho.symm.trans ho'⟩

theorem stored_hi : Block 1 [] ([false, false]++replicate 5 false++toBits 16 2 ++
    toBits 16 65533++[104, 105].flatMap byteBits) [104, 105] := by
  have h : Block 1 [] _ ([]++[104, 105]) :=
    .stored (by decide : (replicate 5 false).length<8) (by decide) (by decide)
  exact h

theorem deflateDecompress_rejects_stored : Rejects (initial [0, 2, 0, 253, 255, 104, 105, 7]) :=
  (deflateDecompress_rejects (initial _) _ [true, true] (replicate 5 false) true _
    (.more stored_hi .none) .blockType (by decide)).1 rfl

/-- The mismatch is found and then ignored. -/
theorem deflateDecompress_complement : ∃ bad, Invalid 1 [] bad ∧
    [1, 1, 0, 0, 0].flatMap byteBits = true :: bad ∧ ¬ Rejects (initial [1, 1, 0, 0, 0]) := by
  have hb : Invalid 1 [] ([false, false]++replicate 5 false++toBits 16 1++toBits 16 0) :=
    .complement (by decide) (by decide) (by decide) (by decide) (by decide)
  exact ⟨_,hb,by decide,not_rejects_of_last .none hb (by decide)
    (by decide : _=[]++true::(_++[]))⟩

/-- A stored, a dynamic and a fixed block with an overlapping copy, and one more byte. -/
def threeBlocks : List UInt8 :=
  [0, 2, 0, 253, 255, 104, 105, 4, 192, 129, 0, 0, 0, 0, 0, 144, 86, 255, 19, 184, 36, 48, 2, 0,
    170]

def twoSymbols : List Nat :=
  replicate 97 0++[1]++replicate 138 0++replicate 20 0++[1]++[1]

def twoSent : List Nat := [0, 0, 1, 0, 0, 0, 0, 0, 0, 0, 0, 0, 0, 0, 0, 0, 0, 1]

private theorem twoSent_length_ne (h : s=1 ∨ s=18) :
    Huffman.length (codeLengthCode twoSent) s≠0 := by
  obtain rfl | rfl := h <;> decide

private theorem twoSymbols_read : Lengths (codeLengthCode twoSent) []
    (((threeBlocks.flatMap byteBits).drop 127).take 27) twoSymbols := by
  obtain ⟨bits,hr,hb⟩ : ∃ bits, Lengths (codeLengthCode twoSent) [] bits twoSymbols ∧
      bits=((threeBlocks.flatMap byteBits).drop 127).take 27 :=
    ⟨_,.manyZeros (twoSent_length_ne (.inr rfl)) (toBits_length 7 86)
      (.length (by decide) (twoSent_length_ne (.inl rfl))
        (.manyZeros (twoSent_length_ne (.inr rfl)) (toBits_length 7 127)
          (.manyZeros (twoSent_length_ne (.inr rfl)) (toBits_length 7 9)
            (.length (by decide) (twoSent_length_ne (.inl rfl))
              (.length (by decide) (twoSent_length_ne (.inl rfl)) .stop))))),
      by decide⟩
  exact hb ▸ hr

private theorem twoSymbols_header : Header (((threeBlocks.flatMap byteBits).drop 59).take 95)
    (twoSymbols.take 257) (twoSymbols.drop 257) := by
  obtain ⟨bits,hh,hb⟩ : ∃ bits, Header bits (twoSymbols.take 257) (twoSymbols.drop 257) ∧
      bits=((threeBlocks.flatMap byteBits).drop 59).take 95 :=
    ⟨_,.intro (by decide : 0<2^5) (by decide : 0<2^5) (by decide : 14<2^4)
      (rfl : twoSent.length=4+14) (by decide) (by decide) twoSymbols_read
      (by decide +kernel) (by decide +kernel) (by decide +kernel),by decide +kernel⟩
  exact hb ▸ hh

theorem threeBlocks_stream : Stream ((threeBlocks.flatMap byteBits).take 186)
    [104, 105, 97, 98, 105, 97, 98, 105, 97] := by
  have hd : Body (twoSymbols.take 257) (twoSymbols.drop 257) [104, 105] _ [104, 105, 97] :=
    .literal (by decide) (.stop (by decide))
  have hc : Body fixedLitCode fixedDistCode [104, 105, 97, 98] _
      [104, 105, 97, 98, 105, 97, 98, 105, 97] :=
    .copy (by decide : 2<29) (by decide) (rfl : [].length=_) (by decide : 2<30)
      (by decide) (rfl : [].length=_) (by decide) (.stop (by decide))
  obtain ⟨bits,hs,hb⟩ : ∃ bits, Stream bits [104, 105, 97, 98, 105, 97, 98, 105, 97] ∧
      bits=(threeBlocks.flatMap byteBits).take 186 :=
    ⟨_,.more stored_hi (.more (.dynamic twoSymbols_header hd)
      (.last (.fixed (.literal (by decide +kernel) hc)))),by decide +kernel⟩
  exact hb ▸ hs

theorem stream_unique_threeBlocks : ¬∃ o, o ≠ [104, 105, 97, 98, 105, 97, 98, 105, 97] ∧
    Stream ((threeBlocks.flatMap byteBits).take 186) o := by
  rintro ⟨o,hne,hs⟩
  have hi := (take_append_drop 186 (threeBlocks.flatMap byteBits)).symm
  exact hne (stream_unique hs threeBlocks_stream hi hi).2

theorem deflateDecompress_correct_threeBlocks :
    (∃ st', deflateDecompress.run (initial threeBlocks) = .ok (0, st') ∧
      st'.output = [104, 105, 97, 98, 105, 97, 98, 105, 97] ∧ st'.input = [170]) ∧
    ∃ huff, buildHuffman [2, 1, 3, 3] Huff.uninit = .ok huff ∧
      ∃ st', (decode huff).run (initial [3]) = .ok (2, st') := by
  constructor
  · obtain ⟨st',hr,ho,-,hi⟩ := deflateDecompress_correct.1 (initial threeBlocks) _ _ _
      (take_append_drop 186 _).symm threeBlocks_stream
    refine ⟨st',hr,ho,hi.trans ?_⟩
    decide +kernel
  · obtain ⟨huff,hb,hd⟩ := deflateDecompress_correct.2 [2, 1, 3, 3] Huff.uninit
      (by decide) (by decide)
    obtain ⟨st',hr,-⟩ := hd 2 (by decide) (initial [3]) _ (Nat.zero_lt_succ 7)
      (by decide : (initial [3]).bits=_++[false, false, false, false, false])
    exact ⟨huff,hb,st',hr⟩
end RazionOS.Kernel.Gzip
