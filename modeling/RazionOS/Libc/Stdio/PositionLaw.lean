import RazionOS.Libc.Stdio.Position

/-!
# When a `FILE` keeps its position

Reading always delivers the bytes that come next; `ftell` and `fseek` are right as long as refills
start at the start of the buffer and nothing is pushed back.
-/

namespace RazionOS.Libc.Stdio
open Framework List Nat Option

/-- The buffer ends where the kernel is in the file. -/
structure Buffered (file : File) (s : Stream) : Prop where
  bufsiz : s.bufsiz=BUFSIZ
  offset : s.offset≤BUFSIZ
  split : s.readFrom+s.available=s.offset
  kernelOffset : s.offset ≤ s.kernelOffset
  kernelOffset_lt : s.kernelOffset<2^63
  content : ∀ i < s.available,
    file.bytes[(s.kernelOffset-s.available).toNat + i]? = some (s.readBuf (s.readFrom+i))
  start : -2^63 ≤ s.lastReadStart ∧ s.lastReadStart<2^63
  seekable : s.unseekable=false
  idle : s.refilledAt=none → s.offset=0
  refilled : ∀ o, s.refilledAt=some o → o ≤ s.readFrom ∧ s.lastReadStart+s.offset=s.kernelOffset+o

/-- Between calls, a buffer that has bytes has delivered some. -/
structure Inv (file : File) (s : Stream) : Prop extends Buffered file s where
  started : s.available≠0 → s.readFrom≠0

section Reading
variable {s : Stream}

theorem wrap_of_range (hl : -2^63≤x) (hh : x<2^63) : wrap x=x := by
  simp only [wrap]
  omega

private theorem fopen_inv : Inv file fopen := by
  refine ⟨⟨rfl,by decide,rfl,by decide,by decide,?_,by decide,rfl,fun _ => rfl,?_⟩,?_⟩
  · intro i hi
    exact absurd hi (Nat.not_lt_zero i)
  · intro o ho
    exact absurd ho.symm (some_ne_none o)
  · intro h
    exact absurd rfl h

def Stream.refillIndex (s : Stream) : Nat := if s.offset=s.bufsiz then 0 else s.offset

def Stream.refilled (file : File) (s : Stream) (r : Nat) : Stream :=
  { s with
    kernelOffset := s.kernelOffset+r
    reads := s.reads+1
    readBuf := fun i =>
      if s.refillIndex ≤ i ∧ i < s.refillIndex+r then
        (remaining file s).getD (i-s.refillIndex) 0
      else s.readBuf i
    available := r
    offset := s.refillIndex+r
    readFrom := s.refillIndex
    lastReadStart := s.kernelOffset
    refilledAt := some s.refillIndex }

theorem refill_eq (h : Buffered file s) : refill file refills s =
      s.refilled file (readCount file refills (s.bufsiz-s.refillIndex) s) := by
  have hk := h.kernelOffset
  have hlt := h.kernelOffset_lt
  have hw : wrap (s.kernelOffset+0)=s.kernelOffset := by
    rw [Int.add_zero]
    exact wrap_of_range (by omega) hlt
  have he : s.kernelOffset ≠ -espipe := by
    simp only [espipe]
    omega
  by_cases hf : s.offset=s.bufsiz
  · simp only [refill,if_pos hf,h.seekable,sysSeek,hw,if_neg he,sysRead,
      Stream.refilled,Stream.refillIndex]
    rfl
  · simp only [refill,if_neg hf,h.seekable,sysSeek,hw,if_neg he, Stream.refilled,Stream.refillIndex]
    rfl

theorem remaining_eq (h : 0 ≤ s.kernelOffset) :
    remaining file s=file.bytes.drop s.kernelOffset.toNat := by
  rw [remaining,if_neg (by omega)]

theorem Stream.refillIndex_le (h : Buffered file s) :
    s.refillIndex ≤ s.offset ∧ s.refillIndex < s.bufsiz := by
  have ho := h.offset
  have hb := h.bufsiz
  have hpos : 0<BUFSIZ := by decide
  rw [Stream.refillIndex]
  split <;> omega

theorem readCount_spec (h : Buffered file s) :
    let r := readCount file refills (s.bufsiz-s.refillIndex) s
    s.refillIndex + r≤BUFSIZ ∧ r≤(remaining file s).length ∧
      (r=0 → remaining file s=[]) := by
  have hb := h.bufsiz
  have hi := s.refillIndex_le h
  have hlen : remaining file s=[] ↔ (remaining file s).length=0 := length_eq_zero_iff.symm
  simp only [readCount]
  rw [hlen]
  omega

private theorem refill_buffered (h : Buffered file s) : Buffered file (refill file refills s) := by
  have hk := h.kernelOffset
  have hlt := h.kernelOffset_lt
  have hf := file.length_lt
  have hid := s.refillIndex_le h
  have hre : remaining file s=file.bytes.drop s.kernelOffset.toNat := remaining_eq (by omega)
  rw [refill_eq h]
  obtain ⟨hr,hlen,-⟩ := readCount_spec h
  generalize readCount file refills (s.bufsiz-s.refillIndex) s=r at hr hlen
  rw [hre,length_drop] at hlen
  refine ⟨h.bufsiz,hr,rfl,?_,?_,?_,?_,h.seekable,?_,?_⟩
  · simp only [Stream.refilled]
    omega
  · simp only [Stream.refilled]
    omega
  · intro i hi
    have hi : i < r := hi
    have hs : (s.kernelOffset+(r : Int) - (r : Int)).toNat=s.kernelOffset.toNat := by omega
    have hin : s.refillIndex ≤ s.refillIndex+i ∧ s.refillIndex+i < s.refillIndex+r := by
      omega
    have hb : s.kernelOffset.toNat+i<file.bytes.length := by omega
    simp only [Stream.refilled,hs,if_pos hin,hre,Nat.add_sub_cancel_left,getD_eq_getElem?_getD,
      getElem?_drop,getElem?_eq_getElem hb,getD_some]
  · simp only [Stream.refilled]
    omega
  · intro hn
    exact absurd hn (some_ne_none _)
  · intro o ho
    obtain rfl := some.inj ho
    simp only [Stream.refilled]
    exact ⟨le_rfl,by omega⟩

private theorem refill_logical (h : Buffered file s) (he : s.available=0) :
    (refill file refills s).logical=s.logical := by
  rw [refill_eq h]
  simp only [Stream.logical,Stream.refilled]
  congr 1
  omega

private theorem refill_empty (h : Buffered file s) (he : (refill file refills s).available=0) :
    file.bytes.drop s.kernelOffset.toNat=[] := by
  have hk := h.kernelOffset
  rw [refill_eq h] at he
  rw [← remaining_eq (by omega)]
  exact (readCount_spec h).2.2 he

def Stream.consume (n : Nat) (s : Stream) : Stream :=
  { s with readFrom := s.readFrom+n, available := s.available-n }

private theorem consume_consume : (s.consume m).consume n=s.consume (m+n) := by
  simp [Stream.consume,Nat.add_assoc,Nat.sub_sub]

theorem consume_buffered (h : Buffered file s) (hn : n ≤ s.available) :
    Buffered file (s.consume n) := by
  have hsp := h.split
  have hk := h.kernelOffset
  refine ⟨h.bufsiz,h.offset,?_,hk,h.kernelOffset_lt,?_,h.start,h.seekable,h.idle,?_⟩
  · simp only [Stream.consume]
    omega
  · intro i hi
    have hi : i < s.available-n := hi
    have hc := h.content (n+i) (by omega)
    have hpos : (s.kernelOffset-((s.available-n : Nat) : Int)).toNat + i =
        (s.kernelOffset-s.available).toNat + (n+i) := by
      omega
    simp only [Stream.consume,hpos,Nat.add_assoc]
    exact hc
  · intro o ho
    obtain ⟨hle,hs⟩ := h.refilled o ho
    exact ⟨hle.trans (Nat.le_add_right _ _),hs⟩

private theorem consume_logical (hn : n ≤ s.available) :
    (s.consume n).logical=⟨s.logical.pos+n,s.logical.pushed⟩ := by
  simp only [Stream.logical,Stream.consume]
  congr 1
  omega

def Stream.ahead (file : File) (s : Stream) : List UInt8 :=
  file.bytes.drop (s.kernelOffset-s.available).toNat

theorem consume_ahead (h : Buffered file s) (hn : n ≤ s.available) :
    (s.consume n).ahead file=(s.ahead file).drop n := by
  have hk := h.kernelOffset
  have hs := h.split
  rw [Stream.ahead,Stream.ahead,drop_drop]
  simp only [Stream.consume]
  congr 1
  omega

private theorem ahead_cons (h : Buffered file s) (hs : 0 < s.available) :
    s.ahead file=s.readBuf s.readFrom::(s.consume 1).ahead file := by
  have hf := h.content 0 hs
  rw [Nat.add_zero,getElem?_eq_some_iff] at hf
  obtain ⟨hlt,hf⟩ := hf
  rw [consume_ahead h hs,Stream.ahead,drop_eq_getElem_cons hlt,hf]
  rfl

private theorem copyLoop_eq (h : Buffered file s) : copyLoop len out s=(len - min len s.available,
      out++(s.ahead file).take (min len s.available), s.consume (min len s.available)) := by
  induction len generalizing out s with
  | zero =>
    rw [Nat.zero_min,take_zero,append_nil]
    rfl
  | succ len ih =>
    have hsp := h.split
    by_cases hs : 0 < s.available
    · have hm : min (len+1) s.available=min len (s.consume 1).available + 1 := by
        simp only [Stream.consume]
        omega
      have hc : s.readFrom < s.offset ∧ 0 < s.available := by omega
      have hst : copyLoop (len+1) out s =
          copyLoop len (out++[s.readBuf s.readFrom]) (s.consume 1) := by
        rw [copyLoop,if_pos hc]
        rfl
      rw [hst,ih (consume_buffered h hs),hm,ahead_cons h hs,take_succ_cons,append_assoc,
        singleton_append,Nat.add_sub_add_right,consume_consume,Nat.add_comm]
    · have hc : ¬(s.readFrom < s.offset ∧ 0 < s.available) := by omega
      have hm : min (len+1) s.available=0 := by omega
      rw [copyLoop,if_neg hc,hm,take_zero,append_nil]
      rfl

theorem Logical.advance_none (pos : Int) : (⟨pos,none⟩ : Logical).advance n=⟨pos+n,none⟩ := by
  rw [Logical.advance]
  split
  · rename_i hn
    rw [hn,cast_zero,Int.add_zero]
  · simp

theorem Logical.advance_some (pos : Int) : (⟨pos,some b⟩ : Logical).advance (n+1)=⟨pos+n,none⟩ := by
  rw [Logical.advance,if_neg (succ_ne_zero n)]
  simp only [toList_some,length_singleton]
  congr 1
  omega

theorem logical_rest (h : ¬0 ≤ s.ungetc) : s.logical.rest file=s.ahead file := by
  simp [Logical.rest,Stream.logical,if_neg h,Stream.ahead]

private theorem logical_of_idle (h : ¬0 ≤ s.ungetc) : s.logical=⟨s.logical.pos,none⟩ := by
  simp [Stream.logical,if_neg h]

private theorem Logical.advance_advance (l : Logical) :
    (l.advance m).advance n=l.advance (m+n) := by
  cases m with
  | zero =>
    rw [Nat.zero_add]
    rfl
  | succ m =>
    rcases l with ⟨pos,_ | b⟩
    · rw [advance_none,advance_none,advance_none]
      congr 1
      omega
    · rw [advance_some,advance_none,Nat.add_right_comm,advance_some]
      congr 1
      omega

/-- The bytes are the first of those to come, and the stream is behind them. -/
structure Delivers (file : File) (l : Logical) (bytes : List UInt8) (s' : Stream) : Prop where
  inv : Inv file s'
  logical : s'.logical=l.advance bytes.length
  rest : l.rest file=bytes++s'.logical.rest file

theorem Delivers.refl (h : Inv file s) : Delivers file s.logical [] s := ⟨h,rfl,rfl⟩

theorem Delivers.trans (h1 : Delivers file l first s1) (h2 : Delivers file s1.logical second s2) :
    Delivers file l (first++second) s2 := by
  refine ⟨h2.inv,?_,?_⟩
  · rw [h2.logical,h1.logical,Logical.advance_advance,length_append]
  · rw [h1.rest,h2.rest,append_assoc]

theorem Delivers.take (h : Delivers file l bytes s') (len : Nat) (hlen : bytes.length≤len) :
    (l.rest file).take len=bytes++(s'.logical.rest file).take (len-bytes.length) := by
  rw [h.rest,take_append,take_of_length_le hlen]

private theorem pushed_delivers (h : Inv file s) (hp : 0 ≤ s.ungetc) :
    Delivers file s.logical [UInt8.ofNat s.ungetc.toNat] { s with ungetc := -1 } := by
  refine ⟨⟨⟨h.bufsiz,h.offset,h.split,h.kernelOffset,h.kernelOffset_lt,h.content,h.start,
    h.seekable,h.idle,h.refilled⟩,h.started⟩,?_,?_⟩
  · simp only [Stream.logical,if_pos hp]
    rw [length_singleton,Logical.advance_some,cast_zero,Int.add_zero]
    rfl
  · simp only [Stream.logical,if_pos hp]
    rfl

theorem available_le (h : Buffered file s) : s.available≤(s.ahead file).length := by
  rw [Stream.ahead,List.length_drop]
  by_cases he : s.available=0
  · omega
  have hl := h.content (s.available-1) (by omega)
  obtain ⟨hlt,-⟩ := List.getElem?_eq_some_iff.mp hl
  omega

private theorem buffer_delivers (h : Buffered file s) (hp : ¬0 ≤ s.ungetc) (hpos : 0<n)
    (hn : n ≤ s.available) : Delivers file s.logical ((s.ahead file).take n) (s.consume n) := by
  have hlen := length_take_of_le (hn.trans (available_le h))
  have hl := consume_logical hn
  refine ⟨⟨consume_buffered h hn,?_⟩,?_,?_⟩
  · simp only [Stream.consume]
    omega
  · rw [hlen,hl,logical_of_idle hp,Logical.advance_none]
  · rw [logical_rest hp,logical_rest (s := s.consume n) hp,consume_ahead h hn,take_append_drop]

theorem Inv.setEof (h : Inv file s) : Inv file { s with eof := eof } :=
  ⟨⟨h.bufsiz,h.offset,h.split,h.kernelOffset,h.kernelOffset_lt,h.content,h.start,h.seekable,
    h.idle,h.refilled⟩,h.started⟩

private theorem refill_round (h : Inv file s)
    (hs1 : s1=if s.available=0 then refill file refills s else s) :
    Buffered file s1 ∧ s1.logical=s.logical ∧ s1.ungetc=s.ungetc ∧
      (s1.available=0 → s.ahead file=[]) := by
  by_cases he : s.available=0
  · rw [if_pos he] at hs1
    subst hs1
    refine ⟨refill_buffered h.toBuffered,refill_logical h.toBuffered he,?_,?_⟩
    · rw [refill_eq h.toBuffered]
      rfl
    · intro hst
      rw [Stream.ahead,he,cast_zero,Int.sub_zero]
      exact refill_empty h.toBuffered hst
  · rw [if_neg he] at hs1
    subst hs1
    exact ⟨h.toBuffered,rfl,rfl,fun hst => absurd hst he⟩

private theorem readLoop_spec (h : Inv file s) (len : Nat) (out : List UInt8) (hrn : len ≤ rounds) :
    ∃ s', readLoop file refills rounds len out s=(out++(s.logical.rest file).take len, s') ∧
      Delivers file s.logical ((s.logical.rest file).take len) s' := by
  induction rounds generalizing len out s with
  | zero =>
    obtain rfl : len=0 := by omega
    refine ⟨s,?_,Delivers.refl h⟩
    rw [take_zero,append_nil]
    rfl
  | succ rounds ih =>
    by_cases hlen : len=0
    · subst hlen
      refine ⟨s,?_,Delivers.refl h⟩
      rw [readLoop,if_pos rfl,take_zero,append_nil]
    rw [readLoop,if_neg hlen]
    by_cases hp : 0 ≤ s.ungetc
    · rw [if_pos hp]
      have hf := pushed_delivers h hp
      obtain ⟨s',heq,hr⟩ := ih hf.inv (len-1) _ (by omega)
      have ht := hf.take len (Nat.pos_of_ne_zero hlen)
      rw [length_singleton] at ht
      refine ⟨s',?_,?_⟩
      · rw [heq,ht,append_assoc]
      · rw [ht]
        exact hf.trans hr
    rw [if_neg hp]
    obtain ⟨hb,hl,hu,hen⟩ := refill_round h rfl
    generalize (if s.available=0 then refill file refills s else s)=s1 at hb hl hu hen
    have hp1 : ¬0 ≤ s1.ungetc := by rwa [hu]
    dsimp only
    by_cases he : s1.available=0
    · have hr := (logical_rest hp).trans (hen he)
      have hinv : Inv file s1 := { hb with started := fun h => absurd he h }
      rw [if_pos he,hr,take_nil,append_nil]
      refine ⟨_,rfl,hinv.setEof,hl,?_⟩
      show _=[]++s1.logical.rest file
      rw [hl,nil_append]
    have hpos : 0 < min len s1.available := by omega
    have hn : min len s1.available ≤ s1.available := Nat.min_le_right _ _
    have hf := buffer_delivers hb hp1 hpos hn
    have hle := length_take_of_le (hn.trans (available_le hb))
    obtain ⟨s',heq,hr⟩ := ih hf.inv (len - min len s1.available)
      _ (by omega)
    have ht := hf.take len (by omega)
    rw [hle] at ht
    rw [← hl,if_neg he,copyLoop_eq hb]
    refine ⟨s',?_,?_⟩
    · rw [heq,ht,append_assoc]
    · rw [ht]
      exact hf.trans hr

section
variable (refills : Nat → Nat) (h : Inv file s)
include refills h

theorem readBytes_spec (len : Nat) :
    ∃ s', readBytes file refills len s=((s.logical.rest file).take len, s') ∧
      Delivers file s.logical ((s.logical.rest file).take len) s' :=
  readLoop_spec h len [] le_rfl

private theorem freadLoop_spec (size count i : Nat) (out : List UInt8) :
    let bytes := (s.logical.rest file).take (size*count)
    ∃ s', freadLoop file refills size count i out s =
        (i+(if size=0 then count else bytes.length/size), out++bytes, s') ∧
      Delivers file s.logical bytes s' := by
  induction count generalizing i out s with
  | zero =>
    refine ⟨s,?_,?_⟩
    · rw [Nat.mul_zero,take_zero,length_nil,Nat.zero_div,ite_self,append_nil]
      rfl
    · exact Delivers.refl h
  | succ count ih =>
    obtain ⟨s1,hr,hf⟩ := readBytes_spec refills h size
    simp only [freadLoop,hr]
    by_cases hs : ((s.logical.rest file).take size).length < size
    · -- the end of the file is inside of the item
      rw [if_pos hs]
      rw [length_take] at hs
      have ht : (s.logical.rest file).take size=s.logical.rest file := take_of_length_le (by omega)
      have hm : size ≤ size*(count+1) := Nat.le_mul_of_pos_right size (succ_pos count)
      have ha : (s.logical.rest file).take (size*(count+1))=s.logical.rest file :=
        take_of_length_le (by omega)
      rw [ht] at hf
      refine ⟨s1,?_,?_⟩
      · rw [ha,ht,if_neg (by omega),div_eq_of_lt (by omega),Nat.add_zero]
      · rw [ha]
        exact hf
    · have hlen : ((s.logical.rest file).take size).length=size := by
        rw [length_take] at hs ⊢
        omega
      obtain ⟨s',heq,hre⟩ := ih hf.inv (i+1) _
      have ht := hf.take (size*(count+1)) (by
        rw [hlen]
        exact Nat.le_mul_of_pos_right size (succ_pos count))
      rw [hlen,mul_succ,Nat.add_sub_cancel] at ht
      rw [if_neg hs,heq]
      refine ⟨s',?_,?_⟩
      · rw [mul_succ,ht,append_assoc,length_append,hlen]
        by_cases hz : size=0
        · rw [if_pos hz,if_pos hz,Nat.add_right_comm,Nat.add_assoc]
        rw [if_neg hz,if_neg hz,add_div_left _ (Nat.pos_of_ne_zero hz)]
        congr 1
        omega
      · rw [mul_succ,ht]
        exact hf.trans hre

theorem fgetc_spec : ∃ s', fgetc file refills s=((s.logical.rest file).head?, s') ∧
      Delivers file s.logical (s.logical.rest file).head?.toList s' := by
  obtain ⟨s',heq,hd⟩ := readBytes_spec refills h 1
  rw [fgetc,heq]
  cases hr : s.logical.rest file with
  | nil =>
    rw [hr] at hd
    exact ⟨_,rfl,hd.inv.setEof,hd.logical,hd.rest⟩
  | cons b bytes =>
    rw [hr] at hd
    exact ⟨s',rfl,hd⟩

private theorem fgetsLoop_spec (room : Nat) (out : List UInt8) :
    ∃ s', fgetsLoop file refills room out s=(out++Logical.line room (s.logical.rest file), s') ∧
      Delivers file s.logical (Logical.line room (s.logical.rest file)) s' := by
  induction room generalizing out s with
  | zero =>
    refine ⟨s,?_,Delivers.refl h⟩
    rw [Logical.line,append_nil]
    rfl
  | succ room ih =>
    obtain ⟨s1,hg,hf⟩ := fgetc_spec refills h
    rw [fgetsLoop,hg]
    cases hr : s.logical.rest file with
    | nil =>
      rw [hr] at hf
      refine ⟨{ s1 with eof := true },?_,hf.inv.setEof,hf.logical,hf.rest⟩
      simp [Logical.line]
    | cons b bytes =>
      rw [hr] at hf
      have hb : bytes=s1.logical.rest file := by
        have h := hf.rest
        rw [hr] at h
        exact tail_eq_of_cons_eq h
      obtain ⟨s',heq,hm⟩ := ih hf.inv _
      rw [← hb] at heq hm
      simp only [head?_cons,Logical.line]
      by_cases hn : b=newline
      · rw [if_pos (.inr hn),if_pos hn]
        exact ⟨s1,rfl,hf⟩
      rw [if_neg hn]
      have hl := hf.trans hm
      by_cases hro : room=0
      · subst hro
        refine ⟨s1,rfl,hf⟩
      · rw [if_neg (by tauto)]
        refine ⟨s',?_,hl⟩
        rw [heq,append_assoc]
        rfl

end

end Reading

section Seeking
variable {s : Stream}

theorem logical_position :
    s.logical.position=s.kernelOffset-s.available-(if 0 ≤ s.ungetc then 1 else 0) := by
  simp only [Stream.logical]
  split <;> rfl

def Stream.seekTarget (file : File) (s : Stream) (offset : Int) (whence : Whence) : Int :=
  match whence with
  | .seekSet => offset
  | .seekCur =>
    if s.readFrom≠0 then wrap (offset+s.readFrom+s.lastReadStart)
    else wrap (s.kernelOffset+offset)
  | .seekEnd => wrap (file.bytes.length+offset)

theorem fseek_eq : (fseek file offset whence s).2 =
      { discard s with kernelOffset := s.seekTarget file offset whence } := by
  cases whence with
  | seekSet =>
    simp only [fseek,reduceCtorEq,and_false]
    rfl
  | seekCur =>
    by_cases hr : s.readFrom≠0
    · simp only [fseek,hr,Stream.seekTarget,ne_eq]
      rfl
    · simp only [fseek,hr,Stream.seekTarget]
      rfl
  | seekEnd =>
    simp only [fseek,reduceCtorEq,and_false]
    rfl

theorem discard_inv (h : Inv file s) (hl : 0≤k) (hh : k<2^63) :
    Inv file { discard s with kernelOffset := k } := by
  refine ⟨⟨h.bufsiz,Nat.zero_le _,rfl,hl,hh,?_,h.start,rfl,fun _ => rfl,?_⟩,?_⟩
  · intro i hi
    exact absurd hi (Nat.not_lt_zero i)
  · intro o ho
    exact absurd ho.symm (some_ne_none o)
  · intro hs
    exact absurd rfl hs

/-- How far `ftell` and `fseek` are off: the index that the last refill went to. -/
theorem refill_error (h : Inv file s) : ∃ o : Nat, (o=0 ↔ s.AtStart) ∧ o ≤ s.readFrom ∧
      (s.refilledAt=none → s.readFrom=0) ∧ (s.readFrom=0 → s.available=0) ∧
      (s.refilledAt≠none → s.lastReadStart+s.readFrom=s.kernelOffset-s.available+o) := by
  have hs := h.split
  have hsta := h.started
  cases hat : s.refilledAt with
  | none =>
    have hi := h.idle hat
    refine ⟨0,by simp [Stream.AtStart,hat],Nat.zero_le _,?_,?_,?_⟩
    · omega
    · omega
    · intro hne
      exact absurd rfl hne
  | some o =>
    obtain ⟨hle,hst⟩ := h.refilled o hat
    refine ⟨o,by simp [Stream.AtStart,hat],hle,?_,?_,?_⟩
    · intro hn
      exact absurd hn (some_ne_none o)
    · omega
    · omega

theorem discard_logical : ({ discard s with kernelOffset := k } : Stream).logical=⟨k,none⟩ := by
  simp [Stream.logical,discard]

section
variable (refills : Nat → Nat)
include refills

/-- The kernel moves to the position that is meant, which there has to be. A seek that fails must
move nothing; this one empties the buffer at another place. -/
theorem fseek_lawful_target (hmo : ¬(0 ≤ s.logical.target file offset.toInt whence ∧
        s.logical.target file offset.toInt whence<2^63) →
      0 ≤ s.ungetc ∨ s.seekTarget file offset.toInt whence≠s.kernelOffset-s.available) :
    Lawful file refills s (.fseek offset whence) ↔ 0 ≤ s.logical.target file offset.toInt whence ∧
      s.logical.target file offset.toInt whence<2^63 ∧
      s.seekTarget file offset.toInt whence=s.logical.target file offset.toInt whence := by
  have hl : Lawful file refills s (.fseek offset whence) ↔
      (⟨s.seekTarget file offset.toInt whence,none⟩ : Logical) =
        s.logical.seek file offset.toInt whence := by
    simp [Lawful,Stream.step,Stream.call,Logical.call,fseek_eq,discard_logical]
  rw [hl,Logical.seek]
  by_cases hr : 0 ≤ s.logical.target file offset.toInt whence ∧
      s.logical.target file offset.toInt whence<2^63
  · rw [if_pos hr,Logical.mk.injEq]
    tauto
  rw [if_neg hr,← and_assoc]
  refine iff_of_false ?_ fun h => hr h.1
  intro heq
  rcases hmo hr with hp | hm
  · simp only [Stream.logical,if_pos hp,Logical.mk.injEq,reduceCtorEq,and_false] at heq
  · simp only [Stream.logical,Logical.mk.injEq] at heq
    exact hm heq.1

theorem fseek_lawful_iff (h : Inv file s) (offset : BitVec 64) (whence : Whence) :
    Lawful file refills s (.fseek offset whence) ↔ Sane file s (.fseek offset whence) := by
  have hk := h.kernelOffset
  have hsp := h.split
  have hlen := file.length_lt
  have hl := offset.le_toInt
  have hh := offset.toInt_lt
  obtain ⟨o,ha,hle,hi,he,hs⟩ := refill_error h
  have ho := h.offset
  have hb : BUFSIZ=8192 := rfl
  cases whence with
  | seekSet =>
    rw [fseek_lawful_target]
    · simp [Sane,Stream.seekTarget,Logical.target]
    · simp only [Logical.target,Stream.seekTarget]
      omega
  | seekEnd =>
    rw [fseek_lawful_target]
    · simp only [Sane,Stream.seekTarget,Logical.target,reduceCtorEq,false_implies,and_true,wrap]
      omega
    · simp only [Logical.target,Stream.seekTarget,wrap]
      omega
  | seekCur =>
    have ht : s.seekTarget file offset.toInt .seekCur =
        wrap (s.kernelOffset-s.available+o+offset.toInt) := by
      by_cases hr : s.readFrom≠0
      · have hs := hs fun hn => hr (hi hn)
        simp only [Stream.seekTarget,if_pos hr]
        congr 1
        omega
      · simp only [Stream.seekTarget,if_neg hr]
        congr 1
        omega
    rw [fseek_lawful_target refills]
    · simp only [Sane,ht,Logical.target,logical_position,true_implies,wrap]
      rw [← ha]
      split <;> omega
    · simp only [Logical.target,ht,logical_position,wrap]
      split <;> omega

private theorem ftell_lawful_iff (h : Inv file s) :
    Lawful file refills s .ftell ↔ Sane file s .ftell := by
  have hk := h.kernelOffset
  have hlt := h.kernelOffset_lt
  have hsp := h.split
  have hL := h.start
  obtain ⟨o,ha,hle,hi,he,hs⟩ := refill_error h
  by_cases hkn : s.readFrom≠0 ∨ s.lastReadStart≠0
  · -- the position is computed and nothing changes
    have hl : Lawful file refills s .ftell ↔
        wrap (s.lastReadStart+s.readFrom)=s.logical.position := by
      simp [Lawful,Stream.step,Stream.call,Logical.call,ftell,if_pos hkn]
    rw [hl,Sane,← ha]
    by_cases hn : s.refilledAt=none
    · have hr := hi hn
      rw [if_pos ⟨hn,by omega⟩,wrap_of_range (by omega) (by omega),hr,cast_zero,Int.add_zero]
    · rw [if_neg fun h => hn h.1,hs hn,logical_position,wrap]
      split <;> omega
  · -- the kernel is asked, and what was pushed back is dropped
    have hL : s.lastReadStart=0 := by omega
    have hw : wrap (s.kernelOffset+0)=s.kernelOffset := by
      rw [Int.add_zero]
      exact wrap_of_range (by omega) hlt
    have hl : Lawful file refills s .ftell ↔
        s.kernelOffset=s.logical.position ∧ (⟨s.kernelOffset,none⟩ : Logical)=s.logical := by
      have hw' : wrap ((discard s).kernelOffset + 0)=s.kernelOffset := hw
      simp only [Lawful,Stream.step,Stream.call,Logical.call,ftell,if_neg hkn,sysSeek,hw',
        discard_logical,Prod.mk.injEq,Outcome.position.injEq,
        if_neg (show ¬s.kernelOffset<0 by omega)]
    rw [hl,Sane,if_neg fun h => h.2 hL,← ha,logical_position]
    simp only [Stream.logical,Logical.mk.injEq]
    split
    · omega
    · simp only [and_true]
      omega

private theorem ungetc_lawful_iff :
    Lawful file refills s (.ungetc c) ↔ Sane file s (.ungetc c) := by
  simp only [Lawful,Sane,Stream.step,Stream.call,Logical.call,ungetc]
  rcases Int.lt_trichotomy s.ungetc 0 with hne | hz | hpos
  · -- nothing is pushed back yet
    have hp : ¬0 ≤ s.ungetc := by omega
    have hf : ¬s.ungetc > 0 := by omega
    simp only [if_neg hf,Stream.logical,if_neg hp,isSome_none,Bool.false_eq_true,false_or]
    by_cases he : c = -1
    · subst he
      exact iff_of_true rfl (.inr ⟨hne,by omega,by omega⟩)
    rw [if_neg he]
    simp only [Prod.mk.injEq,Outcome.pushed.injEq]
    constructor
    · intro heq
      exact .inr ⟨hne,by omega,by omega⟩
    intro hr
    have hm : c%256=c := by omega
    have hb : 0≤c := by omega
    rw [hm,if_pos hb]
    exact ⟨rfl,rfl⟩
  · -- the byte 0 that is pushed back would have to stay
    have hp : 0 ≤ s.ungetc := by omega
    have hf : ¬s.ungetc > 0 := by omega
    simp only [if_neg hf,Stream.logical,if_pos hp,isSome_some,true_or,if_true,Prod.mk.injEq,
      Outcome.pushed.injEq,Logical.mk.injEq]
    refine iff_of_false ?_ (by omega)
    intro heq
    have hn : ¬0≤c := by omega
    rw [if_neg hn] at heq
    exact some_ne_none _ heq.2.2.symm
  · have hp : 0 ≤ s.ungetc := by omega
    simp [hpos,Stream.logical,if_pos hp]

end

end Seeking

section Runs
variable {s : Stream} {size : Nat}

theorem fread_lawful (h : Inv file s) : Lawful file refills s (.fread size nmemb) ∧
      Inv file (s.step file refills (.fread size nmemb)) := by
  obtain ⟨s',heq,hd⟩ := freadLoop_spec refills h size nmemb 0 []
  rw [nil_append,Nat.zero_add] at heq
  simp only [Lawful,Stream.step,Stream.call,fread,heq,Logical.call,hd.logical]
  exact ⟨trivial,hd.inv⟩

theorem fgetc_lawful (h : Inv file s) :
    Lawful file refills s .fgetc ∧ Inv file (s.step file refills .fgetc) := by
  obtain ⟨s',heq,hd⟩ := fgetc_spec refills h
  have ht : (s.logical.rest file).head?.toList=(s.logical.rest file).take 1 := by
    cases s.logical.rest file <;> rfl
  simp only [Lawful,Stream.step,Stream.call,heq,Logical.call,hd.logical,ht]
  exact ⟨trivial,hd.inv⟩

theorem fgets_lawful (h : Inv file s) :
    Lawful file refills s (.fgets size) ∧ Inv file (s.step file refills (.fgets size)) := by
  obtain ⟨s',heq,hd⟩ := fgetsLoop_spec refills h (size-1) []
  rw [nil_append] at heq
  simp only [Lawful,Stream.step,Stream.call,fgets,heq,Logical.call,hd.logical]
  exact ⟨trivial,hd.inv⟩

private theorem fseek_inv (refills : Nat → Nat) (h : Inv file s)
    (hs : Sane file s (.fseek offset whence)) :
    Inv file (s.step file refills (.fseek offset whence)) := by
  have hl := (fseek_lawful_iff refills h offset whence).mpr hs
  have ht : s.seekTarget file offset.toInt whence=s.logical.target file offset.toInt whence := by
    simp only [Lawful,Stream.step,Stream.call,Logical.call,fseek_eq,discard_logical,Logical.seek,
      if_pos (And.intro hs.1 hs.2.1),Prod.mk.injEq,Logical.mk.injEq,and_true,true_and] at hl
    exact hl
  simp only [Stream.step,Stream.call,fseek_eq,ht]
  exact discard_inv h hs.1 hs.2.1

private theorem ungetc_inv (h : Inv file s) : Inv file (s.step file refills (.ungetc c)) := by
  simp only [Stream.step,Stream.call,ungetc]
  split
  · exact h
  · exact ⟨⟨h.bufsiz,h.offset,h.split,h.kernelOffset,h.kernelOffset_lt,h.content,h.start,
      h.seekable,h.idle,h.refilled⟩,h.started⟩

private theorem ftell_inv (h : Inv file s) : Inv file (s.step file refills .ftell) := by
  have hk := h.kernelOffset
  have hlt := h.kernelOffset_lt
  simp only [Stream.step,Stream.call,ftell]
  split
  · exact h
  have hw : wrap ((discard s).kernelOffset + 0)=s.kernelOffset := by
    rw [Int.add_zero]
    exact wrap_of_range (show -2^63 ≤ s.kernelOffset by omega) hlt
  simp only [sysSeek,hw]
  exact discard_inv h (by omega) hlt

theorem sane_start : Sane file s (.fseek 0#64 .seekSet) := by
  simp only [Sane,Logical.target]
  exact ⟨le_rfl,by decide,fun h => absurd h (by decide)⟩

private theorem lawful_iff (h : Inv file s) : Lawful file refills s e ↔ Sane file s e := by
  cases e with
  | fread size nmemb => exact iff_of_true (fread_lawful h).1 trivial
  | fgetc => exact iff_of_true (fgetc_lawful h).1 trivial
  | fgets size => exact iff_of_true (fgets_lawful h).1 trivial
  | ungetc c => exact ungetc_lawful_iff refills
  | fseek offset whence => exact fseek_lawful_iff refills h offset whence
  | rewind =>
    refine iff_of_true ?_ trivial
    have hl := (fseek_lawful_iff refills h 0#64 .seekSet).mpr sane_start
    rwa [Lawful] at hl
  | ftell => exact ftell_lawful_iff refills h

private theorem step_inv (h : Inv file s) (hs : Sane file s e) :
    Inv file (s.step file refills e) := by
  cases e with
  | fread size nmemb => exact (fread_lawful h).2
  | fgetc => exact (fgetc_lawful h).2
  | fgets size => exact (fgets_lawful h).2
  | ungetc c => exact ungetc_inv h
  | fseek offset whence => exact fseek_inv refills h hs
  | rewind =>
    have hinv := fseek_inv refills h sane_start
    rwa [Stream.step] at hinv
  | ftell => exact ftell_inv h
end Runs

/-- A run is lawful if and only if its calls are sane. Then its callers see the stream of the
user. -/
theorem position_lawful_iff (file : File) (refills : Nat → Nat) (events : List Event) :
    (Along (Stream.step file refills) (Lawful file refills) fopen events ↔
      Along (Stream.step file refills) (Sane file) fopen events) ∧
    (Along (Stream.step file refills) (Sane file) fopen events →
      outcomes (Stream.call file refills) fopen events =
        outcomes (Logical.call file) ⟨0,none⟩ events) := by
  have hi : Along (Stream.step file refills) (Lawful file refills) fopen events ↔
      Along _ (Sane file) fopen events :=
    Along.congr (fun s e h hl => step_inv h ((lawful_iff h).mp hl))
      (fun s e h => lawful_iff h) fopen_inv
  refine ⟨hi,fun hs => ?_⟩
  exact Along.outcomes_eq (hi.mpr hs)

def fiveBytes : File := ⟨[1, 2, 3, 4, 5],by decide⟩

/-- When the kernel reads two bytes at a time, `ftell` says 5 after three bytes, and a seek by 0
goes to the end of the file. After a seek `ftell` is where it was before. -/
theorem position_wrong :
    let calls := outcomes (Stream.call fiveBytes fun _ => 2) fopen
    let means := outcomes (Logical.call fiveBytes) ⟨0,none⟩
    (calls [.fread 1 3, .ftell] = [.read [1, 2, 3] 3, .position 5] ∧
      means [.fread 1 3, .ftell] = [.read [1, 2, 3] 3, .position 3]) ∧
    (calls [.fread 1 3, .fseek 0 .seekCur, .fgetc] = [.read [1, 2, 3] 3, .sought, .read [] 0] ∧
      means [.fread 1 3, .fseek 0 .seekCur, .fgetc] = [.read [1, 2, 3] 3, .sought, .read [4] 1]) ∧
    (calls [.fgetc, .ungetc 1, .ftell] = [.read [1] 1, .pushed 1, .position 1] ∧
      means [.fgetc, .ungetc 1, .ftell] = [.read [1] 1, .pushed 1, .position 0]) ∧
    (calls [.fseek 2 .seekSet, .fgetc, .rewind, .ftell] =
        [.sought, .read [3] 1, .sought, .position 2] ∧
      means [.fseek 2 .seekSet, .fgetc, .rewind, .ftell] =
        [.sought, .read [3] 1, .sought, .position 0]) := by
  decide
end RazionOS.Libc.Stdio
