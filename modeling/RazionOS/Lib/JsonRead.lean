import RazionOS.Framework.Loop
import RazionOS.Lib.Json

/-! # Reading a value -/

namespace RazionOS.Lib.Json
open Framework List Prod
open Kernel.Hashmap (StringKey Map hashmapCreate hashmapSet hashmapGet hashmapKeys Refines)

abbrev Gives {α : Type} (Q : α → Prop) (x : Except Fault α) : Prop := Yields (fun _ => False) Q x

/-- The parser is before the rest `t` of a text of `total` bytes. -/
structure At (total : Nat) (t : CString) (ctx : Ctx) : Prop where
  string : ctx.string=t
  c : ctx.c+t.length=total
  strict : ctx.lenient=false

def Spaces (w : CString) : Prop := ∀ c∈w, isWhite c=true
def Solid (t : CString) : Prop := isWhite (t.headD 0)=false

theorem At.peek (h : At total t ctx) : peek ctx=t.headD 0 := by
  rw [Json.peek,h.string]

theorem advance_at (ht : total<2^31) (h : At total (ch::t) ctx) :
    Gives (At total t) (advance ctx) := by
  have hc := h.c
  rw [length_cons] at hc
  have hne : ctx.c+1≠2^31 := by omega
  rw [advance,if_neg hne]
  refine .ok ⟨?_,?_,h.strict⟩
  · simp [h.string]
  · simp only
    omega

private theorem whitespaceLoop_at (hto : total<2^31) (ht : Solid t) (hw : Spaces w) :
    ∀ rounds ctx, w.length ≤ rounds → At total (w++t) ctx →
      Gives (At total t) (whitespaceLoop rounds ctx) := by
  induction w with
  | nil =>
    intro rounds ctx _ h
    cases rounds with
    | zero => exact .ok h
    | succ rounds =>
      have hp : isWhite (peek ctx)=false := by
        rw [h.peek]
        exact ht
      simp only [whitespaceLoop,hp]
      exact .ok h
  | cons c w ih =>
    intro rounds ctx hrn h
    cases rounds with
    | zero => simp at hrn
    | succ rounds =>
      have hc := hw c mem_cons_self
      have hp : peek ctx=c := by simp [h.peek]
      have hr := ih (fun d hd => hw d (mem_cons_of_mem c hd)) rounds
      have hle : w.length ≤ rounds := Nat.le_of_succ_le_succ hrn
      simp only [whitespaceLoop,hp,hc]
      apply (advance_at hto h).bind
      intro ctx' h'
      split_ifs
      · exact hr _ hle ⟨h'.string,h'.c,h'.strict⟩
      · exact hr _ hle h'

theorem whitespace_at (hto : total<2^31) (ht : Solid t) (hw : Spaces w)
    (h : At total (w++t) ctx) : Gives (At total t) (whitespace ctx) := by
  apply whitespaceLoop_at hto ht hw _ _ _ h
  simp [h.string]

/-- The size is a power of two that leaves room for the terminator. -/
def Buffer.Fits (buf : Buffer) : Prop :=
  ∃ k, 2≤k ∧ k≤30 ∧ buf.size=2^k ∧ buf.tmp.length<buf.size

private theorem Buffer.add_fits {buf : Buffer} (hfi : buf.Fits) (hr : buf.tmp.length+1<2^30)
    (c : UInt8) : ∃ buf', buf.add c = .ok buf' ∧ buf'.Fits ∧ buf'.tmp=buf.tmp++[c] := by
  obtain ⟨k,hmi,hm,hs,hlt⟩ := hfi
  rw [Buffer.add]
  by_cases hf : buf.tmp.length+1=buf.size
  · have hk : k<30 := by
      rw [hf,hs] at hr
      exact (Nat.pow_lt_pow_iff_right (by decide)).1 hr
    have hd : buf.size*2=2^(k+1) := by rw [hs,Nat.pow_succ]
    have hsm : ¬2 ^ 31≤buf.size*2 := by
      omega
    rw [if_pos hf,if_neg hsm]
    refine ⟨_,rfl,⟨k+1,by omega,hk,hd,?_⟩,rfl⟩
    simp only [length_append,length_singleton]
    omega
  · rw [if_neg hf]
    refine ⟨_,rfl,⟨k,hmi,hm,hs,?_⟩,rfl⟩
    simp only [length_append,length_singleton]
    omega

theorem escapeByte_cases : (escapeByte c=[c] ∧ c≠quote ∧ c≠backslash) ∨
      ∃ e, escapeByte c=[backslash, e] ∧ unescape e=some c := by
  rw [escapeByte]
  split_ifs with hs h1 h2 h3 h4 h5
  · rcases hs with rfl | rfl
    · exact .inr ⟨quote,rfl,rfl⟩
    · exact .inr ⟨backslash,rfl,rfl⟩
  · exact .inr ⟨114,rfl,h1 ▸ rfl⟩
  · exact .inr ⟨110,rfl,h2 ▸ rfl⟩
  · exact .inr ⟨98,rfl,h3 ▸ rfl⟩
  · exact .inr ⟨102,rfl,h4 ▸ rfl⟩
  · exact .inr ⟨116,rfl,h5 ▸ rfl⟩
  · exact .inl ⟨rfl,not_or.1 hs⟩

theorem stringLoop_byte (ht : total<2^31) {c : UInt8} (hc : c≠0)
    (h : At total (escapeByte c++t) ctx) (buf : Buffer) (rounds : Nat) : ∃ ctx', At total t ctx' ∧
      stringLoop (rounds+1) ctx buf=buf.add c >>= stringLoop rounds ctx' := by
  rcases escapeByte_cases with ⟨hs,hq,hb⟩ | ⟨e,he,hu⟩
  · rw [hs] at h
    have hp : peek ctx=c := by simp [h.peek]
    obtain ⟨ctx',ha,h'⟩ := (advance_at ht h).exists_ok
    refine ⟨ctx',h',?_⟩
    simp [stringLoop,hp,hc,hq,hb,ha]
  · rw [he] at h
    have hp : peek ctx=backslash := by simp [h.peek]
    obtain ⟨ctx1,ha1,h1⟩ := (advance_at ht h).exists_ok
    have hp1 : peek ctx1=e := by simp [h1.peek]
    obtain ⟨ctx2,ha2,h2⟩ := (advance_at ht h1).exists_ok
    refine ⟨ctx2,h2,?_⟩
    have hne : backslash≠0 ∧ backslash≠quote := by decide
    simp [stringLoop,hp,hne,ha1,escape,hp1,hu,ha2]

theorem stringLoop_bytes (hto : total<2^31) (hs : 0∉s) :
    ∀ ctx buf, At total (s.flatMap escapeByte++t) ctx → buf.Fits →
      buf.tmp.length + s.length<2^30 → ∀ rounds, ∃ ctx' buf',
        stringLoop (rounds+s.length) ctx buf=stringLoop rounds ctx' buf' ∧ At total t ctx' ∧
          buf'.Fits ∧ buf'.tmp=buf.tmp++s := by
  induction s with
  | nil =>
    intro ctx buf h hf _ rounds
    exact ⟨ctx,buf,rfl,h,hf,by simp⟩
  | cons c s ih =>
    intro ctx buf h hf hr rounds
    rw [length_cons] at hr
    rw [flatMap_cons,append_assoc] at h
    have hc : c≠0 := fun heq => hs (heq ▸ mem_cons_self)
    obtain ⟨ctx1,h1,hl1⟩ := stringLoop_byte hto hc h buf (rounds+s.length)
    obtain ⟨buf1,had,hf1,ht1⟩ := Buffer.add_fits hf (by omega) c
    have hr1 : buf1.tmp.length+s.length<2^30 := by
      rw [ht1,length_append,length_singleton]
      omega
    obtain ⟨ctx2,buf2,hl2,h2,hf2,ht2⟩ :=
      ih (fun hmem => hs (mem_cons_of_mem c hmem)) ctx1 buf1 h1 hf1 hr1 rounds
    refine ⟨ctx2,buf2,?_,h2,hf2,?_⟩
    · rw [length_cons,← Nat.add_assoc,hl1,had]
      exact hl2
    · rw [ht2,ht1,append_assoc,singleton_append]

theorem length_le_escaped (s : CString) : s.length≤(s.flatMap escapeByte).length := by
  induction s with
  | nil => exact Nat.le_refl 0
  | cons c s ih =>
    have hb : 1≤(escapeByte c).length := by
      rcases escapeByte_cases with ⟨hs,-⟩ | ⟨e,he,-⟩
      · rw [hs]
        exact Nat.le_refl 1
      · rw [he]
        exact Nat.le_succ 1
    rw [flatMap_cons,length_append,length_cons]
    omega

private theorem strdup_eq : strdup s.1=s := by
  apply Subtype.ext
  apply takeWhile_eq_self_iff.2
  intro c hc
  have hne : c≠0 := fun heq => s.2 (heq ▸ hc)
  simpa using hne

/-- What `string` does after its loop. -/
def stringEnd : Option Buffer × Ctx → Except Fault (Option StringKey × Ctx)
  | (none, ctx) => .ok (none, ctx)
  | (some buf, ctx) => do return (some (strdup buf.tmp), ← advance ctx)

theorem string_bytes (ht : total<2^31) (hs : 0∉s) (hr : s.length<2^30) (hne : 0<t.length)
    (h : At total (quote::(s.flatMap escapeByte++t)) ctx) : ∃ rounds ctx' buf,
      string ctx=stringLoop (rounds+1) ctx' buf >>= stringEnd ∧ At total t ctx' ∧ buf.Fits ∧
        buf.tmp=s := by
  have hp : peek ctx=quote := by simp [h.peek]
  obtain ⟨ctx1,ha,h1⟩ := (advance_at ht h).exists_ok
  have hf : Buffer.Fits ⟨4,[]⟩ := ⟨2,by decide,by decide,rfl,by decide⟩
  obtain ⟨rounds,hl⟩ : ∃ rounds, ctx1.string.length=rounds+1+s.length := by
    have he := length_le_escaped s
    rw [h1.string,length_append]
    exact ⟨(s.flatMap escapeByte).length - s.length+t.length-1,by omega⟩
  obtain ⟨ctx2,buf,hb,h2,hf2,htm⟩ := stringLoop_bytes ht hs ctx1 ⟨4,[]⟩ h1 hf (by simpa using hr) _
  refine ⟨rounds,ctx2,buf,?_,h2,hf2,htm⟩
  rw [string,if_neg (fun hne => hne hp),← hb,← hl]
  simp only [ha,ok_bind]
  congr 1
  funext x
  obtain ⟨_ | _,_⟩ := x <;> rfl

theorem string_at (ht : total<2^31) (hs : s.1.length<2^30)
    (h : At total (jsonSerializeString s++t) ctx) :
    Gives (fun r => r.1=some s ∧ At total t r.2) (string ctx) := by
  rw [jsonSerializeString,cons_append,append_assoc] at h
  obtain ⟨rounds,ctx1,buf,hl,h1,-,htm⟩ := string_bytes ht s.2 hs (by simp) h
  have hp : peek ctx1=quote := by simp [h1.peek]
  have hen : stringLoop (rounds+1) ctx1 buf = .ok (some buf, ctx1) := by
    have hne : quote≠0 := by decide
    simp [stringLoop,hp,hne]
  rw [hl,hen]
  apply (advance_at ht h1).bind
  intro ctx2 h2
  refine .ok ⟨?_,h2⟩
  rw [htm,strdup_eq]

theorem literal_at (ht : total<2^31) : ∀ ctx, At total (text++t) ctx →
      Gives (fun r => r.1=some out ∧ At total t r.2) (literal error text out ctx) := by
  induction text with
  | nil => exact fun ctx h => .ok ⟨rfl,h⟩
  | cons c text ih =>
    intro ctx h
    have hp : peek ctx=c := by simp [h.peek]
    rw [literal,if_neg (fun hne => hne hp)]
    exact (advance_at ht h).bind fun ctx' h' => ih ctx' h'

/-- Equal, with objects as finite maps. -/
inductive Same : Value → Value → Prop
  | null : Same .null .null
  | bool (b : Bool) : Same (.bool b) (.bool b)
  | number (n : Float) : Same (.number n) (.number n)
  | string (s : StringKey) : Same (.string s) (.string s)
  | array (hlen : xs.length=ys.length)
    (hitems : ∀ (i : Nat) v v', xs[i]? = some v → ys[i]? = some v' → Same v v') :
    Same (.array xs) (.array ys)
  | object (hkeys : ∀ key, (objectGet o values key).isSome=(objectGet o' values' key).isSome)
    (hvalues : ∀ key v v', objectGet o values key=some v → objectGet o' values' key=some v' →
      Same v v') : Same (.object o values) (.object o' values')

/-- A value without numbers whose strings have a property, with hash maps for its objects. -/
inductive Tree (P : StringKey → Prop) : Value → Prop
  | null : Tree P .null
  | bool (b : Bool) : Tree P (.bool b)
  | string (hs : P s) : Tree P (.string s)
  | array (hitems : ∀ v∈items, Tree P v) : Tree P (.array items)
  | object (hmap : Refines keyOps o m)
    (hptr : ∀ key pointer, m key=some pointer → 0<pointer ∧ pointer≤values.length)
    (hkeys : ∀ key∈hashmapKeys o, P key) (hvalues : ∀ v∈values, Tree P v) :
    Tree P (.object o values)

def Starts (text : CString) : Prop :=
  ∃ ch rest, text=ch::rest ∧ isWhite ch=false ∧ ch≠closeBracket ∧ ch≠closeBrace

/-- The parser reads the text as a value, with white space around it. -/
structure Reads (text : CString) (v : Value) : Prop where
  starts : Starts text
  reads : ∀ {total w w' t ctx rounds}, total<2^31 → Spaces w → Spaces w' → Solid t →
    2 * text.length ≤ rounds → At total (w++(text++(w' ++ t))) ctx →
    Gives (fun r => (∃ v', r.1=some v' ∧ Same v v') ∧ At total t r.2) (value rounds ctx)

theorem Starts.solid (h : Starts text) (t : CString) : Solid (text++t) := by
  obtain ⟨ch,rest,rfl,hw,-⟩ := h
  exact hw

private theorem white_at (hto : total<2^31) (hw : Spaces w) (ht : Solid t) (P : Option Value → Prop)
    (hx : Gives (fun r => P r.1 ∧ At total (w++t) r.2) x) :
    Gives (fun r => P r.1 ∧ At total t r.2) (white x) := by
  apply hx.bind
  rintro ⟨out,ctx⟩ ⟨ho,h⟩
  exact (whitespace_at hto ht hw h).bind fun ctx' h' => .ok ⟨ho,h'⟩

theorem Reads.of_branch (hre : ∀ {total t ctx rounds}, total<2^31 →
      2*(ch::rest).length ≤ rounds+1 → At total (ch::rest++t) ctx → peek ctx=ch →
      ∃ x, (∀ ctx0, whitespace ctx0 = .ok ctx → value (rounds+1) ctx0=white x) ∧
        Gives (fun r => (∃ v', r.1=some v' ∧ Same v v') ∧ At total t r.2) x)
    (hch : isWhite ch=false ∧ ch≠closeBracket ∧ ch≠closeBrace := by decide) :
    Reads (ch::rest) v := by
  have hs : Starts (ch::rest) := ⟨ch,rest,rfl,hch⟩
  refine ⟨hs,?_⟩
  intro total w w' t ctx rounds hto hw hw' ht hr h
  obtain ⟨ctx1,hsp,h1⟩ := (whitespace_at hto (hs.solid _) hw h).exists_ok
  cases rounds with
  | zero => simp at hr
  | succ rounds =>
    obtain ⟨x,hv,hx⟩ := hre hto hr h1 (by simp [h1.peek])
    rw [hv ctx hsp]
    exact white_at hto hw' ht (fun out => ∃ v', out=some v' ∧ Same v v') hx

theorem reads_string (hs : s.1.length<2^30) : Reads (jsonSerializeString s) (.string s) := by
  refine .of_branch ?_
  intro total t ctx rounds ht _ h hp
  refine ⟨string ctx >>= fun x => return (x.1.map .string, x.2),fun ctx0 hsp => ?_,?_⟩
  · simp [value,hsp,hp]
  apply (string_at ht hs h).bind
  rintro ⟨out,ctx'⟩ ⟨ho,h'⟩
  refine .ok ⟨⟨.string s,?_,.string s⟩,h'⟩
  simp only at ho
  rw [ho]
  rfl

private theorem reads_literal (error : String) (hs : Same v v)
    (hv : ∀ {ctx0 ctx rounds}, whitespace ctx0 = .ok ctx → peek ctx=ch →
      value (rounds+1) ctx0=white (literal error (ch::rest) v ctx))
    (hch : isWhite ch=false ∧ ch≠closeBracket ∧ ch≠closeBrace := by decide) :
    Reads (ch::rest) v := by
  refine .of_branch ?_ hch
  intro total t ctx rounds ht _ h hp
  refine ⟨_,fun ctx0 hsp => hv hsp hp,?_⟩
  exact (literal_at ht ctx h).mono fun r hr => ⟨⟨_,hr.1,hs⟩,hr.2⟩

theorem reads_null : Reads [110, 117, 108, 108] .null := by
  refine reads_literal "Invalid literal while parsing null" .null fun hsp hp => ?_
  simp [value,hsp,hp,null,quote,openBrace,openBracket,isDigit]

theorem reads_bool (b : Bool) :
    Reads (if b then [116, 114, 117, 101] else [102, 97, 108, 115, 101]) (.bool b) := by
  cases b <;> refine reads_literal "Invalid literal while parsing bool" (.bool _) fun hsp hp => ?_
    <;> simp [value,hsp,hp,boolean,quote,openBrace,openBracket,isDigit]

/-- Texts with commas between them and white space around them, up to a closing byte. -/
inductive Listed (close : UInt8) : List CString → CString → Prop
  | last (hw : Spaces w) (hw' : Spaces w') :
    Listed close [a] (w++(a++(w' ++ [close])))
  | cons (hw : Spaces w) (hw' : Spaces w')
    (h : Listed close texts r) : Listed close (a::texts) (w++(a++(w' ++ comma::r)))

theorem spaces_nil : Spaces [] := nofun

theorem Spaces.append (hw : Spaces w) (hw' : Spaces w') : Spaces (w++w') :=
  fun c hc => (mem_append.1 hc).elim (hw c) (hw' c)

theorem Listed.space (hw : Spaces w) (h : Listed close texts r) : Listed close texts (w++r) := by
  cases h with
  | last hw1 hw2 =>
    rw [← append_assoc]
    exact .last (hw.append hw1) hw2
  | cons hw1 hw2 h =>
    rw [← append_assoc]
    exact .cons (hw.append hw1) hw2 h

theorem Listed.strip (h : Listed close texts r) (hs : ∀ a∈texts, Starts a) :
    ∃ w r', r=w++r' ∧ Spaces w ∧ Starts r' ∧ Listed close texts r' := by
  have hf : ∀ {a b : CString}, Starts a → Starts (a++b) := by
    rintro a b ⟨ch,rest,rfl,hch⟩
    exact ⟨ch,rest++b,rfl,hch⟩
  cases h with
  | last hw hw' =>
    exact ⟨_,_,rfl,hw,hf (hs _ mem_cons_self),.last spaces_nil hw'⟩
  | cons hw hw' h =>
    exact ⟨_,_,rfl,hw,hf (hs _ mem_cons_self),.cons spaces_nil hw' h⟩

theorem starts_of_forall₂ (hR : ∀ a x, R a x → Starts a) (h : List.Forall₂ R texts xs) :
    ∀ a∈texts, Starts a := by
  induction h with
  | nil => exact nofun
  | cons hf _ ih =>
    intro a ha
    rcases mem_cons.1 ha with rfl | ha
    · exact hR _ _ hf
    · exact ih a ha

private theorem arrayLoop_item (ht : total<2^31) (hr : Reads a v) (hw : Spaces w) (hw' : Spaces w')
    (hch : isWhite ch=false) (rounds : Nat) (hrn : 2*a.length ≤ rounds)
    (h : At total (w++(a++(w' ++ ch::r))) ctx) :
    ∃ v' ctx', Same v v' ∧ At total (ch::r) ctx' ∧ arrayLoop (rounds+1) ctx output =
        if ch=closeBracket then
          advance ctx' >>= fun ctx => pure (some (.array (output++[v'])), ctx)
        else if ch≠comma then pure (none, ctx'.fail "Expected ,")
        else advance ctx' >>= fun ctx => arrayLoop rounds ctx (output++[v']) := by
  obtain ⟨ctx1,hsp,h1⟩ := (whitespace_at ht (hr.starts.solid _) hw h).exists_ok
  obtain ⟨⟨out,ctx2⟩,hv,⟨v',ho,hs⟩,h2⟩ :=
    (hr.reads ht spaces_nil hw' (t := ch::r) hch hrn h1).exists_ok
  refine ⟨v',ctx2,hs,h2,?_⟩
  have hp : peek ctx2=ch := by simp [h2.peek]
  simp only at ho
  rw [arrayLoop]
  simp [hsp,h1.strict,hv,ho,hp]

private theorem arrayLoop_at (ht : total<2^31) (hli : Listed closeBracket texts r) :
    ∀ {vs : List Value}, List.Forall₂ Reads texts vs → ∀ rounds ctx output,
      2 * r.length ≤ rounds → At total (r++t) ctx →
      Gives (fun res => (∃ vs', res.1=some (.array (output++vs')) ∧ List.Forall₂ Same vs vs') ∧
        At total t res.2) (arrayLoop rounds ctx output) := by
  induction hli with
  | @last w w' a hw hw' =>
    intro vs hr rounds ctx output hrn h
    obtain ⟨v,_,hre,hn,rfl⟩ := forall₂_cons_left_iff.1 hr
    cases hn
    simp only [length_append,length_singleton] at hrn
    simp only [append_assoc] at h
    obtain _ | rounds := rounds
    · omega
    obtain ⟨v',ctx',hs,h',hl⟩ := arrayLoop_item ht hre hw hw' (by decide) rounds (by omega) h
    rw [hl]
    apply (advance_at ht h').bind
    intro ctx2 h2
    exact .ok ⟨⟨[v'],rfl,.cons hs .nil⟩,h2⟩
  | @cons w w' a r texts hw hw' hli ih =>
    intro vs hr rounds ctx output hrn h
    cases hr with
    | @cons _ v _ vs hre hr =>
      simp only [length_append,length_cons] at hrn
      simp only [append_assoc] at h
      obtain _ | rounds := rounds
      · omega
      obtain ⟨v',ctx',hs,h',hl⟩ := arrayLoop_item ht hre hw hw' (by decide) rounds (by omega) h
      rw [hl]
      apply (advance_at ht h').bind
      intro ctx2 h2
      apply (ih hr rounds ctx2 _ (by omega) h2).mono
      rintro res ⟨⟨vs',hres,hsa⟩,hat⟩
      refine ⟨⟨v' :: vs',?_,.cons hs hsa⟩,hat⟩
      rw [hres,append_assoc,singleton_append]

theorem same_array (h : List.Forall₂ Same xs ys) : Same (.array xs) (.array ys) := by
  refine .array h.length_eq fun i v v' hv hv' => ?_
  obtain ⟨hi,rfl⟩ := List.getElem?_eq_some_iff.1 hv
  obtain ⟨hi',rfl⟩ := List.getElem?_eq_some_iff.1 hv'
  exact h.get hi hi'

theorem Reads.of_items (hw : Spaces w) (hs : ∀ t, Solid (r++t))
    (hr : ∀ {total t ctx rounds}, total<2^31 → 2*r.length ≤ rounds → At total (r++t) ctx →
      Gives (fun res => (∃ v', res.1=some v' ∧ Same (.array vs) v') ∧ At total t res.2)
        (if peek ctx=closeBracket then
          advance ctx >>= fun ctx => pure (some (.array []), ctx)
        else arrayLoop rounds ctx [])) : Reads (openBracket::(w++r)) (.array vs) := by
  refine .of_branch ?_
  intro total t ctx rounds ht hrn h hp
  refine ⟨array rounds ctx,fun ctx0 hsp => ?_,?_⟩
  · simp [value,hsp,hp,quote,openBrace,openBracket]
  simp only [length_cons,length_append] at hrn
  obtain _ | rounds := rounds
  · omega
  rw [array,if_neg (fun hne => hne hp)]
  rw [cons_append,append_assoc] at h
  apply (advance_at ht h).bind
  intro ctx1 h1
  apply (whitespace_at ht (hs t) hw h1).bind
  intro ctx2 h2
  exact hr ht (by omega) h2

theorem reads_array_nil (hw : Spaces w) : Reads (openBracket::(w++[closeBracket])) (.array []) := by
  refine .of_items hw (fun _ => rfl) ?_
  intro total t ctx rounds ht _ h
  have hp : peek ctx=closeBracket := by simp [h.peek]
  rw [if_pos hp]
  apply (advance_at ht h).bind
  intro ctx' h'
  exact .ok ⟨⟨_,rfl,same_array .nil⟩,h'⟩

theorem reads_array (hl : Listed closeBracket texts r) (hr : List.Forall₂ Reads texts vs) :
    Reads (openBracket::r) (.array vs) := by
  have hst := starts_of_forall₂ (fun _ _ => Reads.starts) hr
  obtain ⟨w,r',rfl,hw,hf,hl'⟩ := hl.strip hst
  refine .of_items hw hf.solid ?_
  intro total t ctx rounds ht hrn h
  have hne : peek ctx≠closeBracket := by
    obtain ⟨ch,rest,rfl,-,hch,-⟩ := hf
    simpa [h.peek] using hch
  rw [if_neg hne]
  apply (arrayLoop_at ht hl' hr rounds ctx [] hrn h).mono
  rintro res ⟨⟨vs',hre,hs⟩,hat⟩
  exact ⟨⟨_,hre,same_array hs⟩,hat⟩

theorem keyOps_comp (a b : StringKey) : keyOps.comp a b=true ↔ a=b :=
  Kernel.Hashmap.comp_iff .string a b

theorem objectGet_refines (h : Refines keyOps o m) (values : List α) (key : StringKey) :
    objectGet o values key =
      match (m key).getD 0 with
      | 0 => none
      | pointer+1 => values[pointer]? := by
  have hg := Kernel.Hashmap.hashmapGet_refines keyOps_comp h key
  exact congrArg (fun pointer => match pointer with
    | 0 => none
    | pointer+1 => values[pointer]?) hg

/-- An object with exactly the given keys and values. -/
structure Built (done : List (StringKey × Value)) (o : Map StringKey) (values : List Value) :
    Prop where
  map : ∃ m, Refines keyOps o m ∧
    ∀ key pointer, m key=some pointer → 0<pointer ∧ pointer≤values.length
  get : ∀ key v, objectGet o values key=some v ↔ (key, v)∈done

private theorem built_nil : Built [] (hashmapCreate StringKey 10 (by decide)) [] where
  map := ⟨fun _ => none,Kernel.Hashmap.refines_hashmapCreate (by decide),nofun⟩
  get key v := by
    rw [objectGet_refines (Kernel.Hashmap.refines_hashmapCreate (by decide))]
    simp

private theorem Built.set (h : Built done o values) (hke : key∉done.map fst) :
    Built (done++[(key, v)]) (hashmapSet keyOps key (values++[v]).length o).2
      (values++[v]) := by
  obtain ⟨m,hr,hp⟩ := h.map
  have hs := (Kernel.Hashmap.hashmapSet_refines keyOps_comp hr key (values++[v]).length).2
  refine ⟨⟨_,hs,fun k pointer hk => ?_⟩,fun k u => ?_⟩
  · by_cases heq : k=key
    · subst heq
      rw [Function.update_self,Option.some.injEq] at hk
      subst hk
      simp
    · rw [Function.update_of_ne heq] at hk
      have hk := hp k pointer hk
      rw [length_append]
      omega
  · rw [objectGet_refines hs,mem_append]
    by_cases heq : k=key
    · subst heq
      have hn : (k, u)∉done := fun hmem => hke (mem_map.2 ⟨_,hmem,rfl⟩)
      simp [hn,eq_comm]
    rw [Function.update_of_ne heq,← h.get,objectGet_refines hr]
    cases hk : m k with
    | none => simp [heq]
    | some pointer =>
      obtain ⟨hpos,hle⟩ := hp k pointer hk
      obtain _ | pointer := pointer
      · omega
      have hlt : pointer<values.length := hle
      simp [heq,getElem?_append_left hlt]

def PairReads (text : CString) (pair : StringKey × Value) : Prop :=
  ∃ w a, Spaces w ∧ text=jsonSerializeString pair.1++(colon::(w++a)) ∧ Reads a pair.2 ∧
    pair.1.1.length<2^30

theorem PairReads.starts (h : PairReads text pair) : Starts text := by
  obtain ⟨w,a,-,rfl,-⟩ := h
  exact ⟨quote,_,rfl,by decide,by decide,by decide⟩

private theorem objectLoop_item (ht : total<2^31) (hp : PairReads text (key, v)) (hw : Spaces w)
    (hw' : Spaces w') (hch : isWhite ch=false) (rounds : Nat) (hrn : 2*text.length ≤ rounds)
    (h : At total (w++(text++(w' ++ ch::r))) ctx) :
    ∃ v' ctx', Same v v' ∧ At total (ch::r) ctx' ∧ objectLoop (rounds+1) ctx o values =
        if ch=closeBrace then
          advance ctx' >>= fun ctx => pure (some (.object
            (hashmapSet keyOps key (values++[v']).length o).2 (values++[v'])), ctx)
        else if ch≠comma then pure (none, ctx'.fail "Expected , or \x7b")
        else advance ctx' >>= fun ctx => objectLoop rounds ctx
          (hashmapSet keyOps key (values++[v']).length o).2 (values++[v']) := by
  obtain ⟨ctx1,hsp,h1⟩ := (whitespace_at ht (hp.starts.solid _) hw h).exists_ok
  obtain ⟨w1,a,hw1,rfl,hr,hk⟩ := hp
  simp only [append_assoc,cons_append] at h1
  obtain ⟨⟨s,ctx2⟩,hst,hs,h2⟩ := (string_at ht hk h1).exists_ok
  have hso : Solid (colon::(w1++(a++(w' ++ ch::r)))) := rfl
  obtain ⟨ctx3,hsp3,h3⟩ := (whitespace_at ht hso spaces_nil h2).exists_ok
  have hc : peek ctx3=colon := by simp [h3.peek]
  obtain ⟨ctx4,ha,h4⟩ := (advance_at ht h3).exists_ok
  have hlen : 2*a.length ≤ rounds := by
    simp only [length_append,length_cons] at hrn
    omega
  obtain ⟨⟨out,ctx5⟩,hv,⟨v',ho,hsa⟩,h5⟩ := (hr.reads ht hw1 hw' (t := ch::r) hch hlen h4).exists_ok
  have hpe : peek ctx5=ch := by simp [h5.peek]
  refine ⟨v',ctx5,hsa,h5,?_⟩
  simp only at hs ho
  rw [objectLoop]
  simp [hsp,h1.strict,hst,hs,hsp3,hc,ha,hv,ho,hpe]

abbrev SamePairs : List (StringKey × Value) → List (StringKey × Value) → Prop :=
  List.Forall₂ fun p p' => p.1=p'.1 ∧ Same p.2 p'.2

private theorem objectLoop_at (ht : total<2^31) (hli : Listed closeBrace texts r) :
    ∀ {pairs : List (StringKey × Value)}, List.Forall₂ PairReads texts pairs →
      ∀ rounds ctx o values done, Built done o values →
        (done.map fst++pairs.map fst).Nodup → 2*r.length ≤ rounds →
        At total (r++t) ctx →
        Gives (fun res => (∃ o' values' pairs', res.1=some (.object o' values') ∧
          Built (done++pairs') o' values' ∧ SamePairs pairs pairs') ∧ At total t res.2)
          (objectLoop rounds ctx o values) := by
  induction hli with
  | @last w w' a hw hw' =>
    intro pairs hr rounds ctx o values done hb hnd hrn h
    obtain ⟨⟨key,v⟩,_,hre,hn,rfl⟩ := forall₂_cons_left_iff.1 hr
    cases hn
    simp only [length_append,length_singleton] at hrn
    simp only [append_assoc] at h
    obtain _ | rounds := rounds
    · omega
    obtain ⟨v',ctx',hs,h',hl⟩ := objectLoop_item ht hre hw hw' (by decide) rounds (by omega) h
    have hk : key∉done.map fst := fun hmem =>
      disjoint_of_nodup_append hnd hmem mem_cons_self
    rw [hl]
    apply (advance_at ht h').bind
    intro ctx2 h2
    exact .ok ⟨⟨_,_,[(key, v')],rfl,hb.set hk,.cons ⟨rfl,hs⟩ .nil⟩,h2⟩
  | @cons w w' a r texts hw hw' hli ih =>
    intro pairs hr rounds ctx o values done hb hnd hrn h
    cases hr with
    | @cons _ pair _ pairs hre hr =>
      obtain ⟨key,v⟩ := pair
      simp only [length_append,length_cons] at hrn
      simp only [append_assoc] at h
      obtain _ | rounds := rounds
      · omega
      obtain ⟨v',ctx',hs,h',hl⟩ := objectLoop_item ht hre hw hw' (by decide) rounds (by omega) h
      have hk : key∉done.map fst := fun hmem =>
        disjoint_of_nodup_append hnd hmem mem_cons_self
      have hnd' : ((done++[(key, v')]).map fst++pairs.map fst).Nodup := by
        simpa using hnd
      rw [hl]
      apply (advance_at ht h').bind
      intro ctx2 h2
      apply (ih hr rounds ctx2 _ _ _ (hb.set hk) hnd' (by omega) h2).mono
      rintro res ⟨⟨o',values',pairs',hres,hb',hsa⟩,hat⟩
      rw [append_assoc] at hb'
      exact ⟨⟨o',values',(key, v')::pairs',hres,hb',.cons ⟨rfl,hs⟩ hsa⟩,hat⟩

theorem SamePairs.mem (h : SamePairs pairs pairs') :
    (∃ v, (key, v)∈pairs) ↔ ∃ v', (key, v')∈pairs' := by
  induction h with
  | nil => simp
  | @cons p p' pairs pairs' hp _ ih =>
    obtain ⟨k,v⟩ := p
    obtain ⟨k',v'⟩ := p'
    obtain rfl : k=k' := hp.1
    simp only [mem_cons,exists_or,ih]
    simp

private theorem SamePairs.same (h : SamePairs pairs pairs') (hnd : (pairs.map fst).Nodup)
    (hv : (key, v)∈pairs) (hv' : (key, v')∈pairs') : Same v v' := by
  induction h with
  | nil => cases hv
  | @cons p p' pairs pairs' hp ht ih =>
    obtain ⟨hn,hnd⟩ := nodup_cons.1 hnd
    rcases mem_cons.1 hv with rfl | hv
    · rcases mem_cons.1 hv' with rfl | hv'
      · exact hp.2
      · obtain ⟨u,hu⟩ := (SamePairs.mem ht).2 ⟨v',hv'⟩
        exact absurd (mem_map.2 ⟨_,hu,rfl⟩) hn
    · rcases mem_cons.1 hv' with rfl | hv'
      · have hf := hp.1
        exact absurd (mem_map.2 ⟨_,hv,hf.symm⟩) hn
      · exact ih hnd hv hv'

private theorem same_object (hg : ∀ key v, objectGet o values key=some v ↔ (key, v)∈pairs)
    (hnd : (pairs.map fst).Nodup) (hb : Built pairs' o' values') (hs : SamePairs pairs pairs') :
    Same (.object o values) (.object o' values') := by
  refine .object (fun key => ?_) fun key v v' hv hv' => ?_
  · rw [Bool.eq_iff_iff,Option.isSome_iff_exists,Option.isSome_iff_exists]
    simp only [hg,hb.get]
    exact hs.mem
  · exact hs.same hnd ((hg key v).1 hv) ((hb.get key v').1 hv')

theorem reads_object (hl : (Spaces r ∧ pairs=[]) ∨ ∃ texts,
      Listed closeBrace texts (r++[closeBrace]) ∧ List.Forall₂ PairReads texts pairs)
    (hg : ∀ key v, objectGet o values key=some v ↔ (key, v)∈pairs)
    (hnd : (pairs.map fst).Nodup) :
    Reads (openBrace::(r++[closeBrace])) (.object o values) := by
  refine .of_branch ?_
  intro total t ctx rounds ht hrn h hp
  refine ⟨object rounds ctx,fun ctx0 hsp => ?_,?_⟩
  · simp [value,hsp,hp,quote,openBrace]
  simp only [length_cons,length_append] at hrn
  obtain _ | rounds := rounds
  · omega
  rw [object,if_neg (fun hne => hne hp)]
  rw [cons_append] at h
  apply (advance_at ht h).bind
  intro ctx1 h1
  rcases hl with ⟨hspa,rfl⟩ | ⟨texts,hl,hre⟩
  · rw [append_assoc] at h1
    have hso : Solid ([closeBrace]++t) := rfl
    apply (whitespace_at ht hso hspa h1).bind
    intro ctx2 h2
    have hp2 : peek ctx2=closeBrace := by simp [h2.peek]
    rw [if_pos hp2]
    apply (advance_at ht h2).bind
    intro ctx3 h3
    exact .ok ⟨⟨_,rfl,same_object hg hnd built_nil .nil⟩,h3⟩
  · have hst := starts_of_forall₂ (fun _ _ => PairReads.starts) hre
    obtain ⟨w,r',hr',hw,hf,hl'⟩ := hl.strip hst
    have hlen := congrArg length hr'
    simp only [length_append,length_singleton] at hlen
    rw [hr',append_assoc] at h1
    apply (whitespace_at ht (hf.solid t) hw h1).bind
    intro ctx2 h2
    have hne : peek ctx2≠closeBrace := by
      obtain ⟨ch,rest,rfl,-,-,hch⟩ := hf
      simpa [h2.peek] using hch
    rw [if_neg hne]
    apply (objectLoop_at ht hl' hre rounds ctx2 _ _ [] built_nil
      (by simpa using hnd) (by omega) h2).mono
    rintro res ⟨⟨o',values',pairs',hres,hb,hs⟩,hat⟩
    exact ⟨⟨_,hres,same_object hg hnd hb hs⟩,hat⟩
end RazionOS.Lib.Json
