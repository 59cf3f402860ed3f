import RazionOS.Lib.JsonRead

/-! # Reading what was written -/

namespace RazionOS.Lib.Json
open Framework List
open Kernel.Hashmap (StringKey Map hashmapGet hashmapKeys Refines)

theorem indentation_spaces (indent : Nat) : Spaces (indentation indent) := by
  intro c hc
  rw [eq_of_mem_replicate hc]
  rfl

theorem spaces_newline : Spaces [newline] := by
  intro c hc
  rw [mem_singleton.1 hc]
  rfl

private theorem arrayItems_listed (h : List.Forall₂ (fun p a => p (indent+1) = .ok a) ps texts)
    (hne : ps≠[]) :
    ∃ r, arrayItems indent ps = .ok r ∧
      Listed closeBracket texts (r++(indentation indent++[closeBracket])) := by
  induction h with
  | nil => exact absurd rfl hne
  | @cons p a ps texts hp hps ih =>
    cases hps with
    | nil =>
      refine ⟨indentation (indent+1)++a,?_,?_⟩
      · simp [arrayItems,hp]
      · rw [append_assoc]
        exact .last (indentation_spaces _) (indentation_spaces _)
    | @cons p1 a1 ps1 texts1 hp1 hps1 =>
      obtain ⟨r,hi,hl⟩ := ih (by simp)
      refine ⟨indentation (indent+1)++(a++comma::([newline]++r)),?_,?_⟩
      · rw [arrayItems,hp,hi]
        simp
      · have hr := hl.space spaces_newline
        have hc := Listed.cons (a := a) (indentation_spaces (indent+1)) spaces_nil hr
        simpa using hc

def pairText (key : StringKey) (a : CString) : CString :=
  jsonSerializeString key++(colon::([32]++a))

private theorem objectItems_listed {keys : List StringKey}
    (h : List.Forall₂ (fun key text => ∃ p a, objectGet o ps key=some p ∧
      p (indent+1) = .ok a ∧ text=pairText key a) keys texts) (hne : keys≠[]) :
    ∀ printed, ∃ r, objectItems indent o ps printed keys =
        .ok ((if printed then [comma, newline] else [])++r) ∧
      Listed closeBrace texts (r++(indentation indent++[closeBrace])) := by
  induction h with
  | nil => exact absurd rfl hne
  | @cons key text keys texts hke hk ih =>
    intro printed
    obtain ⟨p,a,hg,hp,rfl⟩ := hke
    cases hk with
    | nil =>
      refine ⟨indentation (indent+1)++(pairText key a++[newline]),?_,?_⟩
      · simp [objectItems,hg,hp,pairText]
      have hl : Listed closeBrace [pairText key a] (indentation (indent+1) ++
          (pairText key a++(([newline]++indentation indent)++[closeBrace]))) :=
        .last (indentation_spaces _) (spaces_newline.append (indentation_spaces indent))
      simpa using hl
    | @cons key1 text1 keys1 texts1 hke1 hk1 =>
      obtain ⟨r,hi,hli⟩ := ih (by simp) true
      refine ⟨indentation (indent+1)++(pairText key a++comma::([newline]++r)),?_,?_⟩
      · rw [objectItems,hg]
        simp only [hp,hi]
        simp [pairText]
      · have hr := hli.space spaces_newline
        have hc := Listed.cons (a := pairText key a) (indentation_spaces (indent+1)) spaces_nil hr
        simpa using hc

theorem printers_eq : printers printDouble values=values.map (jsonSerialize printDouble) := by
  induction values with
  | nil => rfl
  | cons v values ih => rw [printers,ih,map_cons]

private theorem objectGet_map : objectGet o (values.map f) key=(objectGet o values key).map f := by
  rw [objectGet,objectGet]
  cases hashmapGet keyOps key o with
  | zero => rfl
  | succ pointer => exact getElem?_map

theorem exists_choices {α β : Type} {Q : α → β → Prop} {l : List α} (h : ∀ x∈l, ∃ y, Q x y) :
    ∃ xs : List (α × β), xs.map Prod.fst=l ∧ ∀ x∈xs, Q x.1 x.2 := by
  induction l with
  | nil => exact ⟨[],rfl,nofun⟩
  | cons a l ih =>
    obtain ⟨y,hy⟩ := h a mem_cons_self
    obtain ⟨xs,rfl,hxs⟩ := ih fun x hx => h x (mem_cons_of_mem a hx)
    refine ⟨(a, y)::xs,rfl,fun x hx => ?_⟩
    rcases mem_cons.1 hx with rfl | hx
    · exact hy
    · exact hxs x hx

abbrev Short (s : StringKey) : Prop := s.1.length<2^30

/-- What is printed for a value is read as one that is equal to it. -/
def Prints (printDouble : Float → CString) (v : Value) : Prop :=
  ∀ indent, ∃ text, jsonSerialize printDouble v indent = .ok text ∧ Reads text v

private theorem prints_array (h : ∀ v∈items, Prints printDouble v) :
    Prints printDouble (.array items) := by
  intro indent
  rw [jsonSerialize,printers_eq]
  match items with
  | [] => exact ⟨_,rfl,reads_array_nil spaces_nil⟩
  | [v] =>
    obtain ⟨a,hp,hr⟩ := h v mem_cons_self indent
    have hl : Listed closeBracket [a] ([]++(a++([]++[closeBracket]))) := .last spaces_nil spaces_nil
    refine ⟨openBracket::(a++[closeBracket]),?_,reads_array hl (.cons hr .nil)⟩
    simp [jsonSerializeArray,hp]
  | v1::v2::rest =>
    obtain ⟨xs,hi,hxs⟩ := exists_choices fun v hv => h v hv _
    rw [← hi]
    have hpr : List.Forall₂ (fun p a => p (indent+1) = .ok a)
        ((xs.map Prod.fst).map (jsonSerialize printDouble)) (xs.map Prod.snd) := by
      rw [map_map,forall₂_map_left_iff,forall₂_map_right_iff,forall₂_same]
      exact fun x hx => (hxs x hx).1
    have hre : List.Forall₂ Reads (xs.map Prod.snd) (xs.map Prod.fst) := by
      rw [forall₂_map_left_iff,forall₂_map_right_iff,forall₂_same]
      exact fun x hx => (hxs x hx).2
    obtain ⟨r,hlo,hl⟩ := arrayItems_listed hpr (by rw [hi]; simp)
    refine ⟨openBracket::([newline]++(r++(indentation indent++[closeBracket]))),?_,
      reads_array (hl.space spaces_newline) hre⟩
    rw [hi] at hlo ⊢
    simp only [map_cons] at hlo
    rw [jsonSerializeArray]
    · simp [hlo]
    · simp
    · simp

section
variable (hmap : Refines keyOps o m)
include hmap

private theorem exists_printed
    (hpt : ∀ key pointer, m key=some pointer → 0<pointer ∧ pointer≤values.length)
    (h : ∀ v∈values, Prints printDouble v) (key : StringKey)
    (hk : key∈hashmapKeys o) : ∃ y : Value × CString, objectGet o values key=some y.1 ∧
      jsonSerialize printDouble y.1 (indent+1) = .ok y.2 ∧ Reads y.2 y.1 := by
  obtain ⟨pointer,hm⟩ := Option.isSome_iff_exists.1 ((Kernel.Hashmap.mem_hashmapKeys hmap key).1 hk)
  obtain ⟨hpos,hle⟩ := hpt key pointer hm
  obtain ⟨i,rfl⟩ : ∃ i, pointer=i+1 := ⟨pointer-1,by omega⟩
  have hlt : i<values.length := hle
  obtain ⟨a,hp,hr⟩ := h values[i] (getElem_mem hlt) _
  refine ⟨(values[i], a),?_,hp,hr⟩
  rw [objectGet_refines hmap,hm]
  exact getElem?_eq_getElem hlt

private theorem objectGet_iff_mem {xs : List (StringKey × Value × CString)}
    (hf : xs.map Prod.fst=hashmapKeys o) (hxs : ∀ x∈xs, objectGet o values x.1=some x.2.1)
    (key : StringKey) (v : Value) :
    objectGet o values key=some v ↔ (key, v)∈xs.map fun x => (x.1, x.2.1) := by
  rw [mem_map]
  constructor
  · intro hv
    have hk : key∈hashmapKeys o := by
      rw [Kernel.Hashmap.mem_hashmapKeys hmap]
      cases hm : m key with
      | none => simp [objectGet_refines hmap,hm] at hv
      | some pointer => rfl
    rw [← hf,mem_map] at hk
    obtain ⟨x,hx,rfl⟩ := hk
    have heq := (hxs x hx).symm.trans hv
    exact ⟨x,hx,by rw [Option.some.inj heq]⟩
  · rintro ⟨x,hx,heq⟩
    cases heq
    exact hxs x hx

private theorem prints_object
    (hpt : ∀ key pointer, m key=some pointer → 0<pointer ∧ pointer≤values.length)
    (hk : ∀ key∈hashmapKeys o, Short key) (h : ∀ v∈values, Prints printDouble v) :
    Prints printDouble (.object o values) := by
  intro indent
  obtain ⟨xs,hf,hxs⟩ := exists_choices (exists_printed hmap hpt h)
  have hg := objectGet_iff_mem hmap hf fun x hx => (hxs x hx).1
  have hnd : ((xs.map fun x => (x.1, x.2.1)).map Prod.fst).Nodup := by
    rw [map_map]
    have hnd := Kernel.Hashmap.nodup_hashmapKeys hmap
    rw [← hf] at hnd
    exact hnd
  have hp : List.Forall₂ PairReads (xs.map fun x => pairText x.1 x.2.2)
      (xs.map fun x => (x.1, x.2.1)) := by
    rw [forall₂_map_left_iff,forall₂_map_right_iff,forall₂_same]
    intro x hx
    have hke := hf ▸ mem_map.2 ⟨x,hx,rfl⟩
    have hs : Spaces [32] := fun c hc => by rw [mem_singleton.1 hc]; rfl
    exact ⟨[32],x.2.2,hs,rfl,(hxs x hx).2.2,hk x.1 hke⟩
  rw [jsonSerialize,printers_eq]
  by_cases hn : hashmapKeys o=[]
  · have he : xs=[] := by simpa [hn] using hf
    subst he
    have hsp := spaces_newline.append (indentation_spaces indent)
    have hr := reads_object (.inl ⟨hsp,rfl⟩) hg hnd
    refine ⟨_,?_,hr⟩
    simp [jsonSerializeObject,hn,objectItems]
  have hpr : List.Forall₂ (fun key text => ∃ p a,
      objectGet o (values.map (jsonSerialize printDouble)) key=some p ∧
        p (indent+1) = .ok a ∧ text=pairText key a)
      (hashmapKeys o) (xs.map fun x => pairText x.1 x.2.2) := by
    rw [← hf,forall₂_map_left_iff,forall₂_map_right_iff,forall₂_same]
    intro x hx
    obtain ⟨hx1,hx2,-⟩ := hxs x hx
    exact ⟨_,x.2.2,by rw [objectGet_map,hx1]; rfl,hx2,rfl⟩
  obtain ⟨r,hlo,hl⟩ := objectItems_listed hpr hn false
  have hl' := hl.space spaces_newline
  simp only [← append_assoc] at hl'
  have hr := reads_object (.inr ⟨_,hl',hp⟩) hg hnd
  refine ⟨_,?_,hr⟩
  simp [jsonSerializeObject,hlo]

end

private theorem Tree.prints (h : Tree Short v) : Prints printDouble v := by
  induction h with
  | null => exact fun _ => ⟨_,rfl,reads_null⟩
  | bool b => exact fun _ => ⟨_,rfl,reads_bool b⟩
  | string hs => exact fun _ => ⟨_,rfl,reads_string hs⟩
  | array _ ih => exact prints_array ih
  | object hmap hp hk _ ih => exact prints_object hmap hp hk ih

/-- For every value without numbers whose strings and keys are shorter than `2 ^ 30` bytes, a text
shorter than `2 ^ 31` bytes is parsed to an equal value. -/
theorem json_round_trip (printDouble : Float → CString) (v : Value) (h : Tree Short v)
    (indent : Nat) : ∃ text, jsonSerialize printDouble v indent = .ok text ∧
      (text.length < 2^31 → ∃ v', jsonParse text = .ok (some v', none) ∧ Same v v') := by
  obtain ⟨text,hp,hr⟩ := h.prints indent
  refine ⟨text,hp,fun ht => ?_⟩
  have hat : At text.length ([]++(text++([]++[]))) ⟨text,0,none,false,0,0⟩ := ⟨by simp,by simp,rfl⟩
  obtain ⟨⟨out,ctx⟩,hv,⟨v',ho,hs⟩,-⟩ :=
    (hr.reads ht spaces_nil spaces_nil (t := []) rfl (Nat.le_succ _) hat).exists_ok
  subst ho
  refine ⟨v',?_,hs⟩
  change (value (2*text.length+1) ⟨text,0,none,false,0,0⟩ >>= _)=_
  rw [hv]
  rfl

/-- A list with a string that needs escapes. -/
theorem json_round_trip_escapes :
    ∃ text, jsonSerialize (fun _ => []) (.array [.string ⟨[97, 34, 10],by decide⟩, .bool true]) 0 =
        .ok text ∧
      ∃ v', jsonParse text = .ok (some v', none) ∧
        Same (.array [.string ⟨[97, 34, 10],by decide⟩, .bool true]) v' := by
  have ht : Tree Short (.array [.string ⟨[97, 34, 10],by decide⟩, .bool true]) := by
    apply Tree.array
    intro v hv
    simp only [mem_cons,not_mem_nil,or_false] at hv
    rcases hv with rfl | rfl
    · exact .string (by decide)
    · exact .bool true
  obtain ⟨text,hp,hpa⟩ := json_round_trip (fun _ => []) _ ht 0
  refine ⟨text,hp,hpa ?_⟩
  cases hp
  decide

/-- The buffer cannot be doubled any more. -/
theorem Buffer.add_overflow {buf : Buffer} (hf : buf.Fits) (hfu : buf.tmp.length+1=2^30) :
    buf.add c = .error .intOverflow := by
  obtain ⟨k,-,hm,hs,hlt⟩ := hf
  have hk : k=30 := by
    by_contra hne
    have hle : 2^k≤2^29 := Nat.pow_le_pow_right (by decide) (by omega)
    omega
  subst hk
  rw [Buffer.add,if_pos (hfu.trans hs.symm),if_pos (by omega)]

private theorem string_overflow (ht : total<2^31) (hs : 2^30 ≤ s.1.length)
    (h : At total (jsonSerializeString s++t) ctx) : string ctx = .error .intOverflow := by
  obtain ⟨s,hn⟩ := s
  obtain ⟨s1,c,s2,rfl,hlen⟩ : ∃ s1 c s2, s=s1++c::s2 ∧ s1.length+1=2^30 := by
    have hlt : 2^30-1 < s.length := by
      simp only at hs
      omega
    refine ⟨s.take (2^30-1),s[2^30-1],s.drop (2^30-1+1),?_,?_⟩
    · rw [← drop_eq_getElem_cons,take_append_drop]
    · rw [length_take]
      omega
  rw [mem_append,not_or,mem_cons,not_or] at hn
  have h' : At total (quote::(s1.flatMap escapeByte ++
      (escapeByte c++(s2.flatMap escapeByte++([quote]++t))))) ctx := by
    simpa [jsonSerializeString] using h
  obtain ⟨rounds,ctx1,buf,hl,h1,hf,rfl⟩ :=
    string_bytes ht hn.1 (by omega) (by simp only [length_append,length_singleton]; omega) h'
  obtain ⟨ctx2,-,hst⟩ := stringLoop_byte ht (fun heq => hn.2.1 heq.symm) h1 buf rounds
  rw [hl,hst,Buffer.add_overflow hf hlen]
  rfl

private theorem jsonParse_overflow (hs : 2^30 ≤ s.1.length)
    (ht : (jsonSerializeString s).length<2^31) :
    jsonParse (jsonSerializeString s) = .error .intOverflow := by
  have hat : At (jsonSerializeString s).length ([]++(jsonSerializeString s++[]))
      ⟨jsonSerializeString s,0,none,false,0,0⟩ := ⟨by simp,by simp,rfl⟩
  have hso : Solid (jsonSerializeString s++[]) := rfl
  obtain ⟨ctx,hsp,h⟩ := (whitespace_at ht hso spaces_nil hat).exists_ok
  have hp : peek ctx=quote := by simp [h.peek,jsonSerializeString]
  have hst := string_overflow ht hs h
  change (value (2 * (jsonSerializeString s).length + 1) _ >>= _)=_
  rw [value]
  simp only [Nat.zero_and,ne_eq,not_true_eq_false,decide_false]
  rw [hsp]
  simp [hp,white,hst]

private theorem escaped_replicate :
    (replicate n (97 : UInt8)).flatMap escapeByte=replicate n 97 := by
  induction n with
  | zero => rfl
  | succ n ih =>
    rw [replicate_succ,flatMap_cons,ih]
    rfl

def letters (n : Nat) : StringKey :=
  ⟨replicate n 97,fun h => absurd (eq_of_mem_replicate h) (by decide)⟩

/-- A string of `2 ^ 30` bytes is written, and the `int` for the size overflows when it is read. -/
theorem json_longString_overflow : Tree (fun _ => True) (.string (letters (2^30))) ∧
      jsonSerialize (fun _ => []) (.string (letters (2^30))) 0 =
        .ok (jsonSerializeString (letters (2^30))) ∧
      jsonParse (jsonSerializeString (letters (2^30))) = .error .intOverflow := by
  have hlen : ∀ n, (letters n).1.length=n := fun n => length_replicate
  have ht : ∀ n, (jsonSerializeString (letters n)).length=n+2 := by
    intro n
    rw [jsonSerializeString,letters,escaped_replicate,length_cons,length_append,length_replicate,
      length_singleton]
  refine ⟨.string trivial,by rw [jsonSerialize],jsonParse_overflow ?_ ?_⟩
  · rw [hlen]
  · rw [ht]
    decide
end RazionOS.Lib.Json
