import Mathlib.Data.List.Induction
import RazionOS.Framework.CString

/-!
# Paths

How the virtual file system takes a path apart: `canonicalize_path` puts it together again from
the names between the slashes, `fs_basename` scans for the last name from the end.
-/

namespace RazionOS.Kernel.Vfs
open Framework List

def pathSeparator : UInt8 := 47
def pathUp : CString := [46, 46]
def pathDot : CString := [46]

/-- `strtok_r` with the separator: the next token, and where the search goes on. -/
def strtokR (str : CString) : Option (CString × CString) :=
  let str := str.dropWhile (· == pathSeparator)
  if str=[] then none
  else some (str.takeWhile (· != pathSeparator), (str.dropWhile (· != pathSeparator)).drop 1)

def tokenLoop : Nat → CString → List CString
  | 0, _ => []
  | rounds+1, str =>
    match strtokR str with
    | none => []
    | some (pch, save) => pch::tokenLoop rounds save

def tokens (str : CString) : List CString := tokenLoop str.length str

def push (out : List CString) (pch : CString) : List CString :=
  if pch=pathUp then out.dropLast else if pch=pathDot then out else out++[pch]

def names (cwd input : CString) : List CString :=
  let out := if input≠[] ∧ input.head? ≠ some pathSeparator then tokens cwd else []
  (tokens input).foldl push out

def render (out : List CString) : CString :=
  if out=[] then [pathSeparator] else out.flatMap (pathSeparator :: ·)

def canonicalizePath (cwd input : CString) : CString := render (names cwd input)
def parentPath (path : CString) : CString := path++pathSeparator::pathUp

/-- The first loop of `fs_basename`, with what is before the pointer, the nearest byte first. -/
def skipTrailing : CString → CString → CString × CString
  | l::left, c::right =>
    if c=pathSeparator then skipTrailing left (l::c::right) else (l::left, c::right)
  | left, right => (left, right)

def scanBack : CString → CString → CString
  | l::left, c::right => if c=pathSeparator then right else scanBack left (l::c::right)
  | _, right => right

/-- For the empty path the pointer starts at the byte before it. -/
def fsBasename (before : UInt8) (path : CString) : CString :=
  let (left, right) := match path.reverse with
    | [] => ([], [before].takeWhile (· != 0))
    | last::left => skipTrailing left [last]
  (scanBack left right).dropWhile (· == pathSeparator)

def Slashes (z : CString) : Prop := ∀ c∈z, c=pathSeparator

structure IsName (w : CString) : Prop where
  ne_nil : w≠[]
  noSeparator : pathSeparator∉w

theorem Slashes.dropWhile (hz : Slashes z) (s : CString) :
    (z++s).dropWhile (· == pathSeparator)=s.dropWhile (· == pathSeparator) := by
  induction z with
  | nil => rfl
  | cons c z ih =>
    have hc := hz c mem_cons_self
    rw [cons_append,dropWhile_cons_of_pos (by simpa using hc)]
    exact ih fun d hd => hz d (mem_cons_of_mem c hd)

theorem IsName.dropWhile (hw : IsName w) (s : CString) :
    (w++s).dropWhile (· == pathSeparator)=w++s := by
  cases w with
  | nil => exact absurd rfl hw.ne_nil
  | cons c w =>
    have hc : c≠pathSeparator := fun heq => hw.noSeparator (heq ▸ mem_cons_self)
    rw [cons_append,dropWhile_cons_of_neg (by simpa using hc)]

private theorem strtokR_slashes (hz : Slashes z) : strtokR z=none := by
  have hd := hz.dropWhile []
  rw [append_nil] at hd
  rw [strtokR,hd]
  rfl

theorem IsName.bne (hw : IsName w) (c : UInt8) (hc : c∈w) : (c != pathSeparator)=true := by
  simpa using fun heq : c=pathSeparator => hw.noSeparator (heq ▸ hc)

theorem strtokR_last (hz : Slashes z) (hw : IsName w) : strtokR (z++w)=some (w, []) := by
  have hn := hw.dropWhile []
  rw [append_nil] at hn
  rw [strtokR,hz.dropWhile,hn]
  simp [hw.ne_nil,takeWhile_eq_self_iff.2 hw.bne,dropWhile_eq_nil_iff.2 hw.bne]

theorem strtokR_next (hz : Slashes z) (hw : IsName w) :
    strtokR (z++(w++pathSeparator::r))=some (w, r) := by
  rw [strtokR,hz.dropWhile,hw.dropWhile]
  simp [takeWhile_append_of_pos hw.bne,dropWhile_append_of_pos hw.bne]

theorem slash_cases (s : CString) : Slashes s ∨ (∃ z w, Slashes z ∧ IsName w ∧ s=z++w) ∨
      ∃ z w r, Slashes z ∧ IsName w ∧ s=z++(w++pathSeparator::r) := by
  induction s with
  | nil => exact .inl nofun
  | cons c s ih =>
    by_cases hc : c=pathSeparator
    · have hco : ∀ z, Slashes z → Slashes (c::z) := fun z hz d hd =>
        (mem_cons.1 hd).elim (fun heq => heq.trans hc) (hz d)
      rcases ih with hs | ⟨z,w,hz,hw,rfl⟩ | ⟨z,w,r,hz,hw,rfl⟩
      · exact .inl (hco s hs)
      · exact .inr (.inl ⟨c::z,w,hco z hz,hw,rfl⟩)
      · exact .inr (.inr ⟨c::z,w,r,hco z hz,hw,rfl⟩)
    · have hn : ∀ w, pathSeparator∉w → IsName (c::w) := fun w hw =>
        ⟨cons_ne_nil c w,not_mem_cons_of_ne_of_not_mem (Ne.symm hc) hw⟩
      -- the name goes on up to the first separator of what follows
      by_cases hse : pathSeparator∈s
      · obtain ⟨w,r,rfl,hw⟩ := eq_append_cons_of_mem hse
        exact .inr (.inr ⟨[],c::w,r,nofun,hn w hw,rfl⟩)
      · exact .inr (.inl ⟨[],c::s,nofun,hn s hse,rfl⟩)

@[elab_as_elim]
theorem slash_induction {motive : CString → Prop} (slashes : ∀ z, Slashes z → motive z)
    (last : ∀ z w, Slashes z → IsName w → motive (z++w))
    (next : ∀ z w r, Slashes z → IsName w → motive r → motive (z++(w++pathSeparator::r)))
    (s : CString) : motive s := by
  induction hlen : s.length using Nat.strong_induction_on generalizing s with
  | _ length ih =>
    subst hlen
    rcases slash_cases s with hs | ⟨z,w,hz,hw,rfl⟩ | ⟨z,w,r,hz,hw,rfl⟩
    · exact slashes s hs
    · exact last z w hz hw
    refine next z w r hz hw (ih r.length ?_ r rfl)
    simp only [length_append,length_cons]
    omega

theorem tokenLoop_slashes (hz : Slashes z) : tokenLoop rounds z=[] := by
  cases rounds with
  | zero => rfl
  | succ rounds => rw [tokenLoop,strtokR_slashes hz]

theorem tokenLoop_stable {n : Nat} (hn : s.length≤n) : tokenLoop n s=tokens s := by
  suffices h : ∀ n k, s.length≤n → s.length≤k → tokenLoop n s=tokenLoop k s from
    h n s.length hn le_rfl
  clear hn
  induction s using slash_induction with
  | slashes z hz =>
    intro n k _ _
    rw [tokenLoop_slashes hz,tokenLoop_slashes hz]
  | last z w hz hw =>
    intro n k hn hk
    have hpos := length_pos_iff.2 hw.ne_nil
    rw [length_append] at hn hk
    obtain _ | n := n
    · omega
    obtain _ | k := k
    · omega
    rw [tokenLoop,tokenLoop,strtokR_last hz hw]
    simp [tokenLoop_slashes (z := []) nofun]
  | next z w r hz hw ih =>
    intro n k hn hk
    simp only [length_append,length_cons] at hn hk
    obtain _ | n := n
    · omega
    obtain _ | k := k
    · omega
    rw [tokenLoop,tokenLoop,strtokR_next hz hw]
    simp [ih n k (by omega) (by omega)]

theorem tokens_slashes (hz : Slashes z) : tokens z=[] := tokenLoop_slashes hz

theorem tokens_last (hz : Slashes z) (hw : IsName w) : tokens (z++w)=[w] := by
  rw [← tokenLoop_stable (Nat.le_succ _),tokenLoop,strtokR_last hz hw]
  simp [tokenLoop_slashes (z := []) nofun]

theorem tokens_next (hz : Slashes z) (hw : IsName w) (r : CString) :
    tokens (z++(w++pathSeparator::r))=w::tokens r := by
  have hr : r.length≤(z++(w++pathSeparator::r)).length := by
    simp only [length_append,length_cons]
    omega
  rw [← tokenLoop_stable (Nat.le_succ _),tokenLoop,strtokR_next hz hw]
  simp only [tokenLoop_stable hr]

theorem IsName.tokens (hw : IsName w) : tokens w=[w] := tokens_last (z := []) nofun hw

theorem Slashes.append (hz : Slashes z) (hs : Slashes s) : Slashes (z++s) := fun c hc =>
  (mem_append.1 hc).elim (hz c) (hs c)

private theorem tokens_skip (hz : Slashes z) : tokens (z++b)=tokens b := by
  rcases slash_cases b with hb | ⟨z',w,hz',hw,rfl⟩ | ⟨z',w,r,hz',hw,rfl⟩
  · rw [tokens_slashes hb,tokens_slashes (hz.append hb)]
  · rw [← append_assoc,tokens_last (hz.append hz') hw,tokens_last hz' hw]
  · rw [← append_assoc,tokens_next (hz.append hz') hw,tokens_next hz' hw]

theorem tokens_append (a b : CString) : tokens (a++pathSeparator::b)=tokens a++tokens b := by
  induction a using slash_induction with
  | slashes a ha =>
    have hs := ha.append fun c hc => mem_singleton.1 hc
    rw [tokens_slashes ha,append_cons,tokens_skip hs,nil_append]
  | last z w hz hw =>
    rw [tokens_last hz hw,append_assoc,tokens_next hz hw,singleton_append]
  | next z w r hz hw ih =>
    rw [tokens_next hz hw,append_assoc,append_assoc,cons_append,tokens_next hz hw,ih,cons_append]

private theorem isName_pathUp : IsName pathUp := ⟨by decide,by decide⟩

theorem names_parentPath (cwd path : CString) :
    names cwd (parentPath path)=(names cwd path).dropLast := by
  have ht : tokens (parentPath path)=tokens path++[pathUp] := by
    rw [parentPath,tokens_append,isName_pathUp.tokens]
  rw [names,names,ht]
  cases path with
  | nil => rfl
  | cons c path => simp [parentPath,push]

theorem path_end_cases (path : CString) :
    Slashes path ∨ ∃ A B Z, IsName B ∧ Slashes Z ∧ (A=[] ∨ ∃ A', A=A' ++ [pathSeparator]) ∧
      path=A++(B++Z) := by
  induction path using reverseRecOn with
  | nil => exact .inl nofun
  | append_singleton s c ih =>
    by_cases hc : c=pathSeparator
    · have hse : Slashes [c] := fun d hd => (mem_singleton.1 hd).trans hc
      rcases ih with hs | ⟨A,B,Z,hB,hZ,hA,rfl⟩
      · exact .inl (hs.append hse)
      · exact .inr ⟨A,B,Z++[c],hB,hZ.append hse,hA,by simp⟩
    right
    have hc' : pathSeparator≠c := Ne.symm hc
    by_cases hse : pathSeparator∈s
    · obtain ⟨w,r,hs,hw⟩ := eq_append_cons_of_mem (mem_reverse.2 hse)
      have hs' : s=r.reverse++[pathSeparator]++w.reverse := by
        rw [← reverse_reverse s,hs]
        simp
      refine ⟨r.reverse++[pathSeparator],w.reverse++[c],[],⟨by simp,?_⟩,nofun,
        .inr ⟨_,rfl⟩,by simp [hs']⟩
      simp [hw,hc']
    · exact ⟨[],s++[c],[],⟨by simp,by simp [hse,hc']⟩,nofun,.inl rfl,by simp⟩

private theorem skipTrailing_slashes (hY : Slashes Y) (hb : b≠pathSeparator) :
    skipTrailing (Y++b::L) (pathSeparator::R) =
      (L, b::(Y.reverse++pathSeparator::R)) := by
  induction Y generalizing R with
  | nil =>
    cases L with
    | nil => simp [skipTrailing]
    | cons l L => simp [skipTrailing,hb]
  | cons y Y ih =>
    have hy := hY y mem_cons_self
    have hr := ih (R := pathSeparator::R) fun d hd => hY d (mem_cons_of_mem y hd)
    rw [cons_append,skipTrailing,hy,hr]
    simp

private theorem scanBack_name (hY : pathSeparator∉Y) (hc : c≠pathSeparator) :
    ∃ d R', scanBack (Y++L) (c::R)=scanBack L (d::R') ∧ d≠pathSeparator ∧
      d::R' = Y.reverse++c::R := by
  induction Y generalizing c R with
  | nil => exact ⟨c,R,rfl,hc,rfl⟩
  | cons y Y ih =>
    have hy : y≠pathSeparator := fun heq => hY (heq ▸ mem_cons_self)
    obtain ⟨d,R',hs,hd,hR'⟩ := ih (R := c::R) (fun h => hY (mem_cons_of_mem y h)) hy
    refine ⟨d,R',?_,hd,by simp [hR']⟩
    rw [cons_append,scanBack,if_neg hc,hs]

private theorem scanBack_dropWhile (hY : pathSeparator∉Y) (hc : c≠pathSeparator)
    (hL : L=[] ∨ ∃ L', L=pathSeparator::L') :
    (scanBack (Y++L) (c::R)).dropWhile (· == pathSeparator)=Y.reverse++c::R := by
  obtain ⟨d,R',hs,hd,hR'⟩ := scanBack_name hY hc
  have hdr : (d::R').dropWhile (· == pathSeparator)=d::R' :=
    dropWhile_cons_of_neg (by simpa using hd)
  rw [hs,← hR']
  rcases hL with rfl | ⟨L',rfl⟩
  · exact hdr
  cases L' with
  | nil =>
    rw [scanBack,if_neg hd]
    simpa [scanBack] using hdr
  | cons l L' =>
    rw [scanBack,if_neg hd]
    exact hdr

theorem fsBasename_eq (before : UInt8) (hB : IsName B) (hZ : Slashes Z)
    (hA : A=[] ∨ ∃ A', A=A' ++ [pathSeparator]) :
    fsBasename before (A++(B++Z))=B++Z := by
  obtain ⟨B',b,rfl⟩ : ∃ B' b, B=B' ++ [b] :=
    ⟨B.dropLast,B.getLast _,(dropLast_append_getLast hB.ne_nil).symm⟩
  have hB' := hB.noSeparator
  rw [mem_append,mem_singleton,not_or] at hB'
  have hb : b≠pathSeparator := Ne.symm hB'.2
  have hY : pathSeparator∉B'.reverse := by simpa using hB'.1
  have hL : A.reverse=[] ∨ ∃ L', A.reverse=pathSeparator::L' := by
    rcases hA with rfl | ⟨A',rfl⟩
    · exact .inl rfl
    · exact .inr ⟨A'.reverse,by simp⟩
  rw [fsBasename]
  rcases eq_nil_or_concat' Z with rfl | ⟨Z',z,rfl⟩
  · have hr : (A++(B' ++ [b]++[])).reverse=b::(B'.reverse++A.reverse) := by simp
    have hs : skipTrailing (B'.reverse++A.reverse) [b]=(B'.reverse++A.reverse, [b]) := by
      cases B'.reverse++A.reverse with
      | nil => rfl
      | cons l L => rw [skipTrailing,if_neg hb]
    rw [hr]
    simp only [hs,scanBack_dropWhile hY hb hL]
    simp
  · have hz := hZ z (by simp)
    have hZ' : Slashes Z'.reverse := fun c hc => hZ c (by simp [mem_reverse.1 hc])
    have hr : (A++(B' ++ [b]++(Z' ++ [z]))).reverse =
        z::(Z'.reverse++b::(B'.reverse++A.reverse)) := by simp
    rw [hr,hz]
    simp only [skipTrailing_slashes hZ' hb,scanBack_dropWhile hY hb hL]
    simp

private theorem skipTrailing_all (hle : Slashes left) :
    skipTrailing left (pathSeparator::R)=([], left.reverse++pathSeparator::R) := by
  induction left generalizing R with
  | nil => rfl
  | cons l left ih =>
    have hl := hle l mem_cons_self
    have hr := ih (R := pathSeparator::R) fun d hd => hle d (mem_cons_of_mem l hd)
    rw [skipTrailing,hl,hr]
    simp

private theorem fsBasename_slashes (hp : Slashes path) (hne : path≠[]) :
    fsBasename before path=[] := by
  obtain ⟨s,c,rfl⟩ : ∃ s c, path=s++[c] :=
    ⟨path.dropLast,path.getLast hne,(dropLast_append_getLast hne).symm⟩
  have hc := hp c (by simp)
  have hs : Slashes s.reverse := fun d hd => hp d (by simp [mem_reverse.1 hd])
  have hdr := hp.dropWhile []
  rw [hc] at hdr
  rw [fsBasename,hc]
  simpa [skipTrailing_all hs,scanBack] using hdr

def joinPath (parent name : CString) : CString :=
  if parent=[pathSeparator] then pathSeparator::name else parent++pathSeparator::name

theorem tokens_isName : ∀ w∈tokens s, IsName w := by
  induction s using slash_induction with
  | slashes z hz =>
    rw [tokens_slashes hz]
    exact nofun
  | last z w hz hw =>
    rw [tokens_last hz hw]
    intro w' hw'
    rwa [mem_singleton.1 hw']
  | next z w r hz hw ih =>
    rw [tokens_next hz hw]
    intro w' hw'
    rcases mem_cons.1 hw' with rfl | hw'
    · exact hw
    · exact ih w' hw'

private theorem mem_push (h : w∈push out pch) : w∈out ∨ (w=pch ∧ w≠pathUp ∧ w≠pathDot) := by
  rw [push] at h
  split_ifs at h with hup hd
  · exact .inl ((dropLast_sublist out).subset h)
  · exact .inl h
  rcases mem_append.1 h with h | h
  · exact .inl h
  · obtain rfl := mem_singleton.1 h
    exact .inr ⟨rfl,hup,hd⟩

theorem foldl_push_forall {P : CString → Prop} {ts : List CString}
    (hts : ∀ w∈ts, w≠pathUp → w≠pathDot → P w) (ho : ∀ w∈out, P w) :
    ∀ w∈ts.foldl push out, P w := by
  induction ts generalizing out with
  | nil => exact ho
  | cons t ts ih =>
    apply ih fun w hw => hts w (mem_cons_of_mem t hw)
    intro w hw
    rcases mem_push hw with hw | ⟨rfl,hup,hd⟩
    · exact ho w hw
    · exact hts w mem_cons_self hup hd

theorem names_isName : ∀ w∈names cwd input, IsName w := by
  apply foldl_push_forall fun w hw _ _ => tokens_isName w hw
  split_ifs
  · exact tokens_isName
  · exact nofun

private theorem joinPath_render (ho : ∀ w∈out, IsName w) :
    joinPath (render out) name=render (out++[name]) := by
  cases out with
  | nil => simp [joinPath,render]
  | cons w out =>
    have hw := (ho w mem_cons_self).ne_nil
    simp [joinPath,render,hw]

/-- The path has a last name, which is neither `.` nor `..` and ends it. -/
def Proper (path : CString) : Prop :=
  path.getLast? ≠ some pathSeparator ∧ ∃ name, (tokens path).getLast? = some name ∧
    name≠pathDot ∧ name≠pathUp

structure Agrees (cwd path name : CString) : Prop where
  noSeparator : pathSeparator∉name
  notDot : name≠pathDot
  notUp : name≠pathUp
  join : joinPath (canonicalizePath cwd (parentPath path)) name=canonicalizePath cwd path

theorem tokens_concat (hB : IsName B) (hA : A=[] ∨ ∃ A', A=A' ++ [pathSeparator]) :
    tokens (A++B)=tokens A++[B] := by
  rcases hA with rfl | ⟨A',rfl⟩
  · exact hB.tokens
  · rw [append_assoc,singleton_append,tokens_append,hB.tokens,tokens_append,
      tokens_slashes (z := []) nofun,append_nil]

theorem names_concat (hB : IsName B) (hA : A=[] ∨ ∃ A', A=A' ++ [pathSeparator])
    (hd : B≠pathDot) (hup : B≠pathUp) :
    names cwd (A++B)=names cwd (parentPath (A++B))++[B] := by
  obtain ⟨out,ho⟩ : ∃ out, names cwd (A++B)=out++[B] := by
    rw [names,tokens_concat hB hA,foldl_append,foldl_cons,push,if_neg hup,if_neg hd]
    exact ⟨_,rfl⟩
  rw [names_parentPath,ho,dropLast_concat]

/-- `file_get_parent` and `fs_basename` agree on proper paths only. -/
theorem agrees_iff (hne : fsBasename before path≠[]) :
    Agrees cwd path (fsBasename before path) ↔ Proper path := by
  by_cases he : path=[]
  · subst he
    refine iff_of_false (fun h => hne ?_) (fun h => ?_)
    · have hj := h.join
      rw [canonicalizePath,names_parentPath] at hj
      have hna : names cwd []=[] := rfl
      rw [canonicalizePath,hna] at hj
      simpa [joinPath,render] using hj
    · obtain ⟨-,name,hn,-⟩ := h
      cases hn
  rcases path_end_cases path with hp | ⟨A,B,Z,hB,hZ,hA,rfl⟩
  · exact absurd (fsBasename_slashes hp he) hne
  rw [fsBasename_eq before hB hZ hA]
  rcases eq_nil_or_concat' Z with rfl | ⟨Z',z,rfl⟩
  · rw [append_nil]
    have ht := tokens_concat hB hA
    have hl : (A++B).getLast? ≠ some pathSeparator := by
      rw [getLast?_append_of_ne_nil _ hB.ne_nil]
      exact fun heq => hB.noSeparator (mem_of_getLast? heq)
    have hpr : Proper (A++B) ↔ B≠pathDot ∧ B≠pathUp := by
      rw [Proper,ht,getLast?_concat]
      constructor
      · rintro ⟨-,name,hn,h⟩
        cases hn
        exact h
      · exact fun h => ⟨hl,B,rfl,h⟩
    rw [hpr]
    refine ⟨fun h => ⟨h.notDot,h.notUp⟩,fun h => ⟨hB.noSeparator,h.1,h.2,?_⟩⟩
    rw [canonicalizePath,canonicalizePath,names_concat hB hA h.1 h.2]
    exact joinPath_render names_isName
  · have hz := hZ z (by simp)
    refine iff_of_false (fun h => h.noSeparator ?_) (fun h => h.1 ?_)
    · simp [hz]
    · simp [hz]

theorem Proper.names (h : Proper path) (before : UInt8) (cwd : CString) :
    names cwd path=names cwd (parentPath path)++[fsBasename before path] := by
  obtain ⟨he,name,hn,hd,hup⟩ := h
  rcases path_end_cases path with hp | ⟨A,B,Z,hB,hZ,hA,rfl⟩
  · rw [tokens_slashes hp] at hn
    cases hn
  rw [fsBasename_eq before hB hZ hA]
  rcases eq_nil_or_concat' Z with rfl | ⟨Z',z,rfl⟩
  · rw [append_nil] at hn ⊢
    rw [tokens_concat hB hA,getLast?_concat,Option.some.injEq] at hn
    subst hn
    exact names_concat hB hA hd hup
  · have hz := hZ z (by simp)
    exact absurd (by simp [hz]) he

theorem names_slashes (cwd : CString) (hp : Slashes path) : names cwd path=[] := by
  rw [names,tokens_slashes hp]
  cases path with
  | nil => rfl
  | cons c path =>
    have hc := hp c mem_cons_self
    simp [hc]
end RazionOS.Kernel.Vfs
