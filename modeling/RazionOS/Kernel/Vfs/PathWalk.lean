import RazionOS.Kernel.Vfs.MountTree

/-!
# The walk along a path

`kopen_recur` on the cut path: it moves by the lengths of the strings, follows a symbolic link by a
call for its target, and rebuilds the path up to the directory of the link for that call.
-/

namespace RazionOS.Kernel.Vfs.Bytes
open Framework List

def untokenizeLoop : Nat → Nat → List UInt8 → Option (List UInt8)
  | 0, _, out => some out
  | count+1, p, out => do
    let p := p+(← span (· != 0) out p)
    let out ← store p [pathSeparator] out
    untokenizeLoop count p out

def pathUntokenize (path : List UInt8) (len depth : Nat) : Option (List UInt8) :=
  untokenizeLoop (if depth≠0 then depth-1 else 0) 0 (path.take (len+1))

/-- A link that is followed: its nesting, where it was found, its target and what that is relative
to. -/
structure Follow where
  nested : Nat
  path : CString
  depth : Nat
  target : CString
  relativeTo : CString

inductive LinkEvent where
  | followed (link : Follow)
  | refused (nested : Nat)

/-- What a call comes to, with the links on its way; nothing if it does not end. -/
abbrev Walked := Option (Result × List LinkEvent)

structure Walk where
  /-- The path before it is cut. -/
  canonical : CString
  path : List UInt8
  pathLen : Nat
  pathDepth : Nat
  nofollow : Bool
  nested : Nat

def untilNul (s : List UInt8) : CString := s.takeWhile (· != 0)

section Kopen
variable (fs : Fs) (proc : Process)

def followLink (recur : (symlinkBuf relpath : CString) → (symlinkDepth : Nat) → State → Walked)
    (walk : Walk) (symlinkDepth depth node : Nat) (st : State) :
    Option (Result × Nat × List LinkEvent) :=
  if (st.attr node).symlink && !(walk.nofollow && depth == walk.pathDepth) then
    if maxSymlinkDepth ≤ symlinkDepth then
      some ((.error Errno.loop, closeFs node st), symlinkDepth, [.refused walk.nested])
    else
      let (len, symlinkBuf) := readlinkFs fs (st.attr node)
      let st := closeFs node st
      if len<0 then some ((.error (-len), st), symlinkDepth, [])
      else if len=0 then some ((.error Errno.noEnt, st), symlinkDepth, [])
      else do
        let relpath ← stringAt (← pathUntokenize walk.path walk.pathLen depth) 0
        let symlinkDepth := symlinkDepth+1
        let target := untilNul symlinkBuf
        let (result, links) ← recur target relpath symlinkDepth st
        let link := ⟨walk.nested,walk.canonical,depth,target,relpath⟩
        return (result, symlinkDepth, .followed link::links)
  else some ((.ok node, st), symlinkDepth, [])

def kopenLoop (recur : (symlinkBuf relpath : CString) → (symlinkDepth : Nat) → State → Walked)
    (walk : Walk) : Nat → (symlinkDepth pathOffset depth node : Nat) → State → Walked
  | 0, _, _, _, _, _ => none
  | rounds+1, symlinkDepth, pathOffset, depth, node, st => do
    let ((found, st), symlinkDepth, links) ← followLink fs recur walk symlinkDepth depth node st
    match found with
    | .error error => return ((.error error, st), links)
    | .ok node =>
      if walk.pathLen≤pathOffset ∨ depth=walk.pathDepth then return ((.ok node, st), links)
      else
        let name ← stringAt walk.path pathOffset
        match enter fs proc node name st with
        | (.error error, st) => return ((.error error, st), links)
        | (.ok node, st) =>
          let pathOffset := pathOffset+name.length+1
          let depth := depth+1
          if depth<walk.pathDepth+1 then
            let (result, links') ←
              kopenLoop recur walk rounds symlinkDepth pathOffset depth node st
            return (result, links++links')
          else return ((.error Errno.noEnt, st), links)

/-- At most `calls` calls of `kopen_recur` are active at a time. -/
def kopenRecur : (calls : Nat) → (nofollow : Bool) → (nested : Nat) →
    (filename relativeTo : CString) → (symlinkDepth : Nat) → State → Walked
  | 0, _, _, _, _, _, _ => none
  | calls+1, nofollow, nested, filename, relativeTo, symlinkDepth, st => do
    let path := Vfs.canonicalizePath (untilNul relativeTo) (untilNul filename)
    let pathLen := path.length
    if pathLen=1 then return ((.ok fs.root, openFs fs.root st), [])
    else
      let (pathOffset, pathDepth, cut) ← pathTokenize (path++[0]) pathLen
      let (node, pathOffset, depth) ← getMountPoint
        ⟨some fs.root,.entry (some fs.root) fs.mounts⟩ cut pathDepth pathOffset
      match node with
      | none => return ((.error Errno.noEnt, st), [])
      | some node =>
        kopenLoop fs proc (kopenRecur calls false (nested+1))
          ⟨path,cut,pathLen,pathDepth,nofollow,nested⟩ (pathDepth+1) symlinkDepth
          pathOffset depth node (openFs node st)
end Kopen

section Untokenize
variable {names : List CString}

private theorem untokenizeLoop_eq (before run : List UInt8) (hru : 0∉run)
    (hn : ∀ w∈names, 0∉w) {count : Nat} (hcn : count≤names.length) :
    untokenizeLoop count before.length (before++(run++0::strings names)) =
      some (before++(run++((names.take count).flatMap (pathSeparator :: ·) ++
        0::strings (names.drop count)))) := by
  induction count generalizing before run names with
  | zero => simp [untokenizeLoop]
  | succ count ih =>
    obtain ⟨name,names,rfl⟩ := exists_cons_of_length_pos (by omega : 0<names.length)
    have hs : span (· != 0) (before++(run++0::strings (name::names))) before.length =
        some run.length := by
      refine span_eq before _ (fun c hc => ?_) rfl
      simpa using fun heq : c=0 => hru (heq ▸ hc)
    have hst := store_eq (before++run) (strings (name::names))
      (show [pathSeparator].length=[(0 : UInt8)].length from rfl)
    have hna : 0∉pathSeparator::name := by
      simpa [show (0 : UInt8)≠pathSeparator by decide] using hn name mem_cons_self
    have hr := ih (before++run) _ hna
      (fun w hw => hn w (mem_cons_of_mem name hw)) (by simpa using hcn)
    simp only [append_assoc,length_append,strings_cons,cons_append,nil_append] at hs hst hr ⊢
    rw [untokenizeLoop,hs]
    simp only [bind,Option.bind,hst]
    rw [hr]
    simp

theorem flatMap_noNul (hn : ∀ w∈names, 0∉w) : 0∉names.flatMap (pathSeparator :: ·) := by
  intro hz
  obtain ⟨w,hw,hz⟩ := mem_flatMap.1 hz
  rcases mem_cons.1 hz with hs | hz
  · cases hs
  · exact hn w hw hz

private theorem pathUntokenize_eq (hn : ∀ w∈names, PathName w) (hne : names≠[])
    (hd : depth≤names.length) :
    (pathUntokenize (0::strings (cutNames names)) (render names).length depth).bind
      (stringAt · 0)=some ((names.take (depth-1)).flatMap (pathSeparator :: ·)) := by
  have hc : cutNames names=names := if_neg hne
  have hlen : (render names).length=(strings names).length := by
    rw [← length_cutNames,hc]
  have ht : (0::strings names).take ((strings names).length + 1)=0::strings names :=
    take_of_length_le (by simp)
  have hcn : (if depth≠0 then depth-1 else 0)=depth-1 := by
    split_ifs <;> omega
  have hl := untokenizeLoop_eq [] [] (by simp) (fun w hw => (hn w hw).noNul)
    (show depth-1≤names.length by omega)
  simp only [nil_append,length_nil] at hl
  rw [pathUntokenize,hc,hlen,ht,hcn,hl]
  exact stringAt_eq [] _ (flatMap_noNul fun w hw => (hn w (mem_of_mem_take hw)).noNul)
end Untokenize

/-- A link that is followed is nested in fewer than `MAX_SYMLINK_DEPTH` others, and its target is
looked up from the directory that it was found in. -/
structure Follow.Lawful (link : Follow) : Prop where
  nested : link.nested < maxSymlinkDepth
  relativeTo : link.relativeTo =
    ((components link.path).take (link.depth-1)).flatMap (pathSeparator :: ·)
  canonical : Vfs.canonicalizePath link.relativeTo link.target =
    Vfs.canonicalizePath (render ((components link.path).take (link.depth-1))) link.target

structure Lawful (result : Result) (links : List LinkEvent) : Prop where
  refused : ∀ nested, .refused nested∈links → result.1 = .error Errno.loop
  followed : ∀ link, .followed link∈links → link.Lawful

theorem Lawful.nil (result : Result) : Lawful result [] := ⟨nofun,nofun⟩

private theorem Lawful.append (h : Lawful result links) (hok : result.1 = .ok node)
    (h' : Lawful result' links') : Lawful result' (links++links') where
  refused nested hmem := by
    rcases mem_append.1 hmem with hmem | hmem
    · rw [h.refused nested hmem] at hok
      cases hok
    · exact h'.refused nested hmem
  followed link hmem := (mem_append.1 hmem).elim (h.followed link) (h'.followed link)

structure Walk.Along (walk : Walk) (names : List CString) : Prop where
  ne_nil : names≠[]
  pathNames : ∀ w∈names, PathName w
  canonical : walk.canonical=render names
  path : walk.path=0::strings (cutNames names)
  pathLen : walk.pathLen=(render names).length
  pathDepth : walk.pathDepth=names.length

def terminated (fs : Fs) : Fs :=
  { fs with readlink := fun inode => ((fs.readlink inode).1, untilNul (fs.readlink inode).2) }

/-- What is left after so many links, by names. -/
def levelAt (fs : Fs) (proc : Process) (symlinkDepth : Nat) : Option Level :=
  level (terminated fs) proc (maxSymlinkDepth-symlinkDepth)

/-- A call of which at most `calls` more may be active returns, with the result of the walk by
names. -/
def Returns (fs : Fs) (proc : Process) (calls nested : Nat) (nofollow : Bool)
    (recur : (symlinkBuf relpath : CString) → (symlinkDepth : Nat) → State → Walked) : Prop :=
  ∀ symlinkBuf relpath symlinkDepth st, nested ≤ symlinkDepth →
    maxSymlinkDepth - symlinkDepth < calls →
    ∃ result links, recur symlinkBuf relpath symlinkDepth st=some (result, links) ∧
      Lawful result links ∧
      result=kopenStart (terminated fs) proc (levelAt fs proc symlinkDepth) nofollow
        (untilNul symlinkBuf) (untilNul relpath) st

section Runs
variable {walk : Walk} {names : List CString}

private theorem canonicalizePath_flatMap :
    Vfs.canonicalizePath (out.flatMap (pathSeparator :: ·)) target =
      Vfs.canonicalizePath (render out) target := by
  rw [render]
  split_ifs with hn
  · rw [hn]
    rfl
  · rfl

/-- The link that `kopen_recur` follows from the walk. -/
theorem Walk.Along.lawful (hwa : walk.Along names) (hn : walk.nested < maxSymlinkDepth) :
    Follow.Lawful ⟨walk.nested,walk.canonical,depth,target,
      (names.take (depth-1)).flatMap (pathSeparator :: ·)⟩ := by
  have hc : components walk.canonical=names := by
    rw [hwa.canonical,← tokens_eq_components,
      tokens_render fun w hw => (hwa.pathNames w hw).toIsName]
  refine ⟨hn,?_,?_⟩
  · rw [hc]
  · rw [hc,canonicalizePath_flatMap]

private theorem untilNul_eq (hs : 0∉s) : untilNul s=s := by
  refine takeWhile_eq_self_iff.2 fun c hc => ?_
  simpa using fun heq : c=0 => hs (heq ▸ hc)

theorem untilNul_noNul : 0∉untilNul s := by
  intro hz
  simpa using mem_takeWhile_imp hz

private theorem readlinkFs_terminated : readlinkFs (terminated fs) attr =
      ((readlinkFs fs attr).1, untilNul (readlinkFs fs attr).2) := by
  rw [readlinkFs,readlinkFs]
  split_ifs <;> rfl

private theorem levelAt_of_lt (h : symlinkDepth < maxSymlinkDepth) :
    levelAt fs proc symlinkDepth=some
      ⟨kopenStart (terminated fs) proc (levelAt fs proc (symlinkDepth+1)) false,
        afterLink (terminated fs) proc (levelAt fs proc (symlinkDepth+1))⟩ := by
  have hl : maxSymlinkDepth-symlinkDepth=maxSymlinkDepth-(symlinkDepth+1) + 1 := by
    omega
  rw [levelAt,hl]
  rfl

private theorem levelAt_of_le (h : maxSymlinkDepth ≤ symlinkDepth) :
    levelAt fs proc symlinkDepth=none := by
  rw [levelAt,Nat.sub_eq_zero_of_le h]
  rfl

private theorem kopenLoop_round : Vfs.kopenLoop fs proc lower nofollow path left node st =
      if (st.attr node).symlink && !(nofollow && left.isEmpty) then
        match lower with
        | none => (.error Errno.loop, closeFs node st)
        | some lower =>
          if (readlinkFs fs (st.attr node)).1<0 then
            (.error (-(readlinkFs fs (st.attr node)).1), closeFs node st)
          else if (readlinkFs fs (st.attr node)).1=0 then (.error Errno.noEnt, closeFs node st)
          else
            match lower.recur (readlinkFs fs (st.attr node)).2
              (Vfs.pathUntokenize path (path.length-left.length)) (closeFs node st) with
            | (.error error, st) => (.error error, st)
            | (.ok node, st) => lower.rest nofollow path left node st
      else afterLink fs proc lower nofollow path left node st := by
  cases left <;> rfl

def continueNames (fs : Fs) (proc : Process) (symlinkDepth : Nat) (nofollow : Bool)
    (names left : List CString) : Result → Result
  | (.error error, st) => (.error error, st)
  | (.ok node, st) =>
    afterLink (terminated fs) proc (levelAt fs proc symlinkDepth) nofollow names left node st

private theorem followLink_returns (hwa : walk.Along names)
    (hr : Returns fs proc calls (walk.nested+1) false recur) (hne : walk.nested ≤ symlinkDepth)
    (hc : maxSymlinkDepth-symlinkDepth≤calls) (hd : depth≤names.length) (node : Nat)
    (st : State) : ∃ result symlinkDepth' links,
      followLink fs recur walk symlinkDepth depth node st=some (result, symlinkDepth', links) ∧
      Lawful result links ∧ symlinkDepth ≤ symlinkDepth' ∧
      Vfs.kopenLoop (terminated fs) proc (levelAt fs proc symlinkDepth) walk.nofollow names
          (names.drop depth) node st =
        continueNames fs proc symlinkDepth' walk.nofollow names (names.drop depth) result := by
  have he : (names.drop depth).isEmpty=(depth == walk.pathDepth) := by
    rw [hwa.pathDepth,Bool.eq_iff_iff,List.isEmpty_iff,List.drop_eq_nil_iff,beq_iff_eq]
    omega
  rw [followLink,kopenLoop_round,he,readlinkFs_terminated]
  by_cases hl : ((st.attr node).symlink && !(walk.nofollow && depth == walk.pathDepth))=true
  · rw [if_pos hl,if_pos hl]
    by_cases hm : maxSymlinkDepth ≤ symlinkDepth
    · rw [if_pos hm,levelAt_of_le hm]
      refine ⟨_,_,_,rfl,⟨fun _ _ => rfl,?_⟩,Nat.le_refl _,rfl⟩
      intro link hmem
      simp at hmem
    rw [if_neg hm,levelAt_of_lt (Nat.lt_of_not_le hm)]
    rcases readlinkFs fs (st.attr node) with ⟨len,symlinkBuf⟩
    simp only
    by_cases hneg : len<0
    · rw [if_pos hneg,if_pos hneg]
      exact ⟨_,_,_,rfl,Lawful.nil _,Nat.le_refl _,rfl⟩
    by_cases hz : len=0
    · rw [if_neg hneg,if_neg hneg,if_pos hz,if_pos hz]
      exact ⟨_,_,_,rfl,Lawful.nil _,Nat.le_refl _,rfl⟩
    rw [if_neg hneg,if_neg hneg,if_neg hz,if_neg hz]
    have hrel := pathUntokenize_eq hwa.pathNames hwa.ne_nil hd
    rw [← hwa.path,← hwa.pathLen] at hrel
    obtain ⟨out,ho,hat⟩ := Option.bind_eq_some_iff.1 hrel
    obtain ⟨result,links,hres,hli,hn⟩ := hr (untilNul symlinkBuf)
      ((names.take (depth-1)).flatMap _) (symlinkDepth+1)
      (closeFs node st) (by omega) (by omega)
    have hre : Vfs.pathUntokenize names (names.length - (names.drop depth).length) =
        (names.take (depth-1)).flatMap (pathSeparator :: ·) := by
      rw [List.length_drop,Nat.sub_sub_self hd,Vfs.pathUntokenize]
    rw [untilNul_eq untilNul_noNul, untilNul_eq (flatMap_noNul fun w hw =>
        (hwa.pathNames w (List.mem_of_mem_take hw)).noNul)] at hn
    simp only [bind,Option.bind,ho,hat,hres]
    refine ⟨_,_,_,rfl,⟨fun nested hmem => ?_,fun link hmem => ?_⟩,Nat.le_succ _,?_⟩
    · exact hli.refused nested (by simpa using hmem)
    · rcases List.mem_cons.1 hmem with heq | hmem
      · cases heq
        exact hwa.lawful (Nat.lt_of_le_of_lt hne (Nat.lt_of_not_le hm))
      · exact hli.followed link hmem
    · rw [hre,← hn]
      rcases result with ⟨error | node,st⟩ <;> rfl
  · rw [if_neg hl,if_neg hl]
    exact ⟨_,_,_,rfl,Lawful.nil _,Nat.le_refl _,rfl⟩

private theorem enter_terminated :
    enter (terminated fs) proc node name st=enter fs proc node name st := rfl

theorem lt_of_drop_eq_cons (hr : names.drop depth=name::rest) : depth<names.length := by
  by_contra hle
  rw [drop_eq_nil_iff.2 (Nat.not_lt.1 hle)] at hr
  cases hr

theorem strings_take_succ (hr : names.drop depth=name::rest) :
    (strings (names.take (depth+1))).length =
      (strings (names.take depth)).length + name.length+1 := by
  have hlt := lt_of_drop_eq_cons hr
  have hn : names[depth]=name := by
    rw [drop_eq_getElem_cons,cons.injEq] at hr
    exact hr.1
  rw [take_succ_eq_append_getElem hlt,hn]
  simp [strings,Nat.add_assoc]

private theorem Walk.Along.last_iff (hw : walk.Along names) (hd : depth≤names.length) :
    (walk.pathLen≤1 + (strings (names.take depth)).length ∨ depth=walk.pathDepth) ↔
      names.drop depth=[] := by
  rw [hw.pathDepth,drop_eq_nil_iff]
  refine ⟨fun h => ?_,fun h => .inr (by omega)⟩
  by_contra hlt
  obtain ⟨name,rest,hr⟩ := exists_cons_of_ne_nil (drop_eq_nil_iff.not.2 hlt)
  have hn := hw.pathNames name (mem_of_mem_drop (hr ▸ mem_cons_self))
  have hpos := length_pos_iff.2 hn.ne_nil
  have hlen : walk.pathLen=(strings names).length := by
    rw [hw.pathLen,← length_cutNames,cutNames,if_neg hw.ne_nil]
  have hs : strings names=strings (names.take (depth+1))++strings (names.drop (depth+1)) := by
    rw [strings,strings,strings,← flatMap_append,take_append_drop]
  have ht := strings_take_succ hr
  rw [hlen,hs,length_append] at h
  omega

private theorem kopenLoop_returns (hw : walk.Along names)
    (hre : Returns fs proc calls (walk.nested+1) false recur) (hn : walk.nested ≤ symlinkDepth)
    (hc : maxSymlinkDepth-symlinkDepth≤calls) (hd : depth≤names.length)
    (hrn : names.length-depth < rounds) (node : Nat) (st : State) :
    ∃ result links, kopenLoop fs proc recur walk rounds symlinkDepth
        (1 + (strings (names.take depth)).length) depth node st=some (result, links) ∧
      Lawful result links ∧
      result=Vfs.kopenLoop (terminated fs) proc (levelAt fs proc symlinkDepth) walk.nofollow
        names (names.drop depth) node st := by
  induction rounds generalizing symlinkDepth depth node st with
  | zero => omega
  | succ rounds ih =>
    obtain ⟨⟨found,st1⟩,symlinkDepth',links,hfo,hl,hle,hna⟩ :=
      followLink_returns hw hre hn hc hd node st
    simp only [kopenLoop,bind,Option.bind,hfo,hna]
    cases found with
    | error error => exact ⟨_,_,rfl,hl,rfl⟩
    | ok node1 =>
      simp only [hw.last_iff hd,continueNames]
      cases hr : names.drop depth with
      | nil => exact ⟨_,_,rfl,hl,rfl⟩
      | cons name rest =>
        have hlt := lt_of_drop_eq_cons hr
        have hdr : rest=names.drop (depth+1) := by
          rw [← drop_drop,hr]
          rfl
        have hat := stringAt_cut hw.pathNames hr
        rw [← hw.path] at hat
        have ho : 1 + (strings (names.take depth)).length + name.length+1 =
            1 + (strings (names.take (depth+1))).length := by
          rw [strings_take_succ hr]
          omega
        simp only [hat,afterLink,enter_terminated]
        rcases enter fs proc node1 name st1 with ⟨error | node2,st2⟩
        · have hf := hl.append rfl (Lawful.nil (.error error, st2))
          rw [append_nil] at hf
          exact ⟨_,_,rfl,hf,rfl⟩
        have hne : depth+1<walk.pathDepth+1 := by
          rw [hw.pathDepth]
          omega
        obtain ⟨result,links',hlo,hl',hres⟩ := ih (Nat.le_trans hn hle)
          (by omega) (Nat.succ_le_of_lt hlt) (by omega) node2 st2
        simp only [if_pos hne,ho,hlo,hdr]
        exact ⟨_,_,rfl,hl.append rfl hl',hres⟩

private theorem mountLoop_eq_deepest : mountLoop children path last outpath =
      match deepest path (.entry none children) with
      | (some node, count) => (node, path.drop count)
      | (none, _) => (last, outpath) := by
  induction path generalizing children last outpath with
  | nil => rfl
  | cons name path ih =>
    rw [mountLoop,deepest]
    cases hc : children.lookup name with
    | none => rfl
    | some child =>
      obtain ⟨file,children'⟩ := child
      cases file with
      | none =>
        simp only [ih]
        rcases hd : deepest path (.entry none children') with ⟨_ | node,count⟩ <;> rfl
      | some file =>
        simp only [ih,deepest_entry path (some file)]
        rcases hd : deepest path (.entry none children') with ⟨_ | node,count⟩ <;> rfl

private theorem length_render_eq_one (hn : ∀ w∈names, PathName w) :
    (render names).length=1 ↔ names=[] := by
  rw [render]
  split_ifs with hni
  · simp [hni]
  obtain ⟨name,rest,rfl⟩ := exists_cons_of_ne_nil hni
  have hpos := length_pos_iff.2 (hn name mem_cons_self).ne_nil
  simp only [flatMap_cons,length_append,length_cons,reduceCtorEq,iff_false]
  omega

theorem kopenRecur_returns (calls : Nat) (nofollow : Bool) (nested : Nat) :
    Returns fs proc calls nested nofollow (kopenRecur fs proc calls nofollow nested) := by
  induction calls generalizing nofollow nested with
  | zero =>
    intro filename relativeTo symlinkDepth st _ hc
    omega
  | succ calls ih =>
    intro filename relativeTo symlinkDepth st hn hc
    obtain ⟨path,hp⟩ : ∃ path, path=Vfs.names (untilNul relativeTo) (untilNul filename) := ⟨_,rfl⟩
    have hpn : ∀ w∈path, PathName w := by
      intro w hw
      rw [hp] at hw
      exact ⟨names_isName w hw, names_noNul untilNul_noNul untilNul_noNul w hw⟩
    simp only [kopenRecur,Vfs.canonicalizePath,kopenStart,← hp,length_render_eq_one hpn]
    by_cases hne : path=[]
    · rw [if_pos hne,if_pos hne]
      exact ⟨_,_,rfl,Lawful.nil _,rfl⟩
    have hpo := getMountPoint_eq hpn (some fs.root) fs.mounts fun h => absurd h hne
    have hd := deepest_isDeepest path (.entry (some fs.root) fs.mounts)
    have hcu : (cutNames path).length=path.length := by rw [cutNames,if_neg hne]
    have hm : Vfs.getMountPoint (terminated fs) path=mountLoop fs.mounts path fs.root path := rfl
    rw [deepest_entry] at hpo hd
    rw [if_neg hne,if_neg hne,pathTokenize_eq hpn,hm,mountLoop_eq_deepest]
    simp only [bind,Option.bind,hpo]
    have hwa : Walk.Along ⟨render path,0::strings (cutNames path),
        (render path).length,(cutNames path).length,nofollow,nested⟩ path :=
      ⟨hne,hpn,rfl,rfl,rfl,hcu⟩
    rcases hde : deepest path (.entry none fs.mounts) with ⟨_ | node,count⟩
    · exact kopenLoop_returns hwa (ih false _) hn (by omega)
        (Nat.zero_le _) (by omega) fs.root _
    · have hcn : count≤path.length := by simpa [hde] using hd.le
      exact kopenLoop_returns hwa (ih false _) hn (by omega) hcn
        (by omega) node _
end Runs

theorem kopenRecur_eq (fs : Fs) (proc : Process) (nofollow : Bool) (filename relativeTo : CString)
    (symlinkDepth : Nat) (st : State) :
    (kopenRecur fs proc (maxSymlinkDepth+1) nofollow 0 filename relativeTo symlinkDepth st).map
        Prod.fst =
      some (Vfs.kopenRecur (terminated fs) proc nofollow symlinkDepth (untilNul filename)
        (untilNul relativeTo) st) := by
  obtain ⟨result,links,hr,-,hn⟩ := kopenRecur_returns (maxSymlinkDepth+1)
    nofollow 0 filename relativeTo symlinkDepth st (Nat.zero_le _) (by omega)
  rw [hr,hn]
  rfl

end RazionOS.Kernel.Vfs.Bytes
