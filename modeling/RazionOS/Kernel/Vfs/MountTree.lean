import RazionOS.Kernel.Vfs.Canonicalize
import RazionOS.Kernel.Vfs.Lookup

/-!
# The tree of mount points

`vfs_mount` walks the tree along the names of a path that has been cut at its separators, and makes
the entries that are missing. `get_mount_point` keeps the last entry with a node.
-/

namespace RazionOS.Kernel.Vfs.Bytes
open Framework List

structure MountTable where
  fsRoot : Option Nat
  tree : Mount

def vfsInstall : MountTable := ⟨none,.entry none []⟩

/-- The loop that chops up the first `len` bytes. -/
def chop (len : Nat) (path : List UInt8) : List UInt8 :=
  (path.take len).map (fun c => if c=pathSeparator then 0 else c)++path.drop len

/-- The pointer that is returned, the depth, and the path. -/
def pathTokenize (path : List UInt8) (len : Nat) : Option (Nat × Nat × List UInt8) := do
  let depth := (path.take len).count pathSeparator
  let path ← store len [0] (chop len path)
  return (1, depth, path)

/-- The search for a child by its name, which goes on with the one that is found or with a new one
at the end. -/
def withChild (name : CString) (next : Mount → Option Mount) :
    List (CString × Mount) → Option (List (CString × Mount))
  | [] => do return [(name, ← next (.entry none []))]
  | (entName, child)::children =>
    if entName=name then do return (entName, ← next child)::children
    else do return (entName, child)::(← withChild name next children)

/-- The loop of `vfs_mount` from an entry of the tree on. -/
def mountFrom (p : List UInt8) (pathLen localRoot : Nat) : Nat → Nat → Mount → Option Mount
  | 0, _, _ => none
  | fuel+1, pos, .entry file children =>
    if pathLen≤pos then some (.entry (some localRoot) children)
    else do
      let name ← stringAt p pos
      let children ← withChild name
        (mountFrom p pathLen localRoot fuel (pos+name.length+1)) children
      return .entry file children

def vfsMount (path : CString) (localRoot : Nat) (table : MountTable) : Option MountTable :=
  if path.head? ≠ some pathSeparator then some table
  else do
    let p ← store path.length [0] (chop path.length (path++[0]))
    if (← p[1]?)=0 then
      match table.tree with
      | .entry _ children => return ⟨some localRoot,.entry (some localRoot) children⟩
    else
      let tree ← mountFrom p path.length localRoot (path.length+1) 1 table.tree
      return { table with tree := tree }

def skipStrings (path : List UInt8) : Nat → Nat → Option Nat
  | 0, pos => some pos
  | count+1, pos => do skipStrings path count (pos+(← span (· != 0) path pos) + 1)

structure Search where
  last : Option Nat
  outpath : Nat
  depth : Nat
  treeDepth : Nat

def searchLoop (path : List UInt8) (stop : Nat) :
    Nat → Nat → List (CString × Mount) → Search → Option Search
  | 0, _, _, _ => none
  | fuel+1, pos, children, search =>
    if stop≤pos then some search
    else do
      let name ← stringAt path pos
      match children.lookup name with
      | none => return search
      | some (.entry file children) =>
        let pos := pos+name.length+1
        let search := match file with
          | none => search
          | some file =>
            { search with treeDepth := search.depth, last := some file, outpath := pos }
        searchLoop path stop fuel pos children { search with depth := search.depth+1 }

def getMountPoint (table : MountTable) (path : List UInt8) (pathDepth outpath : Nat) :
    Option (Option Nat × Nat × Nat) := do
  let stop ← skipStrings path (pathDepth+1) 0
  match table.tree with
  | .entry _ children =>
    let search ← searchLoop path stop (pathDepth+1) outpath children ⟨table.fsRoot,outpath,1,0⟩
    return (search.last, search.outpath, search.treeDepth)

def fileAt : List CString → Mount → Option Nat
  | [], .entry file _ => file
  | name::names, .entry _ children =>
    match children.lookup name with
    | none => none
    | some child => fileAt names child

def updateChild (name : CString) (next : Mount → Mount) :
    List (CString × Mount) → List (CString × Mount)
  | [] => [(name, next (.entry none []))]
  | (entName, child)::children =>
    if entName=name then (entName, next child)::children
    else (entName, child)::updateChild name next children

def insertMount (localRoot : Nat) : List CString → Mount → Mount
  | [], .entry _ children => .entry (some localRoot) children
  | name::names, .entry file children =>
    .entry file (updateChild name (insertMount localRoot names) children)

variable (name : CString) {next : Mount → Mount}

private theorem withChild_eq :
    withChild name (fun child => some (next child)) children =
      some (updateChild name next children) := by
  induction children with
  | nil => rfl
  | cons entry children ih =>
    rw [withChild,updateChild,ih]
    split_ifs <;> rfl

theorem lookup_updateChild : (updateChild name next children).lookup name' =
      if name' = name then some (next ((children.lookup name).getD (.entry none [])))
      else children.lookup name' := by
  induction children with
  | nil =>
    by_cases hn : name' = name
    · simp [updateChild,hn]
    · simp [updateChild,hn]
  | cons entry children ih =>
    obtain ⟨entName,child⟩ := entry
    rw [updateChild]
    by_cases he : entName=name
    · subst he
      by_cases hn : name' = entName
      · simp [hn]
      · simp [lookup_cons,hn,beq_eq_false_iff_ne.2]
    · rw [if_neg he]
      by_cases hn : name' = entName
      · subst hn
        simp [he]
      · have he' : ¬ name=entName := fun heq => he heq.symm
        simp [lookup_cons,beq_eq_false_iff_ne.2 hn,beq_eq_false_iff_ne.2 he',ih]

theorem fileAt_empty (names : List CString) : fileAt names (.entry none [])=none := by
  cases names <;> rfl

private theorem fileAt_insertMount (names : List CString) :
    fileAt names' (insertMount localRoot names mount) =
      if names' = names then some localRoot else fileAt names' mount := by
  induction names generalizing names' mount with
  | nil =>
    obtain ⟨file,children⟩ := mount
    cases names' with
    | nil => rfl
    | cons name' names' => rfl
  | cons name names ih =>
    obtain ⟨file,children⟩ := mount
    cases names' with
    | nil => rfl
    | cons name' names' =>
      rw [insertMount,fileAt,lookup_updateChild,fileAt]
      by_cases hn : name' = name
      · subst hn
        simp only [if_true,ih,cons.injEq,true_and]
        cases children.lookup name' with
        | none => simp [fileAt_empty]
        | some child => rfl
      · simp [hn]

/-- The node that is mounted furthest along the names, and how many of them lead there. -/
def deepest : List CString → Mount → Option Nat × Nat
  | [], .entry file _ => (file, 0)
  | name::names, .entry file children =>
    match children.lookup name with
    | none => (file, 0)
    | some child =>
      match deepest names child with
      | (some node, count) => (some node, count+1)
      | (none, _) => (file, 0)

/-- `count` is the length of the longest mounted part of the names from the root on. -/
structure IsDeepest (names : List CString) (mounted : List CString → Option Nat)
    (last : Option Nat) (count : Nat) : Prop where
  le : count≤names.length
  eq : mounted (names.take count)=last
  beyond : ∀ k, count<k → k≤names.length → mounted (names.take k)=none
  root : last=none → count=0

private theorem IsDeepest.congr {names : List CString}
    {mounted mounted' : List CString → Option Nat}
    {count : Nat} (h : IsDeepest names mounted last count)
    (heq : ∀ k, mounted (names.take k)=mounted' (names.take k)) :
    IsDeepest names mounted' last count where
  le := h.le
  eq := (heq count).symm.trans h.eq
  beyond k hk hle := (heq k).symm.trans (h.beyond k hk hle)
  root := h.root

theorem deepest_isDeepest (names : List CString) (mount : Mount) :
    IsDeepest names (fileAt · mount) (deepest names mount).1 (deepest names mount).2 := by
  induction names generalizing mount with
  | nil =>
    obtain ⟨file,children⟩ := mount
    refine ⟨Nat.le_refl _,rfl,fun k hk hle => ?_,fun _ => rfl⟩
    simp only [length_nil] at hle
    omega
  | cons name names ih =>
    obtain ⟨file,children⟩ := mount
    -- If nothing is mounted further along, the entry itself is the deepest.
    have hh (hno : ∀ k, k≤names.length → fileAt (name::names.take k) (.entry file children)=none) :
        IsDeepest (name::names) (fileAt · (.entry file children)) file 0 := by
      refine ⟨Nat.zero_le _,rfl,fun k hk hle => ?_,fun _ => rfl⟩
      obtain ⟨k,rfl⟩ := Nat.exists_eq_add_one.2 hk
      exact hno k (by simpa using hle)
    cases hc : children.lookup name with
    | none =>
      rw [deepest,hc]
      refine hh fun k _ => ?_
      rw [fileAt,hc]
    | some child =>
      have hn := ih child
      rcases hd : deepest names child with ⟨_ | node,count⟩
      · have heq : deepest (name::names) (.entry file children)=(file, 0) := by
          simp [deepest,hc,hd]
        rw [hd] at hn
        rw [heq]
        obtain rfl : count=0 := hn.root rfl
        refine hh fun k hk => ?_
        simp only [fileAt,hc]
        by_cases hz : k=0
        · subst hz
          exact hn.eq
        · exact hn.beyond k (by omega) hk
      · have heq : deepest (name::names) (.entry file children)=(some node, count+1) := by
          simp [deepest,hc,hd]
        rw [hd] at hn
        rw [heq]
        refine ⟨by simpa using hn.le,?_,fun k hk hle => ?_,nofun⟩
        · simpa [fileAt,hc] using hn.eq
        obtain _ | k := k
        · omega
        simp only [take_succ_cons,fileAt,hc]
        exact hn.beyond k (by simpa using hk) (by simpa using hle)

theorem deepest_entry (names : List CString) (file : Option Nat)
    (children : List (CString × Mount)) :
    deepest names (.entry file children) =
      match deepest names (.entry none children) with
      | (some node, count) => (some node, count)
      | (none, _) => (file, 0) := by
  cases names with
  | nil => rfl
  | cons name names =>
    simp only [deepest]
    cases children.lookup name with
    | none => rfl
    | some child => rcases hd : deepest names child with ⟨_ | node,count⟩ <;> simp [hd]

def strings (names : List CString) : List UInt8 := names.flatMap (· ++ [0])

structure PathName (w : CString) : Prop extends IsName w where
  noNul : 0∉w

variable (before : List UInt8)

section Cut
variable {names : List CString}

@[simp] theorem strings_cons (names : List CString) :
    strings (name::names)=name++0::strings names := by
  simp [strings]

private theorem length_strings :
    (strings names).length=(names.flatMap (pathSeparator :: ·)).length := by
  induction names with
  | nil => rfl
  | cons name names ih =>
    rw [strings_cons,flatMap_cons,length_append,length_append,length_cons,length_cons]
    omega

private theorem length_le_strings (names : List CString) : names.length≤(strings names).length := by
  induction names with
  | nil => exact Nat.le_refl _
  | cons name names ih =>
    rw [strings_cons,length_append,length_cons,length_cons]
    omega

private theorem chop_path (hnames : ∀ w∈names, PathName w) :
    chop (names.flatMap (pathSeparator :: ·)).length (names.flatMap (pathSeparator :: ·)++[0]) =
      0::strings names := by
  rw [chop,take_left,drop_left]
  induction names with
  | nil => rfl
  | cons name names ih =>
    have hs := (hnames name mem_cons_self).noSeparator
    have hn : name.map (fun c => if c=pathSeparator then 0 else c)=name := by
      conv_rhs => rw [← map_id name]
      refine map_congr_left fun c hc => if_neg ?_
      rintro rfl
      exact hs hc
    have hr := ih fun w hw => hnames w (mem_cons_of_mem name hw)
    rw [flatMap_cons,map_append,map_cons,hn,append_assoc,hr]
    simp

private theorem count_path (hnames : ∀ w∈names, PathName w) :
    (names.flatMap (pathSeparator :: ·)).count pathSeparator=names.length := by
  induction names with
  | nil => rfl
  | cons name names ih =>
    have hn := count_eq_zero.2 (hnames name mem_cons_self).noSeparator
    rw [flatMap_cons,count_append,count_cons_self,
      ih fun w hw => hnames w (mem_cons_of_mem name hw),length_cons]
    omega

private theorem skipStrings_eq (names : List CString) (hnames : ∀ w∈names, 0∉w) :
    skipStrings (before++strings names) names.length before.length =
      some (before++strings names).length := by
  induction names generalizing before with
  | nil => simp [skipStrings,strings]
  | cons name names ih =>
    have hn := hnames name mem_cons_self
    have hs : span (· != 0) (before++(name++0::strings names)) before.length =
        some name.length := by
      refine span_eq before _ (fun c hc => ?_) rfl
      simpa using fun heq : c=0 => hn (heq ▸ hc)
    have hr := ih (before++(name++[0])) fun w hw => hnames w (mem_cons_of_mem name hw)
    rw [strings_cons,length_cons,skipStrings,hs]
    simpa [Nat.add_assoc] using hr

private theorem mountFrom_eq (localRoot : Nat) (hnames : ∀ w∈names, PathName w)
    (hf : names.length<fuel) (mount : Mount) :
    mountFrom (before++strings names) ((before++strings names).length - 1) localRoot fuel
      before.length mount=some (insertMount localRoot names mount) := by
  obtain _ | fuel := fuel
  · omega
  induction names generalizing before fuel mount with
  | nil =>
    obtain ⟨file,children⟩ := mount
    rw [mountFrom,if_pos (by simp [strings])]
    rfl
  | cons name names ih =>
    obtain ⟨file,children⟩ := mount
    have hn := hnames name mem_cons_self
    have hpos := length_pos_iff.2 hn.ne_nil
    have hat : stringAt (before++(name++0::strings names)) before.length=some name :=
      stringAt_eq before _ hn.noNul
    obtain ⟨fuel,rfl⟩ : ∃ k, fuel=k+1 :=
      Nat.exists_eq_add_one.2 (by simp only [length_cons] at hf; omega)
    have hr : mountFrom (before++(name++0::strings names))
        ((before++(name++0::strings names)).length - 1) localRoot (fuel+1)
        (before.length+name.length+1) =
        fun mount => some (insertMount localRoot names mount) := by
      funext mount
      have hr := ih (before++(name++[0]))
        (fun w hw => hnames w (mem_cons_of_mem name hw)) mount fuel (by simpa using hf)
      simpa [Nat.add_assoc] using hr
    have hlt : ¬ (before++(name++0::strings names)).length - 1≤before.length := by
      simp only [length_append,length_cons]
      omega
    rw [strings_cons,mountFrom,if_neg hlt,hat]
    simp only [bind,Option.bind,hr,withChild_eq]
    rfl

private theorem searchLoop_eq (hnames : ∀ w∈names, 0∉w) (hf : names.length<fuel)
    (children : List (CString × Mount)) (last : Option Nat) (outpath depth treeDepth : Nat) :
    ∃ search, searchLoop (before++strings names) (before++strings names).length fuel
        before.length children ⟨last,outpath,depth+1,treeDepth⟩=some search ∧
      (search.last, search.outpath, search.treeDepth) =
        match deepest names (.entry none children) with
        | (some node, count) =>
          (some node, before.length + (strings (names.take count)).length, depth+count)
        | (none, _) => (last, outpath, treeDepth) := by
  obtain _ | fuel := fuel
  · omega
  induction names generalizing before fuel children last outpath depth treeDepth with
  | nil =>
    refine ⟨⟨last,outpath,depth+1,treeDepth⟩,?_,rfl⟩
    rw [searchLoop,if_pos (by simp [strings])]
  | cons name names ih =>
    have hat : stringAt (before++(name++0::strings names)) before.length=some name :=
      stringAt_eq before _ (hnames name mem_cons_self)
    obtain ⟨fuel,rfl⟩ : ∃ k, fuel=k+1 :=
      Nat.exists_eq_add_one.2 (by simp only [length_cons] at hf; omega)
    have hlt : ¬ (before++(name++0::strings names)).length≤before.length := by
      simp only [length_append,length_cons]
      omega
    rw [strings_cons,searchLoop,if_neg hlt,hat]
    simp only [bind,Option.bind,deepest]
    cases hc : children.lookup name with
    | none => exact ⟨_,rfl,rfl⟩
    | some child =>
      obtain ⟨file,children'⟩ := child
      have hp : before++(name++[0])++strings names=before++(name++0::strings names) := by simp
      have hlen : (before++(name++[0])).length=before.length+name.length+1 := by
        simp [Nat.add_assoc]
      have hr := fun last outpath treeDepth => ih (before++(name++[0]))
        (fun w hw => hnames w (mem_cons_of_mem name hw)) children' last outpath (depth+1)
        treeDepth fuel (by simpa using hf)
      rw [hp,hlen] at hr
      cases file with
      | none =>
        obtain ⟨search,hs,hre⟩ := hr last outpath treeDepth
        refine ⟨search,hs,hre.trans ?_⟩
        rcases hd : deepest names (.entry none children') with ⟨_ | node,count⟩
        · simp [hd]
        simp only [hd,take_succ_cons,strings_cons,length_append,length_cons]
        congr 2 <;> omega
      | some file =>
        obtain ⟨search,hs,hre⟩ := hr _ (before.length+name.length+1) (depth+1)
        refine ⟨search,hs,hre.trans ?_⟩
        rcases hd : deepest names (.entry none children') with ⟨_ | node,count⟩
        · simp [deepest_entry,hd,strings,Nat.add_assoc]
        simp only [deepest_entry,hd,take_succ_cons,strings_cons,length_append, length_cons]
        congr 2 <;> omega

private theorem zero_cons_strings (names : List CString) :
    0::strings names=names.flatMap (0 :: ·)++[0] := by
  induction names with
  | nil => rfl
  | cons name names ih => simp [← ih]

/-- The strings of a path after it has been cut. The root has an empty name after its separator. -/
def cutNames (names : List CString) : List CString := if names=[] then [[]] else names

theorem chop_render (hnames : ∀ w∈names, PathName w) :
    chop (render names).length (render names++[0])=0::strings (cutNames names) := by
  rw [render,cutNames]
  split_ifs with hn
  · rfl
  · exact chop_path hnames

theorem length_cutNames (names : List CString) :
    (strings (cutNames names)).length=(render names).length := by
  rw [render,cutNames]
  split_ifs
  · rfl
  · exact length_strings

theorem store_cut : store (render names).length [0] (0::strings (cutNames names)) =
      some (0::strings (cutNames names)) := by
  have hlen : (render names).length=((cutNames names).flatMap (0 :: ·)).length := by
    have h := congrArg length (zero_cons_strings (cutNames names))
    simp only [length_cons,length_append,length_nil] at h
    rw [← length_cutNames]
    omega
  rw [zero_cons_strings,hlen]
  exact store_eq _ [] (show [(0 : UInt8)].length=[(0 : UInt8)].length from rfl)

section
variable (hnames : ∀ w ∈ names, PathName w)
include hnames

theorem pathTokenize_eq : pathTokenize (render names++[0]) (render names).length =
      some (1, (cutNames names).length, 0::strings (cutNames names)) := by
  have hc : (render names).count pathSeparator=(cutNames names).length := by
    rw [render,cutNames]
    split_ifs
    · rfl
    · exact count_path hnames
  rw [pathTokenize,chop_render hnames,store_cut,take_left,hc]
  rfl

theorem stringAt_cut {name : CString} (hr : names.drop k=name::rest) :
    stringAt (0::strings (cutNames names)) (1 + (strings (names.take k)).length)=some name := by
  have hs : names=names.take k++name::rest := by
    rw [← hr,take_append_drop]
  have hc : cutNames names=names := if_neg fun hni => by simp [hni] at hr
  have hn : 0∉name := by
    have hmem : name∈names := mem_of_mem_drop (hr ▸ mem_cons_self)
    exact (hnames name hmem).noNul
  have hst : strings names=strings (names.take k)++(name++0::strings rest) := by
    conv_lhs => rw [hs]
    simp [strings]
  have hat := stringAt_eq (0::strings (names.take k)) (strings rest) hn
  rw [hc,hst,Nat.add_comm]
  exact hat

private theorem vfsMount_eq : vfsMount (render names) localRoot table =
      some ⟨if names=[] then some localRoot else table.fsRoot,
        insertMount localRoot names table.tree⟩ := by
  obtain ⟨fsRoot,tree⟩ := table
  rw [vfsMount,if_neg (by simp [head?_render]),chop_render hnames,store_cut]
  cases names with
  | nil =>
    obtain ⟨file,children⟩ := tree
    rfl
  | cons name names =>
    have hn := hnames name mem_cons_self
    obtain ⟨c,rest,hc⟩ := exists_cons_of_ne_nil hn.ne_nil
    have hz : c≠0 := fun heq => hn.noNul (by simp [hc,heq])
    have hb : (0::strings (cutNames (name::names)))[1]? = some c := by
      simp [cutNames,hc]
    have hlen : (render (name::names)).length=([0]++strings (name::names)).length - 1 := by
      rw [← length_cutNames]
      simp [cutNames]
    have hf : (name::names).length<(render (name::names)).length + 1 := by
      have hle := length_le_strings (name::names)
      rw [hlen,length_append,length_singleton]
      omega
    have hm := mountFrom_eq [0] localRoot hnames hf tree
    rw [← hlen] at hm
    simp only [bind,Option.bind,hb,if_neg hz]
    rw [show cutNames (name::names)=name::names from rfl,← singleton_append]
    rw [length_singleton] at hm
    rw [hm]
    rfl

theorem getMountPoint_eq (fsRoot : Option Nat) (children : List (CString × Mount))
    (he : names=[] → children.lookup []=none) :
    getMountPoint ⟨fsRoot,.entry fsRoot children⟩ (0::strings (cutNames names))
        (cutNames names).length 1=some ((deepest names (.entry fsRoot children)).1,
        1 + (strings (names.take (deepest names (.entry fsRoot children)).2)).length,
        (deepest names (.entry fsRoot children)).2) := by
  by_cases hn : names=[]
  · subst hn
    have hat : stringAt [0, 0] 1=some [] := rfl
    have hc : 0::strings (cutNames [])=[0, 0] := rfl
    simp only [getMountPoint,hc,bind,Option.bind,searchLoop, hat,he]
    rfl
  · have hc : cutNames names=names := if_neg hn
    have hnu : ∀ w∈names, 0∉w := fun w hw => (hnames w hw).noNul
    have hs := skipStrings_eq [] ([]::names) (by simpa using hnu)
    obtain ⟨search,hse,hr⟩ := searchLoop_eq [0] hnu (Nat.lt_succ_self _) children fsRoot 1 0 0
    simp only [nil_append,strings_cons,length_nil,length_cons,singleton_append] at hs hse
    simp only [getMountPoint,hc,bind,Option.bind,hs,hse]
    rw [hr,deepest_entry names fsRoot]
    rcases deepest names (.entry none children) with ⟨_ | node,count⟩
    · rfl
    · simp

end
end Cut

def mountedAt (history : List (CString × Nat)) (path : CString) : Option Nat :=
  (history.reverse.find? fun m => m.1=path).map Prod.snd

private theorem mountedAt_concat (history : List (CString × Nat)) :
    mountedAt (history++[(path, node)]) path' =
      if path=path' then some node else mountedAt history path' := by
  by_cases hp : path=path' <;> simp [mountedAt,hp]

def vfsMountAll (history : List (CString × Nat)) (table : MountTable) : Option MountTable :=
  history.foldlM (fun table m => vfsMount m.1 m.2 table) table

structure Represents (history : List (CString × Nat)) (table : MountTable) : Prop where
  file : ∀ names, (∀ w∈names, PathName w) → fileAt names table.tree=mountedAt history (render names)
  shape : ∃ children, table.tree = .entry table.fsRoot children ∧ children.lookup []=none

private theorem vfsInstall_represents : Represents [] vfsInstall where
  file names _ := fileAt_empty names
  shape := ⟨[],rfl,rfl⟩

private theorem render_injective {names names' : List CString} (hnames : ∀ w∈names, PathName w)
    (hn' : ∀ w∈names', PathName w) (h : render names=render names') : names=names' := by
  rw [← tokens_render fun w hw => (hnames w hw).toIsName,h,
    tokens_render fun w hw => (hn' w hw).toIsName]

private theorem Represents.vfsMount (h : Represents history table) {names : List CString}
    (hnames : ∀ w∈names, PathName w) (localRoot : Nat) :
    ∃ table', vfsMount (render names) localRoot table=some table' ∧
      Represents (history++[(render names, localRoot)]) table' := by
  refine ⟨_,vfsMount_eq hnames,?_,?_⟩
  · intro names' hn'
    rw [fileAt_insertMount,mountedAt_concat,h.file names' hn']
    by_cases heq : names' = names
    · simp [heq]
    have hne : render names≠render names' := fun hr =>
      heq (render_injective hn' hnames hr.symm)
    simp [heq,hne]
  · obtain ⟨children,ht,he⟩ := h.shape
    rw [ht]
    cases names with
    | nil => exact ⟨children,rfl,he⟩
    | cons name names =>
      refine ⟨_,rfl,?_⟩
      have hna : []≠name := fun heq => (hnames name mem_cons_self).ne_nil heq.symm
      rw [lookup_updateChild,if_neg hna,he]

theorem IsCanonical.exists_pathNames (h : IsCanonical path) (hn : 0∉path) :
    (∀ w∈components path, PathName w) ∧ path=render (components path) := by
  obtain ⟨names,hnames,hp,ht⟩ := h.exists_names
  rw [← tokens_eq_components,ht]
  refine ⟨fun w hw => ⟨(hnames w hw).toIsName,fun hz => hn ?_⟩,hp⟩
  exact tokens_mem w (ht.symm ▸ hw) 0 hz

private theorem vfsMountAll_represents {history before : List (CString × Nat)} {table : MountTable}
    (hh : ∀ m∈history, IsCanonical m.1 ∧ 0∉m.1) (h : Represents before table) :
    ∃ table', vfsMountAll history table=some table' ∧ Represents (before++history) table' := by
  induction history generalizing before table with
  | nil => exact ⟨table,rfl,by simpa using h⟩
  | cons m history ih =>
    obtain ⟨path,localRoot⟩ := m
    obtain ⟨hc,hn⟩ := hh _ mem_cons_self
    obtain ⟨hnames,hp⟩ := hc.exists_pathNames hn
    obtain ⟨table1,hmo,h1⟩ := h.vfsMount hnames localRoot
    rw [← hp] at hmo h1
    obtain ⟨table',ha,h'⟩ := ih (fun m hm => hh m (mem_cons_of_mem _ hm)) h1
    refine ⟨table',?_,by simpa using h'⟩
    rw [vfsMountAll,foldlM_cons,hmo]
    exact ha

/-- After any mounts at canonical paths, for any canonical path. -/
theorem getMountPoint_longest (history : List (CString × Nat))
    (hhistory : ∀ m ∈ history, IsCanonical m.1 ∧ 0 ∉ m.1) (path : CString)
    (hpath : IsCanonical path) (hnul : 0 ∉ path) :
    ∃ table pathOffset pathDepth cut last outpath outdepth,
      vfsMountAll history vfsInstall = some table ∧
      pathTokenize (path ++ [0]) path.length = some (pathOffset, pathDepth, cut) ∧
      getMountPoint table cut pathDepth pathOffset = some (last, outpath, outdepth) ∧
      IsDeepest (components path) (fun names => mountedAt history (render names)) last outdepth ∧
      outpath = 1 + (strings ((components path).take outdepth)).length ∧
      ∀ name rest, (components path).drop outdepth = name :: rest →
        stringAt cut outpath = some name := by
  obtain ⟨table,hm,hta⟩ := vfsMountAll_represents hhistory vfsInstall_represents
  obtain ⟨hnames,hr⟩ := hpath.exists_pathNames hnul
  obtain ⟨children,htr,he⟩ := hta.shape
  have ht := pathTokenize_eq hnames
  rw [← hr] at ht
  have hp := getMountPoint_eq hnames table.fsRoot children fun _ => he
  rw [← htr] at hp
  refine ⟨table,_,_,_,_,_,_,hm,ht,hp,?_,rfl,?_⟩
  · refine (deepest_isDeepest _ table.tree).congr fun k => ?_
    exact hta.file _ fun w hw => hnames w (mem_of_mem_take hw)
  · intro name rest hre
    exact stringAt_cut hnames hre

/-- A disk at `/` and two file systems at `/dev`, one after the other. -/
theorem getMountPoint_dev :
    let history := [(cString "/", 1), (cString "/dev", 2), (cString "/dev", 3)]
    (∀ m ∈ history, IsCanonical m.1 ∧ 0 ∉ m.1) ∧ IsCanonical (cString "/dev/pts") ∧
    ∃ table pathOffset pathDepth cut last outpath outdepth,
      vfsMountAll history vfsInstall = some table ∧
      pathTokenize (cString "/dev/pts" ++ [0]) 8 = some (pathOffset, pathDepth, cut) ∧
      getMountPoint table cut pathDepth pathOffset = some (last, outpath, outdepth) ∧
      IsDeepest [cString "dev", cString "pts"] (fun names => mountedAt history (render names))
        last outdepth := by
  intro history
  have hr : IsCanonical (cString "/") := ⟨[],by decide,by decide⟩
  have hde : IsCanonical (cString "/dev") := ⟨[cString "dev"],by decide,by decide⟩
  have hpt : IsCanonical (cString "/dev/pts") :=
    ⟨[cString "dev", cString "pts"],by decide,by decide⟩
  have hh : ∀ m∈history, IsCanonical m.1 ∧ 0∉m.1 := by
    intro m hm
    simp only [history,mem_cons,not_mem_nil,or_false] at hm
    rcases hm with rfl | rfl | rfl
    · exact ⟨hr,by decide⟩
    · exact ⟨hde,by decide⟩
    · exact ⟨hde,by decide⟩
  obtain ⟨table,pathOffset,pathDepth,cut,last,outpath,outdepth,hmo,ht,hp,
    hd,-⟩ := getMountPoint_longest history hh (cString "/dev/pts") hpt (by decide)
  exact ⟨hh,hpt,table,pathOffset,pathDepth,cut,last,outpath,outdepth,hmo,ht,hp,hd⟩
end RazionOS.Kernel.Vfs.Bytes
