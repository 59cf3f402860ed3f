import RazionOS.Framework.Runs
import RazionOS.Kernel.Vfs.Tmpfs.Tree

/-!
# Names in the directories of a tmpfs

A rename as a change of what the names denote, and the calls on one directory with their locked
sections interleaved: a call that makes a node looks for the name in one section and inserts the
node in another.
-/

namespace RazionOS.Kernel
open Framework List

def Tmpfs.name (s : Tmpfs) (i : Nat) : Option CString := (s.nodes i).map (·.name)

/-- The directory `d` has the node `c` under the name. -/
def Tmpfs.Denotes (s : Tmpfs) (d : Nat) (name : CString) (c : Nat) : Prop :=
  c∈s.files d ∧ s.name c=some name

structure Named (s : Tmpfs) : Prop where
  unique : ∀ d name c c', s.Denotes d name c → s.Denotes d name c' → c=c'
  slashFree : ∀ d name c, s.Denotes d name c → slash∉name

variable {s s' : Tmpfs} {d dd ds x c src : Nat} {dir sdir ddir node : TmpfsNode}

theorem Listing.denotes_eq (h : Listing s) (hc : s.Denotes x name c) (hc' : s.Denotes x' name' c) :
    x=x' ∧ name=name' :=
  ⟨h.once x x' c hc.1 hc'.1,Option.some.inj (hc.2.symm.trans hc'.2)⟩

private theorem Named.nodup_names (hn : Named s) (h : Listing s) :
    ((s.files x).map s.name).Nodup := by
  refine (h.nodup x).map_on fun c hc c' hc' heq => ?_
  obtain ⟨node,hno⟩ := Option.isSome_iff_exists.1 (Option.isSome_map ▸ h.live x c hc)
  have hna : s.name c=some node.name := by simp [Tmpfs.name,hno]
  exact hn.unique x _ c c' ⟨hc,hna⟩ ⟨hc',heq ▸ hna⟩

private theorem slash_not_mem_pathDup : slash∉pathDup name := fun h => by
  simpa using mem_takeWhile_imp h

theorem pathDup_eq_self (h : slash∉name) : pathDup name=name :=
  takeWhile_eq_self_iff.2 fun b hb => by simpa using fun heq : b=slash => h (heq ▸ hb)

private theorem pathComp_iff : pathComp a b=true ↔ pathDup a=pathDup b := by
  induction a generalizing b with
  | nil => cases b <;> simp [pathComp,pathDup]
  | cons a as ih =>
    cases b with
    | nil => simp [pathComp,pathDup]
    | cons b bs =>
      by_cases ha : a=slash <;> by_cases hb : b=slash <;>
        simp_all [pathComp,pathDup]

private theorem Named.passes_iff (hn : Named s) (hc : c∈s.files d) :
    (s.nodes c).any (fun node => pathComp name node.name)=true ↔
      s.name c=some (pathDup name) := by
  cases hno : s.nodes c with
  | none => simp [Tmpfs.name,hno]
  | some node =>
    have hs := hn.slashFree d node.name c ⟨hc,by simp [Tmpfs.name,hno]⟩
    rw [Tmpfs.name,hno,Option.any_some,pathComp_iff,pathDup_eq_self hs,Option.map_some,
      Option.some.injEq,eq_comm]

theorem Named.lookup_iff (hn : Named s) (hd : s.dir? d=some dir) :
    s.lookup dir (pathComp name)=some c ↔ s.Denotes d (pathDup name) c := by
  have hf : ∀ c, s.lookup dir (pathComp name)=some c → s.Denotes d (pathDup name) c := by
    intro c hc
    have hmem := lookup_mem hd hc
    have hp := find?_some hc
    exact ⟨hmem,(hn.passes_iff hmem).1 hp⟩
  refine ⟨hf c,fun h => ?_⟩
  cases hl : s.lookup dir (pathComp name) with
  | none =>
    have hno := find?_eq_none.1 hl c ((dir?_spec hd).2 ▸ h.1)
    exact absurd ((hn.passes_iff h.1).2 h.2) hno
  | some c' => rw [hn.unique d _ c c' h (hf c' hl)]

@[simp] theorem setFiles_name : (s.setFiles d f).name c=s.name c :=
  update_view s d c (·.map _) _ fun _ => rfl

theorem free_name : (s.free d).name c=if c=d then none else s.name c := by
  by_cases h : c=d <;> simp [Tmpfs.name,Tmpfs.free,h]

private theorem setName_name (hs : (s.kind src).isSome) :
    (s.setName src name).name c=if c=src then some name else s.name c := by
  split_ifs with hc
  · cases hn : s.nodes c <;> simp_all [Tmpfs.kind,Tmpfs.name,Tmpfs.setName,Tmpfs.update]
  · simp [Tmpfs.name,Tmpfs.setName,Tmpfs.update,hc]

/-- The name `dest` in `dd` has what `src` had in `ds`, and what it had before is no entry. -/
structure Renamed (s : Tmpfs) (ds : Nat) (srcName : CString) (dd : Nat) (destName : CString)
    (s' : Tmpfs) : Prop where
  source : ∃ src, s.Denotes ds srcName src
  denotes : ∀ x name c, s'.Denotes x name c ↔ if x=dd ∧ name=destName then
    s.Denotes ds srcName c else ¬(x=ds ∧ name=srcName) ∧ s.Denotes x name c
  kind : ∀ x, ∀ c∈s'.files x, s'.kind c=s.kind c
  detached : ∀ t, s.Denotes dd destName t → ¬s.Denotes ds srcName t → ∀ x, t∉s'.files x

private theorem Renamed.of_moved (h : Listing s) (hn : Named s) (hs : s.Denotes ds srcName src)
    (hne : ¬s.Denotes dd destName src)
    (hmem : ∀ x c, c∈s'.files x ↔ ¬s.Denotes dd destName c ∧ Moved s src dd x c)
    (he : ∀ c, ¬s.Denotes dd destName c → s'.kind c=s.kind c ∧
      s'.name c=if c=src then some destName else s.name c) :
    Renamed s ds srcName dd destName s' where
  source := ⟨src,hs⟩
  denotes x name c := by
    have heq : ∀ x' name', s.Denotes x name c → s.Denotes x' name' c → x=x' ∧ name=name' :=
      fun _ _ => h.denotes_eq
    have hu := hn.unique ds srcName c src
    rw [Tmpfs.Denotes,hmem,Moved]
    by_cases hc : c=src
    · split_ifs with hde <;> grind
    · grind [Tmpfs.Denotes]
  kind x c hc := (he c ((hmem x c).1 hc).1).1
  detached t ht _ x hx := ((hmem x t).1 hx).1 ht

/-- How `rename_tmpfs` ends: refused, or with the names changed. -/
inductive RenameEnds (s : Tmpfs) (ds : Nat) (srcName : CString) (dd : Nat) (destName : CString) :
    Int × Tmpfs → Prop
  | refused (hret : ret≠0) : RenameEnds s ds srcName dd destName (ret, s)
  | done {s' : Tmpfs} (h : Renamed s ds srcName dd destName s') :
    RenameEnds s ds srcName dd destName (0, s')

private theorem moveEntry_ends (h : Listing s) (hn : Named s) (hdd : s.dir? dd=some ddir)
    (hsr : s.Denotes ds srcName src) :
    RenameEnds s ds srcName dd (pathDup destName)
      (moveEntry s ds src dd (s.lookup ddir (pathComp destName)) destName) := by
  have hl := h.live ds src hsr.1
  unfold moveEntry
  split
  next hde =>
    have hno : ∀ c, ¬s.Denotes dd (pathDup destName) c := fun c hc => by
      simp [(hn.lookup_iff hdd).2 hc] at hde
    split_ifs
    · exact .refused (by decide)
    · refine .done (.of_moved h hn hsr (hno src) (fun x c => ?_) fun c _ => ?_)
      · rw [h.mem_moved_files hsr.1 (dir?_spec hdd).1,and_iff_right (hno c)]
      · simp [setName_name hl]
  next t ht =>
    have ht := (hn.lookup_iff hdd).1 ht
    have hi : ∀ c, s.Denotes dd (pathDup destName) c ↔ c=t :=
      fun c => ⟨fun hc => hn.unique _ _ _ _ hc ht,fun hc => hc ▸ ht⟩
    split_ifs with hs hf
    · subst hs
      obtain ⟨rfl,hna⟩ := h.denotes_eq hsr ht
      refine .done ⟨⟨src,hsr⟩,fun x name c => ?_,fun _ _ _ => rfl,fun c hc hc' => ?_⟩
      · rw [hna]
        split_ifs with hx
        · rw [hx.1,hx.2]
        · rw [and_iff_right hx]
      · exact absurd (hna ▸ hc) hc'
    · exact .refused (by decide)
    · exact .refused (by decide)
    · exact .refused (by decide)
    · refine .done (.of_moved h hn hsr (by rwa [hi]) (fun x c => ?_) fun c hc => ?_)
      · rw [h.mem_replaced_files hsr.1 ht.1 hs (h.files_eq_nil hf),hi]
      · rw [hi] at hc
        simp [free_kind,free_name,hc,setName_name hl]

theorem renameTmpfs_ends (h : Listing s) (hn : Named s) (hds : s.dir? ds=some sdir)
    (hdd : s.dir? dd=some ddir) (hr : renameTmpfs s ds sdir srcName dd ddir destName=some r) :
    RenameEnds s ds (pathDup srcName) dd (pathDup destName) r := by
  unfold renameTmpfs at hr
  split at hr
  · cases hr
    exact .refused (by decide)
  next src hsr =>
    dsimp only at hr
    split at hr
    · cases hr
      exact .refused (by decide)
    split at hr
    · cases hr
      exact .refused (by decide)
    obtain ⟨below,-,rfl⟩ := Option.map_eq_some_iff.1 hr
    cases below with
    | true => exact .refused (by decide)
    | false => exact moveEntry_ends h hn hdd ((hn.lookup_iff hds).1 hsr)

/-- The `parent` field of a directory names an older one that has not been freed. -/
def ParentsLive (s : Tmpfs) : Prop :=
  ∀ c p, s.kind c=some .dir → s.parent c=some p → p < c ∧ s.kind p=some .dir

private theorem TreeInv.parentsLive (h : TreeInv s) : ParentsLive s := by
  intro c p hc hp
  have hlt := h.older c p hp
  obtain ⟨d,hd⟩ := h.listed c hc (Nat.ne_zero_of_lt hlt)
  obtain rfl := Option.some.inj (hp.symm.trans (h.parent d c ⟨hd,hc⟩))
  exact ⟨hlt,h.owner p c hd⟩

private theorem ParentsLive.meetsParent (h : ParentsLive s) (src : Nat) {d n : Nat} (hn : d<n)
    (hd : s.kind d=some .dir) : ∃ below, meetsParent s src n (some d)=some below := by
  induction n generalizing d with
  | zero => omega
  | succ n ih =>
    rw [Kernel.meetsParent]
    split_ifs
    · exact ⟨true,rfl⟩
    obtain ⟨node,hno,-⟩ := Option.map_eq_some_iff.1 hd
    rw [hno,Option.bind_some]
    cases hp : node.parent with
    | none => exact ⟨false,by cases n <;> rfl⟩
    | some p =>
      obtain ⟨hlt,hk⟩ := h d p hd (by rw [Tmpfs.parent,hno,Option.bind_some,hp])
      exact ih (by omega) hk

private theorem Named.mono (hn : Named s)
    (h : ∀ x name c, s'.Denotes x name c → s.Denotes x name c) :
    Named s' where
  unique x name c c' hc hc' := hn.unique x name c c' (h x name c hc) (h x name c' hc')
  slashFree x name c hc := hn.slashFree x name c (h x name c hc)

theorem Named.create : Named Tmpfs.create := by
  have hn : ∀ x name c, ¬Tmpfs.create.Denotes x name c := fun x name c hc => by
    by_cases hx : x=Tmpfs.root <;> simp [Tmpfs.Denotes,Tmpfs.files,Tmpfs.create,hx] at hc
  exact ⟨fun x name c _ hc => absurd hc (hn x name c),fun x name c hc =>
    absurd hc (hn x name c)⟩

private theorem insert_name :
    (s.insert d node).name c=if c=s.next then some node.name else s.name c := by
  rw [Tmpfs.insert,setFiles_name]
  by_cases hc : c=s.next <;> simp [Tmpfs.name,hc]

section
variable (h : Listing s) (hd : s.kind d = some .dir) (hfiles : node.files = [])
include h hd hfiles

theorem Listing.insert_denotes : (s.insert d node).Denotes x name c ↔
    s.Denotes x name c ∨ x=d ∧ c=s.next ∧ node.name=name := by
  rw [Tmpfs.Denotes,h.mem_insert_files hd hfiles,insert_name,Tmpfs.Denotes]
  by_cases hc : c=s.next
  · subst hc
    simp [h.next_not_mem]
  · simp [hc]

theorem Named.insert (hn : Named s) (hne : ∀ c, ¬s.Denotes d node.name c)
    (hs : slash∉node.name) : Named (s.insert d node) where
  unique x name c c' hc hc' := by
    rw [h.insert_denotes hd hfiles] at hc hc'
    rcases hc with hc | ⟨rfl,rfl,rfl⟩ <;> rcases hc' with hc' | ⟨hx,hc',hna⟩
    · exact hn.unique x name c c' hc hc'
    · subst hx hna
      exact absurd hc (hne c)
    · exact absurd hc' (hne c')
    · exact hc'.symm
  slashFree x name c hc := by
    rcases (h.insert_denotes hd hfiles).1 hc with hc | ⟨-,-,rfl⟩
    · exact hn.slashFree x name c hc
    · exact hs

end

private theorem Named.renamed (hn : Named s) (h : Renamed s ds srcName dd (pathDup destName) s') :
    Named s' where
  unique x name c c' hc hc' := by
    rw [h.denotes] at hc hc'
    split_ifs at hc hc'
    · exact hn.unique _ _ c c' hc hc'
    · exact hn.unique x name c c' hc.2 hc'.2
  slashFree x name c hc := by
    rw [h.denotes] at hc
    split_ifs at hc with hde
    · exact hde.2 ▸ slash_not_mem_pathDup
    · exact hn.slashFree x name c hc.2

def oneFile : Tmpfs := Tmpfs.create.insert Tmpfs.root ⟨[97],.file,[],none⟩

/-- The tests of `create_tmpfs`, `symlink_tmpfs` and `mkdir_tmpfs`. -/
def mayInsert (s : Tmpfs) (dir : TmpfsNode) (type : NodeType) (name : CString) (permitted : Bool) :
    Bool :=
  (s.lookup dir (· == name)).isNone && (type ≠ .dir || name≠[] && permitted)

def newNode (d : Nat) (type : NodeType) (name : CString) : TmpfsNode :=
  ⟨name,type,[],if type = .dir then some d else none⟩

/-- A mount, and the nodes that calls on one directory have tested and not inserted yet. -/
structure SharedDir where
  fs : Tmpfs
  pending : List (NodeType × CString)

inductive LockedSection where
  | test (type : NodeType) (name : CString) (permitted : Bool)
  | insert (type : NodeType) (name : CString)
  | unlink (name : CString)
  | rename (srcName destName : CString)

def lockedStep (d : Nat) (st : SharedDir) (e : LockedSection) : SharedDir :=
  match st.fs.dir? d, e with
  | none, _ => st
  | some dir, .test type name permitted =>
    if mayInsert st.fs dir type name permitted then
      { st with pending := (type, name)::st.pending }
    else st
  | some _, .insert type name =>
    if (type, name)∈st.pending then
      ⟨st.fs.insert d (newNode d type name),st.pending.erase (type, name)⟩
    else st
  | some dir, .unlink name => { st with fs := (unlinkTmpfs st.fs d dir name).2 }
  | some dir, .rename srcName destName =>
    match renameTmpfs st.fs d dir srcName d dir destName with
    | none => st
    | some r => { st with fs := r.2 }

/-- No name is tested or renamed to while a node of that name is to be inserted, and the names of
new nodes are without slashes. -/
def Separate (st : SharedDir) : LockedSection → Prop
  | .test _ name _ => slash∉name ∧ name∉st.pending.map Prod.snd
  | .rename _ destName => pathDup destName∉st.pending.map Prod.snd
  | _ => True

structure PendingInv (d : Nat) (st : SharedDir) : Prop where
  tree : TreeInv st.fs
  named : Named st.fs
  distinct : (st.pending.map Prod.snd).Nodup
  missing : ∀ name∈st.pending.map Prod.snd, slash∉name ∧ ∀ c, ¬st.fs.Denotes d name c

private theorem not_denotes_of_lookup (hd : s.dir? d=some dir) (h : s.lookup dir (· == name)=none) :
    ¬s.Denotes d name c := fun hc => by
  obtain ⟨node,hno,hn⟩ := Option.map_eq_some_iff.1 hc.2
  have hf := find?_eq_none.1 h c ((dir?_spec hd).2 ▸ hc.1)
  simp [hno,hn] at hf

private theorem PendingInv.insert (h : PendingInv d st) (hd : st.fs.kind d=some .dir)
    (hmem : (type, name)∈st.pending) :
    PendingInv d ⟨st.fs.insert d (newNode d type name),st.pending.erase (type, name)⟩ := by
  obtain ⟨hs,hnew⟩ := h.missing name (mem_map_of_mem hmem)
  have hnd := h.distinct.of_map
  refine ⟨h.tree.insert hd rfl rfl,h.named.insert h.tree.listing hd rfl hnew hs,
    h.distinct.sublist (erase_sublist.map _),fun name' hn' => ?_⟩
  obtain ⟨p,hp,rfl⟩ := mem_map.1 hn'
  obtain ⟨hne,hp⟩ := hnd.mem_erase_iff.1 hp
  obtain ⟨hs',hnew'⟩ := h.missing p.2 (mem_map_of_mem hp)
  refine ⟨hs',fun c hc => ?_⟩
  rcases (h.tree.listing.insert_denotes hd rfl).1 hc with hc | ⟨-,-,heq⟩
  · exact hnew' c hc
  · exact hne (inj_on_of_nodup_map h.distinct hp hmem heq.symm)

private theorem PendingInv.setFs (h : PendingInv d st) (ht : TreeInv s) (hna : Named s)
    (hde : ∀ name∈st.pending.map Prod.snd, ∀ c, s.Denotes d name c → st.fs.Denotes d name c) :
    PendingInv d { st with fs := s } :=
  ⟨ht,hna,h.distinct,fun name hn => ⟨(h.missing name hn).1,fun c hc =>
    (h.missing name hn).2 c (hde name hn c hc)⟩⟩

private theorem PendingInv.step (h : PendingInv d st) (he : Separate st e) :
    PendingInv d (lockedStep d st e) := by
  cases hd : st.fs.dir? d with
  | none => simpa [lockedStep,hd] using h
  | some dir =>
    cases e with
    | test type name permitted =>
      simp only [lockedStep,hd]
      split_ifs with ht
      · simp only [mayInsert,Bool.and_eq_true,Option.isNone_iff_eq_none] at ht
        refine ⟨h.tree,h.named,nodup_cons.2 ⟨he.2,h.distinct⟩,?_⟩
        exact forall_mem_cons.2 ⟨⟨he.1,fun c => not_denotes_of_lookup hd ht.1⟩,h.missing⟩
      · exact h
    | insert type name =>
      simp only [lockedStep,hd]
      split
      next hmem => exact h.insert (dir?_spec hd).1 hmem
      · exact h
    | unlink name =>
      simp only [lockedStep,hd,unlinkTmpfs]
      split
      · exact h
      next i hi =>
        split_ifs with hf
        · exact h
        have hi := lookup_mem hd hi
        have hem := h.tree.listing.files_eq_nil hf
        have hsub : ∀ x name c, ((st.fs.free i).setFiles d (·.erase i)).Denotes x name c →
            st.fs.Denotes x name c := by
          intro x name c hc
          obtain ⟨hci,hmem⟩ := (h.tree.listing.mem_removed_files hi hem x c).1 hc.1
          exact ⟨hmem,by simpa [free_name,hci] using hc.2⟩
        exact h.setFs (h.tree.remove hi hem) (h.named.mono hsub) fun name _ => hsub d name
    | rename srcName destName =>
      simp only [lockedStep,hd]
      split
      · exact h
      next r hr =>
      have htr := h.tree.renameTmpfs hd hd (fun _ _ _ _ _ => .inl rfl) hr
      cases renameTmpfs_ends h.tree.listing h.named hd hd hr with
      | refused => exact h
      | done hdo =>
        refine h.setFs htr (h.named.renamed hdo) fun name hn c hc => ?_
        rw [hdo.denotes,if_neg] at hc
        · exact hc.2
        · rintro ⟨-,rfl⟩
          exact he hn

/-- Names stay unique where none is tested or renamed to between its test and insertion. -/
theorem tmpfs_names_unique (h : TreeInv s) (hn : Named s) (d : Nat) {events : List LockedSection}
    (hrun : Along (lockedStep d) Separate ⟨s,[]⟩ events) (x : Nat) :
    let s' := (events.foldl (lockedStep d) ⟨s,[]⟩).fs
    ((s'.files x).map s'.name).Nodup := by
  have hs : PendingInv d ⟨s,[]⟩ := ⟨h,hn,.nil,fun _ hna => absurd hna not_mem_nil⟩
  have hinv := hrun.inv (fun _ e hst he => hst.step he) hs
  exact hinv.named.nodup_names hinv.tree.listing

/-- One call makes a file and renames it, while another makes a directory. -/
def twoCalls : List LockedSection :=
  [.test .file [97] true, .test .dir [98] true, .insert .file [97], .insert .dir [98],
    .rename [97] [99]]

theorem tmpfs_names_unique_twoCalls :
    let s' := (twoCalls.foldl (lockedStep Tmpfs.root) ⟨Tmpfs.create,[]⟩).fs
    (s'.files Tmpfs.root).length = 2 ∧ ((s'.files Tmpfs.root).map s'.name).Nodup := by
  have hr : Along (lockedStep Tmpfs.root) Separate ⟨Tmpfs.create,[]⟩ twoCalls :=
    ⟨⟨by decide,not_mem_nil⟩,⟨by decide,by decide⟩,trivial,trivial,not_mem_nil,trivial⟩
  exact ⟨by decide,tmpfs_names_unique .create .create Tmpfs.root hr Tmpfs.root⟩

def createdTwice : SharedDir :=
  [.test .file [97] true, .test .file [97] true, .insert .file [97], .insert .file [97]].foldl
    (lockedStep Tmpfs.root) ⟨Tmpfs.create,[]⟩

/-- Two calls find no entry of the name before the first one inserts its own. -/
theorem createdTwice_same_name :
    ¬((createdTwice.fs.files Tmpfs.root).map createdTwice.fs.name).Nodup := by
  decide
end RazionOS.Kernel
