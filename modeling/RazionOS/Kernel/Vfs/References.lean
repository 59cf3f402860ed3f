import RazionOS.Kernel.Vfs.Resolve

/-! # Calls on the parent of a path -/

namespace RazionOS.Kernel.Vfs
open Framework Function Option

theorem withRef_ne : withRef refcount node≠refcount := by
  intro heq
  have hn := congrFun heq node
  rw [withRef,update_self] at hn
  cases hc : refcount node with
  | none =>
    rw [hc] at hn
    cases hn
  | some n =>
    rw [hc,getD_some,some.injEq] at hn
    omega

theorem closeFs_refcount (hwf : WellFormed fs base) (h : st.refcount=withRef base.refcount node) :
    (closeFs node st).refcount=base.refcount := by
  rw [closeFs_eq h fun n hn => (hwf.counted node n hn).1]

@[simp] theorem closeFs_calls : (closeFs node st).calls=st.calls := by
  rw [closeFs]
  split
  · rfl
  · split_ifs <;> rfl

private theorem Holds.wellFormed (hwf : WellFormed fs base) (h : Holds base st node) :
    WellFormed fs st := by
  have his : ∀ m, (base.refcount m).isSome → (st.refcount m).isSome := by
    intro m hm
    rw [h.refcount,withRef]
    by_cases heq : m=node
    · simp [heq]
    · rwa [update_of_ne heq]
  refine ⟨fun m n hm => ?_,fun path => his _ (hwf.mounted path),
    fun inode name m hm => his m (hwf.existing inode name m hm)⟩
  rw [h.refcount,withRef] at hm
  by_cases heq : m=node
  · subst heq
    rw [update_self,some.injEq] at hm
    refine ⟨?_,h.lt_next⟩
    cases hcn : base.refcount m with
    | none =>
      rw [hcn,getD_none] at hm
      omega
    | some k =>
      have hk := (hwf.counted m k hcn).1
      rw [hcn,getD_some] at hm
      omega
  · rw [update_of_ne heq] at hm
    have hc := hwf.counted m n hm
    exact ⟨hc.1,Nat.lt_of_lt_of_le hc.2 h.next⟩

abbrev parentOf (fs : Fs) (proc : Process) (st : State) (path : CString) : Except Int Attr :=
  resolve fs proc st.attr false 0 (parentPath path) proc.wdName

/-- The call is refused, or the file system was asked once, with the parent and the name. -/
inductive Ends (fs : Fs) (proc : Process) (st : State) (op : FsOp) (path src : CString) :
    Int × State → Prop
  | refused (hret : ret≠0) (hcnt : st'.refcount=st.refcount) :
    Ends fs proc st op path src (ret, st')
  | asked (hpar : parentOf fs proc st path = .ok parent) (hname : noName src=false)
    (hcalls : st'.calls=⟨op,parent.inode,src⟩::st.calls)
    (hcnt : ret≠0 → st'.refcount=st.refcount) : Ends fs proc st op path src (ret, st')

theorem fileGetParent_opened (hwf : WellFormed fs st) :
    Opened st (fileGetParent fs proc path st) (parentOf fs proc st path) :=
  kopenRecur_opened hwf false 0 (parentPath path) _

/-- A node is only made by an operation that succeeds. -/
def Makes (run : NodeOp) : Prop :=
  ∀ parent name, (run parent name).1≠0 → (run parent name).2=none

private theorem made_makes : (made out result).1≠0 → (made out result).2=none := by
  cases result with
  | error ret => exact fun _ => rfl
  | ok attr => exact fun h => absurd rfl h

theorem runOp_ends (hwf : WellFormed fs base) (hru : Makes run) (h : Holds base st node)
    (hp : parentOf fs proc base path = .ok (st.attr node)) (hn : noName src=false) :
    Ends fs proc base op path src ((runOp op run (st.attr node) src st).1,
        closeFs node (runOp op run (st.attr node) src st).2) := by
  have hm := hru (st.attr node) src
  rw [runOp]
  generalize run (st.attr node) src=result at hm
  obtain ⟨ret,made⟩ := result
  cases made with
  | none =>
    refine .asked hp hn ?_ fun _ => closeFs_refcount hwf h.refcount
    simp [logCall,h.calls]
  | some attr =>
    refine .asked hp hn ?_ fun hr => absurd (hm hr) nofun
    simp [logCall,newNode,h.calls]

private theorem inParent_ends (hwf : WellFormed fs st) (hr : Makes run) (hi : invalid≠0) :
    Ends fs proc st op name (fsBasename before name)
      (inParent fs proc op checked hasOp invalid run before name st) := by
  have ho : Opened st (fileGetParent fs proc name st) (parentOf fs proc st name) :=
    fileGetParent_opened hwf
  have hf : Fails (parentOf fs proc st name) := resolve_fails _ _ _ _
  rw [inParent]
  generalize hre : fileGetParent fs proc name st=result at ho
  generalize ha : parentOf fs proc st name=attr at ho hf
  cases ho with
  | error hs =>
    have he := hf.of_error rfl
    exact .refused (by omega) hs.refcount
  | ok hh =>
    have hc := closeFs_refcount hwf hh.refcount
    simp only
    split_ifs with hp hop hn
    · exact .refused (by decide) hc
    · exact .refused (by decide) hc
    · exact .refused (by omega) hc
    · exact runOp_ends hwf hr hh ha (by simpa using hn)

private theorem names_parentPath_noName (h : noName (fsBasename before path)=true) :
    names cwd (parentPath path)=[] := by
  rcases path_end_cases path with hp | ⟨A,B,Z,hB,hZ,hA,rfl⟩
  · rw [names_parentPath,names_slashes cwd hp,List.dropLast_nil]
  rw [fsBasename_eq before hB hZ hA] at h
  cases B with
  | nil => exact absurd rfl hB.ne_nil
  | cons c B =>
    have hc : c≠pathSeparator := fun heq => hB.noSeparator (heq ▸ List.mem_cons_self)
    simp [noName,hc] at h

theorem fileGetParent_noName (h : noName (fsBasename before path)=true) :
    fileGetParent fs proc path st=(.ok fs.root, openFs fs.root st) := by
  rw [fileGetParent,kopenError,kopenRecur,kopenStart,names_parentPath_noName h,if_pos rfl]

/-- The root is opened for a symbolic link without a name, and not closed. -/
def SymlinkLeaks (fs : Fs) (proc : Process) (st : State) (before : UInt8) (name : CString) : Prop :=
  noName (fsBasename before name)=true ∧ hasPermission proc (st.attr fs.root) (wOk ||| xOk)=true ∧
    (st.attr fs.root).hasSymlink=true

theorem symlinkFs_leaks (h : SymlinkLeaks fs proc st before name) :
    symlinkFs fs proc before target name st=(-Errno.inval, openFs fs.root st) := by
  obtain ⟨hn,hp,hop⟩ := h
  rw [symlinkFs,fileGetParent_noName hn]
  simp [hp,hop,hn]

private theorem symlinkFs_ends (hwf : WellFormed fs st)
    (hl : ¬SymlinkLeaks fs proc st before name) :
    Ends fs proc st .symlink name (fsBasename before name)
      (symlinkFs fs proc before target name st) := by
  have ho : Opened st (fileGetParent fs proc name st) (parentOf fs proc st name) :=
    fileGetParent_opened hwf
  have hf : Fails (parentOf fs proc st name) := resolve_fails _ _ _ _
  have hr : noName (fsBasename before name)=true →
      fileGetParent fs proc name st=(.ok fs.root, openFs fs.root st) := fileGetParent_noName
  rw [symlinkFs]
  generalize hre : fileGetParent fs proc name st=result at ho hr
  generalize ha : parentOf fs proc st name=attr at ho hf
  cases ho with
  | error hs =>
    have he := hf.of_error rfl
    exact .refused (by omega) hs.refcount
  | ok hh =>
    have hc := closeFs_refcount hwf hh.refcount
    simp only
    split_ifs with hp hop hn
    · exact .refused (by decide) hc
    · exact .refused (by decide) hc
    · -- the parent is the root here
      cases hr hn
      exact absurd ⟨hn,by simpa using hp,by simpa using hop⟩ hl
    · exact runOp_ends hwf (fun _ _ _ => rfl) hh ha (by simpa using hn)

private theorem renameOut_refcount :
    (renameOut fs proc before src dest srcParent destParent st).2.refcount=st.refcount := by
  rw [renameOut]
  cases (st.attr srcParent).mount with
  | none => rfl
  | some mount =>
    simp only
    split_ifs <;> rfl

private theorem renameFileFs_refcount (hwf : WellFormed fs st) :
    (renameFileFs fs proc before src dest st).2.refcount=st.refcount := by
  rw [renameFileFs]
  by_cases he : src=[] ∨ dest=[]
  · rw [if_pos he]
  rw [if_neg he]
  have hsr : Opened st (fileGetParent fs proc src st) (parentOf fs proc st src) :=
    fileGetParent_opened hwf
  generalize fileGetParent fs proc src st=result at hsr
  generalize parentOf fs proc st src=attr at hsr
  cases hsr with
  | error hs => exact hs.refcount
  | @ok st1 srcParent hh =>
    have hwf1 := hh.wellFormed hwf
    have hd : Opened st1 (fileGetParent fs proc dest st1) (parentOf fs proc st1 dest) :=
      fileGetParent_opened hwf1
    simp only
    generalize fileGetParent fs proc dest st1=result at hd
    generalize parentOf fs proc st1 dest=attr at hd
    cases hd with
    | error hs => exact closeFs_refcount hwf (hs.refcount.trans hh.refcount)
    | @ok st2 destParent hh2 =>
      have ho : (renameOut fs proc before src dest srcParent destParent st2).2.refcount =
          st2.refcount := renameOut_refcount
      have hc := closeFs_refcount hwf1 (ho.trans hh2.refcount)
      exact closeFs_refcount hwf (hc.trans hh.refcount)

/-- The node that is no directory is opened, and not closed. -/
def ChdirLeaks (fs : Fs) (proc : Process) (st : State) (newdir : CString) : Prop :=
  ∃ attr, resolve fs proc st.attr false 0 (canonicalizePath proc.wdName newdir) proc.wdName =
    .ok attr ∧ attr.directory=false

private theorem sysChdir_balance (hwf : WellFormed fs st) :
    ((sysChdir fs proc (some newdir) st).1≠0 →
      (sysChdir fs proc (some newdir) st).2.2.refcount=st.refcount) ↔
      ¬ChdirLeaks fs proc st newdir := by
  have ho : Opened st _
      (resolve fs proc st.attr false 0 (canonicalizePath proc.wdName newdir) proc.wdName) :=
    kopenRecur_opened hwf false 0 _ _
  rw [sysChdir,kopenError,ChdirLeaks]
  generalize kopenRecur fs proc false 0 _ _ st=result at ho
  generalize resolve fs proc st.attr false 0 _ _=attr at ho
  cases ho with
  | error hs =>
    refine iff_of_true (fun _ => hs.refcount) ?_
    rintro ⟨attr,ha,-⟩
    cases ha
  | @ok st1 chd hh =>
    by_cases hd : (st1.attr chd).directory
    · refine iff_of_true ?_ ?_
      · by_cases hp : hasPermission proc (st1.attr chd) xOk
        · simp [hd,hp]
        · simpa [hd,hp] using fun _ => closeFs_refcount hwf hh.refcount
      · rintro ⟨attr,ha,hf⟩
        cases ha
        exact absurd (hd.symm.trans hf) nofun
    · have hf : (st1.attr chd).directory=false := by simpa using hd
      refine iff_of_false (fun h => ?_) (fun h => h ⟨_,rfl,hf⟩)
      have hs : st1.refcount=st.refcount := by
        simpa [hf,Errno.notDir] using h
      exact withRef_ne (hh.refcount.symm.trans hs)

inductive NameCall where
  | create (permission : Nat)
  | mkdir (out : Bool) (permission : Nat)
  | symlink (target : CString)
  | unlink

def NameCall.op : NameCall → FsOp
  | .create _ => .create
  | .mkdir _ _ => .mkdir
  | .symlink _ => .symlink
  | .unlink => .unlink

def NameCall.run (fs : Fs) (proc : Process) (before : UInt8) (name : CString) (st : State) :
    NameCall → Int × State
  | .create permission => createFileFs fs proc before name permission st
  | .mkdir out permission => mkdirFs fs proc out before name permission st
  | .symlink target => symlinkFs fs proc before target name st
  | .unlink => unlinkFs fs proc before name st

inductive Call where
  | named (call : NameCall) (before : UInt8) (name : CString)
  | rename (before : UInt8) (src dest : CString)
  | chdir (newdir : Option CString)

def Call.run (fs : Fs) (proc : Process) (st : State) : Call → Int × State
  | .named call before name => call.run fs proc before name st
  | .rename before src dest => renameFileFs fs proc before src dest st
  | .chdir newdir => ((sysChdir fs proc newdir st).1, (sysChdir fs proc newdir st).2.2)

/-- The calls that fail and keep a node open. -/
def Leaks (fs : Fs) (proc : Process) (st : State) : Call → Prop
  | .named (.symlink _) before name => SymlinkLeaks fs proc st before name
  | .chdir (some newdir) => ChdirLeaks fs proc st newdir
  | _ => False

private theorem Ends.balance (h : Ends fs proc st op path src result) :
    result.1≠0 → result.2.refcount=st.refcount := by
  cases h with
  | refused _ hc => exact fun _ => hc
  | asked _ _ _ hc => exact hc

theorem NameCall.run_ends {call : NameCall} (hwf : WellFormed fs st)
    (hl : ¬Leaks fs proc st (.named call before name)) :
    Ends fs proc st call.op name (fsBasename before name) (call.run fs proc before name st) := by
  cases call with
  | create permission =>
    rw [NameCall.run]
    exact inParent_ends hwf (fun _ _ => made_makes) (by decide)
  | mkdir out permission =>
    rw [NameCall.run]
    exact inParent_ends hwf (fun _ _ => made_makes) (by decide)
  | symlink target => exact symlinkFs_ends hwf hl
  | unlink =>
    rw [NameCall.run]
    exact inParent_ends hwf (fun _ _ _ => rfl) (by decide)

private theorem Call.run_balance (hwf : WellFormed fs st) (call : Call) :
    ((call.run fs proc st).1≠0 → (call.run fs proc st).2.refcount=st.refcount) ↔
      ¬Leaks fs proc st call := by
  cases call with
  | rename before src dest =>
    exact iff_of_true (fun _ => renameFileFs_refcount hwf) (fun h => h)
  | chdir newdir =>
    cases newdir with
    | none => exact iff_of_true (fun _ => rfl) (fun h => h)
    | some newdir => exact sysChdir_balance hwf
  | named call before name =>
    refine ⟨fun h hl => ?_,fun hl => (call.run_ends hwf hl).balance⟩
    cases call with
    | symlink target =>
      have hr : symlinkFs fs proc before target name st=(-Errno.inval, openFs fs.root st) :=
        symlinkFs_leaks hl
      have hs : (openFs fs.root st).refcount=st.refcount := by
        simpa [Call.run,NameCall.run,hr,Errno.inval] using h
      have hh := (Same.refl st).open hwf hwf.root
      exact withRef_ne (hh.refcount.symm.trans hs)
    | create permission => exact hl
    | mkdir out permission => exact hl
    | unlink => exact hl

def sampleDir : Attr where
  inode := 0
  directory := true
  symlink := false
  mask := 0o777
  uid := 0
  gid := 0
  mount := some 0
  hasFinddir := true
  hasReadlink := false
  hasCreate := true
  hasUnlink := true
  hasMkdir := true
  hasSymlink := true
  hasRename := true

def sampleFile : Attr := { sampleDir with inode := 1, directory := false, hasFinddir := false }

def sampleFs : Fs where
  root := 0
  mounts := []
  finddir inode name := if inode=0 ∧ name=[102] then some (.fresh sampleFile) else none
  readlink _ := (-Errno.inval, [])
  create _ _ _ := .ok sampleFile
  mkdir _ _ _ := .ok sampleDir
  unlink _ _ := 0
  symlink _ _ _ := 0
  rename _ _ _ _ _ := 0

def sampleProcess : Process where
  user := 1000
  userGroup := 1000
  realUser := 1000
  realUserGroup := 1000
  supplementaryGroups := []
  wdName := [pathSeparator]
  wdNode := 0

def sampleState : State where
  attr _ := sampleDir
  refcount node := if node=0 then some 2 else none
  next := 1
  calls := []

theorem sampleState_wellFormed : WellFormed sampleFs sampleState := by
  refine ⟨fun node n h => ?_,fun path => ?_,fun inode name node h => ?_⟩
  · by_cases hn : node=0
    · simp [sampleState] at h
      simp [sampleState]
      omega
    · simp [sampleState,hn] at h
  · cases path <;> rfl
  · simp [sampleFs] at h

/-- `kopen_recur` takes one reference to the node it returns, and a call that fails leaves the
counts as they were exactly when it is not one of those that leak. -/
theorem reference_balance (fs : Fs) (proc : Process) (st : State) (hwf : WellFormed fs st) :
    (∀ nofollow symlinkDepth filename relativeTo,
      let result := kopenRecur fs proc nofollow symlinkDepth filename relativeTo st
      Yields (fun _ => result.2.refcount = st.refcount)
        (fun node => result.2.refcount = withRef st.refcount node) result.1) ∧
      ∀ call : Call, ((call.run fs proc st).1 ≠ 0 →
        (call.run fs proc st).2.refcount = st.refcount) ↔ ¬Leaks fs proc st call := by
  refine ⟨fun nofollow symlinkDepth filename relativeTo => ?_,fun call => call.run_balance hwf⟩
  have ho : Opened st (kopenRecur fs proc nofollow symlinkDepth filename relativeTo st) _ :=
    kopenRecur_opened hwf nofollow symlinkDepth filename relativeTo
  generalize kopenRecur fs proc nofollow symlinkDepth filename relativeTo st=result at ho
  generalize resolve fs proc st.attr nofollow symlinkDepth filename relativeTo=attr at ho
  cases ho with
  | ok hh => exact .ok hh.refcount
  | error hs => exact .error hs.refcount

theorem reference_balance_missing : WellFormed sampleFs sampleState ∧
    ((Call.chdir (some [97])).run sampleFs sampleProcess sampleState).1 = -Errno.noEnt ∧
      ((Call.chdir (some [97])).run sampleFs sampleProcess sampleState).2.refcount =
        sampleState.refcount := by
  have hr : ((Call.chdir (some [97])).run sampleFs sampleProcess sampleState).1 =
      -Errno.noEnt := by decide +kernel
  refine ⟨sampleState_wellFormed,hr,?_⟩
  apply ((reference_balance sampleFs sampleProcess sampleState sampleState_wellFormed).2 _).2
  · rintro ⟨attr,ha,-⟩
    have he : resolve sampleFs sampleProcess sampleState.attr false 0
        (canonicalizePath sampleProcess.wdName [97]) sampleProcess.wdName =
          .error Errno.noEnt := rfl
    cases he.symm.trans ha
  · decide

/-- The root gets a third reference, and the node of the file `f` is never freed. -/
theorem symlinkFs_sysChdir_leak :
    (symlinkFs sampleFs sampleProcess 0 [97] [47] sampleState).1 = -Errno.inval ∧
      (symlinkFs sampleFs sampleProcess 0 [97] [47] sampleState).2.refcount 0 = some 3 ∧
      (sysChdir sampleFs sampleProcess (some [102]) sampleState).1 = -Errno.notDir ∧
      (sysChdir sampleFs sampleProcess (some [102]) sampleState).2.2.refcount 1 = some 1 ∧
      sampleState.refcount 0 = some 2 ∧ sampleState.refcount 1 = none := by
  decide +kernel

/-! ## The parent and the name -/

private theorem NameCall.run_leak {call : NameCall}
    (hl : Leaks fs proc st (.named call before path)) :
    (call.run fs proc before path st).1≠0 := by
  cases call with
  | symlink target =>
    have hr : symlinkFs fs proc before target path st=(-Errno.inval, openFs fs.root st) :=
      symlinkFs_leaks hl
    rw [NameCall.run,hr]
    exact (by decide : -Errno.inval≠0)
  | create permission => exact hl.elim
  | mkdir out permission => exact hl.elim
  | unlink => exact hl.elim

private theorem NameCall.run_asked (hwf : WellFormed fs st) {call : NameCall}
    (hr : (call.run fs proc before path st).1=0) :
    fsBasename before path≠[] ∧ ∃ parent, parentOf fs proc st path = .ok parent ∧
      (call.run fs proc before path st).2.calls =
        ⟨call.op,parent.inode,fsBasename before path⟩::st.calls := by
  have hl : ¬Leaks fs proc st (.named call before path) := fun h => NameCall.run_leak h hr
  have he := call.run_ends hwf hl
  generalize call.run fs proc before path st=result at he hr
  cases he with
  | refused hne => exact absurd hr hne
  | asked hp hn hc =>
    refine ⟨fun hem => ?_,_,hp,hc⟩
    rw [hem] at hn
    cases hn

/-- The opened parent and the name from the path agree with the canonical path exactly when the path
is proper. Then the path leads to what the parent has under that name, unless a mount point hides
it. -/
theorem parent_name_agreement (fs : Fs) (proc : Process) (st : State) (hwf : WellFormed fs st)
    (call : NameCall) (before : UInt8) (path : CString)
    (hret : (call.run fs proc before path st).1 = 0) :
    (∃ parent, parentOf fs proc st path = .ok parent ∧ (call.run fs proc before path st).2.calls =
        ⟨call.op,parent.inode,fsBasename before path⟩ :: st.calls) ∧
      (Agrees proc.wdName path (fsBasename before path) ↔ Proper path) ∧
      (Proper path → ∀ fs' attrs', (getMountPoint fs' (names proc.wdName path)).2 ≠ [] →
        (attrs' fs'.root).symlink = false → resolve fs' proc attrs' true 0 path proc.wdName =
          resolve fs' proc attrs' false 0 (parentPath path) proc.wdName >>=
            fun parent => stepInto fs' proc attrs' parent (fsBasename before path)) := by
  obtain ⟨hne,hasked⟩ := NameCall.run_asked hwf hret
  refine ⟨hasked,agrees_iff hne,fun hp fs' attrs' hm hr => ?_⟩
  exact resolve_concat (hp.names before _) hm hr

theorem parent_name_agreement_mkdir : WellFormed sampleFs sampleState ∧ Proper [97] ∧
      (NameCall.run sampleFs sampleProcess 0 [97] sampleState (.mkdir false 0o755)).1 = 0 ∧
      Agrees sampleProcess.wdName [97] (fsBasename 0 [97]) := by
  have hp : Proper [97] := ⟨by decide,[97],by decide,by decide,by decide⟩
  have hr :
      (NameCall.run sampleFs sampleProcess 0 [97] sampleState (.mkdir false 0o755)).1=0 := by
    decide +kernel
  have ha := (parent_name_agreement sampleFs sampleProcess sampleState sampleState_wellFormed
    (.mkdir false 0o755) 0 [97] hr).2.1
  exact ⟨sampleState_wellFormed,hp,hr,ha.2 hp⟩

/-- Accepted: `a/` with its slash, `.` for `a/.`, `..` for `a/..`, and for the empty path the byte
in memory before it. -/
theorem mkdirFs_improper_names :
    let run := fun before path => mkdirFs sampleFs sampleProcess false before path 0o755 sampleState
    ((run 0 [97, 47]).1 = 0 ∧ (run 0 [97, 47]).2.calls = [⟨.mkdir,0,[97, 47]⟩]) ∧
      ((run 0 [97, 47, 46]).1 = 0 ∧ (run 0 [97, 47, 46]).2.calls = [⟨.mkdir,0,pathDot⟩]) ∧
      ((run 0 [97, 47, 46, 46]).1 = 0 ∧ (run 0 [97, 47, 46, 46]).2.calls = [⟨.mkdir,0,pathUp⟩]) ∧
      ((run 120 []).1 = 0 ∧ (run 120 []).2.calls = [⟨.mkdir,0,[120]⟩] ∧
        canonicalizePath sampleProcess.wdName [] = [pathSeparator]) := by
  decide +kernel
end RazionOS.Kernel.Vfs
