import RazionOS.Framework.Loop
import RazionOS.Kernel.Vfs.Lookup

/-! # Where a path leads -/

namespace RazionOS.Kernel.Vfs
open Framework Function List

section Resolve
variable (fs : Fs) (proc : Process) (attrs : Nat → Attr)

def foundAttr : Found → Attr
  | .fresh attr => attr
  | .existing node => attrs node

def stepInto (attr : Attr) (name : CString) : Except Int Attr :=
  if !attr.directory then .error Errno.notDir
  else if !hasPermission proc attr xOk then .error Errno.acces
  else if !attr.hasFinddir then .error Errno.noEnt
  else
    match fs.finddir attr.inode name with
    | none => .error Errno.noEnt
    | some found => .ok (foundAttr attrs found)

structure Resolver where
  recur : CString → CString → Except Int Attr
  rest : Bool → List CString → List CString → Attr → Except Int Attr

def resolveLoop (lower : Option Resolver) (nofollow : Bool) (path : List CString) :
    List CString → Attr → Except Int Attr
  | left, attr =>
    if attr.symlink && !(nofollow && left.isEmpty) then
      match lower with
      | none => .error Errno.loop
      | some lower =>
        let (len, target) := readlinkFs fs attr
        if len<0 then .error (-len)
        else if len=0 then .error Errno.noEnt
        else do
          let attr ← lower.recur target (pathUntokenize path (path.length-left.length))
          lower.rest nofollow path left attr
    else
      match left with
      | [] => .ok attr
      | name::left => do
        let attr ← stepInto fs proc attrs attr name
        resolveLoop lower nofollow path left attr

def resolveStart (lower : Option Resolver) (nofollow : Bool) (filename relativeTo : CString) :
    Except Int Attr :=
  let path := names relativeTo filename
  if path=[] then .ok (attrs fs.root)
  else
    let (node, left) := getMountPoint fs path
    resolveLoop fs proc attrs lower nofollow path left (attrs node)

def resolveRest (lower : Option Resolver) (nofollow : Bool) (path left : List CString)
    (attr : Attr) : Except Int Attr :=
  match left with
  | [] => .ok attr
  | name::left => do
    let attr ← stepInto fs proc attrs attr name
    resolveLoop fs proc attrs lower nofollow path left attr

def resolver : Nat → Option Resolver
  | 0 => none
  | links+1 =>
    some ⟨resolveStart fs proc attrs (resolver links) false,
      resolveRest fs proc attrs (resolver links)⟩

def resolve (nofollow : Bool) (symlinkDepth : Nat) (filename relativeTo : CString) :
    Except Int Attr :=
  resolveStart fs proc attrs (resolver fs proc attrs (maxSymlinkDepth-symlinkDepth)) nofollow
    filename relativeTo
end Resolve

/-- Nodes in use have a reference, and so have those that the mount points and the file systems
keep. -/
structure WellFormed (fs : Fs) (st : State) : Prop where
  counted : ∀ node n, st.refcount node=some n → 1≤n ∧ node < st.next
  mounted : ∀ path, (st.refcount (getMountPoint fs path).1).isSome
  existing : ∀ inode name node, fs.finddir inode name=some (.existing node) →
    (st.refcount node).isSome

def withRef (refcount : Nat → Option Int) (node : Nat) : Nat → Option Int :=
  update refcount node (some ((refcount node).getD 0 + 1))

structure Same (base st : State) : Prop where
  refcount : st.refcount=base.refcount
  next : base.next ≤ st.next
  attr : ∀ node<base.next, st.attr node=base.attr node
  calls : st.calls=base.calls

structure Holds (base st : State) (node : Nat) : Prop where
  refcount : st.refcount=withRef base.refcount node
  next : base.next ≤ st.next
  attr : ∀ node<base.next, st.attr node=base.attr node
  calls : st.calls=base.calls
  lt_next : node < st.next

/-- A result that is where the path leads, with a reference if it is a node. -/
inductive Opened (base : State) : Result → Except Int Attr → Prop
  | ok (h : Holds base st node) :
    Opened base (.ok node, st) (.ok (st.attr node))
  | error (h : Same base st) :
    Opened base (.error error, st) (.error error)

variable {base st : State}

theorem Same.refl (st : State) : Same st st := ⟨rfl,Nat.le_refl _,fun _ _ => rfl,rfl⟩

theorem WellFormed.root (hwf : WellFormed fs st) : (st.refcount fs.root).isSome := hwf.mounted []

theorem WellFormed.lt_next (hwf : WellFormed fs st) (hno : (st.refcount node).isSome) :
    node < st.next := by
  obtain ⟨n,hn⟩ := Option.isSome_iff_exists.1 hno
  exact (hwf.counted node n hn).2

private theorem WellFormed.unused (hwf : WellFormed fs st) (hn : st.next≤node) :
    st.refcount node=none := by
  cases hc : st.refcount node with
  | none => rfl
  | some n => exact absurd (hwf.counted node n hc).2 (Nat.not_lt.2 hn)

theorem closeFs_eq (hc : st.refcount=withRef base.refcount node)
    (hpos : ∀ n, base.refcount node=some n → 1≤n) :
    closeFs node st = { st with refcount := base.refcount } := by
  have hno : st.refcount node=some ((base.refcount node).getD 0 + 1) := by
    rw [hc,withRef,update_self]
  have hb : ∀ count, count=base.refcount node →
      update st.refcount node count=base.refcount := by
    rintro count rfl
    rw [hc,withRef,update_idem,update_eq_self]
  rw [closeFs,hno]
  cases hba : base.refcount node with
  | none =>
    rw [hba] at hb
    simp [hb]
  | some n =>
    have hn := hpos n hba
    rw [hba] at hb
    have hne : ¬n + 1<0 := by omega
    have hz : n≠0 := by omega
    simp [hne,hz,hb]

theorem Holds.close (hwf : WellFormed fs base) (h : Holds base st node) :
    Same base (closeFs node st) := by
  rw [closeFs_eq h.refcount fun n hn => (hwf.counted node n hn).1]
  exact ⟨rfl,h.next,h.attr,h.calls⟩

theorem Same.open (hwf : WellFormed fs base) (h : Same base st)
    (hno : (base.refcount node).isSome) : Holds base (openFs node st) node := by
  obtain ⟨n,hn⟩ := Option.isSome_iff_exists.1 hno
  have hpos : 0≤n := by
    have := (hwf.counted node n hn).1
    omega
  refine ⟨?_,h.next,h.attr,h.calls,Nat.lt_of_lt_of_le (hwf.lt_next hno) h.next⟩
  simp [openFs,withRef,h.refcount,hn,hpos]

private theorem Same.open_newNode (hwf : WellFormed fs base) (h : Same base st) (attr : Attr) :
    Holds base (openFs st.next (newNode attr st).2) st.next := by
  have hn := hwf.unused h.next
  refine ⟨?_,Nat.le_succ_of_le h.next,fun m hm => ?_,h.calls,Nat.lt_succ_self _⟩
  · simp [openFs,newNode,withRef,h.refcount,hn]
  · have hne : m≠st.next := Nat.ne_of_lt (Nat.lt_of_lt_of_le hm h.next)
    simp [openFs,newNode,hne,h.attr m hm]

@[simp] theorem openFs_attr : (openFs node st).attr=st.attr := rfl

@[simp] theorem closeFs_attr : (closeFs node st).attr=st.attr := by
  rw [closeFs]
  split
  · rfl
  · split_ifs <;> rfl

@[simp] theorem closeFs_next : (closeFs node st).next=st.next := by
  rw [closeFs]
  split
  · rfl
  · split_ifs <;> rfl

private theorem closeFs_newNode (attr : Attr) (hne : node≠st.next) :
    closeFs node (newNode attr st).2=(newNode attr (closeFs node st)).2 := by
  have hc : (newNode attr st).2.refcount node=st.refcount node := by
    simp [newNode,hne]
  rw [closeFs,hc,closeFs]
  split
  · rfl
  · split_ifs <;> simp [newNode,update_comm hne]

section
variable (hwf : WellFormed fs base) (h : Same base st) (hn : (base.refcount node).isSome)
include hwf h hn

theorem Same.attr_eq : st.attr node=base.attr node := h.attr node (hwf.lt_next hn)

theorem Same.opened : Opened base (.ok node, openFs node st) (.ok (base.attr node)) := by
  rw [← h.attr_eq hwf hn]
  exact .ok (h.open hwf hn)

end

private theorem enter_opened (hwf : WellFormed fs base) (h : Holds base st node) :
    Opened base (enter fs proc node name st) (stepInto fs proc base.attr (st.attr node) name) := by
  have hc := h.close hwf
  rw [enter,stepInto]
  by_cases hd : (st.attr node).directory
  · by_cases hp : hasPermission proc (st.attr node) xOk
    · by_cases hf : (st.attr node).hasFinddir
      · cases hfo : fs.finddir (st.attr node).inode name with
        | none => simpa [finddirFs,hd,hp,hfo] using Opened.error hc
        | some found =>
          cases found with
          | existing next =>
            have hn := hwf.existing _ name next hfo
            simpa [finddirFs,hd,hp,hf,hfo,foundAttr] using hc.opened hwf hn
          | fresh attr =>
            -- the new node is made before the directory is closed
            have hco := closeFs_newNode attr (Nat.ne_of_lt h.lt_next)
            have ho := hc.open_newNode hwf attr
            rw [← hco] at ho
            have hok := Opened.ok ho
            simpa [finddirFs,hd,hp,hf,hfo,foundAttr,newNode] using hok
      · simpa [finddirFs,hd,hp,hf] using Opened.error hc
    · simpa [hd,hp] using Opened.error hc
  · simpa [hd] using Opened.error hc

/-- After one more link both go on to the same nodes. -/
structure Follows (base : State) (lower : Level) (resolver : Resolver) : Prop where
  recur : ∀ target relativeTo st, Same base st →
    Opened base (lower.recur target relativeTo st) (resolver.recur target relativeTo)
  rest : ∀ nofollow path left node st, Holds base st node →
    Opened base (lower.rest nofollow path left node st)
      (resolver.rest nofollow path left (st.attr node))

variable {lowerResolver : Option Resolver}

section
variable (hwf : WellFormed fs base)
include hwf

private theorem kopenLoop_link (hlower : Option.Rel (Follows base) lower lowerResolver)
    (h : Holds base st node)
    (hl : ((st.attr node).symlink && !(nofollow && left.isEmpty))=true) :
    Opened base (kopenLoop fs proc lower nofollow path left node st)
      (resolveLoop fs proc base.attr lowerResolver nofollow path left (st.attr node)) := by
  have hc := h.close hwf
  rw [kopenLoop.eq_def,resolveLoop.eq_def]
  simp only [hl]
  cases hlower with
  | none => exact .error hc
  | some hf =>
    by_cases hn : (readlinkFs fs (st.attr node)).1<0
    · simpa [hn] using Opened.error hc
    by_cases hz : (readlinkFs fs (st.attr node)).1=0
    · simpa [hz] using Opened.error hc
    simp only [hn,hz]
    have hr := hf.recur (readlinkFs fs (st.attr node)).2
      (pathUntokenize path (path.length-left.length)) _ hc
    generalize Level.recur _ _ _ _=result at hr
    generalize Resolver.recur _ _ _=attr at hr
    cases hr with
    | error hs => exact .error hs
    | ok hh => exact hf.rest nofollow path left _ _ hh

theorem enter_then_opened (h : Holds base st node) {next : Nat → State → Result}
    (hn : ∀ node st, Holds base st node → Opened base (next node st) (nextAttr (st.attr node))) :
    Opened base
      (match enter fs proc node name st with
        | (.error error, st) => (.error error, st)
        | (.ok node, st) => next node st)
      (stepInto fs proc base.attr (st.attr node) name >>= nextAttr) := by
  have he : Opened base (enter fs proc node name st)
      _ := enter_opened hwf h
  generalize enter fs proc node name st=result at he
  generalize stepInto fs proc base.attr (st.attr node) name=attr at he
  cases he with
  | error hs => exact .error hs
  | ok hh => exact hn _ _ hh

section
variable (hlower : Option.Rel (Follows base) lower lowerResolver)
include hlower

theorem kopenLoop_opened : ∀ node st, Holds base st node →
      Opened base (kopenLoop fs proc lower nofollow path left node st)
        (resolveLoop fs proc base.attr lowerResolver nofollow path left (st.attr node)) := by
  induction left with
  | nil =>
    intro node st h
    by_cases hl : ((st.attr node).symlink && !(nofollow && true))=true
    · exact kopenLoop_link hwf hlower h hl
    · rw [kopenLoop.eq_def,resolveLoop.eq_def]
      simpa only [isEmpty_nil,if_neg hl] using Opened.ok h
  | cons name left ih =>
    intro node st h
    by_cases hl : ((st.attr node).symlink && !(nofollow && false))=true
    · exact kopenLoop_link hwf hlower h hl
    rw [kopenLoop.eq_def,resolveLoop.eq_def]
    simp only [isEmpty_cons,if_neg hl]
    exact enter_then_opened hwf h ih

theorem kopenStart_opened (h : Same base st) :
    Opened base (kopenStart fs proc lower nofollow filename relativeTo st)
      (resolveStart fs proc base.attr lowerResolver nofollow filename relativeTo) := by
  rw [kopenStart,resolveStart]
  by_cases hp : names relativeTo filename=[]
  · simpa [hp] using h.opened hwf hwf.root
  have hm := hwf.mounted (names relativeTo filename)
  simp only [hp]
  rw [← h.attr_eq hwf hm]
  exact kopenLoop_opened hwf hlower _ _ (h.open hwf hm)

private theorem afterLink_opened (h : Holds base st node) :
    Opened base (afterLink fs proc lower nofollow path left node st)
      (resolveRest fs proc base.attr lowerResolver nofollow path left (st.attr node)) := by
  cases left with
  | nil => exact .ok h
  | cons name left => exact enter_then_opened hwf h (kopenLoop_opened hwf hlower)

end

private theorem level_follows :
    Option.Rel (Follows base) (level fs proc links) (resolver fs proc base.attr links) := by
  induction links with
  | zero => exact .none
  | succ links ih =>
    exact .some ⟨fun target relativeTo st h => kopenStart_opened hwf ih h,
      fun nofollow path left node st h => afterLink_opened hwf ih h⟩

end

theorem kopenRecur_opened (hwf : WellFormed fs st) (nofollow : Bool) (symlinkDepth : Nat)
    (filename relativeTo : CString) :
    Opened st (kopenRecur fs proc nofollow symlinkDepth filename relativeTo st)
      (resolve fs proc st.attr nofollow symlinkDepth filename relativeTo) :=
  kopenStart_opened hwf (level_follows hwf) (Same.refl st)

abbrev Fails (result : Except Int Attr) : Prop := Yields (· ≠ 0) (fun _ => True) result

structure Resolver.Fails (resolver : Resolver) : Prop where
  recur : ∀ target relativeTo, Vfs.Fails (resolver.recur target relativeTo)
  rest : ∀ nofollow path left attr, Vfs.Fails (resolver.rest nofollow path left attr)

theorem stepInto_fails : Fails (stepInto fs proc attrs attr name) := by
  rw [stepInto]
  split_ifs
  · exact .error (by decide)
  · exact .error (by decide)
  · exact .error (by decide)
  split
  · exact .error (by decide)
  · exact .ok trivial

section
variable (hlower : ∀ resolver ∈ lowerResolver, resolver.Fails)
include hlower

theorem resolveLoop_fails :
    ∀ attr, Fails (resolveLoop fs proc attrs lowerResolver nofollow path left attr) := by
  -- at a link it does not matter how much of the path is left
  have hl : ∀ left attr, (attr.symlink && !(nofollow && left.isEmpty))=true →
      Fails (resolveLoop fs proc attrs lowerResolver nofollow path left attr) := by
    intro left attr h
    rw [resolveLoop.eq_def]
    simp only [h,if_true]
    cases lowerResolver with
    | none => exact .error (by decide)
    | some resolver =>
      have hf := hlower resolver rfl
      split_ifs with hn hz
      · exact .error (by omega)
      · exact .error (by decide)
      · exact (hf.recur _ _).bind fun attr _ => hf.rest _ _ _ attr
  induction left with
  | nil =>
    intro attr
    by_cases h : (attr.symlink && !(nofollow && true))=true
    · exact hl [] attr h
    rw [resolveLoop.eq_def]
    simp only [isEmpty_nil,if_neg h]
    exact .ok trivial
  | cons name left ih =>
    intro attr
    by_cases h : (attr.symlink && !(nofollow && false))=true
    · exact hl _ attr h
    rw [resolveLoop.eq_def]
    simp only [isEmpty_cons,if_neg h]
    exact stepInto_fails.bind fun attr _ => ih attr

theorem resolveStart_fails :
    Fails (resolveStart fs proc attrs lowerResolver nofollow filename relativeTo) := by
  rw [resolveStart]
  split_ifs
  · exact .ok trivial
  · exact resolveLoop_fails hlower _

private theorem resolveRest_fails :
    Fails (resolveRest fs proc attrs lowerResolver nofollow path left attr) := by
  cases left with
  | nil => exact .ok trivial
  | cons name left =>
    exact stepInto_fails.bind fun attr _ => resolveLoop_fails hlower attr

end

private theorem resolver_fails : ∀ lower∈resolver fs proc attrs links, lower.Fails := by
  induction links with
  | zero => exact nofun
  | succ links ih =>
    intro lower hlower
    rw [resolver,Option.mem_some_iff] at hlower
    subst hlower
    exact ⟨fun target relativeTo => resolveStart_fails ih,
      fun nofollow path left attr => resolveRest_fails ih⟩

theorem resolve_fails (nofollow : Bool) (symlinkDepth : Nat) (filename relativeTo : CString) :
    Fails (resolve fs proc attrs nofollow symlinkDepth filename relativeTo) :=
  resolveStart_fails resolver_fails

section Concat
variable (name : CString)

private theorem mountLoop_concat :
    ∀ (children : List (CString × Mount)) (last : Nat) (outpath : List CString),
      (mountLoop children (path++[name]) last (outpath++[name])).2≠[] →
      mountLoop children (path++[name]) last (outpath++[name]) =
        ((mountLoop children path last outpath).1,
          (mountLoop children path last outpath).2++[name]) := by
  induction path with
  | nil =>
    intro children last outpath h
    rw [nil_append,mountLoop] at h ⊢
    cases hc : children.lookup name with
    | none => simp [mountLoop]
    | some mount =>
      obtain ⟨file,children⟩ := mount
      cases file with
      | none => simp [mountLoop]
      | some file => simp [hc,mountLoop] at h
  | cons first path ih =>
    intro children last outpath h
    rw [cons_append,mountLoop] at h ⊢
    rw [mountLoop]
    cases hc : children.lookup first with
    | none => rfl
    | some mount =>
      obtain ⟨file,children⟩ := mount
      cases file with
      | none =>
        simp only [hc] at h
        exact ih children last outpath h
      | some file =>
        simp only [hc] at h
        exact ih children file path h

private theorem pathUntokenize_concat :
    pathUntokenize (path++[name]) ((path++[name]).length - (left++[name]).length) =
      pathUntokenize path (path.length-left.length) := by
  have hlen : (path++[name]).length - (left++[name]).length=path.length-left.length := by
    simp
  rw [hlen,pathUntokenize,pathUntokenize,take_append_of_le_length (by omega)]

/-- Going on to one more name, after a link. -/
def Resolver.Extends (fs : Fs) (proc : Process) (attrs : Nat → Attr) (name : CString)
    (resolver : Resolver) : Prop :=
  ∀ path left attr, resolver.rest true (path++[name]) (left++[name]) attr =
    resolver.rest false path left attr >>= fun attr => stepInto fs proc attrs attr name

variable {name}

theorem resolveLoop_last :
    (result >>= fun attr => resolveLoop fs proc attrs lowerResolver true path [] attr) =
      result := by
  cases result with
  | error => rfl
  | ok attr =>
    change resolveLoop fs proc attrs lowerResolver true path [] attr=_
    rw [resolveLoop.eq_def]
    simp

section
variable (hlower : ∀ resolver∈lowerResolver, resolver.Extends fs proc attrs name)
  (left : List CString)
include hlower left

theorem resolveLoop_concat : ∀ attr,
      resolveLoop fs proc attrs lowerResolver true (path++[name]) (left++[name]) attr =
        resolveLoop fs proc attrs lowerResolver false path left attr >>=
          fun attr => stepInto fs proc attrs attr name := by
  have hl : ∀ left attr, attr.symlink=true →
      resolveLoop fs proc attrs lowerResolver true (path++[name]) (left++[name]) attr =
        resolveLoop fs proc attrs lowerResolver false path left attr >>=
          fun attr => stepInto fs proc attrs attr name := by
    intro left attr h
    rw [resolveLoop.eq_def,resolveLoop.eq_def]
    cases lowerResolver with
    | none => simp [h]
    | some resolver =>
      have hextends := hlower resolver rfl
      have he : (left++[name]).isEmpty=false := by simp
      simp only [he,Bool.false_and,Bool.not_false,Bool.and_true,Bool.and_false]
      rw [pathUntokenize_concat]
      split_ifs
      · rfl
      · rfl
      · rw [bind_assoc]
        exact bind_congr fun attr => hextends path left attr
  induction left with
  | nil =>
    intro attr
    by_cases h : attr.symlink=true
    · exact hl [] attr h
    rw [resolveLoop.eq_def,resolveLoop.eq_def]
    simp only [h]
    exact resolveLoop_last
  | cons first left ih =>
    intro attr
    by_cases h : attr.symlink=true
    · exact hl _ attr h
    rw [resolveLoop.eq_def, resolveLoop.eq_def]
    simp only [h,Bool.false_and,if_false,Bool.false_eq_true]
    rw [bind_assoc]
    exact bind_congr ih

private theorem resolveRest_concat :
    resolveRest fs proc attrs lowerResolver true (path++[name]) (left++[name]) attr =
      resolveRest fs proc attrs lowerResolver false path left attr >>=
        fun attr => stepInto fs proc attrs attr name := by
  cases left with
  | nil => exact resolveLoop_last
  | cons first left =>
    rw [resolveRest,bind_assoc]
    exact bind_congr (resolveLoop_concat hlower left)

end

private theorem resolver_extends :
    ∀ lower∈resolver fs proc attrs links, lower.Extends fs proc attrs name := by
  induction links with
  | zero => exact nofun
  | succ links ih =>
    intro lower hlower
    rw [resolver,Option.mem_some_iff] at hlower
    subst hlower
    exact fun path left attr => resolveRest_concat ih left

theorem resolve_concat (hf : names relativeTo filename=names relativeTo dirname++[name])
    (hm : (getMountPoint fs (names relativeTo filename)).2≠[])
    (hr : (attrs fs.root).symlink=false) :
    resolve fs proc attrs true symlinkDepth filename relativeTo =
      resolve fs proc attrs false symlinkDepth dirname relativeTo >>=
        fun attr => stepInto fs proc attrs attr name := by
  have hne : names relativeTo filename≠[] := by
    rw [hf]
    simp
  rw [hf] at hm
  have hp := mountLoop_concat name _ _ _ hm
  rw [resolve,resolve,resolveStart,resolveStart]
  simp only [hne]
  rw [hf,getMountPoint,hp]
  rw [resolveLoop_concat resolver_extends]
  by_cases hd : names relativeTo dirname=[]
  · -- the root is opened at once, and the loop leaves it as it is
    rw [hd,mountLoop,resolveLoop.eq_def]
    simp [hr]
  · rw [if_neg hd]
    rfl
end Concat
end RazionOS.Kernel.Vfs
