import RazionOS.Framework.Runs
import RazionOS.Kernel.Vfs.Lookup

/-!
# Supplementary groups

`sys_setgroups` replaces the list of a process before it looks at the pointer. The list is copied
by `spawn_process`, and `has_permission` reads all its entries.
-/

namespace RazionOS.Kernel.Groups
open Framework Function List Vfs

def ePerm : Int := 1
def eFault : Int := 14
def eInval : Int := 22

/-- The result, and what is stored in the list of the caller. -/
def sysGetgroups (p : Process) (size : Int) (writable : Bool) : Int × List Nat :=
  let groups := p.supplementaryGroups
  if size=0 then (groups.length, [])
  else if size<groups.length then (-eInval, [])
  else if !writable then (-eFault, [])
  else (groups.length, groups)

def entries (size : Int) (memory : Nat → Nat) : List Nat := (range size.toNat).map memory

/-- `list` is what the pointer points to if it can be read, and `fresh` what `malloc` returns. -/
def sysSetgroups (p : Process) (size : Int) (list : Option (Nat → Nat)) (fresh : Nat → Nat) :
    Int × Process :=
  if p.user≠0 then (-ePerm, p)
  else if size<0 then (-eInval, p)
  else if 32 < size then (-eInval, p)
  else if size=0 then (0, { p with supplementaryGroups := [] })
  else match list with
    | none => (-eFault, { p with supplementaryGroups := entries size fresh })
    | some list => (0, { p with supplementaryGroups := entries size list })

/-- A process with the groups that it or an ancestor was given. -/
structure Supplied where
  proc : Process
  given : List Nat

inductive Event where
  | setgroups (pid : Nat) (size : Int) (list : Option (Nat → Nat)) (fresh : Nat → Nat)
  | getgroups (pid : Nat) (size : Int) (writable : Bool)
  | fork (pid child : Nat)
  | setIds (pid user userGroup realUser realUserGroup : Nat)

def step (s : Nat → Supplied) : Event → Nat → Supplied
  | .setgroups pid size list fresh =>
    let r := sysSetgroups (s pid).proc size list fresh
    let given := if r.1=0 then r.2.supplementaryGroups else []
    update s pid ⟨r.2,given++(s pid).given⟩
  | .getgroups _ _ _ => s
  | .fork pid child => update s child (s pid)
  | .setIds pid user userGroup realUser realUserGroup =>
    update s pid { s pid with
      proc := { (s pid).proc with user, userGroup, realUser, realUserGroup } }

/-- A call that fails changes nothing, and one that does not makes the groups those given. -/
def Replaces (s : Nat → Supplied) : Event → Prop
  | .setgroups pid size list fresh =>
    let (result, proc) := sysSetgroups (s pid).proc size list fresh
    (result<0 → proc=(s pid).proc) ∧ (0 ≤ result →
      proc.supplementaryGroups=entries size (list.getD fun _ => 0))
  | .getgroups pid size writable =>
    let (result, stored) := sysGetgroups (s pid).proc size writable
    0 ≤ result → result=(s pid).proc.supplementaryGroups.length ∧
      (size≠0 → stored=(s pid).proc.supplementaryGroups)
  | _ => True

def AllGiven (s : Nat → Supplied) : Prop :=
  ∀ pid, ∀ group∈(s pid).proc.supplementaryGroups, group∈(s pid).given

/-- The step keeps the lists intact. -/
def Intact (s : Nat → Supplied) (e : Event) : Prop := Replaces s e ∧ AllGiven (step s e)

/-- If root passes a pointer that cannot be read, the new block happens to hold the old list. -/
def Restores (s : Nat → Supplied) : Event → Prop
  | .setgroups pid size none fresh => (s pid).proc.user=0 → 0 < size → size≤32 →
      entries size fresh=(s pid).proc.supplementaryGroups
  | _ => True

theorem sysSetgroups_cases (p : Process) (list : Option (Nat → Nat)) :
    let r := sysSetgroups p size list fresh
    (r.1<0 ∧ r.2=p ∧ (p.user=0 → 0 < size → ¬size≤32)) ∨
    (r.1=0 ∧ r.2 = { p with supplementaryGroups := entries size (list.getD fun _ => 0) } ∧
      (list=none → size=0)) ∨
    (list=none ∧ r.1<0 ∧ p.user=0 ∧ 0 < size ∧ size≤32 ∧
      r.2 = { p with supplementaryGroups := entries size fresh }) := by
  unfold sysSetgroups
  split
  · next hu => exact .inl ⟨show -ePerm<0 by decide,rfl,fun h => absurd h hu⟩
  split
  · exact .inl ⟨show -eInval<0 by decide,rfl,by omega⟩
  split
  · exact .inl ⟨show -eInval<0 by decide,rfl,by omega⟩
  split
  · next hz => exact .inr (.inl ⟨rfl,by simp [hz,entries],fun _ => hz⟩)
  cases list with
  | none => exact .inr (.inr ⟨rfl,show -eFault<0 by decide,by simp_all,by omega,by omega,rfl⟩)
  | some list => exact .inr (.inl ⟨rfl,rfl,nofun⟩)

private theorem replaces_iff : Replaces s e ↔ Restores s e := by
  cases e with
  | setgroups pid size list fresh =>
    simp only [Replaces]
    obtain ⟨hr,hp,hrange⟩ | ⟨hr,hp,hnull⟩ | ⟨rfl,hr,hu,hpos,hle,hp⟩ :=
      sysSetgroups_cases (s pid).proc list
    · refine iff_of_true ⟨fun _ => hp,by omega⟩ ?_
      cases list with
      | none => exact fun hu hpos hle => absurd hle (hrange hu hpos)
      | some list => trivial
    · refine iff_of_true ⟨by omega,fun _ => by rw [hp]⟩ ?_
      cases list with
      | none => exact fun _ hpos _ => absurd (hnull rfl) (by omega)
      | some list => trivial
    · -- the pointer cannot be read, and the list is the new block
      rw [hp]
      refine ⟨fun h _ _ _ => congrArg Process.supplementaryGroups (h.1 hr),
        fun h => ⟨fun _ => ?_,?_⟩⟩
      · rw [h hu hpos hle]
      · omega
  | getgroups pid size writable =>
    refine iff_of_true ?_ trivial
    simp only [Replaces,sysGetgroups]
    split_ifs <;> simp_all [eInval,eFault]
  | _ => rfl

private theorem AllGiven.update (h : AllGiven s) (hp : ∀ group∈p.proc.supplementaryGroups,
    group∈p.given) : AllGiven (update s pid p) := by
  intro pid'
  by_cases heq : pid' = pid
  · rw [heq,update_self]
    exact hp
  · rw [update_of_ne heq]
    exact h pid'

private theorem AllGiven.step (h : AllGiven s) (hr : Restores s e) : AllGiven (step s e) := by
  cases e with
  | setgroups pid size list fresh =>
    refine h.update (fun group hg => ?_)
    obtain ⟨-,hp,-⟩ | ⟨hz,hp,-⟩ | ⟨rfl,-,hu,hpos,hle,hp⟩ := sysSetgroups_cases (s pid).proc list
    · exact mem_append_right _ (h pid group (hp ▸ hg))
    · rw [if_pos hz]
      exact mem_append_left _ hg
    · rw [hp,hr hu hpos hle] at hg
      exact mem_append_right _ (h pid group hg)
  | getgroups pid size writable => exact h
  | fork pid child => exact h.update (h pid)
  | setIds pid user userGroup realUser realUserGroup =>
    refine h.update ?_
    exact h pid

def start (procs : Nat → Process) : Nat → Supplied :=
  fun pid => ⟨{ procs pid with supplementaryGroups := [] },[]⟩

/-- The lists stay intact exactly if no call of root fails on the pointer, the lucky ones apart. -/
theorem groups_intact_iff (procs : Nat → Process) (events : List Event) :
    Along step Intact (start procs) events ↔ Along step Restores (start procs) events := by
  refine Along.congr (fun s e (_ : AllGiven s) h => h.2) (fun s e h => ?_) nofun
  exact ⟨fun hi => replaces_iff.1 hi.1,fun hr => ⟨replaces_iff.2 hr,h.step hr⟩⟩

def failedCall : Event := .setgroups 2 1 none fun _ => 100

/-- The process is not given group 100, and may read what the group may read. -/
theorem setgroups_fails_with_groups :
    let s := start fun _ => ⟨0,0,0,0,[],[],0⟩
    let s' := step (step s failedCall) (.setIds 2 1000 1000 1000 1000)
    let secret : Attr := ⟨7,false,false,0o640,0,100,none,false,false,false,false,false,false,false⟩
    (sysSetgroups (s 2).proc 1 none fun _ => 100).1 = -eFault ∧
      (s' 2).proc.supplementaryGroups = [100] ∧ (s' 2).given = [] ∧
      hasPermission (s' 2).proc secret 4 = true ∧ ¬Along step Intact s [failedCall] :=
  ⟨by decide,by decide,by decide,by decide,fun h =>
    absurd (congrArg Process.supplementaryGroups (h.1.1.1 (by decide))) (by decide)⟩
end RazionOS.Kernel.Groups
