import RazionOS.Framework.Forest
import RazionOS.Framework.Loop
import RazionOS.Kernel.Sys.TracingInv

/-!
# The process list and the process tree

`spawn_process` and `process_delete` keep the processes twice: in the list that is searched for a
pid, and in the tree of parents and children.
-/

namespace RazionOS.Kernel.Tracing
open Framework Function List Relation

structure Processes where
  state : State
  processList : List Nat
  /-- `process_tree->nodes` -/
  nodes : Nat

namespace Processes

def start : Processes := ⟨Tracing.start,[init],1⟩

/-- The entry of a deleted parent is a null pointer. -/
def spawnProcess (parent process : Nat) (tasklet : Bool) (s : Processes) : Except Fault Processes :=
  if s.state.valid parent then
    .ok { state := Tracing.spawnProcess parent process tasklet s.state
          processList := s.processList++[s.state.nextPid]
          nodes := s.nodes+1 }
  else .error .nullPointer

def processDelete (c : Nat) (s : Processes) : Processes :=
  if s.state.valid c=false ∨ c=init then s
  else
    { state := Tracing.processDelete c s.state
      processList := s.processList.erase c
      nodes := if (s.state.parent c).isNone then s.nodes else s.nodes-1 }
end Processes

inductive TreeCall where
  | spawn (parent process : Nat) (tasklet : Bool)
  | delete (c : Nat)

def treeCall (s : Processes) : TreeCall → Except Fault Processes
  | .spawn parent process tasklet => s.spawnProcess parent process tasklet
  | .delete c => .ok (s.processDelete c)

/-- The processes that are found from the root. -/
def Processes.InTree (s : Processes) : Nat → Prop :=
  ReflTransGen (fun q c => c∈s.state.children q) init

structure Consistent (s : Processes) : Prop where
  same : ∀ c, c∈s.processList ↔ s.InTree c
  once : s.processList.Nodup
  root : s.state.parent init=none
  parent : ∀ q c, c∈s.state.children q ↔ s.InTree c ∧ s.state.parent c=some q
  children : ∀ q, (s.state.children q).Nodup
  nodes : s.nodes=s.processList.length

/-- Deleting the process makes its children those of init, and changes no other parent. -/
def Orphans (s : Processes) (c : Nat) : Prop :=
  (s.processDelete c).processList=s.processList.erase c ∧
    ∀ d∈s.processList, d≠c → (s.processDelete c).state.parent d =
      if d∈s.state.children c then some init else s.state.parent d

structure ListInv (s : Processes) : Prop where
  tree : Tree s.state
  /-- A parent is older than its children. -/
  older : ∀ c q, s.state.Valid c → s.state.parent c=some q → q < c
  adopted : ∀ c, s.state.Valid c → c≠init → ∃ q, s.state.parent c=some q
  listed : ∀ c, c∈s.processList ↔ s.state.Valid c
  once : s.processList.Nodup
  nodes : s.nodes=s.processList.length

private theorem ListInv.start : ListInv .start where
  tree := start_inv.tree
  older := nofun
  adopted _ hc hi := absurd (start_valid hc) hi
  listed _ := mem_singleton.trans ⟨fun hc => hc ▸ start_inv.tree.root,start_valid⟩
  once := pairwise_singleton _ _
  nodes := rfl

private theorem ListInv.spawnProcess (h : ListInv s)
    (hs : s.spawnProcess parent process tasklet = .ok s') :
    ListInv s' := by
  rw [Processes.spawnProcess] at hs
  split at hs
  · next hv =>
    have hpa := valid_iff.1 hv
    obtain rfl := Except.ok.inj hs
    have hvalid := fun p => spawnProcess_valid parent process tasklet p
      (Nat.lt_trans h.tree.root.1 h.tree.root.2.1)
    have hold : ∀ p, p≠s.state.nextPid →
        (Tracing.spawnProcess parent process tasklet s.state).parent p=s.state.parent p :=
      fun p hp => update_of_ne hp _ _
    have hnew : (Tracing.spawnProcess parent process tasklet s.state).parent s.state.nextPid =
        some parent := update_self ..
    refine ⟨spawnProcess_tree h.tree hpa,fun c q hc hq => ?_,fun c hc hi => ?_,fun c => ?_,?_,?_⟩
    · obtain rfl | hc := (hvalid c).1 hc
      · rw [hnew] at hq
        obtain rfl := Option.some.inj hq
        exact hpa.2.1
      · rw [hold c (Nat.ne_of_lt hc.2.1)] at hq
        exact h.older c q hc hq
    · obtain rfl | hc := (hvalid c).1 hc
      · exact ⟨parent,hnew⟩
      · rw [hold c (Nat.ne_of_lt hc.2.1)]
        exact h.adopted c hc hi
    · rw [mem_append,mem_singleton,h.listed,hvalid,or_comm]
    · refine nodup_append.2 ⟨h.once,pairwise_singleton _ _,fun a ha b hb => ?_⟩
      rw [mem_singleton.1 hb]
      exact Nat.ne_of_lt ((h.listed a).1 ha).2.1
    · rw [length_append,h.nodes]
      rfl
  · cases hs

theorem ListInv.processDelete_eq (h : ListInv s) (hc : s.state.Valid c) (hi : c≠init) :
    ∃ q, s.state.parent c=some q ∧ s.processDelete c =
      ⟨Tracing.processDelete c s.state,s.processList.erase c,s.nodes-1⟩ := by
  obtain ⟨q,hq⟩ := h.adopted c hc hi
  refine ⟨q,hq,?_⟩
  rw [Processes.processDelete,if_neg (by simp [valid_iff.2 hc,hi]),hq]
  rfl

theorem processDelete_parent (hc : s.Valid c) (hi : c≠init) (hq : s.parent c=some q) (d : Nat) :
    (processDelete c s).parent d=if d∈s.children c then some init else s.parent d := by
  rw [processDelete_eq hc.2.2 hi hq]

section
variable (h : ListInv s)
include h

private theorem ListInv.processDelete (c : Nat) : ListInv (s.processDelete c) := by
  by_cases hg : s.state.valid c=false ∨ c=init
  · rwa [Processes.processDelete,if_pos hg]
  rw [not_or,Bool.not_eq_false,valid_iff] at hg
  obtain ⟨hc,hi⟩ := hg
  obtain ⟨q,hq,heq⟩ := h.processDelete_eq hc hi
  have hvalid := processDelete_valid hc hi hq
  have hpar := processDelete_parent hc hi hq
  rw [heq]
  refine ⟨processDelete_tree h.tree hc hi hq hvalid,fun d p hd hp => ?_,fun d hd hdi => ?_,
    fun d => ?_,h.once.erase c,?_⟩
  · obtain ⟨-,hd⟩ := (hvalid d).1 hd
    rw [hpar] at hp
    split at hp
    · next ho =>
      -- an orphan is not init, and so younger
      obtain rfl := Option.some.inj hp
      have hne : d≠init := by
        rintro rfl
        exact absurd (h.tree.top.symm.trans (h.tree.child c init ho).2) (by simp)
      have hpos := hd.1
      rw [init] at hne ⊢
      omega
    · exact h.older d p hd hp
  · obtain ⟨-,hd⟩ := (hvalid d).1 hd
    rw [hpar]
    split
    · exact ⟨init,rfl⟩
    · exact h.adopted d hd hdi
  · rw [h.once.mem_erase_iff,h.listed,hvalid]
  · rw [length_erase_of_mem ((h.listed c).2 hc),h.nodes]

private theorem ListInv.inTree_iff : s.InTree c ↔ s.state.Valid c := by
  constructor
  · intro hc
    cases hc with
    | refl => exact h.tree.root
    | tail _ hc => exact (h.tree.child _ c hc).1
  · refine fun hc => reachable_of_rank id _ (fun q c hq => ?_) (fun c hc hi => ?_) hc
    · obtain ⟨hc,hq⟩ := h.tree.child q c hq
      exact h.older c q hc hq
    · obtain ⟨q,hq⟩ := h.adopted c hc hi
      obtain ⟨hv,hm,-⟩ := h.tree.parent c q hc hq
      exact ⟨q,hv,hm⟩

private theorem ListInv.consistent : Consistent s where
  same c := by rw [h.listed,h.inTree_iff]
  once := h.once
  root := h.tree.top
  parent q c := by
    rw [h.inTree_iff]
    exact ⟨h.tree.child q c,fun ⟨hc,hq⟩ => (h.tree.parent c q hc hq).2.1⟩
  children := h.tree.nodup
  nodes := h.nodes

private theorem ListInv.orphans (hmem : c∈s.processList) (hi : c≠init) : Orphans s c := by
  have hc := (h.listed c).1 hmem
  obtain ⟨q,hq,heq⟩ := h.processDelete_eq hc hi
  rw [Orphans,heq]
  exact ⟨rfl,fun d _ _ => processDelete_parent hc hi hq d⟩

private theorem ListInv.run (hr : foldlM treeCall s calls = .ok s') : ListInv s' := by
  induction calls generalizing s with
  | nil => exact Except.ok.inj hr ▸ h
  | cons call calls ih =>
    obtain ⟨s1,hs,hrest⟩ := bind_eq_ok.1 hr
    cases call with
    | spawn parent process tasklet => exact ih (h.spawnProcess hs) hrest
    | delete c => exact ih (Except.ok.inj hs ▸ h.processDelete c) hrest

end

theorem process_tree_consistent (calls : List TreeCall) (s : Processes)
    (h : calls.foldlM treeCall .start = .ok s) :
    Consistent s ∧ (∀ c ∈ s.processList, c ≠ init → Orphans s c) ∧
      ∀ parent ∈ s.processList, ∀ process tasklet,
        ∃ s', s.spawnProcess parent process tasklet = .ok s' := by
  have hinv := ListInv.start.run h
  refine ⟨hinv.consistent,fun c => hinv.orphans,fun parent hp process tasklet => ⟨_,if_pos ?_⟩⟩
  exact valid_iff.2 ((hinv.listed parent).1 hp)

def twoSpawned : List TreeCall := [.spawn 1 2 false, .spawn 2 3 false, .delete 2]

theorem process_tree_orphaned :
    ∃ s, twoSpawned.foldlM treeCall .start = .ok s ∧ s.state.children init = [3] ∧ Consistent s :=
  ⟨_,rfl,by decide,(process_tree_consistent twoSpawned _ rfl).1⟩
end RazionOS.Kernel.Tracing
