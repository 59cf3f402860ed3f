import RazionOS.Pulse.Broker

/-! # Authorization -/

namespace RazionOS.Pulse
open Framework

/-- The table has the named action, and its entry permits the caller to run it. -/
def Authorized (context : Context) (proposal : Proposal) (confirmed : Bool) : Prop :=
  ∃ entry∈actionTable, entry.actionId=normalizeActionId proposal.actionId.text ∧
    entry.action.code=proposal.action ∧
    context.grantedCapabilities &&& entry.capabilities=entry.capabilities ∧
    (entry.confirmation → confirmed) ∧
    entry.executable ∧ entry.risk.code<Risk.privileged.code

instance (context : Context) (proposal : Proposal) (confirmed : Bool) :
    Decidable (Authorized context proposal confirmed) :=
  inferInstanceAs (Decidable (∃ entry∈actionTable, _ ∧ _))

/-- The calls that keep the audit log: its directory, the file and the lines. -/
def KeepsLog (home : Option CString) (e : Effect) : Prop :=
  ∃ path∈home, e = .mkdir (auditDirectory path) 0o700 ∨ e = .openLog (auditLog path) ∨
    ∃ line, e = .append (auditLog path) line

variable (sys : System σ)

private theorem auditAction_emits :
    Emits (KeepsLog sys.home) (auditAction sys context proposal status) := by
  unfold auditAction
  split
  · exact .pure _
  · exact .pure _
  next home _ hh =>
    refine .bind (.call _ ⟨home,hh,.inl rfl⟩) fun error => .ite (.pure _) ?_
    refine .bind (.call _ ⟨home,hh,.inr (.inl rfl)⟩) fun opened => .ite (.pure _) ?_
    exact .bind (.observe _) fun now => .call _ ⟨home,hh,.inr (.inr ⟨_,rfl⟩)⟩

private theorem proposeAction_eq (h : proposeAction home actionId=some canonical) :
    ∃ entry∈actionTable, entry.actionId=normalizeActionId actionId ∧
      canonical=setProposal home entry := by
  obtain ⟨entry,hf,rfl⟩ := Option.map_eq_some_iff.mp h
  refine ⟨entry,List.mem_of_find?_eq_some hf,?_,rfl⟩
  have hid := List.find?_some hf
  exact (beq_iff_eq.mp hid).symm

def Permits (context : Context) (entry : Entry) (confirmed : Bool) : Prop :=
  context.grantedCapabilities &&& entry.capabilities=entry.capabilities ∧
    (entry.confirmation → confirmed) ∧ entry.executable ∧
    entry.risk.code<Risk.privileged.code

private theorem decideAction_refused (h : ¬ Permits context entry confirmed) (w : World σ) :
    (decideAction sys context (setProposal sys.home entry) confirmed w).2=w := by
  unfold decideAction
  split_ifs with hca hco hr
  · rfl
  · rfl
  · rfl
  refine absurd ⟨not_not.mp hca,?_,?_,?_⟩ h
  · intro hc
    simpa [setProposal,hc] using hco
  · by_contra hx
    exact hr (.inl (by simp [setProposal,hx]))
  · exact BitVec.not_le.mp fun hle => hr (.inr hle)

private theorem execute_emits :
    Emits (fun e => KeepsLog sys.home e ∨ Authorized context proposal confirmed)
      (execute sys context proposal confirmed result resultSize) := by
  refine .ite (.pure _) ?_
  split
  · exact .pure _
  next canonical hc =>
    obtain ⟨entry,hmem,hid,rfl⟩ := proposeAction_eq hc
    split_ifs with ha
    · exact .pure _
    by_cases hp : Permits context entry confirmed
    · exact .of_forall fun _ => .inr ⟨entry,hmem,hid,not_not.mp ha,hp⟩
    refine .bind (.of_unchanged (decideAction_refused sys hp)) fun outcome => ?_
    refine .bind (.mono (auditAction_emits sys) fun _ => .inl) ?_
    exact fun _ => .pure _

/-- No field of the proposal beyond these three reaches the decision, the action or the log. -/
theorem execute_congr (hv : p.version=q.version) (ha : p.action=q.action)
    (hid : p.actionId.text=q.actionId.text) : execute sys context p confirmed result resultSize =
      execute sys context q confirmed result resultSize := by
  simp [execute,hv,ha,hid]

/-- Every call of the broker outside its log is for an action that the table permits, and two
proposals with the same version, action and action identifier have the same outcome. -/
theorem execute_authorization (sys : System σ) (context : Context) (proposal : Proposal)
    (confirmed : Bool) (result : CString) (resultSize : Nat) (env : σ) :
    (∀ e ∈ (execute sys context proposal confirmed result resultSize ⟨env,[]⟩).2.trace,
      KeepsLog sys.home e ∨ Authorized context proposal confirmed) ∧
    ∀ other : Proposal, other.version = proposal.version → other.action = proposal.action →
      other.actionId.text = proposal.actionId.text →
      execute sys context other confirmed result resultSize ⟨env,[]⟩ =
        execute sys context proposal confirmed result resultSize ⟨env,[]⟩ := by
  refine ⟨?_,?_⟩
  · intro e he
    rcases execute_emits sys ⟨env,[]⟩ e he with h | h
    · simp at h
    · exact h
  · intro other hv ha hid
    rw [execute_congr sys hv ha hid]

def directories (home : CString) : System (List CString) where
  home := some home
  access _ s := (true, s)
  fork _ _ s := (true, s)
  stat path s := (if path∈s then some true else none, s)
  read _ s := (none, s)
  mkdir path _ s := if path∈s then (eExist, s) else (0, path::s)
  create _ _ s := (true, s)
  write _ text s := (text.length, s)
  unlink _ s := s
  rmdir path s := s.erase path
  openLog _ s := (true, s)
  append _ _ s := s
  time s := (0, s)
  strerror _ := []

/-- A refused request creates the directory of the log when it does not exist. -/
theorem execute_denied_creates_directory :
    let home := cString "/home/local"
    let context : Context := ⟨.copy _ (cString "app"),0⟩
    let proposal : Proposal := setProposal (some home) (actionTable.head (by decide))
    let r := execute (directories home) context proposal true [] 64 ⟨[home],[]⟩
    ¬ Authorized context proposal true ∧ r.1.1 = .capabilityDenied ∧
      .mkdir (cString "/home/local/.razion") 0o700 ∈ r.2.trace ∧
      r.2.env = [cString "/home/local/.razion", home] := by
  decide +kernel
end RazionOS.Pulse
