import Mathlib.Data.Finset.Card
import Mathlib.Data.Fintype.Basic
import RazionOS.Ai.Protocol
import RazionOS.Framework.Trace

/-!
# The AI engine

The engine routes each request to one of the configured provider adapters, which are services
of their own. What those services do is an arbitrary `Services` over an arbitrary state, so
that a provider may come, go, fail or answer differently at every call.
-/

namespace RazionOS.Ai
open Framework

structure ProviderDescriptor where
  name : CString
  endpoint : CString
  providerClass : ProviderClass
  capabilities : BitVec 32
  priority : Int
  enabled : Bool

def maxProviders : Nat := 24

structure EngineConfig where
  localFirst : Bool
  allowCloud : Bool
  cloudFallback : Bool
  auditEnabled : Bool
  providerTimeoutMs : Int
  providers : List ProviderDescriptor
  providerCount_le : providers.length ≤ maxProviders

abbrev EngineConfig.Index (cfg : EngineConfig) : Type := Fin cfg.providers.length

def EngineConfig.provider (cfg : EngineConfig) (i : cfg.Index) : ProviderDescriptor :=
  cfg.providers.get i

structure Services (σ : Type) where
  pexConnect : CString → σ → Bool × σ
  /-- The number of bytes written of a request of the given size. -/
  pexReply : CString → Nat → Request → σ → Nat × σ
  fswait2 : CString → Int → σ → Int × σ
  /-- The number of bytes received, and the buffer read as a response. -/
  pexRecv : CString → σ → (Nat × Response) × σ

/-- What the routing of one request did. A selection records its probes of the endpoints. -/
inductive EngineEvent (ι : Type) where
  | select (providerClass : ProviderClass) (probes : List (ι × Bool)) (chosen : Option ι)
  | send (i : ι) (payload : List UInt8)
  | fail (i : ι)
  | answer (i : ι)

abbrev World (σ ι : Type) := Traced σ (EngineEvent ι)

section Engine
variable (cfg : EngineConfig) (svc : Services σ)

def providerIsAvailable (provider : ProviderDescriptor) (env : σ) : Bool × σ :=
  svc.pexConnect provider.endpoint env

/-- The tests of `provider_matches` before the endpoint is probed. -/
def policyAdmits (i : cfg.Index) (request : Request) (providerClass : ProviderClass) : Bool :=
  if !(cfg.provider i).enabled || (cfg.provider i).providerClass != providerClass then false
  else if (cfg.provider i).capabilities &&& request.requestedCapabilities !=
      request.requestedCapabilities then false
  else if providerClass == .cloud then
    if !cfg.allowCloud then false
    else if !request.hasFlag flagAllowCloud then false
    else if request.hasFlag flagLocalOnly then false
    else true
  else true

def providerMatches (i : cfg.Index) (request : Request) (providerClass : ProviderClass)
    (probes : List (cfg.Index × Bool)) (env : σ) : Bool × List (cfg.Index × Bool) × σ :=
  if policyAdmits cfg i request providerClass then
    let (up, env) := providerIsAvailable svc (cfg.provider i) env
    (up, probes++[(i, up)], env)
  else (false, probes, env)

def betterOf (i : cfg.Index) : Option cfg.Index → cfg.Index
  | none => i
  | some selected =>
    if (cfg.provider i).priority<(cfg.provider selected).priority then i else selected

variable (request : Request) (providerClass : ProviderClass) (attempted : Finset cfg.Index)

def selectLoop : List cfg.Index → Option cfg.Index → List (cfg.Index × Bool) → σ →
    Option cfg.Index × List (cfg.Index × Bool) × σ
  | [], selected, probes, env => (selected, probes, env)
  | i::rest, selected, probes, env =>
    if i∈attempted then selectLoop rest selected probes env
    else
      let r := providerMatches cfg svc i request providerClass probes env
      selectLoop rest (if r.1 then some (betterOf cfg i selected) else selected) r.2.1 r.2.2

/-- The candidate of least priority value, the first of them in the configuration's order. -/
def selectProvider (w : World σ cfg.Index) : Option cfg.Index × World σ cfg.Index :=
  let (selected, probes, env) :=
    selectLoop cfg svc request providerClass attempted (List.finRange _) none [] w.env
  (selected, { w with env := env }.emit (.select providerClass probes selected))

/-- The checks on a provider's reply, and the response made of it. -/
def acceptReply (provider : ProviderDescriptor) (request : Request) (received : Nat)
    (reply : Response) : Option Response :=
  if received < responseHeaderSize then none
  else if reply.magic≠protocolMagic ∨ reply.version≠protocolVersion ∨
      reply.requestId≠request.requestId ∨ maxPayload ≤ reply.payloadLength.toNat ∨
      received < responseHeaderSize+reply.payloadLength.toNat then none
  else some { reply with
    provider := provider.name.take (maxProviderName-1)
    grantedCapabilities := reply.grantedCapabilities &&&
      (provider.capabilities &&& request.requestedCapabilities)
    payload := reply.payload.take reply.payloadLength.toNat }

def forwardToProvider (i : cfg.Index) (request : Request) (w : World σ cfg.Index) :
    Option Response × World σ cfg.Index :=
  let endpoint := (cfg.provider i).endpoint
  let (connected, env) := svc.pexConnect endpoint w.env
  if !connected then (none, { w with env := env })
  else
    let requestSize := requestHeaderSize+request.payloadLength.toNat
    let (written, env) := svc.pexReply endpoint requestSize request env
    let w := { w with env := env }.emit (.send i (request.payload.take request.payloadLength.toNat))
    if written≠requestSize then (none, w)
    else
      let (ready, env) := svc.fswait2 endpoint cfg.providerTimeoutMs w.env
      if ready≠0 then (none, { w with env := env })
      else
        let ((received, reply), env) := svc.pexRecv endpoint env
        (acceptReply (cfg.provider i) request received reply, { w with env := env })

theorem betterOf_eq (i : cfg.Index) (selected : Option cfg.Index) :
    betterOf cfg i selected=i ∨ betterOf cfg i selected∈selected := by
  cases selected with
  | none => exact .inl rfl
  | some j =>
    simp only [betterOf]
    split_ifs
    · exact .inl rfl
    · exact .inr rfl

private theorem selectLoop_not_attempted (selected : Option cfg.Index)
    (probes : List (cfg.Index × Bool)) (env : σ) (h : ∀ i∈selected, i∉attempted) :
    ∀ i∈(selectLoop cfg svc request providerClass attempted rest selected probes env).1,
      i∉attempted := by
  induction rest generalizing selected probes env with
  | nil => exact h
  | cons j rest ih =>
    rw [selectLoop]
    split
    · exact ih selected probes env h
    next hj =>
      apply ih
      split
      · rintro i ⟨⟩
        rcases betterOf_eq cfg j selected with hb | hb
        · rwa [hb]
        · exact h _ hb
      · exact h

variable {request providerClass attempted} in
private theorem selectProvider_not_attempted
    (h : (selectProvider cfg svc request providerClass attempted w).1=some i) : i∉attempted :=
  selectLoop_not_attempted cfg svc request providerClass attempted none []
    w.env (by simp) i h

structure Attempts (cfg : EngineConfig) where
  attempted : Finset cfg.Index
  attemptedAny : Bool
  lastProvider : Option CString

def Attempts.init : Attempts cfg :=
  { attempted := ∅, attemptedAny := false, lastProvider := none }

def Attempts.add {cfg : EngineConfig} (a : Attempts cfg) (i : cfg.Index) : Attempts cfg :=
  { attempted := insert i a.attempted
    attemptedAny := true
    lastProvider := some (cfg.provider i).name }

/-- The inner loop of `route_to_provider`, up to an answer or the last provider of the class. -/
def tryClass (a : Attempts cfg) (w : World σ cfg.Index) :
    Option Response × Attempts cfg × World σ cfg.Index :=
  match _hs : selectProvider cfg svc request providerClass a.attempted w with
  | (none, w1) => (none, a, w1)
  | (some i, w1) =>
    match forwardToProvider cfg svc i request w1 with
    | (some response, w2) => (some response, a.add i, w2.emit (.answer i))
    | (none, w2) => tryClass (a.add i) (w2.emit (.fail i))
termination_by a.attemptedᶜ.card
decreasing_by
  have hi := selectProvider_not_attempted cfg svc (congrArg Prod.fst _hs)
  apply Finset.card_lt_card
  rw [Finset.ssubset_iff_of_subset (by simp [Attempts.add, Finset.erase_subset])]
  exact ⟨i,by simpa using hi,by simp [Attempts.add]⟩

inductive Routed where
  | answered (response : Response)
  | allFailed (lastProvider : Option CString)
  | noneCompatible

def preferLocal : Bool :=
  cfg.localFirst || request.hasFlag flagPreferLocal

def classOrder : ProviderClass × ProviderClass :=
  if preferLocal cfg request then (.localClass, .cloud) else (.cloud, .localClass)

def Attempts.result {cfg : EngineConfig} (a : Attempts cfg) : Routed :=
  if a.attemptedAny then .allFailed a.lastProvider else .noneCompatible

def routeToProvider (w : World σ cfg.Index) : Routed × World σ cfg.Index :=
  match tryClass cfg svc request (classOrder cfg request).1 (.init cfg) w with
  | (some response, _, w) => (.answered response, w)
  | (none, a, w) =>
    if (classOrder cfg request).1 == .localClass && !cfg.cloudFallback then (a.result, w)
    else
      match tryClass cfg svc request (classOrder cfg request).2 a w with
      | (some response, _, w) => (.answered response, w)
      | (none, a, w) => (a.result, w)

def setResponse (status : Status) (provider message : CString) : Response :=
  let payload := message.take (maxPayload-1)
  { magic := protocolMagic
    version := protocolVersion
    status := status.code
    requestId := request.requestId
    grantedCapabilities := 0
    payloadLength := BitVec.ofNat 32 payload.length
    provider := provider.take (maxProviderName-1)
    payload := payload }

def probeAll : List ProviderDescriptor → σ → List Bool × σ
  | [], env => ([], env)
  | provider::rest, env =>
    let (up, env) := providerIsAvailable svc provider env
    let (ups, env) := probeAll rest env
    (up::ups, env)

def healthResponse (env : σ) : Response × σ :=
  let (ups, env) := probeAll svc cfg.providers env
  let message := cString "engine=ready;protocol=" ++ decimal protocolVersion.toNat ++
    cString ";providers=" ++ decimal cfg.providers.length ++
    cString ";available=" ++ decimal (ups.count true) ++
    cString ";local_first=" ++ cString (if cfg.localFirst then "on" else "off") ++
    cString ";cloud=" ++ cString (if cfg.allowCloud then "opt-in" else "disabled")
  (setResponse request .ok (cString "engine") (message.take (maxPayload-1)), env)

def providerEntry (provider : ProviderDescriptor) (up : Bool) (used : Nat) : CString :=
  cString (if used≠0 then ";" else "")++provider.name++cString ":" ++
    cString (if provider.providerClass == .localClass then "local" else "cloud")++cString ":" ++
    cString (if up then "available" else "unavailable") ++
    cString ":priority=" ++ decimal provider.priority

/-- The loop of `provider_list_response`. The bytes of an entry that is cut are not counted in
`used`. -/
def providerListLoop : List ProviderDescriptor → CString → Nat → σ → CString × Nat × σ
  | [], message, used, env => (message, used, env)
  | provider::rest, message, used, env =>
    let (up, env) := providerIsAvailable svc provider env
    let entry := providerEntry provider up used
    let message := message++entry.take (maxPayload-used-1)
    if maxPayload-used≤entry.length then (message, used, env)
    else providerListLoop rest message (used+entry.length) env

def providerListResponse (env : σ) : Response × σ :=
  let (message, used, env) := providerListLoop svc cfg.providers [] 0 env
  (setResponse request .ok (cString "engine")
    (if used≠0 then message else cString "no providers configured"), env)

def handleRequest (w : World σ cfg.Index) : Response × World σ cfg.Index :=
  if request.hasFlag flagExecuteAction then
    if !request.hasFlag flagUserConfirmed then
      (setResponse request .confirmationRequired (cString "engine")
        (cString "Action execution requires explicit user confirmation."), w)
    else
      (setResponse request .permissionDenied (cString "engine")
        (cString "Direct provider action execution is disabled; use an approved native broker."), w)
  else
    match Operation.ofCode request.operation with
    | some .health =>
      let (response, env) := healthResponse cfg svc request w.env
      (response, { w with env := env })
    | some .listProviders =>
      let (response, env) := providerListResponse cfg svc request w.env
      (response, { w with env := env })
    | none =>
      (setResponse request .unsupported (cString "engine")
        (cString "The requested operation is not supported."), w)
    | some _ =>
      match routeToProvider cfg svc request w with
      | (.answered response, w) => (response, w)
      | (.noneCompatible, w) =>
        (setResponse request .noProvider (cString "engine")
          (cString "No compatible provider is available under the current privacy policy."), w)
      | (.allFailed last, w) =>
        (setResponse request .providerUnavailable (last.getD [])
          (cString "All compatible providers failed or timed out."), w)
end Engine
end RazionOS.Ai
