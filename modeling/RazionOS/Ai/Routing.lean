import Mathlib.Data.Fintype.Card
import RazionOS.Ai.Engine

/-! # The routing policy -/

namespace RazionOS.Ai
open Framework

section Law
variable (cfg : EngineConfig) (request : Request)

def Chosen {ι : Type} (trace : List (EngineEvent ι)) (i : ι) : Prop :=
  ∃ providerClass probes, .select providerClass probes (some i)∈trace

variable (before : List (EngineEvent cfg.Index)) (providerClass : ProviderClass)
  (probes : List (cfg.Index × Bool))

def Candidate (i : cfg.Index) : Prop :=
  ¬ Chosen before i ∧ policyAdmits cfg i request providerClass

def Eligible (i : cfg.Index) : Prop :=
  Candidate cfg request before providerClass i ∧ (i, true)∈probes

structure CloudPermitted : Prop where
  configured : cfg.allowCloud
  requested : request.hasFlag flagAllowCloud
  notLocalOnly : request.hasFlag flagLocalOnly=false
  fallback : preferLocal cfg request → cfg.cloudFallback
  localFailed : preferLocal cfg request →
    ∀ probes i, .select .localClass probes (some i)∈before → .fail i∈before

def SelectLaw (chosen : Option cfg.Index) : Prop :=
  (∀ i, Candidate cfg request before providerClass i → ∃ up, (i, up)∈probes) ∧
  ∀ i∈chosen, Eligible cfg request before providerClass probes i ∧
    ∀ j, Eligible cfg request before providerClass probes j →
      (cfg.provider i).priority≤(cfg.provider j).priority

structure SendLaw (i : cfg.Index) (payload : List UInt8) : Prop where
  payload_eq : payload=request.payload.take request.payloadLength.toNat
  /-- The provider is the one the selection just before has chosen, in its own class. -/
  selected : ∃ earlier probes,
    before=earlier++[.select (cfg.provider i).providerClass probes (some i)]
  first : ∀ sent, .send i sent∉before
  offers : (cfg.provider i).capabilities &&& request.requestedCapabilities =
    request.requestedCapabilities
  cloud : (cfg.provider i).providerClass = .cloud → CloudPermitted cfg request before

def RoutingLaw : EngineEvent cfg.Index → Prop
  | .select providerClass probes chosen => SelectLaw cfg request before providerClass probes chosen
  | .send i payload => SendLaw cfg request before i payload
  | .fail _ => True
  | .answer _ => True
end Law

variable (cfg : EngineConfig) (svc : Services σ) (request : Request)

private theorem policyAdmits_class (h : policyAdmits cfg i request providerClass) :
    (cfg.provider i).providerClass=providerClass := by
  by_contra hne
  simp [policyAdmits,hne] at h

private theorem policyAdmits_offers (h : policyAdmits cfg i request providerClass) :
    (cfg.provider i).capabilities &&& request.requestedCapabilities =
      request.requestedCapabilities := by
  by_contra hne
  simp [policyAdmits,hne] at h

private theorem policyAdmits_cloud (h : policyAdmits cfg i request .cloud) :
    cfg.allowCloud ∧ request.hasFlag flagAllowCloud ∧ request.hasFlag flagLocalOnly=false := by
  simp only [policyAdmits] at h
  grind

/-- After the scan of some providers the best of the reachable candidates is selected. -/
structure ScanInv (providerClass : ProviderClass) (attempted : Finset cfg.Index)
    (visited : cfg.Index → Prop) (selected : Option cfg.Index)
    (probes : List (cfg.Index × Bool)) : Prop where
  probed : ∀ i, visited i → i∉attempted → policyAdmits cfg i request providerClass →
    ∃ up, (i, up)∈probes
  sound : ∀ i∈selected, i∉attempted ∧ policyAdmits cfg i request providerClass ∧ (i, true)∈probes
  least : ∀ j, (j, true)∈probes → ∃ i∈selected, (cfg.provider i).priority≤(cfg.provider j).priority

variable {cfg request} in
private theorem ScanInv.up (h : ScanInv cfg request providerClass attempted visited selected probes)
    (hj : j∉attempted) (ha : policyAdmits cfg j request providerClass) :
    ScanInv cfg request providerClass attempted (fun i => visited i ∨ i=j)
      (some (betterOf cfg j selected)) (probes++[(j, true)]) := by
  refine ⟨?_,?_,?_⟩
  · rintro i (hi | rfl) hni hai
    · obtain ⟨up,hup⟩ := h.probed i hi hni hai
      exact ⟨up,by simp [hup]⟩
    · exact ⟨true,by simp⟩
  · rintro i ⟨⟩
    rcases betterOf_eq cfg j selected with hb | hb
    · rw [hb]
      exact ⟨hj,ha,by simp⟩
    · obtain ⟨hn,had,hp⟩ := h.sound _ hb
      exact ⟨hn,had,by simp [hp]⟩
  intro k hk
  refine ⟨_,rfl,?_⟩
  rcases List.mem_append.mp hk with hk | hk
  · obtain ⟨i,hi,hle⟩ := h.least k hk
    obtain rfl : selected=some i := hi
    simp only [betterOf]
    split_ifs <;> omega
  · obtain rfl : k=j := by simpa using hk
    cases selected with
    | none => simp [betterOf]
    | some i =>
      simp only [betterOf]
      split_ifs <;> omega

variable {cfg request} in
private theorem ScanInv.skip
    (h : ScanInv cfg request providerClass attempted visited selected probes)
    (hp : probes' = probes ∧ (j∈attempted ∨ ¬ policyAdmits cfg j request providerClass) ∨
      probes' = probes++[(j, false)]) :
    ScanInv cfg request providerClass attempted (fun i => visited i ∨ i=j) selected probes' := by
  have hsub : ∀ x∈probes, x∈probes' := by
    rcases hp with ⟨rfl,-⟩ | rfl <;> simp +contextual
  refine ⟨?_,?_,?_⟩
  · rintro i (hi | rfl) hni hai
    · obtain ⟨up,hup⟩ := h.probed i hi hni hai
      exact ⟨up,hsub _ hup⟩
    · rcases hp with ⟨-,hj | hj⟩ | rfl
      · exact absurd hj hni
      · exact absurd hai hj
      · exact ⟨false,by simp⟩
  · intro i hi
    obtain ⟨hn,had,hup⟩ := h.sound i hi
    exact ⟨hn,had,hsub _ hup⟩
  · intro k hk
    apply h.least k
    rcases hp with ⟨rfl,-⟩ | rfl
    · exact hk
    · simpa using hk

private theorem selectLoop_scan
    (rest : List cfg.Index) (visited : cfg.Index → Prop) (selected : Option cfg.Index)
    (probes : List (cfg.Index × Bool)) (env : σ)
    (h : ScanInv cfg request providerClass attempted visited selected probes) :
    ScanInv cfg request providerClass attempted (fun i => visited i ∨ i∈rest)
      (selectLoop cfg svc request providerClass attempted rest selected probes env).1
      (selectLoop cfg svc request providerClass attempted rest selected probes env).2.1 := by
  induction rest generalizing visited selected probes env with
  | nil => simpa [selectLoop] using h
  | cons j rest ih =>
    simp only [List.mem_cons,← or_assoc]
    rw [selectLoop]
    split
    next hj => exact ih _ _ _ _ (h.skip (.inl ⟨rfl,.inl hj⟩))
    next hj =>
      apply ih
      by_cases ha : policyAdmits cfg j request providerClass
      · simp only [providerMatches,ha]
        cases (providerIsAvailable svc (cfg.provider j) env).1 with
        | true => exact h.up hj ha
        | false => exact h.skip (.inr rfl)
      · simp only [providerMatches,ha]
        exact h.skip (.inl ⟨rfl,.inr ha⟩)

theorem selectProvider_spec (hch : ∀ i, Chosen w.trace i ↔ i∈attempted) :
    ∃ probes, (selectProvider cfg svc request providerClass attempted w).2.trace =
        w.trace++[.select providerClass probes
          (selectProvider cfg svc request providerClass attempted w).1] ∧
      SelectLaw cfg request w.trace providerClass probes
        (selectProvider cfg svc request providerClass attempted w).1 := by
  have hin : ScanInv cfg request providerClass attempted (fun _ => False) none [] :=
    ⟨by simp,by simp,by simp⟩
  have h := selectLoop_scan cfg svc request (List.finRange _) _ none []
    w.env hin
  refine ⟨_,rfl,?_,?_⟩
  · rintro i ⟨hni,hai⟩
    exact h.probed i (by simp) (fun hi => hni ((hch i).mpr hi)) hai
  intro i hi
  obtain ⟨hni,hai,hup⟩ := h.sound i hi
  refine ⟨⟨⟨fun hc => hni ((hch i).mp hc),hai⟩,hup⟩,?_⟩
  rintro j ⟨-,hj⟩
  obtain ⟨k,hk,hle⟩ := h.least j hj
  obtain rfl : k=i := Option.some.inj (hk.symm.trans hi)
  exact hle

/-- The response grants only what the provider offers and the request asks for. -/
abbrev GrantedWithin (provider : ProviderDescriptor) (response : Response) : Prop :=
  response.grantedCapabilities &&& (provider.capabilities &&& request.requestedCapabilities) =
    response.grantedCapabilities

private theorem acceptReply_granted
    (h : acceptReply provider request received reply=some response) :
    GrantedWithin request provider response := by
  simp only [acceptReply] at h
  split_ifs at h
  obtain rfl := Option.some.inj h
  simp [GrantedWithin,BitVec.and_assoc]

theorem forwardToProvider_spec (i : cfg.Index) (w : World σ cfg.Index) :
    ((forwardToProvider cfg svc i request w).2.trace=w.trace ∨
      (forwardToProvider cfg svc i request w).2.trace =
        w.trace++[.send i (request.payload.take request.payloadLength.toNat)]) ∧
    ∀ response∈(forwardToProvider cfg svc i request w).1,
      GrantedWithin request (cfg.provider i) response := by
  simp only [forwardToProvider]
  split_ifs
  · exact ⟨.inl rfl,by simp⟩
  · exact ⟨.inr rfl,by simp⟩
  · exact ⟨.inr rfl,by simp⟩
  · exact ⟨.inr rfl,fun _ h => acceptReply_granted request h⟩

/-- The providers `on` are those chosen so far, and the failure of those `off` is recorded. -/
structure Tracks (on off : Finset cfg.Index) (trace : List (EngineEvent cfg.Index)) : Prop where
  law : Always (RoutingLaw cfg request) trace
  chosen : ∀ i, Chosen trace i ↔ i∈on
  failed : ∀ i∈off, .fail i∈trace
  sent : ∀ i payload, .send i payload∈trace → i∈on
  unanswered : ∀ i, .answer i∉trace

abbrev RoutingInv (a : Attempts cfg) := Tracks cfg request a.attempted a.attempted

structure Answered (i : cfg.Index) (response : Response) (trace : List (EngineEvent cfg.Index)) :
    Prop where
  law : Always (RoutingLaw cfg request) trace
  answer : ∀ j, .answer j∈trace ↔ j=i
  granted : GrantedWithin request (cfg.provider i) response

abbrev PendingInv (a : Attempts cfg) (i : cfg.Index) :=
  Tracks cfg request (a.add i).attempted a.attempted

/-- A lawful trace, and an answer exactly when a provider has answered. -/
structure RoutingDone (response : Response) (trace : List (EngineEvent cfg.Index)) : Prop where
  law : Always (RoutingLaw cfg request) trace
  granted : ∀ i, .answer i∈trace → GrantedWithin request (cfg.provider i) response
  ungranted : (∀ i, .answer i∉trace) → response.grantedCapabilities=0

def RouteOutcome : Routed × World σ cfg.Index → Prop
  | (.answered response, w) => ∃ i, Answered cfg request i response w.trace
  | (_, w) => ∃ a, RoutingInv cfg request a w.trace

theorem RoutingInv.init : RoutingInv cfg request (.init cfg) [] :=
  ⟨Always.nil,by simp [Chosen,Attempts.init],by simp [Attempts.init],by simp,by simp⟩

variable {cfg request}

private theorem Tracks.concat (h : Tracks cfg request on off trace)
    (hl : RoutingLaw cfg request trace e) (hc : ∀ i, i∈on' ↔ Chosen [e] i ∨ i∈on)
    (hf : ∀ i∈off', e = .fail i ∨ i∈off) (hs : ∀ i payload, e = .send i payload → i∈on)
    (ha : ∀ i, e≠.answer i) : Tracks cfg request on' off' (trace++[e]) := by
  refine ⟨h.law.concat hl,?_,?_,?_,?_⟩
  · intro i
    rw [hc,← h.chosen]
    simp [Chosen,exists_or,or_comm]
  · intro i hi
    rcases hf i hi with rfl | hi
    · simp
    · simp [h.failed i hi]
  · intro i payload hi
    rcases List.mem_append.mp hi with hi | hi
    · exact (hc i).2 (.inr (h.sent i payload hi))
    · exact (hc i).2 (.inr (hs i payload (List.mem_singleton.1 hi).symm))
  · intro i hi
    rcases List.mem_append.mp hi with hi | hi
    · exact h.unanswered i hi
    · exact ha i (List.mem_singleton.1 hi).symm

section
variable {a : Attempts cfg} {trace : List (EngineEvent cfg.Index)}
  (h : RoutingInv cfg request a trace)
include h

private theorem RoutingInv.selectNone (hs : SelectLaw cfg request trace providerClass probes none) :
    RoutingInv cfg request a (trace++[.select providerClass probes none]) :=
  h.concat hs (by simp [Chosen]) (fun _ => .inr) (by simp) (by simp)

private theorem RoutingInv.sendLaw (hs : SelectLaw cfg request trace providerClass probes (some i))
    (hclo : providerClass = .cloud → preferLocal cfg request → cfg.cloudFallback) :
    SendLaw cfg request (trace++[.select providerClass probes (some i)]) i
      (request.payload.take request.payloadLength.toNat) := by
  obtain ⟨⟨⟨hn,ha⟩,-⟩,-⟩ := hs.2 i rfl
  have hcl := policyAdmits_class cfg request ha
  refine ⟨rfl,⟨trace,probes,by rw [hcl]⟩,?_,policyAdmits_offers cfg request ha,?_⟩
  · intro sent hse
    have hse : .send i sent∈trace := by simpa using hse
    exact hn ((h.chosen i).mpr (h.sent i sent hse))
  intro hc
  obtain rfl : providerClass = .cloud := hcl.symm.trans hc
  obtain ⟨hco,hr,hl⟩ := policyAdmits_cloud cfg request ha
  refine ⟨hco,hr,hl,hclo rfl,?_⟩
  intro _ probes' j hj
  have hj : .select .localClass probes' (some j)∈trace := by simpa using hj
  simp [h.failed j ((h.chosen j).mp ⟨_,_,hj⟩)]

private theorem RoutingInv.select (hs : SelectLaw cfg request trace providerClass probes (some i)) :
    PendingInv cfg request a i (trace++[.select providerClass probes (some i)]) :=
  h.concat hs (by simp [Chosen,Attempts.add,eq_comm]) (fun _ => .inr) (by simp) (by simp)

end

section
variable {a : Attempts cfg} {i : cfg.Index} {trace : List (EngineEvent cfg.Index)}
  (h : PendingInv cfg request a i trace)
include h

private theorem PendingInv.send (hs : SendLaw cfg request trace i payload) :
    PendingInv cfg request a i (trace++[.send i payload]) :=
  h.concat hs (by simp [Chosen]) (fun _ => .inr) (by simp [Attempts.add]) (by simp)

private theorem PendingInv.fail : RoutingInv cfg request (a.add i) (trace++[.fail i]) :=
  h.concat trivial (by simp [Chosen]) (by simp [Attempts.add,eq_comm]) (by simp) (by simp)

private theorem PendingInv.answer (hg : GrantedWithin request (cfg.provider i) response) :
    Answered cfg request i response (trace++[.answer i]) :=
  ⟨h.law.concat trivial,fun j => by simp [h.unanswered],hg⟩

end

private theorem RoutingInv.attempt (h : RoutingInv cfg request a w.trace)
    (hc : providerClass = .cloud → preferLocal cfg request → cfg.cloudFallback)
    (hs : selectProvider cfg svc request providerClass a.attempted w=(some i, w1)) :
    PendingInv cfg request a i (forwardToProvider cfg svc i request w1).2.trace := by
  obtain ⟨probes,ht,hl⟩ := selectProvider_spec cfg svc request h.chosen
  rw [hs] at ht hl
  rcases (forwardToProvider_spec cfg svc request i w1).1 with hf | hf
  · rw [hf,ht]
    exact h.select hl
  · rw [hf,ht]
    exact (h.select hl).send (h.sendLaw hl hc)

private theorem tryClass_spec (providerClass : ProviderClass) (h : RoutingInv cfg request a w.trace)
    (hc : providerClass = .cloud → preferLocal cfg request → cfg.cloudFallback) :
    match tryClass cfg svc request providerClass a w with
    | (none, a', w') => RoutingInv cfg request a' w'.trace
    | (some response, _, w') => ∃ i, Answered cfg request i response w'.trace := by
  induction a, w using tryClass.induct cfg svc request providerClass with
  | case1 a w w1 hs =>
    obtain ⟨probes,ht,hl⟩ := selectProvider_spec cfg svc request h.chosen
    rw [hs] at ht hl
    rw [tryClass,hs]
    have hinv := h.selectNone hl
    rwa [← ht] at hinv
  | case2 a w i w1 hs response w2 hf =>
    have hp := h.attempt svc hc hs
    have hg := (forwardToProvider_spec cfg svc request i w1).2
    rw [hf] at hp hg
    rw [tryClass,hs]
    simp only [hf]
    exact ⟨i,hp.answer (hg response rfl)⟩
  | case3 a w i w1 hs w2 hf ih =>
    have hp := h.attempt svc hc hs
    rw [hf] at hp
    rw [tryClass,hs]
    simp only [hf]
    exact ih hp.fail

private theorem Answered.done (h : Answered cfg request i response trace) :
    RoutingDone cfg request response trace := by
  refine ⟨h.law,?_,?_⟩
  · intro j hj
    obtain rfl := (h.answer j).mp hj
    exact h.granted
  · intro hn
    exact absurd ((h.answer i).mpr rfl) (hn i)

private theorem RoutingInv.routeOutcome (h : RoutingInv cfg request a w.trace) :
    RouteOutcome cfg request (a.result, w) := by
  cases ha : a.attemptedAny <;> simpa [Attempts.result,ha] using ⟨a,h⟩

/-- Local providers first: the cloud is reached only with the fallback enabled. -/
theorem routeToProvider_outcome (hw : w.trace=[]) :
    RouteOutcome cfg request (routeToProvider cfg svc request w) := by
  have hi := hw ▸ RoutingInv.init cfg request
  have hf := tryClass_spec svc (classOrder cfg request).1 hi (by
    cases hp : preferLocal cfg request <;> simp [classOrder,hp])
  rw [routeToProvider]
  split
  next response a w1 ht =>
    rw [ht] at hf
    exact hf
  next a w1 ht =>
    rw [ht] at hf
    split_ifs with hb
    · exact hf.routeOutcome
    have hs := tryClass_spec svc (classOrder cfg request).2 hf (by
      cases hp : preferLocal cfg request <;> simp_all [classOrder])
    split
    next ht' =>
      rw [ht'] at hs
      exact hs
    next ht' =>
      rw [ht'] at hs
      exact hs.routeOutcome

private theorem RoutingDone.of_routingInv (h : RoutingInv cfg request a trace)
    (hg : response.grantedCapabilities=0) : RoutingDone cfg request response trace :=
  ⟨h.law,fun i hi => absurd hi (h.unanswered i),fun _ => hg⟩

private theorem handleRequest_done :
    RoutingDone cfg request (handleRequest cfg svc request ⟨env,[]⟩).1
      (handleRequest cfg svc request ⟨env,[]⟩).2.trace := by
  have hin := RoutingInv.init cfg request
  have hr : RouteOutcome cfg request (routeToProvider cfg svc request ⟨env,[]⟩) :=
    routeToProvider_outcome svc rfl
  unfold handleRequest
  split_ifs
  · exact .of_routingInv hin rfl
  · exact .of_routingInv hin rfl
  split
  · exact .of_routingInv hin rfl
  · exact .of_routingInv hin rfl
  · exact .of_routingInv hin rfl
  split
  next heq =>
    rw [heq] at hr
    obtain ⟨i,hi⟩ := hr
    exact hi.done
  next heq =>
    rw [heq] at hr
    obtain ⟨a,ha⟩ := hr
    exact .of_routingInv ha rfl
  next heq =>
    rw [heq] at hr
    obtain ⟨a,ha⟩ := hr
    exact .of_routingInv ha rfl

private theorem handleRequest_execute (h : request.hasFlag flagExecuteAction) :
    (handleRequest cfg svc request w).2=w := by
  simp only [handleRequest]
  split_ifs <;> rfl

def sentTo {ι : Type} (trace : List (EngineEvent ι)) : List ι :=
  trace.filterMap fun
    | .send i _ => some i
    | _ => none

def attempts {ι : Type} (trace : List (EngineEvent ι)) : List ι :=
  trace.filterMap fun
    | .select _ _ chosen => chosen
    | _ => none

private theorem sentTo_nodup (h : Always (RoutingLaw cfg request) trace) :
    (sentTo trace).Nodup := by
  apply h.nodup_filterMap
  intro before e i hl he e' he' hs
  cases e <;> simp_all
  cases e' <;> simp_all
  exact hl.first _ he'

private theorem attempts_nodup (h : Always (RoutingLaw cfg request) trace) :
    (attempts trace).Nodup := by
  apply h.nodup_filterMap
  intro before e i hl he e' he' hs
  cases e <;> simp_all
  cases e' <;> simp_all
  exact (hl.2 i rfl).1.1.1 ⟨_,_,he'⟩

/-- The trace obeys `RoutingLaw`, no action is sent anywhere, no provider is sent the payload twice,
and the response grants only what the provider offers and the request asks for. -/
theorem handleRequest_routing_policy (cfg : EngineConfig) (svc : Services σ) (request : Request)
    (env : σ) :
    let r := handleRequest cfg svc request ⟨env,[]⟩
    Always (RoutingLaw cfg request) r.2.trace ∧
    (request.hasFlag flagExecuteAction → sentTo r.2.trace = []) ∧
    (sentTo r.2.trace).Nodup ∧
    (attempts r.2.trace).length ≤ cfg.providers.length ∧
    (∀ i, .answer i ∈ r.2.trace → r.1.grantedCapabilities &&&
        ((cfg.provider i).capabilities &&& request.requestedCapabilities) =
      r.1.grantedCapabilities) ∧
    ((∀ i, .answer i ∉ r.2.trace) → r.1.grantedCapabilities = 0) := by
  intro r
  have hd : RoutingDone cfg request r.1 r.2.trace := handleRequest_done svc
  refine ⟨hd.law,?_,sentTo_nodup hd.law,?_,hd.granted,hd.ungranted⟩
  · intro hexec
    simp only [r,handleRequest_execute svc hexec]
    rfl
  · simpa using List.Nodup.length_le_card (attempts_nodup hd.law)
end RazionOS.Ai
