import RazionOS.Framework.CString

/-!
# The AI protocol

The records exchanged between applications, the engine and the provider adapters. Fixed
character arrays are byte lists; the bytes after `payload_length` and after the NUL of a
name are not part of the model.
-/

namespace RazionOS.Ai
open Framework

def protocolMagic : BitVec 32 := 0x52414931
def protocolVersion : BitVec 16 := 1
def maxAppId : Nat := 48
def maxProviderName : Nat := 32
def maxPayload : Nat := 768

inductive Operation where
  | health
  | listProviders
  | ask
  | search
  | analyze
  | runTask
  | summarize
  | generateCode
  | explainError
  | searchFiles
  | analyzeLogs
  | processInfo
  | diskInfo
  | networkDiagnostics
  | systemHealth
  | applicationSearch
  | voiceCommand
  | documentSearch
  | settingsRequest
  | classifyIntent
  deriving DecidableEq, Repr

/-- The enumerators of `razion_ai_operation_t`; a request may carry any other value. -/
def Operation.ofCode (code : BitVec 16) : Option Operation :=
  match code.toNat with
  | 1 => some .health
  | 2 => some .listProviders
  | 3 => some .ask
  | 4 => some .search
  | 5 => some .analyze
  | 6 => some .runTask
  | 7 => some .summarize
  | 8 => some .generateCode
  | 9 => some .explainError
  | 10 => some .searchFiles
  | 11 => some .analyzeLogs
  | 12 => some .processInfo
  | 13 => some .diskInfo
  | 14 => some .networkDiagnostics
  | 15 => some .systemHealth
  | 16 => some .applicationSearch
  | 17 => some .voiceCommand
  | 18 => some .documentSearch
  | 19 => some .settingsRequest
  | 20 => some .classifyIntent
  | _ => none

inductive Status where
  | ok
  | invalidRequest
  | protocolError
  | noProvider
  | providerUnavailable
  | permissionDenied
  | confirmationRequired
  | unsupported
  | internalError
  deriving DecidableEq, Repr

def Status.code : Status → BitVec 16
  | .ok => 0
  | .invalidRequest => 1
  | .protocolError => 2
  | .noProvider => 3
  | .providerUnavailable => 4
  | .permissionDenied => 5
  | .confirmationRequired => 6
  | .unsupported => 7
  | .internalError => 8

inductive ProviderClass where
  | localClass
  | cloud
  deriving DecidableEq, Repr

def flagPreferLocal : BitVec 32 := 1 <<< 0
def flagLocalOnly : BitVec 32 := 1 <<< 1
def flagAllowCloud : BitVec 32 := 1 <<< 2
def flagExecuteAction : BitVec 32 := 1 <<< 3
def flagUserConfirmed : BitVec 32 := 1 <<< 4

structure Request where
  magic : BitVec 32
  version : BitVec 16
  operation : BitVec 16
  requestId : BitVec 32
  flags : BitVec 32
  requestedCapabilities : BitVec 32
  payloadLength : BitVec 32
  appId : CString
  payload : List UInt8

/-- `offsetof(razion_ai_request_t, payload)`. -/
def requestHeaderSize : Nat := 4+2+2+4+4+4+4+maxAppId
def Request.hasFlag (request : Request) (flag : BitVec 32) : Bool := request.flags &&& flag != 0

structure Response where
  magic : BitVec 32
  version : BitVec 16
  status : BitVec 16
  requestId : BitVec 32
  grantedCapabilities : BitVec 32
  payloadLength : BitVec 32
  provider : CString
  payload : List UInt8

def responseHeaderSize : Nat := 4+2+2+4+4+4+maxProviderName
end RazionOS.Ai
