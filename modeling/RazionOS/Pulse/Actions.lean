import RazionOS.Framework.CString

/-! # The action vocabulary -/

namespace RazionOS.Pulse
open Framework

def protocolVersion : BitVec 16 := 1
abbrev maxAppId : Nat := 48
abbrev maxActionId : Nat := 40
abbrev maxTarget : Nat := 256
abbrev maxSummary : Nat := 192

inductive Action where
  | unknown
  | openTerminal
  | openCalculator
  | openFileBrowser
  | openSystemMonitor
  | openWallpaperSettings
  | openHome
  | openDownloads
  | checkMemory
  | createPythonProject
  | findRecentPdf
  | restartNetworking
  | installNodejs
  | summarizeToday
  deriving DecidableEq, Repr

def Action.code (action : Action) : BitVec 16 := BitVec.ofNat 16 action.ctorIdx

inductive Risk where
  | read
  | change
  | privileged
  | destructive
  deriving DecidableEq, Repr

def Risk.code (risk : Risk) : BitVec 16 := BitVec.ofNat 16 risk.ctorIdx

inductive Status where
  | ok
  | unknown
  | invalid
  | capabilityDenied
  | confirmationRequired
  | unavailable
  | failed
  deriving DecidableEq, Repr

def capAppLaunch : BitVec 32 := 1 <<< 0
def capDirectoryOpen : BitVec 32 := 1 <<< 1
def capSystemRead : BitVec 32 := 1 <<< 2
def capFileCreate : BitVec 32 := 1 <<< 3
def capFileSearch : BitVec 32 := 1 <<< 4
def capPackageManage : BitVec 32 := 1 <<< 5
def capNetworkAdmin : BitVec 32 := 1 <<< 6
def capActivityRead : BitVec 32 := 1 <<< 7

structure Context where
  appId : CArray maxAppId
  grantedCapabilities : BitVec 32

structure Proposal where
  version : BitVec 16
  action : BitVec 16
  risk : BitVec 16
  requiresConfirmation : BitVec 16
  requiredCapabilities : BitVec 32
  executable : BitVec 32
  actionId : CArray maxActionId
  target : CArray maxTarget
  summary : CArray maxSummary

/-- The loop of `normalize_request`: the bytes written so far, and whether a separator is due. -/
def normalizeLoop (size : Nat) : CString → CString → Bool → CString
  | [], output, _ => output
  | c::rest, output, pendingSpace =>
    if output.length+1 < size then
      if isAlnum c then
        let output := if pendingSpace && output.length≠0 then output++[32] else output
        normalizeLoop size rest (output++[toLower c]) false
      else normalizeLoop size rest output true
    else output

def normalizeRequest (request : CString) (size : Nat) : CString :=
  normalizeLoop size request [] false

def normalizeActionId (actionId : CString) : CString :=
  (normalizeRequest actionId maxActionId).map fun c => if c == 32 then 45 else c

inductive Target where
  | fixed (text : CString)
  | underHome (suffix : CString)
  deriving DecidableEq

/-- One call of `set_proposal` in `razion_pulse_propose_action`. -/
structure Entry where
  action : Action
  risk : Risk
  capabilities : BitVec 32
  confirmation : Bool
  executable : Bool
  actionId : CString
  target : Target
  summary : CString
  deriving DecidableEq

def actionTable : List Entry :=
  [⟨.openTerminal,.read,capAppLaunch,false,true,
      cString "open-terminal",.fixed (cString "/bin/terminal"),cString "Open Terminal"⟩,
   ⟨.openCalculator,.read,capAppLaunch,false,true,
      cString "open-calculator",.fixed (cString "/bin/calculator"),cString "Open Calculator"⟩,
   ⟨.openFileBrowser,.read,capAppLaunch,false,true,
      cString "open-file-browser",.fixed (cString "/bin/file-browser"),
      cString "Open File Browser"⟩,
   ⟨.openSystemMonitor,.read,capAppLaunch,false,true,
      cString "open-system-monitor",.fixed (cString "/bin/cpuwidget"),
      cString "Open System Monitor"⟩,
   ⟨.openWallpaperSettings,.read,capAppLaunch,false,true,
      cString "open-wallpaper-settings",.fixed (cString "/bin/wallpaper-picker"),
      cString "Open Wallpaper Settings"⟩,
   ⟨.openHome,.read,capDirectoryOpen,false,true,
      cString "open-home",.underHome [],cString "Open Home"⟩,
   ⟨.openDownloads,.read,capDirectoryOpen,false,true,
      cString "open-downloads",.underHome (cString "/Downloads"),cString "Open Downloads"⟩,
   ⟨.checkMemory,.read,capSystemRead,false,true,
      cString "check-memory",.fixed (cString "/proc/meminfo"),cString "Check Memory Usage"⟩,
   ⟨.createPythonProject,.change,capFileCreate,true,true,
      cString "create-python-project",.underHome (cString "/Projects/python-project"),
      cString "Create a Python project without overwriting existing files"⟩,
   ⟨.findRecentPdf,.read,capFileSearch,false,false,
      cString "find-recent-pdf",.fixed (cString "user documents"),
      cString "Find recently modified PDF documents"⟩,
   ⟨.restartNetworking,.privileged,capNetworkAdmin,true,false,
      cString "restart-networking",.fixed (cString "network service"),
      cString "Restart networking through a privileged system broker"⟩,
   ⟨.installNodejs,.privileged,capPackageManage,true,false,
      cString "install-nodejs",.fixed (cString "nodejs"),
      cString "Install Node.js through the package manager"⟩,
   ⟨.summarizeToday,.read,capActivityRead,false,false,
      cString "summarize-today",.fixed (cString "activity index"),
      cString "Summarize today's indexed activity"⟩]

/-- `home_target`, for the value of `HOME`. -/
def homeTarget (home : Option CString) (suffix : CString) : CString :=
  let home := match home with
    | none => cString "/home/local"
    | some [] => cString "/home/local"
    | some home => home
  truncate maxTarget (home++suffix)

def Target.resolve (home : Option CString) : Target → CString
  | .fixed text => text
  | .underHome suffix => homeTarget home suffix

def setProposal (home : Option CString) (entry : Entry) : Proposal :=
  { version := protocolVersion
    action := entry.action.code
    risk := entry.risk.code
    requiresConfirmation := if entry.confirmation then 1 else 0
    requiredCapabilities := entry.capabilities
    executable := if entry.executable then 1 else 0
    actionId := .copy maxActionId entry.actionId
    target := .copy maxTarget (entry.target.resolve home)
    summary := .copy maxSummary entry.summary }

/-- `razion_pulse_propose_action`; `none` is the status for an unknown identifier. -/
def proposeAction (home : Option CString) (actionId : CString) : Option Proposal :=
  (actionTable.find? fun entry => normalizeActionId actionId == entry.actionId).map
    (setProposal home)
end RazionOS.Pulse
