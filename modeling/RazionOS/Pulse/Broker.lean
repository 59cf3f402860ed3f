import RazionOS.Framework.Trace
import RazionOS.Pulse.Actions

/-!
# The action broker

`razion_pulse_execute` runs over an arbitrary `System`, whose calls may succeed or fail in any
pattern. Every call that observes or changes something outside the process is recorded in the
trace, in order.
-/

namespace RazionOS.Pulse
open Framework

inductive Effect where
  | access (path : CString)
  | spawn (executable : CString) (arguments : List CString)
  | stat (path : CString)
  | read (path : CString)
  | mkdir (path : CString) (mode : Nat)
  | create (path : CString) (mode : Nat)
  | write (path text : CString)
  | unlink (path : CString)
  | rmdir (path : CString)
  | openLog (path : CString)
  | append (path line : CString)
  deriving DecidableEq

structure System (σ : Type) where
  home : Option CString
  access : CString → σ → Bool × σ
  fork : CString → List CString → σ → Bool × σ
  /-- Whether the path is a directory, if it exists. -/
  stat : CString → σ → Option Bool × σ
  read : CString → σ → Option CString × σ
  mkdir : CString → Nat → σ → Nat × σ
  create : CString → Nat → σ → Bool × σ
  write : CString → CString → σ → Int × σ
  unlink : CString → σ → σ
  rmdir : CString → σ → σ
  openLog : CString → σ → Bool × σ
  append : CString → CString → σ → σ
  time : σ → Int × σ
  strerror : σ → CString

def eExist : Nat := 17
abbrev World (σ : Type) := Traced σ Effect

section Broker
variable (sys : System σ)

def strerror : StateM (World σ) CString := observe fun s => (sys.strerror s, s)

/-- `spawn_native`; true when the program was started. -/
def spawnNative (executable : CString) (arguments : List CString) : StateM (World σ) Bool := do
  if !(← call (.access executable) (sys.access executable)) then return false
  call (.spawn executable arguments) (sys.fork executable arguments)

def applicationOf : Action → Option CString
  | .openTerminal => some (cString "/bin/terminal")
  | .openCalculator => some (cString "/bin/calculator")
  | .openFileBrowser => some (cString "/bin/file-browser")
  | .openSystemMonitor => some (cString "/bin/cpuwidget")
  | .openWallpaperSettings => some (cString "/bin/wallpaper-picker")
  | _ => none

/-- The status and the text for the result buffer, before it is cut to the buffer's size. -/
abbrev Outcome := Status × CString

def openApplication (action : Action) : StateM (World σ) Outcome := do
  match applicationOf action with
  | none => return (.invalid, [])
  | some executable =>
    if !(← spawnNative sys executable [executable]) then
      return (.failed, cString "Unable to launch " ++ executable++cString ": " ++ (← strerror sys))
    return (.ok, cString "Launched " ++ executable)

def openDirectory (action : Action) : StateM (World σ) Outcome := do
  let target := homeTarget sys.home (if action = .openDownloads then cString "/Downloads" else [])
  if (← call (.stat target) (sys.stat target))≠some true then
    return (.unavailable, cString "Directory is unavailable: " ++ target)
  if !(← spawnNative sys (cString "/bin/file-browser") [cString "/bin/file-browser", target]) then
    return (.failed, cString "Unable to open " ++ target++cString ": " ++ (← strerror sys))
  return (.ok, cString "Opened " ++ target)

/-- The pieces `fgets` delivers with a buffer of the given size. -/
def fgetsLines (size : Nat) : CString → CString → List CString
  | [], line => if line=[] then [] else [line]
  | c::rest, line =>
    if c=10 ∨ size≤line.length+2 then (line++[c])::fgetsLines size rest []
    else fgetsLines size rest (line++[c])

/-- `sscanf(line, "<label> %ld kB")`: the number, when the label is there. -/
def scanLong (label line : CString) : Option Int :=
  if label.isPrefixOf line then
    let rest := (line.drop label.length).dropWhile isSpace
    let negative := rest.head? == some 45
    let digits := (if negative then rest.tail else rest).takeWhile isDigit
    let value := digits.foldl (fun (i : Int) c => i*10+c.toNat-48) 0
    some ((if negative then -value else value).bmod (2^64))
  else none

def scanMeminfo (found : Int × Int) (line : CString) : Int × Int :=
  match scanLong (cString "MemTotal:") line with
  | some total => (total, found.2)
  | none =>
    match scanLong (cString "MemFree:") line with
    | some available => (found.1, available)
    | none => found

def checkMemory : StateM (World σ) Outcome := do
  let path := cString "/proc/meminfo"
  match ← call (.read path) (sys.read path) with
  | none =>
    return (.failed, cString "Unable to read memory information: " ++ (← strerror sys))
  | some text =>
    let (total, available) := (fgetsLines 160 text []).foldl scanMeminfo (0, 0)
    if total≤0 then return (.failed, cString "Memory information is malformed.")
    let used := (total-available).bmod (2^64)
    return (.ok, cString "Memory: " ++ decimal (used.tdiv 1024)++cString " MB used of " ++
      decimal (total.tdiv 1024)++cString " MB; " ++ decimal (available.tdiv 1024) ++
      cString " MB available.")

def starter : CString :=
  cString "def main():\n    print(\"Hello from RazionOS\")\n\n\n" ++
    cString "if __name__ == \"__main__\":\n    main()\n"

def createPythonProject : StateM (World σ) Outcome := do
  let projects := homeTarget sys.home (cString "/Projects")
  let project := homeTarget sys.home (cString "/Projects/python-project")
  let mainFile := homeTarget sys.home (cString "/Projects/python-project/main.py")
  if (← call (.stat projects) (sys.stat projects))≠some true then
    return (.unavailable, cString "Projects directory is unavailable: " ++ projects)
  if (← call (.stat project) (sys.stat project)).isSome then
    return (.unavailable, cString "Project already exists; no files were changed: " ++ project)
  if (← call (.mkdir project 0o755) (sys.mkdir project 0o755))≠0 then
    return (.failed, cString "Unable to create " ++ project++cString ": " ++ (← strerror sys))
  if !(← call (.create mainFile 0o644) (sys.create mainFile 0o644)) then
    call (.rmdir project) fun s => ((), sys.rmdir project s)
    return (.failed, cString "Unable to create " ++ mainFile++cString ": " ++ (← strerror sys))
  if (← call (.write mainFile starter) (sys.write mainFile starter))≠starter.length then
    call (.unlink mainFile) fun s => ((), sys.unlink mainFile s)
    call (.rmdir project) fun s => ((), sys.rmdir project s)
    return (.failed, cString "Project creation failed; incomplete files were removed.")
  return (.ok, cString "Created Python project: " ++ project)

def riskString (risk : BitVec 16) : CString :=
  if risk=Risk.read.code then cString "read"
  else if risk=Risk.change.code then cString "change"
  else if risk=Risk.privileged.code then cString "privileged"
  else if risk=Risk.destructive.code then cString "destructive"
  else cString "unknown"

def statusString : Status → CString
  | .ok => cString "ok"
  | .unknown => cString "unknown"
  | .invalid => cString "invalid"
  | .capabilityDenied => cString "capability-denied"
  | .confirmationRequired => cString "confirmation-required"
  | .unavailable => cString "unavailable"
  | .failed => cString "failed"

def auditDirectory (home : CString) : CString := truncate maxTarget (home++cString "/.razion")

def auditLog (home : CString) : CString :=
  truncate maxTarget (home++cString "/.razion/pulse-audit.log")

def auditLine (time : Int) (context : Context) (proposal : Proposal) (status : Status) : CString :=
  cString "time=" ++ decimal time++cString " app=" ++ context.appId.text ++
    cString " action=" ++ proposal.actionId.text++cString " risk=" ++ riskString proposal.risk ++
    cString " status=" ++ statusString status ++
    cString " capabilities=0x" ++ hexadecimal proposal.requiredCapabilities.toNat++cString "\n"

def auditAction (context : Context) (proposal : Proposal) (status : Status) :
    StateM (World σ) Unit := do
  match sys.home with
  | none => return
  | some [] => return
  | some home =>
    let directory := auditDirectory home
    let log := auditLog home
    let error ← call (.mkdir directory 0o700) (sys.mkdir directory 0o700)
    if error≠0 ∧ error≠eExist then return
    if !(← call (.openLog log) (sys.openLog log)) then return
    let now ← observe sys.time
    let line := auditLine now context proposal status
    call (.append log line) fun s => ((), sys.append log line s)

def actionOf (code : BitVec 16) : Option Action :=
  [Action.openTerminal, .openCalculator, .openFileBrowser, .openSystemMonitor,
    .openWallpaperSettings, .openHome, .openDownloads, .checkMemory, .createPythonProject,
    .findRecentPdf, .restartNetworking, .installNodejs, .summarizeToday].find? (·.code == code)

def performAction (action : BitVec 16) : StateM (World σ) Outcome :=
  match actionOf action with
  | some .openTerminal => openApplication sys .openTerminal
  | some .openCalculator => openApplication sys .openCalculator
  | some .openFileBrowser => openApplication sys .openFileBrowser
  | some .openSystemMonitor => openApplication sys .openSystemMonitor
  | some .openWallpaperSettings => openApplication sys .openWallpaperSettings
  | some .openHome => openDirectory sys .openHome
  | some .openDownloads => openDirectory sys .openDownloads
  | some .checkMemory => checkMemory sys
  | some .createPythonProject => createPythonProject sys
  | _ => return (.unavailable, cString "No approved native broker is available for this action.")

/-- The decision on the table's own proposal, and the action when nothing forbids it. -/
def decideAction (context : Context) (proposal : Proposal) (confirmed : Bool) :
    StateM (World σ) Outcome :=
  if context.grantedCapabilities &&& proposal.requiredCapabilities ≠
      proposal.requiredCapabilities then
    return (.capabilityDenied,
      cString "The caller does not hold the capability required for this action.")
  else if proposal.requiresConfirmation≠0 ∧ !confirmed then
    return (.confirmationRequired,
      cString "Explicit user confirmation is required before this action can run.")
  else if proposal.executable=0 ∨ Risk.privileged.code≤proposal.risk then
    return (.unavailable, cString "No approved native broker is available for this action.")
  else performAction sys proposal.action

/-- `razion_pulse_execute`: the status, and the text in the result buffer. -/
def execute (context : Context) (proposal : Proposal) (confirmed : Bool) (result : CString)
    (resultSize : Nat) : StateM (World σ) Outcome := do
  if resultSize=0 ∨ proposal.version≠protocolVersion ∨
      proposal.action≤Action.unknown.code ∨ Action.summarizeToday.code<proposal.action then
    return (.invalid, result)
  match proposeAction sys.home proposal.actionId.text with
  | none => return (.invalid, [])
  | some canonical =>
    if canonical.action≠proposal.action then return (.invalid, [])
    let (status, text) ← decideAction sys context canonical confirmed
    auditAction sys context canonical status
    return (status, truncate resultSize text)
end Broker
end RazionOS.Pulse
