import Mathlib.Logic.Function.Basic
import WebosWireguard.ShellScript
import WebosWireguard.StartText
import WebosWireguard.SubnetTable

/-! start.sh and stop.sh from the point where the operation lock is held. The world is the
kernel's IPv4 table, wg0, disable_ipv6 of every interface and the files the scripts share.
The daemon's pid, log and socket files are left out: wg0 lives as long as wireguard-go.
Connected routes of wg0's own addresses, routes without a device and the failure of
`ip link del` on an existing wg0 are not modelled. -/
namespace WebosWireguard.TunnelScripts
open ShellScript ShellScript.Script SubnetTable TextLines StartText

def iface : Text := "wg0".toList
def base : Text := "/var/lib/webosbrew/wireguard".toList

structure Hop where
  via : Option Text
  dev : Text
  deriving DecidableEq, Repr

structure Link where
  config : Option Text
  addresses : List Text
  mtu : Option Text
  deriving DecidableEq, Repr

/- A file is none when it does not exist. The state file of disable_ipv6 has no empty
form: a start that cannot write the value into it fails, and its trap deletes it unread. -/
structure World where
  table : Table 32 Hop
  link : Option Link
  disableIpv6 : Text → Nat
  conf : Option Text
  address : Option Text
  addressTmp : Option Text
  routesExtra : Option Text
  setconf : Option Text
  originalGateway : Option Text
  originalDev : Option Text
  originalIpv6Disabled : Option Nat
  endpointRoutes : Option (List Text)
  appliedRoutes : Option (List Text)
  output : List Text

/-- The tools and the surroundings of one run. `endpoints` is the second column of
`wg show wg0 endpoints` under a configuration, `destination` how ip reads a route's
destination, `grepQx` whether `grep -qx` finds a pattern among lines. -/
structure Env where
  here : Text
  wgExecutable : Bool
  wggoExecutable : Bool
  linkCreated : Bool
  endpoints : Text → List Text
  destination : Text → Option (Subnet 32)
  grepQx : Text → List Text → Bool
  sysctlReads : Text → Bool
  sysctlWrites : Text → Bool

def say (t : Text) : Script World Unit := command (fun w => {w with output := w.output ++ [t]})

def effectless : Script World Unit := command id

def orExit (ok : Bool) (message : Text) : Script World Unit :=
  if ok then pure () else do
    say message
    abort

section Start
variable (env : Env)

def ipRouteReplace (destination : Text) (hop : Hop) : Script World Unit :=
  match env.destination destination with
  | some dest => command (fun w => {w with table := replace ⟨dest,hop⟩ w.table})
  | none => abort

def checkFiles : Script World Unit := do
  orExit env.wgExecutable ("ERROR: does not exist ".toList ++ env.here ++ "/../bin/wg".toList)
  orExit env.wggoExecutable
    ("ERROR: does not exist ".toList ++ env.here ++ "/../bin/wireguard-go".toList)
  let present ← read (fun w => w.conf.isSome)
  orExit present ("ERROR: missing ".toList ++ base ++ "/conf/wg0.conf".toList)

/- The first default route that `grep -v " dev wg0 "` leaves over. -/
def defaultHop (table : Table 32 Hop) : Option Hop :=
  ((table.find? (fun r => r.dest = Subnet.everything 32 ∧ r.hop.dev ≠ iface)).map Route.hop).filter
    (fun hop => hop.dev ≠ [])

def recordDev (found : Option Hop) : Script World Unit :=
  match found with
  | some hop => write (fun w => {w with originalDev := some hop.dev})
      (fun w => {w with originalDev := some []})
  | none => say "WARNING: cannot find original default route outside wg0".toList

/- start.sh up to its first write. -/
def recording : Script World (Option Hop) := do
  checkFiles env
  say "== detecting original default route ==".toList
  let found ← read (fun w => defaultHop w.table)
  effectless
  recordDev found
  pure found

/- When the echo of the gateway fails, the fallback empties the file and the script goes on. -/
def recordGateway (found : Option Hop) : Script World Unit :=
  match found with
  | none => pure ()
  | some ⟨some gw,dev⟩ => do
    orElse (fun w => {w with originalGateway := some gw}) (fun w => {w with originalGateway := some []})
    say ("original default: via ".toList ++ gw ++ " dev ".toList ++ dev)
  | some ⟨none,dev⟩ => do
    command (fun w => {w with originalGateway := some []})
    say ("original default: dev ".toList ++ dev)

/- The file is written by a loop whose status is that of its last test, so that a blank
last entry ends the script with the temporary file in place. -/
def writeAddressTmp (found : Option (List Text)) : Script World Unit :=
  match found with
  | none => pure ()
  | some entries => do
    write (fun w => {w with addressTmp := some (unlines (entries.filter (fun e => e ≠ [])))})
      (fun w => {w with addressTmp := some []})
    require (fun _ => entries.getLast? ≠ some [])

def moveAddressTmp (tmp : Option Text) : Script World Unit :=
  match tmp with
  | none => pure ()
  | some t => do
    command (fun w => {w with address := some t, addressTmp := none})
    effectless
    say "Address detected in wg0.conf:".toList
    say t

def extractAddresses : Script World Unit := do
  let found ← read (fun w => extractAddressesFromConf (w.conf.getD []))
  writeAddressTmp found
  let tmp ← read (fun w => w.addressTmp)
  moveAddressTmp tmp

def prepare : Script World Text := do
  say "== preparing configuration ==".toList
  extractAddresses
  let present ← read (fun w => w.address.isSome)
  orExit present ("ERROR: missing Address. Add Address = x.x.x.x/xx to wg0.conf or create ".toList
    ++ base ++ "/conf/address".toList)
  effectless
  let mtu ← read (fun w => extractMtuFromConf (w.conf.getD []))
  say ("MTU: ".toList ++ mtu)
  write (fun w => {w with setconf := some (makeWgSetconfFile (w.conf.getD []))})
    (fun w => {w with setconf := some []})
  pure mtu

def saveIpv6 (dev : Text) (kept : Bool) : Script World Unit :=
  if kept then say "Keeping previously saved IPv6 state".toList
  else if env.sysctlReads dev then
    command (fun w => {w with originalIpv6Disabled := some (w.disableIpv6 dev)})
  else say ("WARNING: could not read IPv6 state for ".toList ++ dev ++ ", leaving it untouched".toList)

def writeIpv6 (dev : Text) (saved : Bool) : Script World Unit :=
  if saved then
    if env.sysctlWrites dev then
      always (fun w => {w with disableIpv6 := Function.update w.disableIpv6 dev 1})
    else do
      say ("WARNING: could not disable IPv6 on ".toList ++ dev)
      always (fun w => {w with originalIpv6Disabled := none})
  else pure ()

def secureOriginal (found : Option Hop) : Script World Unit :=
  match found with
  | none => pure ()
  | some hop => do
    say ("== disabling IPv6 on ".toList ++ hop.dev ++ " to prevent leaks outside the tunnel ==".toList)
    let kept ← read (fun w => w.originalIpv6Disabled.isSome)
    saveIpv6 env hop.dev kept
    let saved ← read (fun w => w.originalIpv6Disabled.isSome)
    writeIpv6 env hop.dev saved

def redactKey (key line : Text) : Text :=
  let rest := line.drop key.length
  let tail := rest.dropWhile isSpace
  if line.take key.length = key ∧ tail.head? = some '=' then
    key ++ rest.takeWhile isSpace ++ ['='] ++ (tail.drop 1).takeWhile isSpace ++ "REDACTED".toList
  else line

def redact (line : Text) : Text :=
  redactKey "PresharedKey".toList (redactKey "PrivateKey".toList line)

def printSetconf : Script World Unit := do
  say []
  say "== generated wg setconf file ==".toList
  let printed ← read (fun w => lines (w.setconf.getD []))
  forEach (fun line => say (redact line)) printed

def removeLink (w : World) : World :=
  {w with link := none, table := w.table.filter (fun r => r.hop.dev ≠ iface)}

def previousCleanup : Script World Unit := do
  say "== previous cleanup ==".toList
  always removeLink
  effectless

def startWireguardGo : Script World Unit := do
  say "== starting wireguard-go ==".toList
  always (fun w => if env.linkCreated then {w with link := some ⟨none,[],none⟩} else w)
  effectless
  let created ← read (fun w => w.link.isSome)
  orExit created ("ERROR: interface was not created: ".toList ++ iface)
  say "== applying WireGuard configuration ==".toList
  command (fun w => {w with link := w.link.map (fun l => {l with config := w.setconf})})

def announcePin (host : Text) (hop : Hop) : Script World Unit :=
  match hop.via with
  | some gw => say ("endpoint ".toList ++ host ++ " via ".toList ++ gw ++ " dev ".toList ++ hop.dev)
  | none => say ("endpoint ".toList ++ host ++ " dev ".toList ++ hop.dev)

/- The host of an endpoint line, none where the loop goes on to the next line. -/
def pinnedHost (endpoint : Text) : Option Text :=
  let host := before ':' endpoint
  if endpoint = [] ∨ endpoint = "(none)".toList then none
  else if host = [] ∨ host = "0.0.0.0".toList ∨ ':' ∈ host then none
  else some host

def pinEndpoint (hop : Hop) (endpoint : Text) : Script World Unit :=
  match pinnedHost endpoint with
  | none => pure ()
  | some host => do
    announcePin host hop
    ipRouteReplace env host hop
    command (fun w => {w with endpointRoutes := some (w.endpointRoutes.getD [] ++ [host])})

/- A failing `wg show` only shortens the list, as its pipeline does not see it. -/
def pinEndpoints (found : Option Hop) : Script World Unit := do
  say "== pinning endpoint routes outside the tunnel ==".toList
  command (fun w => {w with endpointRoutes := some []})
  match found with
  | none => pure ()
  | some hop => do
    let printed ← read (fun w => env.endpoints ((w.link.bind Link.config).getD []))
    forEach (pinEndpoint env hop) printed

def assignAddress (raw : Text) : Script World Unit :=
  let addr := trim raw
  if addr = [] then pure ()
  else if ':' ∈ addr then say ("WARNING: IPv6 Address ignored for now: ".toList ++ addr)
  else do
    say ("addr: ".toList ++ addr ++ " dev ".toList ++ iface)
    orElse (fun w => {w with link := w.link.map (fun l => {l with addresses := l.addresses ++ [addr]})}) id

def assignAddresses (mtu : Text) : Script World Unit := do
  say "== assigning IP address ==".toList
  let entries ← read (fun w => lines (w.address.getD []))
  forEach assignAddress entries
  command (fun w => {w with link := w.link.map (fun l => {l with mtu := some mtu})})

def recordLine (route : Text) : Script World Unit := do
  let known ← read (fun w => env.grepQx route (w.appliedRoutes.getD []))
  if known then pure ()
  else command (fun w => {w with appliedRoutes := some (w.appliedRoutes.getD [] ++ [route])})

def addRouteLine (route : Text) : Script World Unit :=
  if route = [] ∨ route.head? = some '#' then pure ()
  else if ':' ∈ route then say ("WARNING: IPv6 route ignored for now: ".toList ++ route)
  else if route = defaultRoute then do
    recordLine env lowerHalf
    recordLine env upperHalf
  else recordLine env route

def generateRoutes : Script World Unit := do
  say "== generating routes from AllowedIPs ==".toList
  command (fun w => {w with appliedRoutes := some []})
  let pieces ← read (fun w => routePieces (w.conf.getD []))
  forEach (addRouteLine env) pieces
  let extra ← read (fun w => w.routesExtra)
  match extra with
  | none => pure ()
  | some t => do
    say "== adding extra routes ==".toList
    forEach (addRouteLine env) (extraPieces (some t))

def applyRoute (route : Text) : Script World Unit :=
  if route = [] then pure ()
  else do
    say ("route: ".toList ++ route ++ " dev ".toList ++ iface)
    ipRouteReplace env route ⟨none,iface⟩

def applyRoutes : Script World Unit := do
  say "== applying routes ==".toList
  let routes ← read (fun w => w.appliedRoutes.getD [])
  forEach (applyRoute env) routes

def showStatus : Script World Unit := do
  say "== status ==".toList
  effectless
  effectless
  say []
  say "== relevant routes ==".toList
  effectless
  say []
  say "OK: WireGuard started".toList

def raiseTunnel (found : Option Hop) (mtu : Text) : Script World Unit := do
  printSetconf
  previousCleanup
  startWireguardGo env
  pinEndpoints env found
  assignAddresses mtu
  generateRoutes env
  applyRoutes env
  showStatus

def start : Script World Unit := do
  let found ← recording env
  recordGateway found
  let mtu ← prepare
  secureOriginal env found
  raiseTunnel env found mtu

/- stop.sh writes the saved value back with the same three commands as the trap of start.sh. -/
def restoreSaved (w : World) : World :=
  match w.originalDev,w.originalIpv6Disabled with
  | some dev,some value =>
    let restored := if dev ≠ [] ∧ env.sysctlWrites dev then
      {w with disableIpv6 := Function.update w.disableIpv6 dev value} else w
    {restored with originalIpv6Disabled := none}
  | _,_ => w

def restoreIpv6AfterFailedStart (w : World) : World := restoreSaved env w

/- START_OK is set by the last command, so every other way out runs the restoring trap. -/
def startRun (faults : List Fault) (w : World) : World :=
  match (start env).exec faults w with
  | .finished _ t _ => t
  | .aborted t => restoreIpv6AfterFailedStart env t

end Start

section Stop
variable (env : Env)

/- Every command of stop.sh but its echoes and its rm -f has an ignored failure. The runs
considered are those that complete, so its echoes are taken to succeed. -/
def note (t : Text) : Script World Unit := always (fun w => {w with output := w.output ++ [t]})

def ipRouteDel (destination : Text) (dev : Option Text) (w : World) : World :=
  match env.destination destination with
  | some dest =>
    let matching := fun r : Route 32 Hop => r.dest = dest ∧ (dev = none ∨ dev = some r.hop.dev)
    {w with table := w.table.eraseP (fun r => matching r)}
  | none => w

def deleteRecorded (file : World → Option (List Text)) (dev : Option Text) : Script World Unit := do
  let recorded ← read (fun w => (file w).getD [])
  forEach (fun t => if t = [] then pure () else always (ipRouteDel env t dev)) recorded

def deleteAppliedRoutes : Script World Unit := do
  note "== deleting applied WireGuard routes ==".toList
  deleteRecorded env World.appliedRoutes (some iface)
  always (fun w => {w with appliedRoutes := none})

def deleteEndpointRoutes : Script World Unit := do
  note "== deleting endpoint routes ==".toList
  deleteRecorded env World.endpointRoutes none
  always (fun w => {w with endpointRoutes := none})

def restoreDefaultRoute : Script World Unit := do
  note "== restoring original default route if needed ==".toList
  let gw ← read (fun w => w.originalGateway.getD [])
  let dev ← read (fun w => w.originalDev.getD [])
  if gw ≠ [] ∧ dev ≠ [] then
    always (fun w => {w with table := replace ⟨Subnet.everything 32,⟨some gw,dev⟩⟩ w.table})
  else pure ()

def restoreIpv6 : Script World Unit := do
  note "== restoring original IPv6 state ==".toList
  let dev ← read (fun w => w.originalDev.getD [])
  let saved ← read (fun w => w.originalIpv6Disabled.isSome)
  always (restoreSaved env)
  if dev ≠ [] ∧ saved ∧ ¬ env.sysctlWrites dev then
    note ("WARNING: could not restore IPv6 state on ".toList ++ dev)
  else pure ()

def stop : Script World Unit := do
  deleteAppliedRoutes env
  deleteEndpointRoutes env
  restoreDefaultRoute
  restoreIpv6 env
  note "== removing interface ==".toList
  always removeLink
  note "== stopping wireguard-go ==".toList
  note "OK: WireGuard stopped".toList

def stopRun (w : World) : World := ((stop env).exec [] w).state

end Stop

/- What happens to the tunnel between two states at rest. The network may replace every
route outside wg0; the user may install another configuration. -/
inductive Event where
  | start (env : Env) (faults : List Fault)
  | stop (env : Env)
  | network (routes : Table 32 Hop)
  | configure (conf address routesExtra : Option Text)

def step (w : World) : Event → Option World
  | .start env faults => some (startRun env faults w)
  | .stop env => some (stopRun env w)
  | .network routes =>
    let outside := routes.filter (fun r => r.hop.dev ≠ iface)
    let tunnel := w.table.filter (fun r => r.hop.dev = iface)
    some {w with table := outside ++ tunnel}
  | .configure conf address routesExtra =>
    some {w with conf := conf, address := address, routesExtra := routesExtra}

end WebosWireguard.TunnelScripts
