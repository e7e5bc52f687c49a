import WebosWireguard.UapiText

/-! wireguard-go's side of the configuration protocol: what the lines of a set operation do
to the device. The table of allowed addresses stands as the calls made on it. Curve25519
and what the operating system answers about sockets are parameters. Logging, starting the
peers' routines and the source addresses they cache are left out; the device is not closed. -/
namespace WebosWireguard.UapiDevice
open TextLines KeyEncoding UapiText PeerTable

structure Peer where
  presharedKey : Key
  endpoint : Option Endpoint
  persistentKeepaliveInterval : Nat
  deriving DecidableEq

structure Device where
  up : Bool
  privateKey : Key
  publicKey : Key
  port : Nat
  fwmark : Nat
  keyMap : List (Key × Peer)
  allowedips : List (Call Key)

inductive IpcError where
  | io
  | protocol
  | invalid
  | portInUse
  deriving DecidableEq, Repr

def IpcError.errorCode : IpcError → Int
  | .io => -5
  | .protocol => -71
  | .invalid => -22
  | .portInUse => -98

/- What the system answers: closing the sockets, the port that is opened, the listener for
route changes, and setting a mark. -/
structure Bind where
  close : Bool
  openPort : Nat → Option (Fin (2^16))
  startRouteListener : Bool
  setMark : Nat → Bool

structure World where
  names : Addresses
  publicKeyOf : Key → Key
  bind : Bind

def maxPeers : Nat := 1 <<< 16

section Device
variable (world : World)

def isZero (key : Key) : Bool := key = zeroKey

def clamp (key : Key) : Key :=
  ⟨(key.bytes.modify 0 (· &&& 248)).modify 31 (fun b => (b &&& 127) ||| 64),by simp [key.size]⟩

def fromMaybeZeroHex (src : Text) : Option Key :=
  (loadExactHex src).map (fun key => if isZero key then key else clamp key)

def lookupPeer (device : Device) (key : Key) : Option Peer := device.keyMap.lookup key

def removePeerLocked (device : Device) (key : Key) : Device :=
  {device with
    allowedips := device.allowedips ++ [.removeByPeer key]
    keyMap := device.keyMap.filter (fun entry => entry.1 ≠ key)}

def removePeer (device : Device) (key : Key) : Device :=
  if (lookupPeer device key).isSome then removePeerLocked device key else device

def removeAllPeers (device : Device) : Device :=
  let emptied := (device.keyMap.map Prod.fst).foldl removePeerLocked device
  {emptied with keyMap := []}

def setPrivateKey (device : Device) (sk : Key) : Device :=
  if sk = device.privateKey then device
  else
    let publicKey := world.publicKeyOf sk
    let device := removePeer device publicKey
    {device with privateKey := sk, publicKey := publicKey}

def newPeer (device : Device) (pk : Key) : Option Device :=
  if device.keyMap.length ≥ maxPeers then none
  else if (lookupPeer device pk).isSome then none
  else some {device with keyMap := device.keyMap ++ [(pk,⟨zeroKey,none,0⟩)]}

def bindUpdate (device : Device) : Device × Bool :=
  if !world.bind.close then (device,false)
  else if !device.up then (device,true)
  else match world.bind.openPort device.port with
    | none => ({device with port := 0},false)
    | some port =>
      if !world.bind.startRouteListener then ({device with port := 0},false)
      else if device.fwmark ≠ 0 ∧ !world.bind.setMark device.fwmark then ({device with port := port.val},false)
      else ({device with port := port.val},true)

def bindSetMark (device : Device) (mark : Nat) : Device × Bool :=
  if device.fwmark = mark then (device,true)
  else
    let device := {device with fwmark := mark}
    if device.up then (device,world.bind.setMark mark) else (device,true)

/- A change, and the error it ended in. -/
abbrev Result (S : Type) := S × Option IpcError

def checked {S : Type} (result : S × Bool) (error : IpcError) : Result S :=
  (result.1,if result.2 then none else some error)

def handleDeviceLine (device : Device) (key value : Text) : Result Device :=
  if key = "private_key".toList then
    match fromMaybeZeroHex value with
    | none => (device,some .invalid)
    | some sk => (setPrivateKey world device sk,none)
  else if key = "listen_port".toList then
    match parseUint 16 value with
    | none => (device,some .invalid)
    | some port => checked (bindUpdate world {device with port}) .portInUse
  else if key = "fwmark".toList then
    match parseUint 32 value with
    | none => (device,some .invalid)
    | some mark => checked (bindSetMark world device mark) .portInUse
  else if key = "replace_peers".toList then
    if value ≠ "true".toList then (device,some .invalid) else (removeAllPeers device,none)
  else (device,some .invalid)

/- The peer the lines are about: none yet, one that only stands in, or one of the device. -/
inductive Current where
  | none
  | dummy
  | peer (key : Key) (created : Bool)
  deriving DecidableEq

structure Set where
  device : Device
  current : Current

def handlePublicKeyLine (s : Set) (value : Text) : Result Set :=
  match loadExactHex value with
  | none => (s,some .invalid)
  | some publicKey =>
    if s.device.publicKey = publicKey then (⟨s.device,.dummy⟩,none)
    else if (lookupPeer s.device publicKey).isSome then (⟨s.device,.peer publicKey false⟩,none)
    else match newPeer s.device publicKey with
      | none => (⟨s.device,.none⟩,some .invalid)
      | some device => (⟨device,.peer publicKey true⟩,none)

def updatePeer (device : Device) (key : Key) (change : Peer → Peer) : Device :=
  {device with keyMap := device.keyMap.map (fun entry => if entry.1 = key then (entry.1,change entry.2) else entry)}

/- A change to the current peer; one that only stands in is not part of the device. -/
def changePeer (s : Set) (change : Peer → Peer) : Set :=
  match s.current with
  | .peer key _ => {s with device := updatePeer s.device key change}
  | _ => s

def callTable (s : Set) (call : Key → Call Key) : Set :=
  match s.current with
  | .peer key _ => {s with device.allowedips := s.device.allowedips ++ [call key]}
  | _ => s

def handlePeerLine (s : Set) (key value : Text) : Result Set :=
  if key = "update_only".toList then
    if value ≠ "true".toList then (s,some .invalid)
    else match s.current with
      | .peer key true => (⟨removePeer s.device key,.dummy⟩,none)
      | _ => (s,none)
  else if key = "remove".toList then
    if value ≠ "true".toList then (s,some .invalid)
    else match s.current with
      | .peer key _ => (⟨removePeer s.device key,.dummy⟩,none)
      | _ => (⟨s.device,.dummy⟩,none)
  else if key = "preshared_key".toList then
    match loadExactHex value with
    | none => (s,some .invalid)
    | some presharedKey => (changePeer s (fun peer => {peer with presharedKey}),none)
  else if key = "endpoint".toList then
    match parseAddrPort world.names value with
    | none => (s,some .invalid)
    | some endpoint => (changePeer s (fun peer => {peer with endpoint := some endpoint}),none)
  else if key = "persistent_keepalive_interval".toList then
    match parseUint 16 value with
    | none => (s,some .invalid)
    | some secs => (changePeer s (fun peer => {peer with persistentKeepaliveInterval := secs}),none)
  else if key = "replace_allowed_ips".toList then
    if value ≠ "true".toList then (s,some .invalid) else (callTable s (fun key => .removeByPeer key),none)
  else if key = "allowed_ip".toList then
    let add := value.head? ≠ some '-'
    let value := if add then value else value.tail
    match parsePrefix world.names value with
    | none => (s,some .invalid)
    | some p => (callTable s (fun key => if add then .insert p key else .remove p key),none)
  else if key = "protocol_version".toList then
    (s,if value = ['1'] then none else some .invalid)
  else (s,some .invalid)

def setLine (s : Set) (line : Text) : Result Set :=
  if '=' ∉ line then (s,some .protocol)
  else
    let key := before '=' line
    let value := after '=' line
    if key = "public_key".toList then handlePublicKeyLine s value
    else match s.current with
      | .none =>
        let result := handleDeviceLine world s.device key value
        (⟨result.1,.none⟩,result.2)
      | _ => handlePeerLine world s key value

/- The lines of a set operation up to the blank one; the first error ends it. -/
def setLines (s : Set) : List Text → Result Set
  | [] => (s,none)
  | raw::rest =>
    let line := dropCr raw
    if line = [] then (s,none)
    else match setLine world s line with
      | (s,none) => setLines s rest
      | (s,some error) => (s,some error)

def ipcSetOperation (device : Device) (input : Text) : Result Device :=
  let result := setLines world ⟨device,.none⟩ (lines input)
  (result.1.device,result.2)

def status (error : Option IpcError) : Text :=
  "errno=".toList ++ (match error with | none => ['0'] | some e => (toString e.errorCode).toList) ++ ['\n','\n']

/- One operation of a connection; nothing is answered to an unknown one. -/
def ipcHandleSet (device : Device) (input : Text) : Option (Device × Text) :=
  if before '\n' input = "set=1".toList ∧ '\n' ∈ input then
    let result := ipcSetOperation world device (after '\n' input)
    some (result.1,status result.2)
  else none

end Device

end WebosWireguard.UapiDevice
