import WebosWireguard.UapiExchange

/-! The get operation: what wireguard-go prints of a device and what wg reads of it. The
map of peers is walked in some order. The counters of the peers are kept by the data path
and given here. Where wg fails, which error it reports is not told apart. -/
namespace WebosWireguard.UapiGet
open TextLines KeyEncoding AllowedIps UapiText UapiDevice UapiSession UapiExchange PeerTrie PeerTable OutputRun
open TransitionRun

/- The counters of a peer, of the widths of the source. -/
structure Stats where
  lastHandshakeNano : Fin (2^63)
  txBytes : Fin (2^64)
  rxBytes : Fin (2^64)

def nanosPerSecond : Nat := 1000000000

def goHex (key : Key) : Text :=
  let hex := "0123456789abcdef".toList
  key.bytes.flatMap (fun b : Byte => [hex.getD (BitVec.toNat (b >>> 4)) '?',hex.getD (BitVec.toNat (b &&& 0xf)) '?'])

def ipOf (p : Prefix) : Ip :=
  match p with
  | ⟨.ipv4,addr,_,_⟩ => .v4 addr.toNat
  | ⟨.ipv6,addr,_,_⟩ => .v6 addr.toNat

section Print
variable (names : Addresses)

def printAddrPort (e : Endpoint) : Text :=
  if isV6 e.ip then '['::(names.print e.ip ++ ']':: ':'::decimal e.port) else names.print e.ip ++ ':'::decimal e.port

def getPeerLines (table : AllowedIPs Key) (stats : Key → Stats) (key : Key) (peer : Peer) : List Text :=
  let nano := (stats key).lastHandshakeNano.val
  [field "public_key".toList (goHex key),
    field "preshared_key".toList (goHex peer.presharedKey),
    field "protocol_version".toList ['1']] ++
  (peer.endpoint.map (fun e => field "endpoint".toList (printAddrPort names e))).toList ++
  [field "last_handshake_time_sec".toList (decimal (nano / nanosPerSecond)),
    field "last_handshake_time_nsec".toList (decimal (nano % nanosPerSecond)),
    field "tx_bytes".toList (decimal (stats key).txBytes.val),
    field "rx_bytes".toList (decimal (stats key).rxBytes.val),
    field "persistent_keepalive_interval".toList (decimal peer.persistentKeepaliveInterval)] ++
  (entriesForPeer table key).map (fun p => field "allowed_ip".toList (printPrefix names (ipOf p) p.bits))

def getDeviceLines (device : Device) : List Text :=
  (if isZero device.privateKey then [] else [field "private_key".toList (goHex device.privateKey)]) ++
  (if device.port ≠ 0 then [field "listen_port".toList (decimal device.port)] else []) ++
  (if device.fwmark ≠ 0 then [field "fwmark".toList (decimal device.fwmark)] else [])

/- The answer to a get request, with the status behind it. -/
def ipcGetReply (device : Device) (table : AllowedIPs Key) (stats : Key → Stats) (walk : List (Key × Peer)) : Text :=
  unlines (getDeviceLines device ++ walk.flatMap (fun entry => getPeerLines names table stats entry.1 entry.2)) ++
    status none

end Print

structure GotPeer where
  publicKey : Key
  presharedKey : Option Key
  endpoint : Option Endpoint
  persistentKeepaliveInterval : Option Nat
  allowedips : List (Ip × Nat)
  lastHandshakeSec : Nat
  lastHandshakeNsec : Nat
  rxBytes : Nat
  txBytes : Nat
  deriving DecidableEq

def GotPeer.new (key : Key) : GotPeer := ⟨key,none,none,none,[],0,0,0,0⟩

/- The device while it is read; the peer the lines are about is the first one. -/
structure Got where
  privateKey : Option Key
  listenPort : Option Nat
  fwmark : Option Nat
  peers : List GotPeer
  deriving DecidableEq

/- `strtoull` stops at the largest number it can give. -/
def num (max : Nat) (value : Text) : Option Nat :=
  let n := min (number value) (2^64-1)
  if value ≠ [] ∧ value.all Char.isDigit ∧ n ≤ max then some n else none

def keyOfHex (value : Text) : Option Key :=
  if value.all (fun c => c.toNat < 256) then
    match keyFromHex (value.map code) with
    | none => none
    | some bytes => if size : bytes.length = wgKeyLen then some ⟨bytes,size⟩ else none
  else none

section Read
variable (names : Addresses)

/- `getaddrinfo` for an address and a port in digits. -/
def resolve (host port : Text) : Option Endpoint := do
  let ip ← names.parse host
  let port ← parseUint 16 port
  some ⟨ip,port⟩

def readEndpoint (value : Text) : Option Endpoint :=
  if value.head? = some '[' then
    if ']' ∉ value then none
    else
      let rest := after ']' value
      if rest.head? ≠ some ':' ∨ rest.tail = [] then none
      else resolve names (before ']' value).tail rest.tail
  else match cutLast ':' value with
    | none => none
    | some (host,port) => if port = [] then none else resolve names host port

/- The length is kept in a byte; an unsigned long has 32 bits. -/
def readAllowedIp (value : Text) : Option (Ip × Nat) :=
  if '/' ∉ value then none
  else
    let host := before '/' value
    let mask := after '/' value
    if mask = [] ∨ !mask.all Char.isDigit then none
    else match names.parse host with
      | none => none
      | some ip =>
        let cidr := min (number mask) (2^32-1) % 256
        if isV6 ip ≠ decide (':' ∈ host) ∨ cidr > ip.width then none else some (ip,cidr)

def getPeerLine (key value : Text) (peer : GotPeer) : Option GotPeer :=
  if key = "preshared_key".toList then
    (keyOfHex value).map (fun k => {peer with presharedKey := if isZero k then peer.presharedKey else some k})
  else if key = "endpoint".toList then
    (readEndpoint names value).map (fun e => {peer with endpoint := some e})
  else if key = "persistent_keepalive_interval".toList then
    (num 0xffff value).map (fun n => {peer with persistentKeepaliveInterval := some n})
  else if key = "allowed_ip".toList then
    (readAllowedIp names value).map (fun entry => {peer with allowedips := peer.allowedips ++ [entry]})
  else if key = "last_handshake_time_sec".toList then
    (num 0x7fffffffffffffff value).map (fun n => {peer with lastHandshakeSec := n})
  else if key = "last_handshake_time_nsec".toList then
    (num 0x7fffffffffffffff value).map (fun n => {peer with lastHandshakeNsec := n})
  else if key = "rx_bytes".toList then
    (num 0xffffffffffffffff value).map (fun n => {peer with rxBytes := n})
  else if key = "tx_bytes".toList then
    (num 0xffffffffffffffff value).map (fun n => {peer with txBytes := n})
  else some peer

def getDeviceLine (key value : Text) (got : Got) : Option Got :=
  if key = "private_key".toList then (keyOfHex value).map (fun k => {got with privateKey := some k})
  else if key = "listen_port".toList then (num 0xffff value).map (fun n => {got with listenPort := some n})
  else if key = "fwmark".toList then (num 0xffffffff value).map (fun n => {got with fwmark := some n})
  else some got

/- A line of the answer, with the error number read so far; none ends the reading. -/
def getLine (line : Text) (state : Got × Option Nat) : Option (Got × Option Nat) :=
  if '=' ∉ line then none
  else
    let key := before '=' line
    let value := after '=' line
    if key = "public_key".toList then
      (keyOfHex value).map (fun k => ({state.1 with peers := GotPeer.new k::state.1.peers},state.2))
    else if key = "errno".toList then
      (num 0x7fffffff value).map (fun n => (state.1,some n))
    else match state.1.peers with
      | [] => (getDeviceLine key value state.1).map (fun got => (got,state.2))
      | peer::others =>
        (getPeerLine names key value peer).map (fun p => ({state.1 with peers := p::others},state.2))

def getLines : List Text → Got × Option Nat → Option Got
  | [],_ => none
  | line::rest,state =>
    if line = [] then if state.2 = some 0 then some {state.1 with peers := state.1.peers.reverse} else none
    else (getLine names line state).bind (getLines rest)

def userspaceGetDevice (reply : Text) : Option Got := getLines names (lines reply) (⟨none,none,none,[]⟩,none)

end Read

theorem goHexDigits (b : Byte) : ["0123456789abcdef".toList.getD (BitVec.toNat (b >>> 4)) '?',
    "0123456789abcdef".toList.getD (BitVec.toNat (b &&& 0xf)) '?'] =
      [charOf (hexDigit (b >>> 4)),charOf (hexDigit (b &&& 0xf))] := by
  obtain ⟨first,second⟩ := nibbleHalves
    (P := fun v => "0123456789abcdef".toList.getD v.toNat '?' = charOf (hexDigit v)) (by decide) b
  rw [first,second]

theorem goHexText (key : Key) : goHex key = hexText key := by
  have each : ∀ bytes : List Byte, bytes.flatMap (fun b : Byte =>
      ["0123456789abcdef".toList.getD (BitVec.toNat (b >>> 4)) '?',
        "0123456789abcdef".toList.getD (BitVec.toNat (b &&& 0xf)) '?']) = (keyToHex bytes).map charOf := by
    intro bytes
    induction bytes with
    | nil => rfl
    | cons b rest ih =>
      rw [List.flatMap_cons,goHexDigits,ih]
      rfl
  exact each key.bytes

/- A digit as it is written: a byte, and of the lower case. -/
def PlainDigit (c : Byte) : Prop := (charOf c).toNat < 256 ∧ code (charOf c) = c ∧ lowerHex c = c

instance : DecidablePred PlainDigit := fun _ => inferInstanceAs (Decidable (_ ∧ _))

theorem hexDigitPlain (byte : Byte) : PlainDigit (hexDigit (byte >>> 4)) ∧ PlainDigit (hexDigit (byte &&& 0xf)) :=
  nibbleHalves (P := fun v => PlainDigit (hexDigit v)) (by decide) byte

theorem hexTextPlain (bytes : List Byte) : (∀ c ∈ (keyToHex bytes).map charOf, c.toNat < 256) ∧
    ((keyToHex bytes).map charOf).map code = keyToHex bytes ∧ (keyToHex bytes).map lowerHex = keyToHex bytes := by
  induction bytes with
  | nil => simp [keyToHex]
  | cons byte rest ih =>
    obtain ⟨high,low⟩ := hexDigitPlain byte
    obtain ⟨smallRest,codesRest,lowersRest⟩ := ih
    refine ⟨?_,?_,?_⟩
    · simp only [keyToHex,List.map_cons,List.forall_mem_cons]
      exact ⟨high.1,low.1,smallRest⟩
    · simp only [keyToHex,List.map_cons,high.2.1,low.2.1,codesRest]
    · simp only [keyToHex,List.map_cons,high.2.2,low.2.2,lowersRest]

theorem readGoHex (key : Key) : keyOfHex (goHex key) = some key := by
  obtain ⟨small,codes,lowers⟩ := hexTextPlain key.bytes
  have all : (hexText key).all (fun c => c.toNat < 256) = true := by
    rw [List.all_eq_true]
    intro c mem
    simpa using small c mem
  have decoded : keyFromHex ((hexText key).map code) = some key.bytes := by
    refine hexDecodes key.size ?_
    rw [hexText,codes,lowers]
  rw [goHexText,keyOfHex,if_pos all,decoded]
  simp [key.size]

theorem numDecimal {max n : Nat} (small : n ≤ max) (wide : n < 2^64) : num max (decimal n) = some n := by
  have same : min n (2^64-1) = n := by omega
  unfold num
  rw [decimalValue,same]
  exact if_pos ⟨decimalFilled n,decimalAll n,small⟩

theorem ipOfRange (p : Prefix) : Ip.InRange (ipOf p) ∧ (ipOf p).width = p.size.width := by
  obtain ⟨size,addr,bits,valid⟩ := p
  cases size with
  | ipv4 => exact ⟨addr.isLt,rfl⟩
  | ipv6 => exact ⟨addr.isLt,rfl⟩

section Values
variable (names : Addresses)

theorem readPrinted (p : Prefix) :
    readAllowedIp names (printPrefix names (ipOf p) p.bits) = some (ipOf p,p.bits) := by
  obtain ⟨inside,width⟩ := ipOfRange p
  have noSlash : '/' ∉ names.print (ipOf p) := printApart names (by decide) (by decide) (by decide)
  obtain ⟨first,second⟩ := cutFirst noSlash (decimal p.bits)
  have short : p.bits ≤ 128 := le_trans p.valid (by cases p.size <;> decide)
  have cidr : min p.bits (2^32-1) % 256 = p.bits := by omega
  have mark : isV6 (ipOf p) = decide (':' ∈ names.print (ipOf p)) := by
    rw [Bool.eq_iff_iff,decide_eq_true_eq,names.colon]
  unfold readAllowedIp printPrefix
  rw [if_neg (by simp)]
  simp only [first,second,decimalFilled,decimalAll,names.back _ inside,decimalValue,cidr]
  simp [mark,width,p.valid]

theorem readPrintedEndpoint {e : Endpoint} (inside : Ip.InRange e.ip) (small : e.port < 2^16) :
    readEndpoint names (printAddrPort names e) = some e := by
  have resolved : resolve names (names.print e.ip) (decimal e.port) = some e := by
    simp only [resolve,names.back _ inside,parseDecimal small,bind,Option.bind]
  unfold readEndpoint printAddrPort
  by_cases wide : isV6 e.ip = true
  · have noBracket : ']' ∉ '['::names.print e.ip := by
      simp only [List.mem_cons,not_or]
      exact ⟨by decide,printApart names (by decide) (by decide) (by decide)⟩
    obtain ⟨first,second⟩ := cutFirst noBracket (':'::decimal e.port)
    have shape : '['::(names.print e.ip ++ ']':: ':'::decimal e.port) =
        '['::names.print e.ip ++ ']':: ':'::decimal e.port := by simp
    rw [if_pos wide,if_pos (by simp),if_neg (by simp),shape,first,second]
    simp [decimalFilled,resolved]
  · have bracket : (names.print e.ip ++ ':'::decimal e.port).head? ≠ some '[' := by
      rw [List.head?_append_of_ne_nil _ (names.filled e.ip)]
      exact fun head => printApart names (by decide) (by decide) (by decide) (List.mem_of_mem_head? head)
    rw [if_neg wide,if_neg bracket,cutLastAt (digitsApart (by decide))]
    simp [decimalFilled,resolved]

end Values

section Lines
variable {names : Addresses} {key value : Text} {got : Got} {err : Option Nat} (rest : List Text)

theorem gotLine (named : '=' ∉ key) : getLines names (field key value::rest) (got,err) =
    (if key = "public_key".toList then
      (keyOfHex value).map (fun k => ({got with peers := GotPeer.new k::got.peers},err))
    else if key = "errno".toList then (num 0x7fffffff value).map (fun n => (got,some n))
    else match got.peers with
      | [] => (getDeviceLine key value got).map (fun g => (g,err))
      | peer::others =>
        (getPeerLine names key value peer).map (fun p => ({got with peers := p::others},err))).bind
          (getLines names rest) := by
  obtain ⟨first,second⟩ := cutFirst named value
  rw [getLines,if_neg (by simp [field])]
  congr 1
  unfold getLine
  rw [if_neg (by simp [field]),show before '=' (field key value) = key from first,
    show after '=' (field key value) = value from second]

theorem gotDevice (named : '=' ∉ key) (other : key ≠ "public_key".toList) (noError : key ≠ "errno".toList)
    {after : Got} (none : got.peers = []) (handled : getDeviceLine key value got = some after) :
    getLines names (field key value::rest) (got,err) = getLines names rest (after,err) := by
  rw [gotLine rest named,if_neg other,if_neg noError,none]
  simp [handled]

theorem gotPeer (named : '=' ∉ key) (other : key ≠ "public_key".toList) (noError : key ≠ "errno".toList)
    {peer after : GotPeer} {others : List GotPeer} (handled : getPeerLine names key value peer = some after) :
    getLines names (field key value::rest) ({got with peers := peer::others},err) =
      getLines names rest ({got with peers := after::others},err) := by
  rw [gotLine rest named,if_neg other,if_neg noError]
  simp [handled]

theorem gotPublicKey (k : Key) : getLines names (field "public_key".toList (goHex k)::rest) (got,err) =
    getLines names rest ({got with peers := GotPeer.new k::got.peers},err) := by
  rw [gotLine rest (by decide),if_pos rfl,readGoHex]
  rfl

theorem gotEntries {entries : List Prefix} {peer : GotPeer} {others : List GotPeer} :
    getLines names (entries.map (fun p => field "allowed_ip".toList (printPrefix names (ipOf p) p.bits)) ++ rest)
        ({got with peers := peer::others},err) =
      getLines names rest ({got with peers :=
        {peer with allowedips := peer.allowedips ++ entries.map (fun p => (ipOf p,p.bits))}::others},err) := by
  induction entries generalizing peer with
  | nil => simp
  | cons p entries ih =>
    rw [List.map_cons,List.cons_append]
    have handled : getPeerLine names "allowed_ip".toList (printPrefix names (ipOf p) p.bits) peer =
        some {peer with allowedips := peer.allowedips ++ [(ipOf p,p.bits)]} := by
      rw [getPeerLine,if_neg (by decide),if_neg (by decide),if_neg (by decide),if_pos rfl,readPrinted]
      rfl
    rw [gotPeer _ (by decide) (by decide) (by decide) handled,ih]
    simp

end Lines

section PeerValues
variable {names : Addresses} {peer : GotPeer} {n : Nat}

theorem presharedGot (k : Key) : getPeerLine names "preshared_key".toList (goHex k) peer =
    some {peer with presharedKey := if isZero k then peer.presharedKey else some k} := by
  rw [getPeerLine,if_pos rfl,readGoHex]
  rfl

theorem protocolGot : getPeerLine names "protocol_version".toList ['1'] peer = some peer := by
  rw [getPeerLine,if_neg (by decide),if_neg (by decide),if_neg (by decide),if_neg (by decide),if_neg (by decide),
    if_neg (by decide),if_neg (by decide),if_neg (by decide)]

theorem endpointGot {e : Endpoint} (inside : Ip.InRange e.ip) (small : e.port < 2^16) :
    getPeerLine names "endpoint".toList (printAddrPort names e) peer = some {peer with endpoint := some e} := by
  rw [getPeerLine,if_neg (by decide),if_pos rfl,readPrintedEndpoint names inside small]
  rfl

theorem keepaliveGot (small : n < 2^16) :
    getPeerLine names "persistent_keepalive_interval".toList (decimal n) peer =
      some {peer with persistentKeepaliveInterval := some n} := by
  rw [getPeerLine,if_neg (by decide),if_neg (by decide),if_pos rfl,numDecimal (by omega) (by omega)]
  rfl

theorem secondsGot (small : n < 2^63) : getPeerLine names "last_handshake_time_sec".toList (decimal n) peer =
    some {peer with lastHandshakeSec := n} := by
  rw [getPeerLine,if_neg (by decide),if_neg (by decide),if_neg (by decide),if_neg (by decide),if_pos rfl,
    numDecimal (by omega) (by omega)]
  rfl

theorem nanosGot (small : n < 2^63) : getPeerLine names "last_handshake_time_nsec".toList (decimal n) peer =
    some {peer with lastHandshakeNsec := n} := by
  rw [getPeerLine,if_neg (by decide),if_neg (by decide),if_neg (by decide),if_neg (by decide),if_neg (by decide),
    if_pos rfl,numDecimal (by omega) (by omega)]
  rfl

theorem receivedGot (small : n < 2^64) : getPeerLine names "rx_bytes".toList (decimal n) peer =
    some {peer with rxBytes := n} := by
  rw [getPeerLine,if_neg (by decide),if_neg (by decide),if_neg (by decide),if_neg (by decide),if_neg (by decide),
    if_neg (by decide),if_pos rfl,numDecimal (by omega) small]
  rfl

theorem sentGot (small : n < 2^64) : getPeerLine names "tx_bytes".toList (decimal n) peer =
    some {peer with txBytes := n} := by
  rw [getPeerLine,if_neg (by decide),if_neg (by decide),if_neg (by decide),if_neg (by decide),if_neg (by decide),
    if_neg (by decide),if_neg (by decide),if_pos rfl,numDecimal (by omega) small]
  rfl

end PeerValues

structure PeerInRange (peer : Peer) : Prop where
  endpoint : ∀ e, peer.endpoint = some e → Ip.InRange e.ip ∧ e.port < 2^16
  keepalive : peer.persistentKeepaliveInterval < 2^16

/- What wg keeps of a peer. -/
def shown (table : AllowedIPs Key) (stats : Key → Stats) (key : Key) (peer : Peer) : GotPeer where
  publicKey := key
  presharedKey := if isZero peer.presharedKey then none else some peer.presharedKey
  endpoint := peer.endpoint
  persistentKeepaliveInterval := some peer.persistentKeepaliveInterval
  allowedips := (entriesForPeer table key).map (fun p => (ipOf p,p.bits))
  lastHandshakeSec := (stats key).lastHandshakeNano.val / nanosPerSecond
  lastHandshakeNsec := (stats key).lastHandshakeNano.val % nanosPerSecond
  rxBytes := (stats key).rxBytes.val
  txBytes := (stats key).txBytes.val

theorem gotPeerLines {names : Addresses} {table : AllowedIPs Key} {stats : Key → Stats} {key : Key} {peer : Peer}
    (range : PeerInRange peer) (rest : List Text) {got : Got} {err : Option Nat} :
    getLines names (getPeerLines names table stats key peer ++ rest) (got,err) =
      getLines names rest ({got with peers := shown table stats key peer::got.peers},err) := by
  have nano := (stats key).lastHandshakeNano.isLt
  have seconds : (stats key).lastHandshakeNano.val / nanosPerSecond < 2^63 :=
    lt_of_le_of_lt (Nat.div_le_self _ _) nano
  have parts : (stats key).lastHandshakeNano.val % nanosPerSecond < 2^63 :=
    lt_of_le_of_lt (Nat.mod_le _ _) nano
  have tx := (stats key).txBytes.isLt
  have rx := (stats key).rxBytes.isLt
  have keepalive := range.keepalive
  unfold getPeerLines
  simp only [List.append_assoc,List.cons_append,List.nil_append]
  rw [gotPublicKey,gotPeer _ (by decide) (by decide) (by decide) (presharedGot _),
    gotPeer _ (by decide) (by decide) (by decide) protocolGot]
  have tail : ∀ first : GotPeer, getLines names
      (field "last_handshake_time_sec".toList (decimal ((stats key).lastHandshakeNano.val / nanosPerSecond))::
        field "last_handshake_time_nsec".toList (decimal ((stats key).lastHandshakeNano.val % nanosPerSecond))::
        field "tx_bytes".toList (decimal (stats key).txBytes.val)::
        field "rx_bytes".toList (decimal (stats key).rxBytes.val)::
        field "persistent_keepalive_interval".toList (decimal peer.persistentKeepaliveInterval)::
        ((entriesForPeer table key).map
          (fun p => field "allowed_ip".toList (printPrefix names (ipOf p) p.bits)) ++ rest))
      ({got with peers := first::got.peers},err) = getLines names rest ({got with peers :=
        {first with
          allowedips := first.allowedips ++ (entriesForPeer table key).map (fun p => (ipOf p,p.bits))
          persistentKeepaliveInterval := some peer.persistentKeepaliveInterval
          lastHandshakeSec := (stats key).lastHandshakeNano.val / nanosPerSecond
          lastHandshakeNsec := (stats key).lastHandshakeNano.val % nanosPerSecond
          rxBytes := (stats key).rxBytes.val
          txBytes := (stats key).txBytes.val}::got.peers},err) := by
    intro first
    rw [gotPeer _ (by decide) (by decide) (by decide) (secondsGot seconds),
      gotPeer _ (by decide) (by decide) (by decide) (nanosGot parts),
      gotPeer _ (by decide) (by decide) (by decide) (sentGot tx),
      gotPeer _ (by decide) (by decide) (by decide) (receivedGot rx),
      gotPeer _ (by decide) (by decide) (by decide) (keepaliveGot keepalive),gotEntries]
  unfold shown
  cases given : peer.endpoint with
  | none =>
    simp only [Option.map_none,Option.toList_none,List.nil_append]
    rw [tail]
    rfl
  | some e =>
    obtain ⟨inside,small⟩ := range.endpoint e given
    simp only [Option.map_some,Option.toList_some,List.singleton_append]
    rw [gotPeer _ (by decide) (by decide) (by decide) (endpointGot inside small),tail]
    rfl

/-! The values of a device never leave their ranges, whatever it is asked to set. -/

structure DeviceInRange (device : Device) : Prop where
  port : device.port < 2^16
  fwmark : device.fwmark < 2^32
  peers : ∀ entry ∈ device.keyMap, PeerInRange entry.2

section Range
variable {world : World} {device : Device} {s : Set} {key value : Text}

theorem parseUintRange {bits n : Nat} (parsed : parseUint bits value = some n) : n < 2^bits := by
  unfold parseUint at parsed
  split at parsed
  · rename_i fits
    rw [← Option.some.inj parsed]
    exact fits.2.2
  · contradiction

theorem parseAddrPortRange {names : Addresses} {e : Endpoint} (parsed : parseAddrPort names value = some e) :
    Ip.InRange e.ip ∧ e.port < 2^16 := by
  simp only [parseAddrPort,bind,Option.bind_eq_some_iff] at parsed
  obtain ⟨⟨host,port,wide⟩,_,n,small,ip,found,last⟩ := parsed
  split at last
  · cases Option.some.inj last
    exact ⟨names.range _ _ found,parseUintRange small⟩
  · contradiction

theorem rangeFilter (range : DeviceInRange device) (p : Key × Peer → Bool) (calls : List (Call Key)) :
    DeviceInRange {device with keyMap := device.keyMap.filter p, allowedips := calls} :=
  ⟨range.port,range.fwmark,fun entry mem => range.peers entry (List.mem_of_mem_filter mem)⟩

theorem removePeerRange (range : DeviceInRange device) (k : Key) : DeviceInRange (removePeer device k) := by
  unfold removePeer
  split
  · exact rangeFilter range _ _
  · exact range

theorem removeAllPeersRange (range : DeviceInRange device) : DeviceInRange (removeAllPeers device) := by
  have same := removeAllPeersWires device
  refine ⟨?_,?_,fun entry mem => absurd mem (by simp [removeAllPeers])⟩
  · rw [show (removeAllPeers device).port = device.port from congrArg (fun w => w.2.2.2.1) same]
    exact range.port
  · rw [show (removeAllPeers device).fwmark = device.fwmark from congrArg (fun w => w.2.2.2.2) same]
    exact range.fwmark

theorem setPrivateKeyRange (range : DeviceInRange device) (sk : Key) : DeviceInRange (setPrivateKey world device sk) := by
  unfold setPrivateKey
  split
  · exact range
  · have removed := removePeerRange range (world.publicKeyOf sk)
    exact ⟨removed.port,removed.fwmark,removed.peers⟩

theorem bindUpdateRange (range : DeviceInRange device) : DeviceInRange (bindUpdate world device).1 := by
  unfold bindUpdate
  refine firstIf range (firstIf range ?_)
  split
  · exact ⟨Nat.two_pow_pos 16,range.fwmark,range.peers⟩
  · rename_i port opened
    exact firstIf ⟨Nat.two_pow_pos 16,range.fwmark,range.peers⟩
      (firstIf ⟨port.isLt,range.fwmark,range.peers⟩ ⟨port.isLt,range.fwmark,range.peers⟩)

theorem bindSetMarkRange (range : DeviceInRange device) {mark : Nat} (small : mark < 2^32) :
    DeviceInRange (bindSetMark world device mark).1 :=
  firstIf range (firstIf ⟨range.port,small,range.peers⟩ ⟨range.port,small,range.peers⟩)

theorem handleDeviceLineRange (range : DeviceInRange device) :
    DeviceInRange (handleDeviceLine world device key value).1 := by
  unfold handleDeviceLine
  refine firstIf ?_ (firstIf ?_ (firstIf ?_ (firstIf (firstIf range (removeAllPeersRange range)) range)))
  · cases fromMaybeZeroHex value with
    | none => exact range
    | some sk => exact setPrivateKeyRange range sk
  · cases parsed : parseUint 16 value with
    | none => exact range
    | some port => exact bindUpdateRange ⟨parseUintRange parsed,range.fwmark,range.peers⟩
  · cases parsed : parseUint 32 value with
    | none => exact range
    | some mark => exact bindSetMarkRange range (parseUintRange parsed)

theorem handlePublicKeyLineRange (range : DeviceInRange s.device) :
    DeviceInRange (handlePublicKeyLine s value).1.device := by
  unfold handlePublicKeyLine
  cases loadExactHex value with
  | none => exact range
  | some k =>
    dsimp only
    split
    · exact range
    split
    · exact range
    · cases made : newPeer s.device k with
      | none => exact range
      | some after =>
        unfold newPeer at made
        split at made
        · contradiction
        cases Option.some.inj made
        refine ⟨range.port,range.fwmark,fun entry mem => ?_⟩
        rcases List.mem_append.mp mem with old | new
        · exact range.peers entry old
        · rw [List.mem_singleton.mp new]
          exact ⟨fun e given => by contradiction,Nat.two_pow_pos 16⟩

theorem changePeerRange (range : DeviceInRange s.device) {change : Peer → Peer}
    (keeps : ∀ peer, PeerInRange peer → PeerInRange (change peer)) : DeviceInRange (changePeer s change).device := by
  unfold changePeer
  split
  · refine ⟨range.port,range.fwmark,fun entry mem => ?_⟩
    obtain ⟨old,inside,rfl⟩ := List.mem_map.mp mem
    split
    · exact keeps _ (range.peers old inside)
    · exact range.peers old inside
  · exact range

theorem callTableRange (range : DeviceInRange s.device) (call : Key → Call Key) :
    DeviceInRange (callTable s call).device := by
  unfold callTable
  split
  · exact ⟨range.port,range.fwmark,range.peers⟩
  · exact range

theorem handlePeerLineRange (range : DeviceInRange s.device) :
    DeviceInRange (handlePeerLine world s key value).1.device := by
  have kept : ∀ {a b : Result Set} {c : Prop} [Decidable c], DeviceInRange a.1.device → DeviceInRange b.1.device →
      DeviceInRange (if c then a else b).1.device := by
    intro a b c _ yes no
    exact firstIf (P := fun s : Set => DeviceInRange s.device) yes no
  unfold handlePeerLine
  refine kept (kept range ?_) (kept (kept range ?_) (kept ?_ (kept ?_ (kept ?_
    (kept (kept range (callTableRange range _)) (kept ?_ (kept range range)))))))
  · split
    · exact removePeerRange range _
    · exact range
  · split
    · exact removePeerRange range _
    · exact range
  · cases loadExactHex value with
    | none => exact range
    | some => exact changePeerRange range (fun peer old => ⟨old.endpoint,old.keepalive⟩)
  · cases parsed : parseAddrPort world.names value with
    | none => exact range
    | some e =>
      refine changePeerRange range (fun peer old => ⟨fun f same => ?_,old.keepalive⟩)
      rw [← Option.some.inj same]
      exact parseAddrPortRange parsed
  · cases parsed : parseUint 16 value with
    | none => exact range
    | some secs => exact changePeerRange range (fun peer old => ⟨old.endpoint,parseUintRange parsed⟩)
  · dsimp only
    split
    · exact range
    · exact callTableRange range _

theorem setLineRange (range : DeviceInRange s.device) (line : Text) :
    DeviceInRange (setLine world s line).1.device := by
  unfold setLine
  split
  · exact range
  dsimp only
  split
  · exact handlePublicKeyLineRange range
  split
  · exact handleDeviceLineRange range
  · exact handlePeerLineRange range

theorem setLinesRange (range : DeviceInRange s.device) (input : List Text) :
    DeviceInRange (setLines world s input).1.device := by
  induction input generalizing s with
  | nil => exact range
  | cons raw rest ih =>
    rw [setLines]
    split
    · exact range
    have next : DeviceInRange (setLine world s (dropCr raw)).1.device := setLineRange range (dropCr raw)
    cases done : setLine world s (dropCr raw) with
    | mk after error =>
      rw [done] at next
      cases error with
      | none => exact ih next
      | some => exact next

theorem requestsRange (range : DeviceInRange device) (inputs : List Text) :
    DeviceInRange (requests world device inputs) := by
  induction inputs generalizing device with
  | nil => exact range
  | cons input rest ih => exact ih (setLinesRange (s := ⟨device,.none⟩) range (lines input))

end Range

/-! The whole answer. -/

section Reply
variable {names : Addresses} {device : Device} {table : AllowedIPs Key} {stats : Key → Stats}

theorem addrPortSolid (e : Endpoint) : ∀ c ∈ printAddrPort names e, solid c = true := by
  intro c mem
  have parts : c ∈ names.print e.ip ∨ c ∈ decimal e.port ∨ c ∈ ['[',']',':'] := by
    unfold printAddrPort at mem
    split at mem <;> simp only [List.mem_cons,List.mem_append] at mem ⊢ <;> tauto
  rcases parts with host | port | mark
  · exact printSolid names e.ip c host
  · exact decimalSolid e.port c port
  · simp only [List.mem_cons,List.not_mem_nil,or_false] at mark
    rcases mark with rfl | rfl | rfl <;> decide

theorem goHexSolid (key : Key) : ∀ c ∈ goHex key, solid c = true := by
  rw [goHexText]
  exact hexTextSolid key

theorem deviceLinesSolid : ∀ line ∈ getDeviceLines device, ∀ c ∈ line, solid c = true := by
  intro line mem
  unfold getDeviceLines at mem
  rcases List.mem_append.mp mem with front | mark
  · rcases List.mem_append.mp front with key | port
    · split at key
      · contradiction
      · rw [List.mem_singleton.mp key]
        exact fieldSolid (by decide) (goHexSolid _)
    · split at port
      · rw [List.mem_singleton.mp port]
        exact fieldSolid (by decide) (decimalSolid _)
      · contradiction
  · split at mark
    · rw [List.mem_singleton.mp mark]
      exact fieldSolid (by decide) (decimalSolid _)
    · contradiction

theorem peerLinesSolid {key : Key} {peer : Peer} :
    ∀ line ∈ getPeerLines names table stats key peer, ∀ c ∈ line, solid c = true := by
  intro line mem
  unfold getPeerLines at mem
  simp only [List.mem_append,List.mem_cons,List.not_mem_nil,or_false,Option.mem_toList,Option.map_eq_some_iff,
    List.mem_map] at mem
  rcases mem with (((rfl | rfl | rfl) | ⟨e,_,rfl⟩) | rfl | rfl | rfl | rfl | rfl) | ⟨p,_,rfl⟩
  · exact fieldSolid (by decide) (goHexSolid _)
  · exact fieldSolid (by decide) (goHexSolid _)
  · exact fieldSolid (by decide) (by decide)
  · exact fieldSolid (by decide) (addrPortSolid e)
  · exact fieldSolid (by decide) (decimalSolid _)
  · exact fieldSolid (by decide) (decimalSolid _)
  · exact fieldSolid (by decide) (decimalSolid _)
  · exact fieldSolid (by decide) (decimalSolid _)
  · exact fieldSolid (by decide) (decimalSolid _)
  · exact fieldSolid (by decide) (prefixSolid names _ _)

theorem replyLines (walk : List (Key × Peer)) : lines (ipcGetReply names device table stats walk) =
    getDeviceLines device ++ (walk.flatMap (fun entry => getPeerLines names table stats entry.1 entry.2) ++
      [field "errno".toList ['0'],[]]) := by
  have ended : status none = unlines [field "errno".toList ['0'],[]] := by decide
  have joined : ∀ a b : List Text, unlines a ++ unlines b = unlines (a ++ b) := by
    intro a b
    simp [unlines]
  have closing : ∀ line ∈ [field "errno".toList ['0'],[]], ∀ c ∈ line, solid c = true := by decide
  unfold ipcGetReply
  rw [ended,joined,List.append_assoc]
  refine linesUnlines (fun line mem feed => ?_)
  have clean : ∀ c ∈ line, solid c = true := by
    rcases List.mem_append.mp mem with own | more
    · exact deviceLinesSolid line own
    · rcases List.mem_append.mp more with inside | last
      · obtain ⟨entry,_,given⟩ := List.mem_flatMap.mp inside
        exact peerLinesSolid line given
      · exact closing line last
  exact absurd (clean _ feed) (by decide)

/- What wg keeps of the device itself. -/
def shownDevice (device : Device) : Got where
  privateKey := if isZero device.privateKey then none else some device.privateKey
  listenPort := if device.port = 0 then none else some device.port
  fwmark := if device.fwmark = 0 then none else some device.fwmark
  peers := []

theorem gotDeviceLines (smallPort : device.port < 2^16) (smallMark : device.fwmark < 2^32) (rest : List Text) :
    getLines names (getDeviceLines device ++ rest) (⟨none,none,none,[]⟩,none) =
      getLines names rest (shownDevice device,none) := by
  have keyRead : ∀ rest, getLines names ((if isZero device.privateKey then []
      else [field "private_key".toList (goHex device.privateKey)]) ++ rest) (⟨none,none,none,[]⟩,none) =
        getLines names rest (⟨(shownDevice device).privateKey,none,none,[]⟩,none) := by
    intro rest
    unfold shownDevice
    split
    · rfl
    · refine gotDevice rest (by decide) (by decide) (by decide) rfl ?_
      rw [getDeviceLine,if_pos rfl,readGoHex]
      rfl
  have portRead : ∀ rest, getLines names ((if device.port ≠ 0 then [field "listen_port".toList (decimal device.port)]
      else []) ++ rest) (⟨(shownDevice device).privateKey,none,none,[]⟩,none) =
        getLines names rest (⟨(shownDevice device).privateKey,(shownDevice device).listenPort,none,[]⟩,none) := by
    intro rest
    unfold shownDevice
    by_cases unset : device.port = 0
    · simp [unset]
    · simp only [ne_eq,unset,not_false_eq_true,if_true,if_false]
      refine gotDevice rest (by decide) (by decide) (by decide) rfl ?_
      rw [getDeviceLine,if_neg (by decide),if_pos rfl,numDecimal (by omega) (by omega)]
      rfl
  unfold getDeviceLines
  rw [List.append_assoc,List.append_assoc,keyRead,portRead]
  unfold shownDevice
  by_cases unset : device.fwmark = 0
  · simp [unset]
  · simp only [ne_eq,unset,not_false_eq_true,if_true,if_false]
    refine gotDevice rest (by decide) (by decide) (by decide) rfl ?_
    rw [getDeviceLine,if_neg (by decide),if_neg (by decide),if_pos rfl,numDecimal (by omega) (by omega)]
    rfl

theorem gotWalk {walk : List (Key × Peer)} (range : ∀ entry ∈ walk, PeerInRange entry.2) (rest : List Text)
    {got : Got} {err : Option Nat} :
    getLines names (walk.flatMap (fun entry => getPeerLines names table stats entry.1 entry.2) ++ rest) (got,err) =
      getLines names rest
        ({got with peers := (walk.map (fun entry => shown table stats entry.1 entry.2)).reverse ++ got.peers},err) := by
  induction walk generalizing got with
  | nil => rfl
  | cons entry walk ih =>
    rw [List.flatMap_cons,List.append_assoc,gotPeerLines (range entry (by simp)),
      ih (fun other mem => range other (by simp [mem]))]
    simp

theorem gotStatus {got : Got} : getLines names [field "errno".toList ['0'],[]] (got,none) =
    some {got with peers := got.peers.reverse} := by
  rw [gotLine _ (by decide),if_neg (by decide),if_pos rfl,show num 0x7fffffff ['0'] = some 0 by decide]
  rfl

end Reply

def calmInputs : List Text :=
  [unlines (deviceFields (setconf someKey 51820 0 [somePeer]) ++ peerLines plainNames somePeer)]

end WebosWireguard.UapiGet
