import WebosWireguard.UapiSession

/-! wg's side of a set operation, and what the two sides make of each other: the message
wg writes for a configuration is read by wireguard-go as that configuration, and wg reads
the answer. The connection delivers the bytes of either side unchanged. -/
namespace WebosWireguard.UapiExchange
open TextLines KeyEncoding AllowedIps UapiText UapiDevice UapiSession PeerTable

structure WgPeer where
  publicKey : Key
  removeMe : Bool
  presharedKey : Option Key
  endpoint : Option Endpoint
  persistentKeepaliveInterval : Option Nat
  replaceAllowedips : Bool
  allowedips : List AllowedIp

structure WgDevice where
  privateKey : Option Key
  listenPort : Option Nat
  fwmark : Option Nat
  replacePeers : Bool
  peers : List WgPeer

def field (key value : Text) : Text := key ++ '='::value

section Message
variable (names : Addresses)

def allowedIpLine (entry : AllowedIp) : Text :=
  field "allowed_ip".toList ((if entry.removeMe then ['-'] else []) ++ printPrefix names entry.ip entry.cidr)

def peerFields (peer : WgPeer) : List Text :=
  (peer.presharedKey.map (fun key => field "preshared_key".toList (hexText key))).toList ++
  (peer.endpoint.map (fun e => field "endpoint".toList (printEndpoint names e))).toList ++
  (peer.persistentKeepaliveInterval.map
    (fun secs => field "persistent_keepalive_interval".toList (decimal secs))).toList ++
  (if peer.replaceAllowedips then [field "replace_allowed_ips".toList "true".toList] else []) ++
  peer.allowedips.map (allowedIpLine names)

def peerLines (peer : WgPeer) : List Text :=
  field "public_key".toList (hexText peer.publicKey)::
    if peer.removeMe then [field "remove".toList "true".toList] else peerFields names peer

def deviceFields (device : WgDevice) : List Text :=
  (device.privateKey.map (fun key => field "private_key".toList (hexText key))).toList ++
  (device.listenPort.map (fun port => field "listen_port".toList (decimal port))).toList ++
  (device.fwmark.map (fun mark => field "fwmark".toList (decimal mark))).toList ++
  (if device.replacePeers then [field "replace_peers".toList "true".toList] else [])

def userspaceSetDevice (device : WgDevice) : Text :=
  unlines ("set=1".toList::(deviceFields device ++ device.peers.flatMap (peerLines names) ++ [[]]))

end Message

/- The answer as wg reads it; without an answer the call fails with some other error. -/
def readReply (setErrno : Int) : List Text → Option Int
  | [] => none
  | line::rest =>
    if line = [] then some setErrno
    else if '=' ∉ line then none
    else if before '=' line = "errno".toList then
      let value := after '=' line
      let digits := if value.head? = some '-' then value.tail else value
      if digits ≠ [] ∧ digits.all Char.isDigit ∧ number digits < 2^31 then
        readReply (if value.head? = some '-' then -(number digits : Int) else number digits) rest
      else none
    else readReply setErrno rest

def eproto : Int := 71

def replyOf (reply : Text) : Option Int := readReply (-eproto) (lines reply)

/-! The same change without the texts. -/

section Meaning
variable (world : World)

def AllowedIp.call (entry : AllowedIp) (key : Key) : Option (Call Key) :=
  (prefixOf entry.ip entry.cidr).map (fun p => if entry.removeMe then .remove p key else .insert p key)

def peerCalls (peer : WgPeer) : List (Call Key) :=
  (if peer.replaceAllowedips then [.removeByPeer peer.publicKey] else []) ++
    peer.allowedips.filterMap (fun entry => AllowedIp.call entry peer.publicKey)

def settings (peer : WgPeer) (old : Peer) : Peer where
  presharedKey := peer.presharedKey.getD old.presharedKey
  endpoint := peer.endpoint.or old.endpoint
  persistentKeepaliveInterval := peer.persistentKeepaliveInterval.getD old.persistentKeepaliveInterval

def withPeer (device : Device) (key : Key) : Device :=
  if (lookupPeer device key).isSome then device
  else {device with keyMap := device.keyMap ++ [(key,⟨zeroKey,none,0⟩)]}

def applyPeer (device : Device) (peer : WgPeer) : Device :=
  if device.publicKey = peer.publicKey then device
  else
    let device := withPeer device peer.publicKey
    if peer.removeMe then removePeer device peer.publicKey
    else
      let device := updatePeer device peer.publicKey (settings peer)
      {device with allowedips := device.allowedips ++ peerCalls peer}

end Meaning

structure PeerRange (peer : WgPeer) : Prop where
  endpoint : ∀ e, peer.endpoint = some e → Ip.InRange e.ip ∧ e.port < 2^16
  keepalive : ∀ secs, peer.persistentKeepaliveInterval = some secs → secs < 2^16
  allowedips : ∀ entry ∈ peer.allowedips, Ip.InRange entry.ip ∧ entry.cidr ≤ entry.ip.width

/-! Texts that pass the line reader as they are. -/

def solid (c : Char) : Bool := c != '\n' && c != '\r'

theorem hexSolid (byte : Byte) : solid (charOf (hexDigit (byte >>> 4))) = true ∧
    solid (charOf (hexDigit (byte &&& 0xf))) = true :=
  nibbleHalves (P := fun v => solid (charOf (hexDigit v)) = true) (by decide) byte

theorem hexTextSolid (key : Key) : ∀ c ∈ hexText key, solid c = true := by
  have each : ∀ bytes : List Byte, ∀ c ∈ (keyToHex bytes).map charOf, solid c = true := by
    intro bytes
    induction bytes with
    | nil => simp [keyToHex]
    | cons byte rest ih =>
      simp only [keyToHex,List.map_cons,List.forall_mem_cons]
      exact ⟨(hexSolid byte).1,(hexSolid byte).2,ih⟩
  exact each key.bytes

theorem solidOf {c : Char} (feed : c ≠ '\n') (ret : c ≠ '\r') : solid c = true := by
  simp [solid,feed,ret]

theorem decimalSolid (n : Nat) : ∀ c ∈ decimal n, solid c = true := by
  intro c mem
  have digit := decimalDigits mem
  refine solidOf (fun same => ?_) (fun same => ?_) <;> rw [same] at digit <;> exact absurd digit (by decide)

theorem printSolid (names : Addresses) (ip : Ip) : ∀ c ∈ names.print ip, solid c = true := by
  intro c mem
  refine solidOf (fun same => ?_) (fun same => ?_) <;> rw [same] at mem <;>
    exact printApart names (by decide) (by decide) (by decide) mem

theorem fieldSolid {key value : Text} (left : ∀ c ∈ key, solid c = true) (right : ∀ c ∈ value, solid c = true) :
    ∀ c ∈ field key value, solid c = true := by
  intro c mem
  rcases List.mem_append.mp mem with inKey | inRest
  · exact left c inKey
  · rcases List.mem_cons.mp inRest with rfl | inValue
    · decide
    · exact right c inValue

theorem prefixSolid (names : Addresses) (ip : Ip) (cidr : Nat) : ∀ c ∈ printPrefix names ip cidr, solid c = true := by
  intro c mem
  rcases List.mem_append.mp mem with inAddr | inRest
  · exact printSolid names ip c inAddr
  · rcases List.mem_cons.mp inRest with rfl | digit
    · decide
    · exact decimalSolid cidr c digit

theorem endpointSolid (names : Addresses) (e : Endpoint) : ∀ c ∈ printEndpoint names e, solid c = true := by
  intro c mem
  have parts : c ∈ names.print e.ip ∨ c ∈ decimal e.port ∨ c ∈ ['[',']',':'] := by
    unfold printEndpoint at mem
    dsimp only at mem
    split at mem <;> simp only [List.mem_cons,List.mem_append] at mem ⊢ <;> tauto
  rcases parts with host | port | mark
  · exact printSolid names e.ip c host
  · exact decimalSolid e.port c port
  · simp only [List.mem_cons,List.not_mem_nil,or_false] at mark
    rcases mark with rfl | rfl | rfl <;> decide

section Read
variable {world : World} {s : Set}

theorem dropCrSolid {line : Text} (clean : ∀ c ∈ line, solid c = true) : dropCr line = line := by
  unfold dropCr
  refine if_neg (fun last => ?_)
  have mem := List.mem_of_mem_getLast? last
  exact absurd (clean _ mem) (by decide)

/- A line of the message is read as its key and its value. -/
theorem fieldRead {key value : Text} {after : Set} (clean : ∀ c ∈ field key value, solid c = true)
    (handled : setLine world s (field key value) = (after,none)) (rest : List Text) :
    setLines world s (field key value::rest) = setLines world after rest := by
  rw [setLines,dropCrSolid clean,if_neg (by simp [field]),handled]

theorem publicKeyRead {value : Text} {after : Set} (handled : handlePublicKeyLine s value = (after,none)) :
    setLine world s (field "public_key".toList value) = (after,none) := by
  obtain ⟨first,second⟩ := cutFirst (c := '=') (a := "public_key".toList) (by decide) value
  unfold setLine field
  rw [if_neg (by simp),first,second,if_pos rfl,handled]

theorem deviceRead {key value : Text} {device after : Device} (named : '=' ∉ key) (other : key ≠ "public_key".toList)
    (handled : handleDeviceLine world device key value = (after,none)) :
    setLine world ⟨device,.none⟩ (field key value) = (⟨after,.none⟩,none) := by
  obtain ⟨first,second⟩ := cutFirst named value
  unfold setLine field
  rw [if_neg (by simp),first,second,if_neg other]
  dsimp only
  rw [handled]

theorem peerRead {key value : Text} {after : Set} (named : '=' ∉ key) (other : key ≠ "public_key".toList)
    (inPeer : s.current ≠ .none) (handled : handlePeerLine world s key value = (after,none)) :
    setLine world s (field key value) = (after,none) := by
  obtain ⟨first,second⟩ := cutFirst named value
  unfold setLine field
  rw [if_neg (by simp),first,second,if_neg other]
  obtain ⟨device,current⟩ := s
  cases current with
  | none => exact absurd rfl inPeer
  | dummy => exact handled
  | peer key created => exact handled

theorem changeCurrent (change : Peer → Peer) : (changePeer s change).current = s.current := by
  unfold changePeer
  split <;> rfl

theorem callCurrent (call : Key → Call Key) : (callTable s call).current = s.current := by
  unfold callTable
  split <;> rfl

theorem updateSame (device : Device) (key : Key) : updatePeer device key (fun peer => peer) = device := by
  have same : device.keyMap.map (fun entry => if entry.1 = key then (entry.1,entry.2) else entry) = device.keyMap := by
    conv_rhs => rw [← List.map_id device.keyMap]
    refine List.map_congr_left (fun entry _ => ?_)
    split <;> rfl
  rw [updatePeer,same]

theorem changeSame : changePeer s (fun peer => peer) = s := by
  unfold changePeer
  split
  · rw [updateSame]
  · rfl

theorem changeTwice (first second : Peer → Peer) :
    changePeer (changePeer s first) second = changePeer s (fun peer => second (first peer)) := by
  obtain ⟨device,current⟩ := s
  cases current with
  | none => rfl
  | dummy => rfl
  | peer key created =>
    simp only [changePeer,updatePeer,List.map_map]
    congr 2
    refine List.map_congr_left (fun entry _ => ?_)
    by_cases same : entry.1 = key <;> simp [same]

section Fields
variable (inPeer : s.current ≠ .none) (rest : List Text)
include inPeer

theorem presharedRead (given : Option Key) :
    setLines world s ((given.map (fun key => field "preshared_key".toList (hexText key))).toList ++ rest) =
      setLines world (changePeer s (fun peer => {peer with presharedKey := given.getD peer.presharedKey})) rest := by
  cases given with
  | none => exact congrArg (fun s => setLines world s rest) changeSame.symm
  | some key =>
    refine fieldRead (fieldSolid (by decide) (hexTextSolid key)) (peerRead (by decide) (by decide) inPeer ?_) rest
    rw [handlePeerLine,if_neg (by decide),if_neg (by decide),if_pos rfl,loadHexText]
    rfl

theorem endpointRead {given : Option Endpoint} (range : ∀ e, given = some e → Ip.InRange e.ip ∧ e.port < 2^16) :
    setLines world s ((given.map (fun e => field "endpoint".toList (printEndpoint world.names e))).toList ++ rest) =
      setLines world (changePeer s (fun peer => {peer with endpoint := given.or peer.endpoint})) rest := by
  cases given with
  | none => exact congrArg (fun s => setLines world s rest) changeSame.symm
  | some e =>
    obtain ⟨inside,small⟩ := range e rfl
    refine fieldRead (fieldSolid (by decide) (endpointSolid world.names e))
      (peerRead (by decide) (by decide) inPeer ?_) rest
    rw [handlePeerLine,if_neg (by decide),if_neg (by decide),if_neg (by decide),if_pos rfl,
      parsePrintedEndpoint world.names inside small]
    rfl

theorem keepaliveRead {given : Option Nat} (range : ∀ secs, given = some secs → secs < 2^16) :
    setLines world s
      ((given.map (fun secs => field "persistent_keepalive_interval".toList (decimal secs))).toList ++ rest) =
      setLines world (changePeer s (fun peer =>
        {peer with persistentKeepaliveInterval := given.getD peer.persistentKeepaliveInterval})) rest := by
  cases given with
  | none => exact congrArg (fun s => setLines world s rest) changeSame.symm
  | some secs =>
    refine fieldRead (fieldSolid (by decide) (decimalSolid secs)) (peerRead (by decide) (by decide) inPeer ?_) rest
    rw [handlePeerLine,if_neg (by decide),if_neg (by decide),if_neg (by decide),if_neg (by decide),if_pos rfl,
      parseDecimal (range secs rfl)]
    rfl

theorem replaceRead : setLines world s (field "replace_allowed_ips".toList "true".toList::rest) =
    setLines world (callTable s (fun key => .removeByPeer key)) rest := by
  refine fieldRead (by decide) (peerRead (by decide) (by decide) inPeer ?_) rest
  rw [handlePeerLine,if_neg (by decide),if_neg (by decide),if_neg (by decide),if_neg (by decide),
    if_neg (by decide),if_pos rfl,if_neg (by decide)]

theorem allowedIpRead {entry : AllowedIp} {p : Prefix} (inside : Ip.InRange entry.ip)
    (known : prefixOf entry.ip entry.cidr = some p) : setLines world s (allowedIpLine world.names entry::rest) =
      setLines world (callTable s (fun key => if entry.removeMe then .remove p key else .insert p key)) rest := by
  have printed : (printPrefix world.names entry.ip entry.cidr).head? ≠ some '-' := by
    rw [printPrefix,List.head?_append_of_ne_nil _ (world.names.filled entry.ip)]
    exact fun first => printApart world.names (by decide) (by decide) (by decide) (List.mem_of_mem_head? first)
  have parsed := (parsePrinted world.names entry.cidr inside).trans known
  unfold allowedIpLine
  cases sign : entry.removeMe with
  | true =>
    refine fieldRead (fieldSolid (by decide) ?_) (peerRead (by decide) (by decide) inPeer ?_) rest
    · intro c mem
      rcases List.mem_append.mp mem with mark | inPrefix
      · rw [List.mem_singleton.mp mark]
        decide
      · exact prefixSolid world.names _ _ c inPrefix
    · rw [handlePeerLine,if_neg (by decide),if_neg (by decide),if_neg (by decide),if_neg (by decide),
        if_neg (by decide),if_neg (by decide),if_pos rfl]
      simp only [if_true,List.singleton_append,List.head?_cons,List.tail_cons,ne_eq,not_true,if_false,parsed]
  | false =>
    refine fieldRead (fieldSolid (by decide) (prefixSolid world.names _ _))
      (peerRead (by decide) (by decide) inPeer ?_) rest
    rw [handlePeerLine,if_neg (by decide),if_neg (by decide),if_neg (by decide),if_neg (by decide),
      if_neg (by decide),if_neg (by decide),if_pos rfl]
    simp only [Bool.false_eq_true,if_false,printed,ne_eq,not_false_eq_true,if_true,parsed]

end Fields

def callEntry (s : Set) (entry : AllowedIp) : Set :=
  match prefixOf entry.ip entry.cidr with
  | none => s
  | some p => callTable s (fun key => if entry.removeMe then .remove p key else .insert p key)

def changes (peer : WgPeer) (s : Set) : Set :=
  let s := changePeer s (settings peer)
  let s := if peer.replaceAllowedips then callTable s (fun key => .removeByPeer key) else s
  peer.allowedips.foldl callEntry s

theorem prefixOfRange {ip : Ip} {cidr : Nat} (short : cidr ≤ ip.width) : ∃ p, prefixOf ip cidr = some p := by
  cases ip with
  | v4 a => exact ⟨_,dif_pos short⟩
  | v6 a => exact ⟨_,dif_pos short⟩

theorem entryCurrent (entry : AllowedIp) : (callEntry s entry).current = s.current := by
  unfold callEntry
  split
  · rfl
  · exact callCurrent _

theorem entriesRead (inPeer : s.current ≠ .none) (rest : List Text) {entries : List AllowedIp}
    (range : ∀ entry ∈ entries, Ip.InRange entry.ip ∧ entry.cidr ≤ entry.ip.width) :
    setLines world s (entries.map (allowedIpLine world.names) ++ rest) =
      setLines world (entries.foldl callEntry s) rest := by
  induction entries generalizing s with
  | nil => rfl
  | cons entry others ih =>
    obtain ⟨inside,short⟩ := range entry (by simp)
    obtain ⟨p,known⟩ := prefixOfRange short
    have step : callEntry s entry =
        callTable s (fun key => if entry.removeMe then .remove p key else .insert p key) := by
      rw [callEntry,known]
    rw [List.map_cons,List.cons_append,allowedIpRead inPeer _ inside known,← step]
    exact ih (by rw [entryCurrent]; exact inPeer) (fun e mem => range e (List.mem_cons_of_mem entry mem))

theorem peerFieldsRead (inPeer : s.current ≠ .none) (rest : List Text) {peer : WgPeer} (range : PeerRange peer) :
    setLines world s (peerFields world.names peer ++ rest) = setLines world (changes peer s) rest := by
  unfold peerFields
  simp only [List.append_assoc]
  rw [presharedRead inPeer,endpointRead (by rw [changeCurrent]; exact inPeer) _ range.endpoint,
    keepaliveRead (by rw [changeCurrent,changeCurrent]; exact inPeer) _ range.keepalive,changeTwice,changeTwice]
  have inside : (changePeer s (settings peer)).current ≠ .none := by rw [changeCurrent]; exact inPeer
  unfold changes
  dsimp only
  have together : (fun p : Peer => (⟨peer.presharedKey.getD p.presharedKey,peer.endpoint.or p.endpoint,
      peer.persistentKeepaliveInterval.getD p.persistentKeepaliveInterval⟩ : Peer)) = settings peer := rfl
  rw [together]
  cases peer.replaceAllowedips with
  | false => exact entriesRead inside rest range.allowedips
  | true =>
    simp only [if_true,List.singleton_append]
    rw [replaceRead inside]
    exact entriesRead (by rw [callCurrent]; exact inside) rest range.allowedips

/- Lines about a peer that only stands in change nothing. -/
theorem changesDummy (peer : WgPeer) (device : Device) : changes peer ⟨device,.dummy⟩ = ⟨device,.dummy⟩ := by
  have entries : ∀ list : List AllowedIp, list.foldl callEntry (⟨device,.dummy⟩ : Set) = ⟨device,.dummy⟩ := by
    intro list
    induction list with
    | nil => rfl
    | cons entry rest ih =>
      have step : callEntry (⟨device,.dummy⟩ : Set) entry = ⟨device,.dummy⟩ := by
        unfold callEntry
        split <;> rfl
      rw [List.foldl_cons,step,ih]
  unfold changes
  cases peer.replaceAllowedips <;> exact entries peer.allowedips

theorem entriesPeer {key : Key} {created : Bool} (entries : List AllowedIp) (device : Device) :
    entries.foldl callEntry (⟨device,.peer key created⟩ : Set) =
      ⟨{device with allowedips := device.allowedips ++ entries.filterMap (fun entry => AllowedIp.call entry key)},
        .peer key created⟩ := by
  induction entries generalizing device with
  | nil => simp
  | cons entry rest ih =>
    rw [List.foldl_cons,List.filterMap_cons]
    cases known : prefixOf entry.ip entry.cidr with
    | none =>
      simp only [callEntry,AllowedIp.call,known,Option.map_none]
      exact ih device
    | some p =>
      simp only [callEntry,AllowedIp.call,known,Option.map_some,callTable]
      rw [ih,List.append_assoc]
      rfl

theorem changesPeer (peer : WgPeer) (device : Device) (created : Bool) :
    changes peer ⟨device,.peer peer.publicKey created⟩ =
      ⟨{updatePeer device peer.publicKey (settings peer) with allowedips := device.allowedips ++ peerCalls peer},
        .peer peer.publicKey created⟩ := by
  unfold changes peerCalls
  cases peer.replaceAllowedips with
  | false =>
    simp only [changePeer,Bool.false_eq_true,if_false,List.nil_append]
    rw [entriesPeer]
    rfl
  | true =>
    simp only [changePeer,if_true,callTable]
    rw [entriesPeer]
    simp [updatePeer]

theorem removeRead (inPeer : s.current ≠ .none) (rest : List Text) :
    setLines world s (field "remove".toList "true".toList::rest) =
      setLines world ⟨match s.current with | .peer key _ => removePeer s.device key | _ => s.device,.dummy⟩ rest := by
  refine fieldRead (by decide) (peerRead (by decide) (by decide) inPeer ?_) rest
  rw [handlePeerLine,if_neg (by decide),if_pos rfl,if_neg (by decide)]
  obtain ⟨device,current⟩ := s
  cases current <;> rfl

/- The section of a peer, from any state the lines before it left. -/
theorem peerLinesRead {peer : WgPeer} (range : PeerRange peer)
    (room : s.device.keyMap.length < maxPeers) (rest : List Text) : ∃ current,
    setLines world s (peerLines world.names peer ++ rest) = setLines world ⟨applyPeer s.device peer,current⟩ rest := by
  have first : ∀ after : Set, handlePublicKeyLine s (hexText peer.publicKey) = (after,none) →
      setLines world s (peerLines world.names peer ++ rest) = setLines world after
        ((if peer.removeMe then [field "remove".toList "true".toList] else peerFields world.names peer) ++ rest) := by
    intro after handled
    exact fieldRead (fieldSolid (by decide) (hexTextSolid peer.publicKey)) (publicKeyRead handled) _
  unfold applyPeer
  by_cases own : s.device.publicKey = peer.publicKey
  · rw [if_pos own,first ⟨s.device,.dummy⟩ (by rw [handlePublicKeyLine,loadHexText]; exact if_pos own)]
    refine ⟨.dummy,?_⟩
    cases peer.removeMe with
    | true => exact removeRead (by simp) rest
    | false =>
      simp only [Bool.false_eq_true,if_false]
      rw [peerFieldsRead (by simp) rest range,changesDummy]
  · rw [if_neg own]
    obtain ⟨created,selected⟩ : ∃ created, handlePublicKeyLine s (hexText peer.publicKey) =
        (⟨withPeer s.device peer.publicKey,.peer peer.publicKey created⟩,none) := by
      unfold handlePublicKeyLine withPeer
      rw [loadHexText]
      dsimp only
      rw [if_neg own]
      by_cases known : (lookupPeer s.device peer.publicKey).isSome
      · exact ⟨false,by rw [if_pos known,if_pos known]⟩
      · refine ⟨true,?_⟩
        rw [if_neg known,if_neg known,newPeer,if_neg (by omega),if_neg known]
    rw [first _ selected]
    cases peer.removeMe with
    | true => exact ⟨.dummy,removeRead (by simp) rest⟩
    | false =>
      simp only [Bool.false_eq_true,if_false]
      rw [peerFieldsRead (by simp) rest range,changesPeer]
      exact ⟨_,rfl⟩

theorem withPeerLength (device : Device) (key : Key) :
    (withPeer device key).keyMap.length ≤ device.keyMap.length + 1 := by
  unfold withPeer
  split
  · exact Nat.le_succ _
  · simp

theorem applyPeerLength (device : Device) (peer : WgPeer) :
    (applyPeer device peer).keyMap.length ≤ device.keyMap.length + 1 := by
  have grown := withPeerLength device peer.publicKey
  unfold applyPeer
  split
  · exact Nat.le_succ _
  dsimp only
  split
  · refine le_trans ?_ grown
    unfold removePeer removePeerLocked
    split
    · exact List.length_filter_le _ _
    · exact le_refl _
  · simpa [updatePeer] using grown

theorem peersRead {peers : List WgPeer} (range : ∀ peer ∈ peers, PeerRange peer)
    (room : s.device.keyMap.length + peers.length ≤ maxPeers) (rest : List Text) : ∃ current,
    setLines world s (peers.flatMap (peerLines world.names) ++ rest) =
      setLines world ⟨peers.foldl applyPeer s.device,current⟩ rest := by
  induction peers generalizing s with
  | nil => exact ⟨s.current,rfl⟩
  | cons peer others ih =>
    rw [List.length_cons] at room
    have grown := applyPeerLength s.device peer
    obtain ⟨current,read⟩ := @peerLinesRead world s peer (range peer (by simp)) (by omega)
      (others.flatMap (peerLines world.names) ++ rest)
    obtain ⟨last,done⟩ := ih (s := ⟨applyPeer s.device peer,current⟩)
      (fun p mem => range p (List.mem_cons_of_mem peer mem)) (by dsimp only; omega)
    rw [List.flatMap_cons,List.append_assoc,read,done]
    exact ⟨last,rfl⟩

/- Nothing the system is asked for fails. -/
structure SocketsWork (world : World) (up : Bool) : Prop where
  close : world.bind.close = true
  openPort : up = true → ∀ port, (world.bind.openPort port).isSome = true
  listener : up = true → world.bind.startRouteListener = true
  setMark : up = true → ∀ mark, world.bind.setMark mark = true

def usedKey (key : Key) : Key := if isZero key then key else clamp key

def openedPort (world : World) (up : Bool) (port : Nat) : Nat :=
  if up then ((world.bind.openPort port).map Fin.val).getD 0 else port

def applyKey (world : World) (device : Device) (key : Option Key) : Device :=
  match key with
  | none => device
  | some key => setPrivateKey world device (usedKey key)

section Fields
variable {device : Device} (rest : List Text)

theorem privateKeyRead (given : Option Key) :
    setLines world ⟨device,.none⟩ ((given.map (fun key => field "private_key".toList (hexText key))).toList ++ rest) =
      setLines world ⟨applyKey world device given,.none⟩ rest := by
  cases given with
  | none => rfl
  | some key =>
    refine fieldRead (fieldSolid (by decide) (hexTextSolid key)) (deviceRead (by decide) (by decide) ?_) rest
    rw [handleDeviceLine,if_pos rfl,fromMaybeZeroHex,loadHexText]
    rfl

theorem listenPortRead {port : Nat} (works : SocketsWork world device.up) (small : port < 2^16) :
    setLines world ⟨device,.none⟩ (field "listen_port".toList (decimal port)::rest) =
      setLines world ⟨{device with port := openedPort world device.up port},.none⟩ rest := by
  refine fieldRead (fieldSolid (by decide) (decimalSolid port)) (deviceRead (by decide) (by decide) ?_) rest
  rw [handleDeviceLine,if_neg (by decide),if_pos rfl,parseDecimal small]
  unfold checked bindUpdate openedPort
  simp only [works.close,Bool.not_true,Bool.false_eq_true,if_false]
  cases state : device.up with
  | false => simp
  | true =>
    obtain ⟨q,opened⟩ := Option.isSome_iff_exists.mp (works.openPort state port)
    simp [opened,works.listener state,works.setMark state]

theorem fwmarkRead {mark : Nat} (works : SocketsWork world device.up) (small : mark < 2^32) :
    setLines world ⟨device,.none⟩ (field "fwmark".toList (decimal mark)::rest) =
      setLines world ⟨{device with fwmark := mark},.none⟩ rest := by
  refine fieldRead (fieldSolid (by decide) (decimalSolid mark)) (deviceRead (by decide) (by decide) ?_) rest
  rw [handleDeviceLine,if_neg (by decide),if_neg (by decide),if_pos rfl,parseDecimal small]
  unfold checked bindSetMark
  by_cases same : device.fwmark = mark
  · subst same
    simp
  · cases state : device.up with
    | false => simp [same]
    | true => simp [same,works.setMark state]

theorem replacePeersRead : setLines world ⟨device,.none⟩ (field "replace_peers".toList "true".toList::rest) =
    setLines world ⟨removeAllPeers device,.none⟩ rest := by
  refine fieldRead (by decide) (deviceRead (by decide) (by decide) ?_) rest
  rw [handleDeviceLine,if_neg (by decide),if_neg (by decide),if_neg (by decide),if_pos rfl,if_neg (by decide)]

end Fields

end Read

/-! The configuration of a file, which wg sends with every setting of the device. -/

def setconf (key : Key) (port mark : Nat) (peers : List WgPeer) : WgDevice :=
  ⟨some key,some port,some mark,true,peers⟩

/- The peers a device with this public key gets from the sections of a file. -/
def addPeer (map : List (Key × Peer)) (peer : WgPeer) : List (Key × Peer) :=
  if peer.publicKey ∈ map.map Prod.fst then
    map.map (fun entry => if entry.1 = peer.publicKey then (entry.1,settings peer entry.2) else entry)
  else map ++ [(peer.publicKey,settings peer ⟨zeroKey,none,0⟩)]

def others (own : Key) (peers : List WgPeer) : List WgPeer := peers.filter (fun peer => peer.publicKey ≠ own)

theorem applyPeerAdds {device : Device} {peer : WgPeer} (kept : peer.removeMe = false)
    (other : device.publicKey ≠ peer.publicKey) : (applyPeer device peer).keyMap = addPeer device.keyMap peer ∧
      (applyPeer device peer).allowedips = device.allowedips ++ peerCalls peer := by
  unfold applyPeer
  rw [if_neg other,kept]
  have known : (lookupPeer device peer.publicKey).isSome ↔ peer.publicKey ∈ device.keyMap.map Prod.fst := lookupPeerKeys
  by_cases mem : peer.publicKey ∈ device.keyMap.map Prod.fst
  · simp only [Bool.false_eq_true,if_false,withPeer,known.mpr mem,if_true,updatePeer,addPeer,mem,and_self]
  · have unknown : ¬ (lookupPeer device peer.publicKey).isSome := fun some => mem (known.mp some)
    simp only [Bool.false_eq_true,if_false,withPeer,unknown,updatePeer,addPeer,mem,List.map_append]
    refine ⟨congrArg₂ _ ?_ (by simp),trivial⟩
    conv_rhs => rw [← List.map_id device.keyMap]
    refine List.map_congr_left (fun entry inside => if_neg (fun same => mem ?_))
    rw [← same]
    exact List.mem_map_of_mem inside

/- The part of a device that is not about its peers. -/
def wires (device : Device) : Bool × Key × Key × Nat × Nat :=
  (device.up,device.privateKey,device.publicKey,device.port,device.fwmark)

theorem removePeerWires (device : Device) (key : Key) : wires (removePeer device key) = wires device := by
  unfold removePeer removePeerLocked
  split <;> rfl

theorem removeAllPeersWires (device : Device) : wires (removeAllPeers device) = wires device := by
  have each : ∀ (gone : List Key) (d : Device), wires (gone.foldl removePeerLocked d) = wires d := by
    intro gone
    induction gone with
    | nil => exact fun _ => rfl
    | cons key rest ih => exact fun d => ih (removePeerLocked d key)
  exact each _ device

theorem applyPeerWires (device : Device) (peer : WgPeer) : wires (applyPeer device peer) = wires device := by
  have grown : wires (withPeer device peer.publicKey) = wires device := by
    unfold withPeer
    split <;> rfl
  unfold applyPeer
  split
  · rfl
  dsimp only
  split
  · rw [removePeerWires,grown]
  · exact grown

theorem applyPeersAdd {peers : List WgPeer} {device : Device} (kept : ∀ peer ∈ peers, peer.removeMe = false) :
    wires (peers.foldl applyPeer device) = wires device ∧
      (peers.foldl applyPeer device).keyMap = (others device.publicKey peers).foldl addPeer device.keyMap ∧
      (peers.foldl applyPeer device).allowedips =
        device.allowedips ++ (others device.publicKey peers).flatMap peerCalls := by
  induction peers generalizing device with
  | nil => simp [others]
  | cons peer rest ih =>
    obtain ⟨wired,map,calls⟩ := @ih (applyPeer device peer) (fun p mem => kept p (List.mem_cons_of_mem peer mem))
    have same := applyPeerWires device peer
    have own : (applyPeer device peer).publicKey = device.publicKey := congrArg (fun w => w.2.2.1) same
    rw [own] at map calls
    rw [List.foldl_cons,wired,map,calls]
    by_cases self : device.publicKey = peer.publicKey
    · have skipped : others device.publicKey (peer::rest) = others device.publicKey rest := by simp [others,self]
      have idle : applyPeer device peer = device := if_pos self
      rw [skipped,idle]
      exact ⟨rfl,rfl,rfl⟩
    · have taken : others device.publicKey (peer::rest) = peer::others device.publicKey rest := by
        simp [others,Ne.symm self]
      obtain ⟨added,called⟩ := applyPeerAdds (kept peer (by simp)) self
      rw [taken,added,called]
      simp [same]

theorem optionLines {α : Type} {o : Option α} {f : α → Text} (clean : ∀ a, ∀ c ∈ f a, solid c = true) :
    ∀ l ∈ (o.map f).toList, ∀ c ∈ l, solid c = true := by
  cases o with
  | none => simp
  | some a => simpa using clean a

theorem deviceFieldsSolid (device : WgDevice) : ∀ l ∈ deviceFields device, ∀ c ∈ l, solid c = true := by
  simp only [deviceFields,List.forall_mem_append]
  refine ⟨⟨⟨optionLines (fun key => fieldSolid (by decide) (hexTextSolid key)),
    optionLines (fun port => fieldSolid (by decide) (decimalSolid port))⟩,
    optionLines (fun mark => fieldSolid (by decide) (decimalSolid mark))⟩,?_⟩
  cases device.replacePeers <;> decide

theorem allowedIpSolid (names : Addresses) (entry : AllowedIp) : ∀ c ∈ allowedIpLine names entry, solid c = true := by
  refine fieldSolid (by decide) (List.forall_mem_append.mpr ⟨?_,prefixSolid names _ _⟩)
  cases entry.removeMe <;> decide

theorem peerLinesSolid (names : Addresses) (peer : WgPeer) : ∀ l ∈ peerLines names peer, ∀ c ∈ l, solid c = true := by
  refine List.forall_mem_cons.mpr ⟨fieldSolid (by decide) (hexTextSolid _),?_⟩
  cases peer.removeMe with
  | true =>
    rw [if_pos rfl]
    decide
  | false =>
    simp only [Bool.false_eq_true,if_false,peerFields,List.forall_mem_append]
    refine ⟨⟨⟨⟨optionLines (fun key => fieldSolid (by decide) (hexTextSolid key)),
      optionLines (fun e => fieldSolid (by decide) (endpointSolid names e))⟩,
      optionLines (fun secs => fieldSolid (by decide) (decimalSolid secs))⟩,?_⟩,?_⟩
    · cases peer.replaceAllowedips <;> decide
    · intro l mem
      obtain ⟨entry,_,rfl⟩ := List.mem_map.mp mem
      exact allowedIpSolid names entry

/- What wireguard-go takes in is what wg printed, line by line. -/
theorem messageLines (world : World) (device : Device) (config : WgDevice) :
    ipcHandleSet world device (userspaceSetDevice world.names config) =
      some ((setLines world ⟨device,.none⟩
          (deviceFields config ++ config.peers.flatMap (peerLines world.names) ++ [[]])).1.device,
        status (setLines world ⟨device,.none⟩
          (deviceFields config ++ config.peers.flatMap (peerLines world.names) ++ [[]])).2) := by
  have clean : ∀ l ∈ deviceFields config ++ config.peers.flatMap (peerLines world.names) ++ [[]], '\n' ∉ l := by
    intro l mem feed
    have all : ∀ c ∈ l, solid c = true := by
      rcases List.mem_append.mp mem with inside | last
      · rcases List.mem_append.mp inside with first | second
        · exact deviceFieldsSolid config l first
        · obtain ⟨peer,_,here⟩ := List.mem_flatMap.mp second
          exact peerLinesSolid world.names peer l here
      · rw [List.mem_singleton.mp last]
        simp
    exact absurd (all _ feed) (by decide)
  have shape : userspaceSetDevice world.names config = "set=1".toList ++ '\n'::unlines
      (deviceFields config ++ config.peers.flatMap (peerLines world.names) ++ [[]]) := by
    simp [userspaceSetDevice,unlines]
  obtain ⟨first,second⟩ := cutFirst (c := '\n') (a := "set=1".toList) (by decide)
    (unlines (deviceFields config ++ config.peers.flatMap (peerLines world.names) ++ [[]]))
  rw [shape,ipcHandleSet,first,second,if_pos ⟨rfl,by simp⟩,ipcSetOperation,linesUnlines clean]

theorem replyStatus : ∀ error : Option IpcError,
    replyOf (status error) = some (match error with | none => 0 | some e => e.errorCode) := by
  intro error
  cases error with
  | none => decide +kernel
  | some e => cases e <;> decide +kernel

theorem setPrivateKeyWires (world : World) (device : Device) (sk : Key) :
    (setPrivateKey world device sk).up = device.up ∧ (setPrivateKey world device sk).privateKey = sk := by
  unfold setPrivateKey
  by_cases same : sk = device.privateKey
  · rw [if_pos same]
    exact ⟨rfl,same.symm⟩
  · rw [if_neg same]
    exact ⟨congrArg (fun w => w.1) (removePeerWires device (world.publicKeyOf sk)),rfl⟩

/- The device part of a file's configuration leaves a device without peers. -/
theorem deviceFieldsRead {world : World} {device : Device} (sound : Sound device)
    (works : SocketsWork world device.up) (key : Key) {port mark : Nat} (peers : List WgPeer)
    (smallPort : port < 2^16) (smallMark : mark < 2^32) (rest : List Text) : ∃ after,
    setLines world ⟨device,.none⟩ (deviceFields (setconf key port mark peers) ++ rest) =
        setLines world ⟨after,.none⟩ rest ∧
      wires after = (device.up,usedKey key,(setPrivateKey world device (usedKey key)).publicKey,
        openedPort world device.up port,mark) ∧ after.keyMap = [] ∧ owners after = [] := by
  obtain ⟨up,used⟩ := setPrivateKeyWires world device (usedKey key)
  have keyed : Sound (setPrivateKey world device (usedKey key)) := setPrivateKeySound sound (usedKey key)
  generalize found : setPrivateKey world device (usedKey key) = d at up used keyed
  have ready : Sound {d with port := openedPort world device.up port, fwmark := mark} := soundFrame keyed rfl rfl rfl
  obtain ⟨noPeers,noOwners⟩ := removeAllPeersEmpty ready
  refine ⟨_,?_,(removeAllPeersWires _).trans ?_,noPeers,noOwners⟩
  · simp only [deviceFields,setconf,List.append_assoc]
    rw [privateKeyRead,applyKey,found]
    have worksHere : SocketsWork world d.up := by rw [up]; exact works
    simp only [Option.map_some,Option.toList_some,if_true,List.singleton_append]
    rw [listenPortRead _ worksHere smallPort,
      @fwmarkRead world {d with port := openedPort world d.up port} _ _ worksHere smallMark,replacePeersRead,up]
  · simp [wires,up,used]

/- The plainest printer and reader that fit each other. -/
def plainPrint : Ip → Text
  | .v4 a => decimal a
  | .v6 a => ':'::decimal a

def plainRead : Text → Ip
  | ':'::digits => .v6 (number digits)
  | digits => .v4 (number digits)

theorem plainReadBack (ip : Ip) : plainRead (plainPrint ip) = ip := by
  cases ip with
  | v4 a =>
    have digit : ∀ rest, decimal a ≠ ':'::rest := fun rest same =>
      digitsApart (c := ':') (by decide) (same ▸ List.mem_cons_self)
    unfold plainPrint plainRead
    split
    · rename_i rest same
      exact absurd same (digit rest)
    · rw [decimalValue]
  | v6 a => simp [plainPrint,plainRead,decimalValue]

def plainNames : Addresses where
  print := plainPrint
  parse := fun t => if Ip.InRange (plainRead t) then some (plainRead t) else none
  back := by
    intro ip inside
    rw [plainReadBack,if_pos inside]
  range := by
    intro t ip parsed
    by_cases inside : Ip.InRange (plainRead t)
    · rw [if_pos inside] at parsed
      rw [← Option.some.inj parsed]
      exact inside
    · rw [if_neg inside] at parsed
      contradiction
  filled := by
    intro ip
    cases ip with
    | v4 a => exact decimalFilled a
    | v6 a => simp [plainPrint]
  plain := by
    intro ip c mem
    have letter : ∀ {n}, c ∈ decimal n → c.isAlphanum = true := fun inside => by
      simp [Char.isAlphanum,decimalDigits inside]
    cases ip with
    | v4 a => exact .inl (letter mem)
    | v6 a =>
      rcases List.mem_cons.mp mem with mark | inside
      · exact .inr (.inr mark)
      · exact .inl (letter inside)
  colon := by
    intro ip
    cases ip with
    | v4 a =>
      have apart : ':' ∉ decimal a := digitsApart (by decide)
      simp [plainPrint,apart,isV6]
    | v6 a => simp [plainPrint,isV6]

def calmWorld : World := ⟨plainNames,id,⟨true,fun port => some (Fin.ofNat _ port),true,fun _ => true⟩⟩

def someKey : Key := ⟨List.replicate wgKeyLen 8,List.length_replicate⟩

def somePeer : WgPeer := ⟨someKey,false,none,some ⟨.v4 42,51820⟩,some 25,true,[⟨.v4 0,0,false⟩,⟨.v6 0,0,false⟩]⟩

end WebosWireguard.UapiExchange
