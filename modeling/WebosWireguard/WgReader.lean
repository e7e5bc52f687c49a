import WebosWireguard.TextLines

/-! wg's configuration reader: config.c as setconf drives it. The value parsers are
parameters; everything that decides which parser sees which text is not. Freed
devices, messages on stderr and the kernel call after the reading are left out. -/
namespace WebosWireguard.WgReader
open TextLines

structure Values where
  Port : Type
  Fwmark : Type
  Key : Type
  Endpoint : Type
  Keepalive : Type
  AllowedIp : Type

/- parse_allowedips also decides whether the peer's earlier allowed IPs are replaced. -/
structure Parsers (V : Values) where
  port : Text → Option V.Port
  fwmark : Text → Option V.Fwmark
  key : Text → Option V.Key
  endpoint : Text → Option V.Endpoint
  keepalive : Text → Option V.Keepalive
  allowedips : Text → Option (List V.AllowedIp × Bool)

structure Peer (V : Values) where
  publicKey : Option V.Key
  presharedKey : Option V.Key
  endpoint : Option V.Endpoint
  keepalive : Option V.Keepalive
  allowedips : List V.AllowedIp
  replaceAllowedips : Bool

def Peer.new {V : Values} : Peer V := ⟨none,none,none,none,[],true⟩

structure Device (V : Values) where
  listenPort : Option V.Port
  fwmark : Option V.Fwmark
  privateKey : Option V.Key
  peers : List (Peer V)

inductive Section where | none | device | peer deriving DecidableEq, Repr

structure Ctx (V : Values) where
  device : Device V
  current : Section

inductive Rejection where
  | unrecognized (line : Text)
  | badValue (line : Text)
  | missingPublicKey
  deriving DecidableEq, Repr

variable {V : Values}

def getValue (line key : Text) : Option Text :=
  if line.length ≤ key.length then none
  else if lower (line.take key.length) = lower key then some (line.drop key.length)
  else none

def parsed {α : Type} (line : Text) (result : Option α) (store : α → Ctx V) :
    Except Rejection (Ctx V) :=
  match result with
  | some a => .ok (store a)
  | none => .error (.badValue line)

def deviceLine (vp : Parsers V) (ctx : Ctx V) (line : Text) : Except Rejection (Ctx V) :=
  if let some value := getValue line "ListenPort=".toList then
    parsed line (vp.port value) (fun a => {ctx with device.listenPort := some a})
  else if let some value := getValue line "FwMark=".toList then
    parsed line (vp.fwmark value) (fun a => {ctx with device.fwmark := some a})
  else if let some value := getValue line "PrivateKey=".toList then
    parsed line (vp.key value) (fun a => {ctx with device.privateKey := some a})
  else .error (.unrecognized line)

def peerLine (vp : Parsers V) (ctx : Ctx V) (peer : Peer V) (others : List (Peer V)) (line : Text) :
    Except Rejection (Ctx V) :=
  let put (p : Peer V) : Ctx V := {ctx with device.peers := p::others}
  if let some value := getValue line "Endpoint=".toList then
    parsed line (vp.endpoint value) (fun a => put {peer with endpoint := some a})
  else if let some value := getValue line "PublicKey=".toList then
    parsed line (vp.key value) (fun a => put {peer with publicKey := some a})
  else if let some value := getValue line "AllowedIPs=".toList then
    parsed line (vp.allowedips value) (fun a =>
      put {peer with allowedips := peer.allowedips ++ a.1, replaceAllowedips := a.2})
  else if let some value := getValue line "PersistentKeepalive=".toList then
    parsed line (vp.keepalive value) (fun a => put {peer with keepalive := some a})
  else if let some value := getValue line "PresharedKey=".toList then
    parsed line (vp.key value) (fun a => put {peer with presharedKey := some a})
  else .error (.unrecognized line)

def processLine (vp : Parsers V) (ctx : Ctx V) (line : Text) : Except Rejection (Ctx V) :=
  if lower line = lower "[Interface]".toList then .ok {ctx with current := .device}
  else if lower line = lower "[Peer]".toList then
    .ok {ctx with current := .peer, device.peers := Peer.new::ctx.device.peers}
  else match ctx.current,ctx.device.peers with
  | .device,_ => deviceLine vp ctx line
  | .peer,peer::others => peerLine vp ctx peer others line
  | _,_ => .error (.unrecognized line)

def cleaned (input : Text) : Text := squash isSpace (before '#' input)

def configReadLine (vp : Parsers V) (ctx : Ctx V) (input : Text) : Except Rejection (Ctx V) :=
  if cleaned input = [] then .ok ctx else processLine vp ctx (cleaned input)

def configReadInit : Ctx V := ⟨⟨none,none,none,[]⟩,.none⟩

def configReadFinish (ctx : Ctx V) : Except Rejection (Device V) :=
  if ctx.device.peers.all (fun p => p.publicKey.isSome) then
    .ok {ctx.device with peers := ctx.device.peers.reverse}
  else .error .missingPublicKey

def readLines (vp : Parsers V) : Ctx V → List Text → Except Rejection (Ctx V)
  | ctx,[] => .ok ctx
  | ctx,l::rest => do
    let next ← configReadLine vp ctx l
    readLines vp next rest

def readConfig (vp : Parsers V) (text : Text) : Except Rejection (Device V) := do
  let ctx ← readLines vp configReadInit (lines text)
  configReadFinish ctx

def significant (ls : List Text) : List Text := (ls.map cleaned).filter (fun l => l ≠ [])
def cleanedLines (text : Text) : List Text := significant (lines text)

/- The reader sees a file only through its cleaned, non-empty lines. -/
def processLines (vp : Parsers V) : Ctx V → List Text → Except Rejection (Ctx V)
  | ctx,[] => .ok ctx
  | ctx,l::rest => do
    let next ← processLine vp ctx l
    processLines vp next rest

theorem readLinesCleaned (vp : Parsers V) (ctx : Ctx V) (ls : List Text) :
    readLines vp ctx ls = processLines vp ctx (significant ls) := by
  induction ls generalizing ctx with
  | nil => rfl
  | cons l rest ih =>
    by_cases empty : cleaned l = []
    · have skip : significant (l::rest) = significant rest := by simp [significant,empty]
      rw [skip,← ih ctx]
      simp [readLines,configReadLine,empty,bind,Except.bind]
    · have keep : significant (l::rest) = cleaned l::significant rest := by
        simp [significant,empty]
      rw [keep]
      simp only [readLines,processLines,configReadLine,empty,if_false,bind,Except.bind]
      cases processLine vp ctx (cleaned l) with
      | error e => rfl
      | ok next => exact ih next

theorem readConfigCongr (vp : Parsers V) {a b : Text} (same : cleanedLines a = cleanedLines b) :
    readConfig vp a = readConfig vp b := by
  unfold readConfig
  rw [readLinesCleaned,readLinesCleaned]
  rw [show significant (lines a) = significant (lines b) from same]

theorem significantAppend (a b : List Text) :
    significant (a ++ b) = significant a ++ significant b := by
  simp [significant]

theorem cleanedStrip (l : Text) : cleaned (strip isSpace l) = cleaned l :=
  squashBeforeStrip (by decide) l

/- A key is found by the text before the equals sign, in any case, and only with a value. -/
theorem getValueKeyed {k key : Text} (same : lower k = lower key) (v : Text) :
    getValue (k ++ '='::v) (key ++ ['=']) = if v = [] then none else some v := by
  have cut : k ++ '='::v = (k ++ ['=']) ++ v := by simp
  have size : (key ++ ['=']).length = (k ++ ['=']).length := by
    have lengths := congrArg List.length same
    simp only [lower,List.length_map] at lengths
    simp [lengths]
  have tags : lower (k ++ ['=']) = lower (key ++ ['=']) := by
    simp only [lower,List.map_append] at same ⊢
    rw [same]
  unfold getValue
  rw [cut,size,List.take_left,List.drop_left,if_pos tags,List.length_append]
  by_cases empty : v = []
  · simp [empty]
  · have positive := List.length_pos_iff.mpr empty
    rw [if_neg (by omega),if_neg empty]

theorem getValueShape {line key v : Text} (found : getValue line (key ++ ['=']) = some v) :
    ∃ k, line = k ++ '='::v ∧ lower k = lower key ∧ v ≠ [] := by
  have taken := found
  unfold getValue at taken
  split at taken
  · contradiction
  split at taken
  · rename_i longer same
    obtain ⟨k,last,cut,own,equals⟩ := List.map_eq_append_iff.mp
      (show (line.take (key ++ ['=']).length).map Char.toLower = lower key ++ ['='] by
        simpa [lower] using same)
    obtain ⟨c,rfl,lowered⟩ := List.map_eq_singleton_iff.mp equals
    cases lowerSame lowered (by decide)
    have rest := Option.some.inj taken
    have whole : line = k ++ '='::v := by
      rw [← List.take_append_drop (key ++ ['=']).length line,cut,rest]
      simp
    refine ⟨k,whole,own,fun empty => ?_⟩
    rw [whole,getValueKeyed own,if_pos empty] at found
    contradiction
  · contradiction

end WebosWireguard.WgReader
