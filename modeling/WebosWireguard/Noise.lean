import Mathlib.Logic.Function.Basic

/-! The Noise handshake of wireguard-go, one function for each stretch of code that holds the
handshake's lock. Hashes, the curve and the cipher are parameters over one type of values;
random keys, indices and the clock are given. The fields that guard against floods of
messages (MAC1 and MAC2) are not part of a message here. -/
namespace WebosWireguard.Noise

structure Crypto (V : Type) where
  hash : V → V → V
  hmac1 : V → V → V
  hmac2 : V → V → V → V
  publicKey : V → V
  scalarMult : V → V → V
  isZero : V → Bool
  aeadSeal : V → V → V → V
  aeadOpen : V → V → V → Option V
  one : V
  two : V
  three : V
  nothing : V
  zero : V
  initialChainKey : V
  identifier : V
  stamp : Nat → V
  unstamp : V → Nat

inductive HandshakeState where
  | zeroed
  | initiationCreated
  | initiationConsumed
  | responseCreated
  | responseConsumed
  deriving DecidableEq, Repr

def messageInitiationType : Nat := 1
def messageResponseType : Nat := 2
def handshakeInitiationRate : Nat := 20000000

structure MessageInitiation (V : Type) where
  type : Nat
  sender : Nat
  ephemeral : V
  static : V
  timestamp : V
  deriving DecidableEq

structure MessageResponse (V : Type) where
  type : Nat
  sender : Nat
  receiver : Nat
  ephemeral : V
  empty : V
  deriving DecidableEq

structure Handshake (V : Type) where
  state : HandshakeState
  hash : V
  chainKey : V
  presharedKey : V
  localEphemeral : V
  localIndex : Nat
  remoteIndex : Nat
  remoteStatic : V
  remoteEphemeral : V
  precomputedStaticStatic : V
  lastTimestamp : Nat
  lastInitiationConsumption : Option Nat
  deriving DecidableEq

/- The keys of a session and the indices by which both sides know it. -/
structure Keypair (V : Type) where
  send : V
  receive : V
  isInitiator : Bool
  localIndex : Nat
  remoteIndex : Nat
  deriving DecidableEq

section Model
variable {V : Type} (c : Crypto V)

def kdf1 (key input : V) : V := c.hmac1 (c.hmac1 key input) c.one

def kdf2 (key input : V) : V × V :=
  let prk := c.hmac1 key input
  let t0 := c.hmac1 prk c.one
  (t0,c.hmac2 prk t0 c.two)

def kdf3 (key input : V) : V × V × V :=
  let prk := c.hmac1 key input
  let t0 := c.hmac1 prk c.one
  let t1 := c.hmac2 prk t0 c.two
  (t0,t1,c.hmac2 prk t1 c.three)

def initialHash : V := c.hash c.initialChainKey c.identifier

def sharedSecret (sk pk : V) : Option V :=
  let ss := c.scalarMult sk pk
  if c.isZero ss then none else some ss

def mixHash (h : Handshake V) (data : V) : Handshake V := {h with hash := c.hash h.hash data}

def mixKey (h : Handshake V) (data : V) : Handshake V := {h with chainKey := kdf1 c h.chainKey data}

/- A peer's handshake as NewPeer makes it; a shared secret of zero is kept. -/
def newHandshake (privateKey pk : V) : Handshake V where
  state := .zeroed
  hash := c.zero
  chainKey := c.zero
  presharedKey := c.zero
  localEphemeral := c.zero
  localIndex := 0
  remoteIndex := 0
  remoteStatic := pk
  remoteEphemeral := c.zero
  precomputedStaticStatic := c.scalarMult privateKey pk
  lastTimestamp := 0
  lastInitiationConsumption := none

def clear (h : Handshake V) : Handshake V :=
  {h with
    localEphemeral := c.zero
    remoteEphemeral := c.zero
    chainKey := c.zero
    hash := c.zero
    localIndex := 0
    state := .zeroed}

/- An error leaves behind what was changed until then. -/
def createMessageInitiation (publicKey : V) (h : Handshake V) (ephemeral : V) (now index : Nat) :
    Handshake V × Option (MessageInitiation V) :=
  let h := {h with hash := initialHash c, chainKey := c.initialChainKey, localEphemeral := ephemeral}
  let h := mixHash c h h.remoteStatic
  let e := c.publicKey ephemeral
  let h := mixHash c (mixKey c h e) e
  match sharedSecret c ephemeral h.remoteStatic with
  | none => (h,none)
  | some ss =>
    let derived := kdf2 c h.chainKey ss
    let h := {h with chainKey := derived.1}
    let static := c.aeadSeal derived.2 publicKey h.hash
    let h := mixHash c h static
    if c.isZero h.precomputedStaticStatic then (h,none)
    else
      let derived := kdf2 c h.chainKey h.precomputedStaticStatic
      let h := {h with chainKey := derived.1}
      let timestamp := c.aeadSeal derived.2 (c.stamp now) h.hash
      let h := {h with localIndex := index}
      let h := mixHash c h timestamp
      ({h with state := .initiationCreated},some ⟨messageInitiationType,index,e,static,timestamp⟩)

/- Who sent an initiation, before the peer is looked up. -/
structure Opened (V : Type) where
  peer : V
  hash : V
  chainKey : V
  deriving DecidableEq

def openStatic (privateKey publicKey : V) (msg : MessageInitiation V) : Option (Opened V) :=
  if msg.type ≠ messageInitiationType then none
  else
    let hash := c.hash (c.hash (initialHash c) publicKey) msg.ephemeral
    let chainKey := kdf1 c c.initialChainKey msg.ephemeral
    match sharedSecret c privateKey msg.ephemeral with
    | none => none
    | some ss =>
      let derived := kdf2 c chainKey ss
      match c.aeadOpen derived.2 msg.static hash with
      | none => none
      | some peer => some ⟨peer,c.hash hash msg.static,derived.1⟩

structure Checked (V : Type) where
  hash : V
  chainKey : V
  timestamp : Nat
  deriving DecidableEq

def replayed (h : Handshake V) (timestamp : Nat) : Bool := !decide (h.lastTimestamp < timestamp)

def flooded (h : Handshake V) (now : Nat) : Bool :=
  match h.lastInitiationConsumption with
  | none => false
  | some last => decide (now - last ≤ handshakeInitiationRate)

/- The part of ConsumeMessageInitiation under the read lock. -/
def checkInitiation (h : Handshake V) (o : Opened V) (msg : MessageInitiation V) (now : Nat) : Option (Checked V) :=
  if c.isZero h.precomputedStaticStatic then none
  else
    let derived := kdf2 c o.chainKey h.precomputedStaticStatic
    match c.aeadOpen derived.2 msg.timestamp o.hash with
    | none => none
    | some timestamp =>
      if replayed h (c.unstamp timestamp) || flooded h now then none
      else some ⟨c.hash o.hash msg.timestamp,derived.1,c.unstamp timestamp⟩

/- The part under the write lock, which checks the clock and the timestamp again. -/
def updateInitiation (h : Handshake V) (k : Checked V) (msg : MessageInitiation V) (now : Nat) : Handshake V :=
  {h with
    hash := k.hash
    chainKey := k.chainKey
    remoteIndex := msg.sender
    remoteEphemeral := msg.ephemeral
    lastTimestamp := if h.lastTimestamp < k.timestamp then k.timestamp else h.lastTimestamp
    lastInitiationConsumption := match h.lastInitiationConsumption with
      | none => some now
      | some last => if last < now then some now else some last
    state := .initiationConsumed}

def createMessageResponse (h : Handshake V) (ephemeral : V) (index : Nat) :
    Handshake V × Option (MessageResponse V) :=
  if h.state ≠ .initiationConsumed then (h,none)
  else
    let h := {h with localIndex := index, localEphemeral := ephemeral}
    let e := c.publicKey ephemeral
    let h := mixKey c (mixHash c h e) e
    match sharedSecret c ephemeral h.remoteEphemeral with
    | none => (h,none)
    | some ss =>
      let h := mixKey c h ss
      match sharedSecret c ephemeral h.remoteStatic with
      | none => (h,none)
      | some ss =>
        let h := mixKey c h ss
        let derived := kdf3 c h.chainKey h.presharedKey
        let h := mixHash c {h with chainKey := derived.1} derived.2.1
        let empty := c.aeadSeal derived.2.2 c.nothing h.hash
        let h := mixHash c h empty
        ({h with state := .responseCreated},some ⟨messageResponseType,index,h.remoteIndex,e,empty⟩)

structure Answered (V : Type) where
  hash : V
  chainKey : V
  deriving DecidableEq

/- The part of ConsumeMessageResponse under the read lock. -/
def checkResponse (privateKey : V) (h : Handshake V) (msg : MessageResponse V) : Option (Answered V) :=
  if msg.type ≠ messageResponseType then none
  else if h.state ≠ .initiationCreated then none
  else
    let hash := c.hash h.hash msg.ephemeral
    let chainKey := kdf1 c h.chainKey msg.ephemeral
    match sharedSecret c h.localEphemeral msg.ephemeral with
    | none => none
    | some ss =>
      let chainKey := kdf1 c chainKey ss
      match sharedSecret c privateKey msg.ephemeral with
      | none => none
      | some ss =>
        let chainKey := kdf1 c chainKey ss
        let derived := kdf3 c chainKey h.presharedKey
        let hash := c.hash hash derived.2.1
        match c.aeadOpen derived.2.2 msg.empty hash with
        | none => none
        | some _ => some ⟨c.hash hash msg.empty,derived.1⟩

/- The part under the write lock, which takes the state as it was found before. -/
def updateResponse (h : Handshake V) (k : Answered V) (msg : MessageResponse V) : Handshake V :=
  {h with hash := k.hash, chainKey := k.chainKey, remoteIndex := msg.sender, state := .responseConsumed}

def beginSymmetricSession (h : Handshake V) : Option (Handshake V × Keypair V) :=
  let derived := kdf2 c h.chainKey c.nothing
  let after := {h with chainKey := c.zero, hash := c.zero, localEphemeral := c.zero, state := .zeroed, localIndex := 0}
  match h.state with
  | .responseConsumed => some (after,⟨derived.1,derived.2,true,h.localIndex,h.remoteIndex⟩)
  | .responseCreated => some (after,⟨derived.2,derived.1,false,h.localIndex,h.remoteIndex⟩)
  | _ => none

end Model

/-! What both sides of a completed handshake hold. -/

structure Lawful {V : Type} (c : Crypto V) : Prop where
  agree : ∀ a b, c.scalarMult a (c.publicKey b) = c.scalarMult b (c.publicKey a)
  opened : ∀ k p ad, c.aeadOpen k (c.aeadSeal k p ad) ad = some p
  stamped : ∀ t, c.unstamp (c.stamp t) = t

/- Each side has the other's public key, the secret of both, and the same preshared key. -/
structure Paired {V : Type} (c : Crypto V) (privateKey remote : V) (h : Handshake V) : Prop where
  remoteStatic : h.remoteStatic = c.publicKey remote
  precomputed : h.precomputedStaticStatic = c.scalarMult privateKey (c.publicKey remote)

/- The keypairs of two sides that can talk to each other. -/
structure Matching {V : Type} (left right : Keypair V) : Prop where
  forth : left.send = right.receive
  back : left.receive = right.send
  sender : left.localIndex = right.remoteIndex
  receiver : left.remoteIndex = right.localIndex
  roles : left.isInitiator = !right.isInitiator

/- Values that are told apart by how they were made. -/
inductive Term where
  | nat (n : Nat)
  | point (scalar : Term)
  | secret
  | hash (h data : Term)
  | hmac1 (key input : Term)
  | hmac2 (key input more : Term)
  | box (key plain ad : Term)
  deriving DecidableEq

def Term.unbox (key : Term) (box ad : Term) : Option Term :=
  match box with
  | .box k p d => if k = key ∧ d = ad then some p else none
  | _ => none

def terms : Crypto Term where
  hash := .hash
  hmac1 := .hmac1
  hmac2 := .hmac2
  publicKey := .point
  scalarMult := fun _ _ => .secret
  isZero := fun t => t = .nat 0
  aeadSeal := .box
  aeadOpen := Term.unbox
  one := .nat 1
  two := .nat 2
  three := .nat 3
  nothing := .nat 4
  zero := .nat 0
  initialChainKey := .nat 5
  identifier := .nat 6
  stamp := .nat
  unstamp := fun t => match t with | .nat n => n | _ => 0

theorem termsLawful : Lawful terms :=
  ⟨fun _ _ => rfl,fun _ _ _ => if_pos ⟨rfl,rfl⟩,fun _ => rfl⟩

section Completes
variable {V : Type} {c : Crypto V}

theorem sharedBoth (lawful : Lawful c) {a b : V} (valid : c.isZero (c.scalarMult a (c.publicKey b)) = false) :
    sharedSecret c a (c.publicKey b) = some (c.scalarMult a (c.publicKey b)) ∧
      sharedSecret c b (c.publicKey a) = some (c.scalarMult a (c.publicKey b)) := by
  simp [sharedSecret,lawful.agree b a,valid]

/- The hash after the responder's public key and the initiator's ephemeral one. -/
def helloHash (c : Crypto V) (responder ephemeral : V) : V := c.hash (c.hash (initialHash c) responder) ephemeral

def helloKeys (c : Crypto V) (ephemeral ss : V) : V × V := kdf2 c (kdf1 c c.initialChainKey ephemeral) ss

theorem initiationCreated {h : Handshake V} {e ss : V} (pk : V) (t i : Nat)
    (found : sharedSecret c e h.remoteStatic = some ss) (valid : c.isZero h.precomputedStaticStatic = false) :
    let first := helloKeys c (c.publicKey e) ss
    let hello := helloHash c h.remoteStatic (c.publicKey e)
    let static := c.aeadSeal first.2 pk hello
    let second := kdf2 c first.1 h.precomputedStaticStatic
    let timestamp := c.aeadSeal second.2 (c.stamp t) (c.hash hello static)
    createMessageInitiation c pk h e t i =
      ({h with
        state := .initiationCreated
        hash := c.hash (c.hash hello static) timestamp
        chainKey := second.1
        localEphemeral := e
        localIndex := i},some ⟨messageInitiationType,i,c.publicKey e,static,timestamp⟩) := by
  simp only [createMessageInitiation,mixHash,mixKey,found,valid]
  rfl

theorem staticOpened (lawful : Lawful c) {b e ss pk : V} {i : Nat} {stamp : V}
    (found : sharedSecret c b (c.publicKey e) = some ss) :
    let first := helloKeys c (c.publicKey e) ss
    let hello := helloHash c (c.publicKey b) (c.publicKey e)
    let static := c.aeadSeal first.2 pk hello
    openStatic c b (c.publicKey b) ⟨messageInitiationType,i,c.publicKey e,static,stamp⟩ =
      some ⟨pk,c.hash hello static,first.1⟩ := by
  intro first hello static
  have opened : c.aeadOpen first.2 static hello = some pk := lawful.opened _ _ _
  unfold openStatic
  rw [if_neg (by simp)]
  simp only [found]
  simp only [helloHash,helloKeys,first,hello,static] at opened ⊢
  rw [opened]

theorem initiationChecked (lawful : Lawful c) {h : Handshake V} {o : Opened V} {e static : V} {t i now : Nat}
    (valid : c.isZero h.precomputedStaticStatic = false) (later : h.lastTimestamp < t) (rested : flooded h now = false) :
    let derived := kdf2 c o.chainKey h.precomputedStaticStatic
    let timestamp := c.aeadSeal derived.2 (c.stamp t) o.hash
    checkInitiation c h o ⟨messageInitiationType,i,e,static,timestamp⟩ now =
      some ⟨c.hash o.hash timestamp,derived.1,t⟩ := by
  simp [checkInitiation,valid,lawful.opened,lawful.stamped,replayed,later,rested]

/- The initiation as its sender makes it, and as its receiver reads it. -/
theorem initiationShared (lawful : Lawful c) {a b e : V} (i : Nat) {t now : Nat} {hA hB : Handshake V}
    (pairedA : Paired c a b hA) (pairedB : Paired c b a hB)
    (validES : c.isZero (c.scalarMult e (c.publicKey b)) = false)
    (validSS : c.isZero (c.scalarMult a (c.publicKey b)) = false)
    (later : hB.lastTimestamp < t) (rested : flooded hB now = false) :
    ∃ after initiation opened checked,
      createMessageInitiation c (c.publicKey a) hA e t i = (after,some initiation) ∧
      openStatic c b (c.publicKey b) initiation = some opened ∧ opened.peer = c.publicKey a ∧
      checkInitiation c hB opened initiation now = some checked ∧
      initiation.sender = i ∧ initiation.ephemeral = c.publicKey e ∧
      after.state = .initiationCreated ∧ after.localEphemeral = e ∧ after.localIndex = i ∧
      after.presharedKey = hA.presharedKey ∧ checked.hash = after.hash ∧ checked.chainKey = after.chainKey := by
  obtain ⟨esA,esB⟩ := sharedBoth lawful validES
  rw [← pairedA.remoteStatic] at esA
  have validA : c.isZero hA.precomputedStaticStatic = false := by rw [pairedA.precomputed,validSS]
  have same : hA.precomputedStaticStatic = hB.precomputedStaticStatic := by
    rw [pairedA.precomputed,pairedB.precomputed,lawful.agree]
  have validB : c.isZero hB.precomputedStaticStatic = false := by rw [← same,validA]
  have created := initiationCreated (c.publicKey a) t i esA validA
  rw [pairedA.remoteStatic,same] at created
  exact ⟨_,_,_,_,created,staticOpened lawful esB,rfl,initiationChecked lawful validB later rested,
    rfl,rfl,rfl,rfl,rfl,rfl,rfl,rfl⟩

theorem responseShared (lawful : Lawful c) {a e f ee se : V} {j : Nat} {hA : Handshake V} (hB : Handshake V)
    (created : hA.state = .initiationCreated) (consumed : hB.state = .initiationConsumed)
    (hash : hB.hash = hA.hash) (chainKey : hB.chainKey = hA.chainKey) (psk : hA.presharedKey = hB.presharedKey)
    (own : hA.localEphemeral = e) (first : sharedSecret c f hB.remoteEphemeral = some ee)
    (second : sharedSecret c f hB.remoteStatic = some se) (firstBack : sharedSecret c e (c.publicKey f) = some ee)
    (secondBack : sharedSecret c a (c.publicKey f) = some se) :
    ∃ after response answered,
      createMessageResponse c hB f j = (after,some response) ∧ checkResponse c a hA response = some answered ∧
      response.sender = j ∧ response.receiver = hB.remoteIndex ∧
      after.state = .responseCreated ∧ after.localIndex = j ∧ after.remoteIndex = hB.remoteIndex ∧
      answered.hash = after.hash ∧ answered.chainKey = after.chainKey := by
  simp only [createMessageResponse,consumed,ne_eq,not_true,if_false,mixHash,mixKey,first,second]
  refine ⟨_,_,⟨_,_⟩,rfl,?_,rfl,rfl,rfl,rfl,rfl,rfl,rfl⟩
  rw [checkResponse,if_neg (by simp),if_neg (by simp [created])]
  simp only [own,firstBack,secondBack,hash,chainKey,psk,lawful.opened]

theorem responderBegins {h : Handshake V} (state : h.state = .responseCreated) : ∃ after,
    beginSymmetricSession c h = some (after,⟨(kdf2 c h.chainKey c.nothing).2,(kdf2 c h.chainKey c.nothing).1,false,
      h.localIndex,h.remoteIndex⟩) := by
  simp [beginSymmetricSession,state]

end Completes

/-! What a side can conclude from a message whose box the other side made. Hashes and boxes
are taken to be ideal: none is made in two ways, and only what was sealed opens. -/

structure Ideal {V : Type} (c : Crypto V) : Prop where
  hash : ∀ {h d h' d'}, c.hash h d = c.hash h' d' → h = h' ∧ d = d'
  hmac1 : ∀ {k d k' d'}, c.hmac1 k d = c.hmac1 k' d' → k = k' ∧ d = d'
  hmac2 : ∀ {k d x k' d' x'}, c.hmac2 k d x = c.hmac2 k' d' x' → k = k' ∧ d = d' ∧ x = x'
  sealed : ∀ {k p ad k' p' ad'}, c.aeadSeal k p ad = c.aeadSeal k' p' ad' → k = k' ∧ p = p' ∧ ad = ad'
  opens : ∀ {k box ad p}, c.aeadOpen k box ad = some p → box = c.aeadSeal k p ad

section Agreement
variable {V : Type} {c : Crypto V}

theorem createdShape {h after : Handshake V} {pk e : V} {t i : Nat} {msg : MessageInitiation V}
    (created : createMessageInitiation c pk h e t i = (after,some msg)) : ∃ ss,
    let first := helloKeys c msg.ephemeral ss
    let hello := helloHash c h.remoteStatic msg.ephemeral
    let second := kdf2 c first.1 h.precomputedStaticStatic
    msg.static = c.aeadSeal first.2 pk hello ∧
    msg.timestamp = c.aeadSeal second.2 (c.stamp t) (c.hash hello msg.static) ∧
    after.hash = c.hash (c.hash hello msg.static) msg.timestamp ∧ after.chainKey = second.1 ∧
    after.presharedKey = h.presharedKey := by
  unfold createMessageInitiation at created
  dsimp only at created
  split at created
  · cases congrArg Prod.snd created
  · rename_i ss found
    split at created
    · cases congrArg Prod.snd created
    · obtain ⟨left,right⟩ := Prod.mk.inj created
      have made := Option.some.inj right
      subst left made
      exact ⟨ss,rfl,rfl,rfl,rfl,rfl⟩

theorem openedShape {b pk : V} {msg : MessageInitiation V} {o : Opened V} (opened : openStatic c b pk msg = some o) :
    ∃ ss, c.aeadOpen (helloKeys c msg.ephemeral ss).2 msg.static (helloHash c pk msg.ephemeral) = some o.peer ∧
      o.hash = c.hash (helloHash c pk msg.ephemeral) msg.static ∧ o.chainKey = (helloKeys c msg.ephemeral ss).1 := by
  unfold openStatic at opened
  split at opened
  · contradiction
  dsimp only at opened
  split at opened
  · contradiction
  · rename_i ss found
    split at opened
    · contradiction
    · rename_i peer unsealed
      cases Option.some.inj opened
      exact ⟨ss,unsealed,rfl,rfl⟩

theorem checkedShape {h : Handshake V} {o : Opened V} {msg : MessageInitiation V} {now : Nat} {k : Checked V}
    (checked : checkInitiation c h o msg now = some k) :
    ∃ stamp, c.aeadOpen (kdf2 c o.chainKey h.precomputedStaticStatic).2 msg.timestamp o.hash = some stamp ∧
      k.timestamp = c.unstamp stamp ∧ k.hash = c.hash o.hash msg.timestamp ∧
      k.chainKey = (kdf2 c o.chainKey h.precomputedStaticStatic).1 ∧ h.lastTimestamp < k.timestamp := by
  unfold checkInitiation at checked
  split at checked
  · contradiction
  dsimp only at checked
  split at checked
  · contradiction
  · rename_i stamp unsealed
    split at checked
    · contradiction
    · rename_i calm
      cases Option.some.inj checked
      refine ⟨stamp,unsealed,rfl,rfl,rfl,?_⟩
      simp only [Bool.or_eq_true,not_or,replayed,Bool.not_eq_true',decide_eq_false_iff_not,not_not] at calm
      exact calm.1

/- The keys after the responder's ephemeral key, two shared secrets and the preshared key. -/
def responseKeys (c : Crypto V) (chainKey ephemeral ee se psk : V) : V × V × V :=
  kdf3 c (kdf1 c (kdf1 c (kdf1 c chainKey ephemeral) ee) se) psk

theorem repliedShape {h after : Handshake V} {f : V} {j : Nat} {msg : MessageResponse V}
    (replied : createMessageResponse c h f j = (after,some msg)) : ∃ ee se,
    let keys := responseKeys c h.chainKey msg.ephemeral ee se h.presharedKey
    let hash := c.hash (c.hash h.hash msg.ephemeral) keys.2.1
    msg.empty = c.aeadSeal keys.2.2 c.nothing hash ∧ after.hash = c.hash hash msg.empty ∧ after.chainKey = keys.1 ∧
      after.state = .responseCreated := by
  unfold createMessageResponse at replied
  by_cases consumed : h.state ≠ .initiationConsumed
  · rw [if_pos consumed] at replied
    cases congrArg Prod.snd replied
  rw [if_neg consumed] at replied
  simp only [mixHash,mixKey] at replied
  cases first : sharedSecret c f h.remoteEphemeral with
  | none =>
    simp only [first] at replied
    cases congrArg Prod.snd replied
  | some ee =>
    cases second : sharedSecret c f h.remoteStatic with
    | none =>
      simp only [first,second] at replied
      cases congrArg Prod.snd replied
    | some se =>
      simp only [first,second] at replied
      obtain ⟨left,right⟩ := Prod.mk.inj replied
      have made := Option.some.inj right
      subst left made
      exact ⟨ee,se,rfl,rfl,rfl,rfl⟩

theorem answeredShape {a : V} {h : Handshake V} {msg : MessageResponse V} {k : Answered V}
    (answered : checkResponse c a h msg = some k) : ∃ ee se x,
    let keys := responseKeys c h.chainKey msg.ephemeral ee se h.presharedKey
    let hash := c.hash (c.hash h.hash msg.ephemeral) keys.2.1
    c.aeadOpen keys.2.2 msg.empty hash = some x ∧ k.hash = c.hash hash msg.empty ∧ k.chainKey = keys.1 := by
  unfold checkResponse at answered
  split at answered
  · contradiction
  split at answered
  · contradiction
  dsimp only at answered
  split at answered
  · contradiction
  · rename_i ee first
    split at answered
    · contradiction
    · rename_i se second
      split at answered
      · contradiction
      · rename_i x unsealed
        cases Option.some.inj answered
        exact ⟨ee,se,x,unsealed,rfl,rfl⟩

/- The hash of the transcript tells the messages apart. -/
theorem sameTranscript (ideal : Ideal c) {s s' x x' y y' z z' : V}
    (same : c.hash (c.hash (helloHash c s x) y) z = c.hash (c.hash (helloHash c s' x') y') z') :
    s = s' ∧ x = x' ∧ y = y' ∧ z = z' := by
  obtain ⟨first,last⟩ := ideal.hash same
  obtain ⟨second,third⟩ := ideal.hash first
  obtain ⟨fourth,fifth⟩ := ideal.hash second
  exact ⟨(ideal.hash fourth).2,fifth,third,last⟩

/- The second output of a derivation gives away what went into it. -/
theorem sameDerived (ideal : Ideal c) {k k' i i' : V} (same : (kdf3 c k i).2.1 = (kdf3 c k' i').2.1) :
    k = k' ∧ i = i' := ideal.hmac1 (ideal.hmac2 same).1

/- If the initiator takes a response whose box a responder made, the two have talked to each
other: they agree on who they are, on every message between them and on the keys. -/
theorem responseAgreement (ideal : Ideal c) {pkA pkB a b e f : V} {t i j now later : Nat}
    {h hA hB hB1 : Handshake V} {m1 m1' : MessageInitiation V} {m2 m2' : MessageResponse V} {o : Opened V} {k : Checked V}
    {r : Answered V} (created : createMessageInitiation c pkA h e t i = (hA,some m1))
    (opened : openStatic c b pkB m1' = some o) (known : hB.remoteStatic = o.peer)
    (checked : checkInitiation c hB o m1' now = some k)
    (replied : createMessageResponse c (updateInitiation hB k m1' later) f j = (hB1,some m2'))
    (answered : checkResponse c a hA m2 = some r) (box : m2.empty = m2'.empty) :
    h.remoteStatic = pkB ∧ hB.remoteStatic = pkA ∧ h.presharedKey = hB.presharedKey ∧
      m1'.ephemeral = m1.ephemeral ∧ m1'.static = m1.static ∧ m1'.timestamp = m1.timestamp ∧
      m2.ephemeral = m2'.ephemeral ∧ r.hash = hB1.hash ∧
      ∃ left right sA sB, beginSymmetricSession c (updateResponse hA r m2) = some (left,sA) ∧
        beginSymmetricSession c hB1 = some (right,sB) ∧ sA.send = sB.receive ∧ sA.receive = sB.send := by
  obtain ⟨ss,static,timestamp,hashA,chainA,pskA⟩ := createdShape created
  obtain ⟨ss',unsealed,hashO,chainO⟩ := openedShape opened
  obtain ⟨stamp,stamped,_,hashK,chainK,_⟩ := checkedShape checked
  obtain ⟨ee',se',empty',hashB,chainB,stateB⟩ := repliedShape replied
  obtain ⟨ee,se,x,unsealedR,hashR,chainR⟩ := answeredShape answered
  have empty := ideal.opens unsealedR
  rw [box,empty'] at empty
  obtain ⟨_,_,hashes⟩ := ideal.sealed empty
  obtain ⟨front,tau⟩ := ideal.hash hashes
  obtain ⟨transcript,second⟩ := ideal.hash front
  obtain ⟨chains,psk⟩ := sameDerived ideal tau
  have beforeB : (updateInitiation hB k m1' later).hash = k.hash := rfl
  rw [beforeB,hashK,hashO,hashA] at transcript
  obtain ⟨responder,first,statics,stamps⟩ := sameTranscript ideal transcript
  have boxes : c.aeadSeal (helloKeys c m1'.ephemeral ss').2 o.peer (helloHash c pkB m1'.ephemeral) =
      c.aeadSeal (helloKeys c m1.ephemeral ss).2 pkA (helloHash c h.remoteStatic m1.ephemeral) := by
    rw [← ideal.opens unsealed,← static,statics]
  have initiator := (ideal.sealed boxes).2.1
  have keys : r.chainKey = hB1.chainKey := by
    rw [chainR,chainB]
    show (kdf3 c _ _).1 = (kdf3 c _ _).1
    rw [chains,psk]
  refine ⟨responder.symm,known.trans initiator,(pskA.symm.trans psk.symm),first,statics,stamps,second.symm,?_,?_⟩
  · rw [hashR,hashB,hashes,box]
  · obtain ⟨right,begun⟩ := responderBegins (c := c) stateB
    refine ⟨_,right,_,_,rfl,begun,?_,?_⟩ <;> dsimp only [updateResponse] <;> rw [keys]

theorem termsIdeal : Ideal terms where
  hash := fun same => Term.hash.inj same
  hmac1 := fun same => Term.hmac1.inj same
  hmac2 := fun same => Term.hmac2.inj same
  sealed := fun same => Term.box.inj same
  opens := by
    intro k box ad p opened
    cases box with
    | box key plain data =>
      by_cases same : key = k ∧ data = ad
      · obtain ⟨rfl,rfl⟩ := same
        have inside : some plain = some p := (if_pos ⟨rfl,rfl⟩).symm.trans opened
        rw [Option.some.inj inside]
        rfl
      · have none : (none : Option Term) = some p := (if_neg same).symm.trans opened
        contradiction
    | _ => contradiction

theorem newPeersAgree :
    let h := newHandshake terms (.nat 11) (.point (.nat 12))
    let hB := newHandshake terms (.nat 12) (.point (.nat 11))
    ∃ hA m1 o k hB1 m2 r, createMessageInitiation terms (.point (.nat 11)) h (.nat 13) 7 1 = (hA,some m1) ∧
      openStatic terms (.nat 12) (.point (.nat 12)) m1 = some o ∧ checkInitiation terms hB o m1 9 = some k ∧
      createMessageResponse terms (updateInitiation hB k m1 9) (.nat 14) 2 = (hB1,some m2) ∧
      checkResponse terms (.nat 11) hA m2 = some r ∧ h.presharedKey = hB.presharedKey ∧ r.hash = hB1.hash ∧
      ∃ left right sA sB, beginSymmetricSession terms (updateResponse hA r m2) = some (left,sA) ∧
        beginSymmetricSession terms hB1 = some (right,sB) ∧ sA.send = sB.receive ∧ sA.receive = sB.send := by
  intro h hB
  have paired : ∀ own remote, Paired terms own remote (newHandshake terms own (.point remote)) := fun _ _ => ⟨rfl,rfl⟩
  obtain ⟨hA,m1,o,k,created,opened,named,checked,_,_,state,own,_,_,hash,chainKey⟩ :=
    initiationShared termsLawful (e := .nat 13) 1 (paired (.nat 11) (.nat 12)) (paired (.nat 12) (.nat 11)) rfl rfl
      (show 0 < 7 by decide) (show flooded hB 9 = false from rfl)
  obtain ⟨hB1,m2,r,replied,answered,_⟩ := responseShared termsLawful (a := .nat 11) (f := .nat 14) (j := 2)
    (updateInitiation hB k m1 9) state rfl hash chainKey (by assumption) own rfl rfl rfl rfl
  obtain ⟨_,_,psk,_,_,_,_,same,sessions⟩ :=
    responseAgreement termsIdeal created opened named.symm checked replied answered rfl
  exact ⟨hA,m1,o,k,hB1,m2,r,created,opened,checked,replied,answered,psk,same,sessions⟩

end Agreement

end WebosWireguard.Noise
