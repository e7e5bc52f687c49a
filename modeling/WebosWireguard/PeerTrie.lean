import WebosWireguard.AddressBits

/-! The tries of allowed addresses of wireguard-go. A node of the source is told from the
others by its prefix, so a pointer to it is that prefix here. A read past the end of an
address is `none`. The peers' lists of their nodes are in the table, not here. -/
namespace WebosWireguard.PeerTrie
open AddressBits

inductive Size where
  | ipv4
  | ipv6
  deriving DecidableEq, Repr

def Size.bytes : Size → Nat
  | .ipv4 => 4
  | .ipv6 => 16

def Size.width : Size → Nat
  | .ipv4 => 32
  | .ipv6 => 128

abbrev Addr (size : Size) := BitVec size.width

def commonBits : {size : Size} → Addr size → Addr size → Nat
  | .ipv4,ip1,ip2 => leadingZeros (ip1 ^^^ ip2)
  | .ipv6,ip1,ip2 =>
    let x := ip1.extractLsb' 64 64 ^^^ ip2.extractLsb' 64 64
    if x ≠ 0 then leadingZeros x
    else 64 + leadingZeros (ip1.extractLsb' 0 64 ^^^ ip2.extractLsb' 0 64)

variable {size : Size} {P : Type}

def byteAt (ip : Addr size) (i : Nat) : BitVec 8 := ip.extractLsb' (size.width - 8 * (i+1)) 8

def bitAtByte (cidr : Nat) : Nat := cidr / 8

def bitAtShift (cidr : Nat) : Nat := 7 - cidr % 8

def choose (cidr : Nat) (ip : Addr size) : Option Bool :=
  if bitAtByte cidr < size.bytes then
    some ((byteAt ip (bitAtByte cidr) >>> bitAtShift cidr) &&& 1 == 1)
  else none

inductive Trie (size : Size) (P : Type) where
  | nil
  | node (peer : Option P) (bits : Addr size) (cidr : Nat) (child0 child1 : Trie size P)
  deriving DecidableEq, Repr

namespace Trie

def isNil : Trie size P → Bool
  | nil => true
  | node .. => false

/- The condition of the loop in `nodePlacement`. -/
def covers (ip : Addr size) (cidr : Nat) : Trie size P → Bool
  | nil => false
  | node _ bits own _ _ => own ≤ cidr && commonBits bits ip ≥ own

def nodePlacement (ip : Addr size) (cidr : Nat) (parent : Trie size P) :
    Trie size P → Option (Trie size P × Bool)
  | nil => some (parent,false)
  | node peer bits own child0 child1 =>
    if covers ip cidr (node peer bits own child0 child1) then
      if own = cidr then some (node peer bits own child0 child1,true)
      else match choose own ip with
        | none => none
        | some false => nodePlacement ip cidr (node peer bits own child0 child1) child0
        | some true => nodePlacement ip cidr (node peer bits own child0 child1) child1
    else some (parent,false)

def newNode (ip : Addr size) (cidr : Nat) (peer : P) : Trie size P :=
  node (some peer) (keepFirst cidr ip) cidr nil nil

def setChild (bit : Bool) (child : Trie size P) : Trie size P → Trie size P
  | nil => nil
  | node peer bits cidr child0 child1 =>
    if bit then node peer bits cidr child0 child else node peer bits cidr child child1

/- The end of `insert`: the new node and `down` under one parent. The address was masked in
place with the new node, whose slice of bytes it is. -/
def join (ip : Addr size) (cidr : Nat) (peer : P) (down : Trie size P) (downBits : Addr size) :
    Option (Trie size P × Addr size) :=
  let ip := keepFirst cidr ip
  let fresh := newNode ip cidr peer
  let common := commonBits downBits ip
  let both := if common < cidr then common else cidr
  if cidr = both then do
    let bit ← choose cidr downBits
    some (setChild bit down fresh,ip)
  else do
    let bits := keepFirst both ip
    let parent : Trie size P := node none bits both nil nil
    let bit ← choose both downBits
    let parent := setChild bit down parent
    let bit ← choose both ip
    some (setChild bit fresh parent,bits)

/- From a node the placement has reached. The second part is the peer that owned the prefix. -/
def insertBelow (ip : Addr size) (cidr : Nat) (peer : P) : Trie size P → Option (Trie size P × Option P)
  | nil => none
  | node owner bits own child0 child1 =>
    if own = cidr then some (node (some peer) bits own child0 child1,owner)
    else match choose own ip with
      | none => none
      | some bit =>
        let down := if bit then child1 else child0
        if covers ip cidr down then
          (if bit then insertBelow ip cidr peer child1 else insertBelow ip cidr peer child0).map
            (fun placed => (setChild bit placed.1 (node owner bits own child0 child1),placed.2))
        else match down with
          | nil => some (setChild bit (newNode ip cidr peer) (node owner bits own child0 child1),none)
          | node _ downBits _ _ _ => do
            let joined ← join ip cidr peer down downBits
            let slot ← choose own joined.2
            some (setChild slot joined.1 (node owner bits own child0 child1),none)

def insert (ip : Addr size) (cidr : Nat) (peer : P) : Trie size P → Option (Trie size P × Option P)
  | nil => some (newNode ip cidr peer,none)
  | node owner bits own child0 child1 =>
    if covers ip cidr (node owner bits own child0 child1) then
      insertBelow ip cidr peer (node owner bits own child0 child1)
    else (join ip cidr peer (node owner bits own child0 child1) bits).map (fun joined => (joined.1,none))

def lookup (ip : Addr size) (found : Option P) : Trie size P → Option (Option P)
  | nil => some found
  | node peer bits cidr child0 child1 =>
    if commonBits bits ip ≥ cidr then
      let found := peer.or found
      if bitAtByte cidr = size.bytes then some found
      else match choose cidr ip with
        | none => none
        | some false => lookup ip found child0
        | some true => lookup ip found child1
    else some found

/- The peer of the node with this prefix. -/
def owner (bits : Addr size) (cidr : Nat) : Trie size P → Option P
  | nil => none
  | node peer own length child0 child1 =>
    if own = bits ∧ length = cidr then peer else (owner bits cidr child0).or (owner bits cidr child1)

/- `remove` of the node with this prefix, and whether it had no children. Its parent, if
it has no peer, goes with a node that had none. -/
def remove (bits : Addr size) (cidr : Nat) : Trie size P → Option (Trie size P × Bool)
  | nil => none
  | node peer own length child0 child1 =>
    if own = bits ∧ length = cidr then
      if !child0.isNil && !child1.isNil then some (node none own length child0 child1,false)
      else some (if child0.isNil then child1 else child0,child0.isNil && child1.isNil)
    else match remove bits cidr child0 with
      | some (child,bare) =>
        if bare && peer.isNone then some (child1,false) else some (node peer own length child child1,false)
      | none => match remove bits cidr child1 with
        | some (child,bare) =>
          if bare && peer.isNone then some (child0,false) else some (node peer own length child0 child,false)
        | none => none

end Trie

theorem highBit (a : Addr .ipv6) {i : Nat} (below : i < 64) : (a.extractLsb' 64 64).getMsbD i = a.getMsbD i := by
  rw [extractBit (by decide) below]
  congr 1
  exact Nat.zero_add i

theorem lowBit (a : Addr .ipv6) {i : Nat} (below : i < 64) :
    (a.extractLsb' 0 64).getMsbD i = a.getMsbD (64+i) :=
  extractBit (by decide) below

theorem agreeHigh {a b : Addr .ipv6} {k : Nat} (short : k ≤ 64) :
    Agree k (a.extractLsb' 64 64) (b.extractLsb' 64 64) ↔ Agree k a b := by
  refine forall₂_congr (fun i below => ?_)
  rw [highBit a (by omega),highBit b (by omega)]

theorem agreeLow {a b : Addr .ipv6} {k : Nat} (high : Agree 64 a b) (short : k ≤ 64) :
    Agree k (a.extractLsb' 0 64) (b.extractLsb' 0 64) ↔ Agree (64+k) a b := by
  constructor
  · intro agree i below
    by_cases early : i < 64
    · exact high i early
    · have bit := agree (i-64) (by omega)
      rw [lowBit a (by omega),lowBit b (by omega)] at bit
      rwa [show 64+(i-64) = i by omega] at bit
  · intro agree i below
    rw [lowBit a (by omega),lowBit b (by omega)]
    exact agree (64+i) (by omega)

theorem commonBitsIff {a b : Addr size} {k : Nat} (short : k ≤ size.width) :
    k ≤ commonBits a b ↔ Agree k a b := by
  cases size with
  | ipv4 => exact leadingZerosIff short
  | ipv6 =>
    have width : k ≤ 128 := short
    unfold commonBits
    dsimp only
    have whole := leadingZerosIff (a := a.extractLsb' 64 64) (b := b.extractLsb' 64 64) (le_refl 64)
    rw [agreeHigh (le_refl 64)] at whole
    by_cases same : a.extractLsb' 64 64 ^^^ b.extractLsb' 64 64 = 0
    · rw [if_neg (not_not.mpr same)]
      have high : Agree 64 a b := whole.mp (by rw [same]; decide)
      by_cases early : k ≤ 64
      · exact ⟨fun _ => high.mono early,fun _ => by omega⟩
      · have low := leadingZerosIff (a := a.extractLsb' 0 64) (b := b.extractLsb' 0 64)
          (show k-64 ≤ 64 by omega)
        rw [agreeLow high (by omega),show 64+(k-64) = k by omega] at low
        rw [← low]
        omega
    · rw [if_pos same]
      have differ : ¬ Agree 64 a b := by
        intro agree
        refine same (BitVec.xor_eq_zero_iff.mpr (BitVec.eq_of_getMsbD_eq (fun i below => ?_)))
        rw [highBit a below,highBit b below]
        exact agree i below
      by_cases early : k ≤ 64
      · rw [leadingZerosIff early,agreeHigh early]
      · constructor
        · intro long
          exact absurd (whole.mp (by omega)) differ
        · intro agree
          exact absurd (agree.mono (by omega)) differ

theorem widthBytes (size : Size) : size.width = 8 * size.bytes := by cases size <;> rfl

theorem chooseBit {cidr : Nat} (ip : Addr size) (below : cidr < size.width) :
    choose cidr ip = some (ip.getMsbD cidr) := by
  have width := widthBytes size
  have inside : bitAtByte cidr < size.bytes := by unfold bitAtByte; omega
  have bit : ip.getMsbD cidr = (byteAt ip (bitAtByte cidr)).getMsbD (cidr % 8) := by
    unfold byteAt bitAtByte
    rw [extractBit (by omega) (by omega)]
    congr 1
    omega
  have last : 8 - 1 - cidr % 8 = bitAtShift cidr := rfl
  unfold choose
  rw [if_pos inside,bit,BitVec.getMsbD_eq_getLsbD,last]
  generalize byteAt ip (bitAtByte cidr) = byte
  have read : ((byte >>> bitAtShift cidr) &&& 1 == 1) = byte.getLsbD (bitAtShift cidr) := by
    rw [show (1 : BitVec 8) = 1#8 from rfl,BitVec.and_one_eq_setWidth_ofBool_getLsbD,
      BitVec.getLsbD_ushiftRight,Nat.add_zero]
    cases byte.getLsbD (bitAtShift cidr) <;> rfl
  rw [read]
  simp [Nat.mod_lt cidr (show 8 > 0 by decide)]

end WebosWireguard.PeerTrie
