import WebosWireguard.KeyEncoding
import WebosWireguard.AllowedIps
import WebosWireguard.PeerTable

/-! The values of the configuration protocol between wg and wireguard-go as texts: decimal
numbers, keys in hexadecimal, prefixes and endpoints. How an address is printed by one
side and read by the other is a parameter; scopes of link-local addresses are left out. -/
namespace WebosWireguard.UapiText
open TextLines KeyEncoding AllowedIps PeerTrie PeerTable

structure Key where
  bytes : List Byte
  size : bytes.length = wgKeyLen
  deriving DecidableEq, Repr

def zeroKey : Key := ⟨List.replicate wgKeyLen 0,List.length_replicate⟩

def Ip.InRange (ip : Ip) : Prop :=
  match ip with
  | .v4 a => a < 2^32
  | .v6 a => a < 2^128

instance (ip : Ip) : Decidable (Ip.InRange ip) :=
  match ip with
  | .v4 a => inferInstanceAs (Decidable (a < 2^32))
  | .v6 a => inferInstanceAs (Decidable (a < 2^128))

def isV6 : Ip → Bool
  | .v4 _ => false
  | .v6 _ => true

/- One side's printer and the other side's reader of addresses. -/
structure Addresses where
  print : Ip → Text
  parse : Text → Option Ip
  back : ∀ ip, Ip.InRange ip → parse (print ip) = some ip
  range : ∀ t ip, parse t = some ip → Ip.InRange ip
  filled : ∀ ip, print ip ≠ []
  plain : ∀ ip, ∀ c ∈ print ip, c.isAlphanum = true ∨ c = '.' ∨ c = ':'
  colon : ∀ ip, ':' ∈ print ip ↔ isV6 ip = true

structure Endpoint where
  ip : Ip
  port : Nat
  deriving DecidableEq, Repr

def charOf (b : Byte) : Char := Char.ofNat b.toNat

def hexText (key : Key) : Text := (keyToHex key.bytes).map charOf

def decimal (n : Nat) : Text := Nat.toDigits 10 n

/-! wireguard-go's side. -/

def fromHexChar (c : Char) : Option Byte :=
  if '0' ≤ c ∧ c ≤ '9' then some (BitVec.ofNat 8 (c.toNat - '0'.toNat))
  else if 'a' ≤ c ∧ c ≤ 'f' then some (BitVec.ofNat 8 (c.toNat - 'a'.toNat + 10))
  else if 'A' ≤ c ∧ c ≤ 'F' then some (BitVec.ofNat 8 (c.toNat - 'A'.toNat + 10))
  else none

def decodeString : Text → Option (List Byte)
  | [] => some []
  | [_] => none
  | a::b::rest => do
    let high ← fromHexChar a
    let low ← fromHexChar b
    let others ← decodeString rest
    some ((high <<< 4 ||| low)::others)

def loadExactHex (src : Text) : Option Key :=
  match decodeString src with
  | none => none
  | some slice => if size : slice.length = wgKeyLen then some ⟨slice,size⟩ else none

def parseUint (bits : Nat) (value : Text) : Option Nat :=
  if value ≠ [] ∧ value.all Char.isDigit ∧ number value < 2^bits then some (number value) else none

def cutLast (c : Char) (t : Text) : Option (Text × Text) :=
  if c ∈ t then some ((after c t.reverse).reverse,(before c t.reverse).reverse) else none

def prefixOf (ip : Ip) (bits : Nat) : Option Prefix :=
  match ip with
  | .v4 a => if valid : bits ≤ Size.ipv4.width then some ⟨.ipv4,BitVec.ofNat 32 a,bits,valid⟩ else none
  | .v6 a => if valid : bits ≤ Size.ipv6.width then some ⟨.ipv6,BitVec.ofNat 128 a,bits,valid⟩ else none

section Names
variable (names : Addresses)

def parsePrefix (s : Text) : Option Prefix := do
  let (addr,bitsStr) ← cutLast '/' s
  let ip ← names.parse addr
  if bitsStr.length > 1 ∧ bitsStr.head? = some '0' then none
  else if bitsStr ≠ [] ∧ bitsStr.all Char.isDigit then prefixOf ip (number bitsStr)
  else none

def splitAddrPort (s : Text) : Option (Text × Text × Bool) := do
  let (ip,port) ← cutLast ':' s
  if ip = [] ∨ port = [] then none
  else if ip.head? = some '[' then
    if ip.length < 2 ∨ ip.getLast? ≠ some ']' then none else some (ip.tail.dropLast,port,true)
  else some (ip,port,false)

def parseAddrPort (s : Text) : Option Endpoint := do
  let (ip,port,v6) ← splitAddrPort s
  let port16 ← parseUint 16 port
  let addr ← names.parse ip
  if v6 = isV6 addr then some ⟨addr,port16⟩ else none

/-! wg's side. -/

def printPrefix (ip : Ip) (cidr : Nat) : Text := names.print ip ++ '/'::decimal cidr

def printEndpoint (e : Endpoint) : Text :=
  let host := names.print e.ip
  if isV6 e.ip ∧ ':' ∈ host then '['::(host ++ ']':: ':'::decimal e.port)
  else host ++ ':'::decimal e.port

end Names

theorem fromHexDigit (byte : Byte) : fromHexChar (charOf (hexDigit (byte >>> 4))) = some (byte >>> 4) ∧
    fromHexChar (charOf (hexDigit (byte &&& 0xf))) = some (byte &&& 0xf) ∧
      (byte >>> 4) <<< 4 ||| (byte &&& 0xf) = byte := by
  obtain ⟨first,second⟩ := nibbleHalves (P := fun v => fromHexChar (charOf (hexDigit v)) = some v) (by decide) byte
  refine ⟨first,second,?_⟩
  rw [← shiftNibble]
  exact (highNibble byte).2

theorem decodeHexText (bytes : List Byte) : decodeString ((keyToHex bytes).map charOf) = some bytes := by
  induction bytes with
  | nil => rfl
  | cons byte rest ih =>
    obtain ⟨high,low,whole⟩ := fromHexDigit byte
    simp only [keyToHex,List.map_cons,decodeString,high,low,ih,bind,Option.bind,whole]

theorem loadHexText (key : Key) : loadExactHex (hexText key) = some key := by
  unfold loadExactHex hexText
  rw [decodeHexText]
  simp [key.size]

theorem decimalDigits {n : Nat} {c : Char} (mem : c ∈ decimal n) : c.isDigit = true :=
  Nat.isDigit_of_mem_toDigits (by decide) (by decide) mem

theorem decimalFilled (n : Nat) : decimal n ≠ [] := Nat.toDigits_ne_nil

theorem decimalAll (n : Nat) : (decimal n).all Char.isDigit = true :=
  List.all_eq_true.mpr (fun _ mem => decimalDigits mem)

theorem decimalValue (n : Nat) : number (decimal n) = n := Nat.ofDigitChars_ten_toDigits

theorem parseDecimal {bits n : Nat} (small : n < 2^bits) : parseUint bits (decimal n) = some n := by
  rw [parseUint,decimalValue,if_pos ⟨decimalFilled n,decimalAll n,small⟩]

theorem cutLastAt {c : Char} {a b : Text} (absent : c ∉ b) : cutLast c (a ++ c::b) = some (a,b) := by
  have cut := cutFirst (c := c) (a := b.reverse) (by simpa using absent) a.reverse
  have flipped : (a ++ c::b).reverse = b.reverse ++ c::a.reverse := by simp
  rw [cutLast,if_pos (by simp),flipped,cut.1,cut.2,List.reverse_reverse,List.reverse_reverse]

/- Numbers are printed without leading zeros. -/
theorem decimalHead {n : Nat} (positive : 0 < n) : (decimal n).head? ≠ some '0' := by
  induction n using Nat.strongRecOn with
  | ind n ih =>
    unfold decimal at ih ⊢
    by_cases small : n < 10
    · rw [Nat.toDigits_of_lt_base small]
      interval_cases n <;> decide
    · rw [Nat.toDigits_of_base_le (by decide) (by omega),List.head?_append_of_ne_nil _ Nat.toDigits_ne_nil]
      exact ih (n / 10) (Nat.div_lt_self positive (by decide)) (Nat.div_pos (by omega) (by decide))

theorem decimalCanonical (n : Nat) : ¬ ((decimal n).length > 1 ∧ (decimal n).head? = some '0') := by
  intro given
  by_cases zero : n = 0
  · subst zero
    exact absurd given.1 (by decide)
  · exact decimalHead (Nat.pos_of_ne_zero zero) given.2

theorem digitsApart {n : Nat} {c : Char} (other : c.isDigit = false) : c ∉ decimal n :=
  fun mem => absurd ((decimalDigits mem).symm.trans other) (by decide)

section Names
variable (names : Addresses)

theorem printApart {ip : Ip} {c : Char} (other : c.isAlphanum = false) (dot : c ≠ '.') (mark : c ≠ ':') :
    c ∉ names.print ip := by
  intro mem
  rcases names.plain ip c mem with letter | rfl | rfl
  · exact absurd (letter.symm.trans other) (by decide)
  · exact dot rfl
  · exact mark rfl

theorem parsePrinted {ip : Ip} (cidr : Nat) (range : Ip.InRange ip) :
    parsePrefix names (printPrefix names ip cidr) = prefixOf ip cidr := by
  unfold parsePrefix printPrefix
  rw [cutLastAt (digitsApart (by decide))]
  simp only [bind,Option.bind,names.back ip range]
  rw [if_neg (decimalCanonical cidr),if_pos ⟨decimalFilled cidr,decimalAll cidr⟩,decimalValue]

theorem splitPrinted (e : Endpoint) : splitAddrPort (printEndpoint names e) =
    some (names.print e.ip,decimal e.port,isV6 e.ip) := by
  have noColon : ':' ∉ decimal e.port := digitsApart (by decide)
  unfold printEndpoint
  dsimp only
  by_cases wide : isV6 e.ip = true
  · have mark := (names.colon e.ip).mpr wide
    have shape : '['::(names.print e.ip ++ ']':: ':'::decimal e.port) =
        ('['::names.print e.ip ++ [']']) ++ ':'::decimal e.port := by simp
    rw [if_pos ⟨wide,mark⟩,shape,splitAddrPort,cutLastAt noColon,wide]
    have closes : ('['::(names.print e.ip ++ [']'])).getLast? = some ']' := by
      rw [← List.cons_append,List.getLast?_concat]
    simp [decimalFilled,closes]
  · have narrow : isV6 e.ip = false := by simpa using wide
    rw [if_neg (fun both => wide both.1),splitAddrPort,cutLastAt noColon,narrow]
    have bracket : (names.print e.ip).head? ≠ some '[' := by
      intro first
      exact printApart names (by decide) (by decide) (by decide) (List.mem_of_mem_head? first)
    simp [decimalFilled,names.filled,bracket]

theorem parsePrintedEndpoint {e : Endpoint} (range : Ip.InRange e.ip) (small : e.port < 2^16) :
    parseAddrPort names (printEndpoint names e) = some e := by
  unfold parseAddrPort
  rw [splitPrinted]
  simp only [bind,Option.bind,parseDecimal small,names.back e.ip range,if_true]

end Names

end WebosWireguard.UapiText
