import Mathlib.Tactic.IntervalCases
import Mathlib.Data.List.Basic

/-! Keys as text in wg: the constant-time base64 and hexadecimal codes. An int of C is a
vector of 32 bits with arithmetic shifts to the right, and left shifts of negative values
wrap. A char is a byte that may be signed or not. Timing is not represented. -/
namespace WebosWireguard.KeyEncoding

abbrev Byte := BitVec 8

def wgKeyLen : Nat := 32
def wgKeyLenBase64 : Nat := (wgKeyLen + 2) / 3 * 4 + 1
def wgKeyLenHex : Nat := wgKeyLen * 2 + 1

def code (c : Char) : Byte := BitVec.ofNat 8 c.toNat

/- A char read as an int. -/
def promote (signed : Bool) (c : Byte) : BitVec 32 := if signed then c.signExtend 32 else c.setWidth 32

def encodeSextet (input : Byte) : Byte :=
  let v : BitVec 32 := input.setWidth 32
  (v + 65 + ((25 - v).sshiftRight 8 &&& 6) - ((51 - v).sshiftRight 8 &&& 75)
    - ((61 - v).sshiftRight 8 &&& 15) + ((62 - v).sshiftRight 8 &&& 3)).setWidth 8

def encodeBase64 (src0 src1 src2 : Byte) : List Byte :=
  [(src0 >>> 2) &&& 63,((src0 <<< 4) ||| (src1 >>> 4)) &&& 63,
    ((src1 <<< 2) ||| (src2 >>> 6)) &&& 63,src2 &&& 63].map encodeSextet

/- Ten groups of three bytes and one of two, whose last digit is the padding. -/
def keyToBase64 : List Byte → List Byte
  | src0::src1::src2::rest => encodeBase64 src0 src1 src2 ++ keyToBase64 rest
  | [src0,src1] => (encodeBase64 src0 src1 0).take 3 ++ [code '=']
  | _ => []

def decodeSextet (c : BitVec 32) : BitVec 32 :=
  -1 + (((64 - c) &&& (c - 91)).sshiftRight 8 &&& (c - 64))
    + (((96 - c) &&& (c - 123)).sshiftRight 8 &&& (c - 70))
    + (((47 - c) &&& (c - 58)).sshiftRight 8 &&& (c + 5))
    + (((42 - c) &&& (c - 44)).sshiftRight 8 &&& 63)
    + (((46 - c) &&& (c - 48)).sshiftRight 8 &&& 64)

def decodeBase64 (signed : Bool) (c0 c1 c2 c3 : Byte) : BitVec 32 :=
  let digit := fun c => decodeSextet (promote signed c)
  digit c0 <<< 18 ||| digit c1 <<< 12 ||| digit c2 <<< 6 ||| digit c3

def highByte (val : BitVec 32) : Byte := (val.sshiftRight 16 &&& 0xff).setWidth 8
def middleByte (val : BitVec 32) : Byte := (val.sshiftRight 8 &&& 0xff).setWidth 8
def lowByte (val : BitVec 32) : Byte := (val &&& 0xff).setWidth 8

def fromGroups (signed : Bool) : Nat → List Byte → Byte → List Byte × Byte
  | n+1,c0::c1::c2::c3::rest,ret =>
    let val := decodeBase64 signed c0 c1 c2 c3
    let after := fromGroups signed n rest (ret ||| (val >>> 31).setWidth 8)
    (highByte val::middleByte val::lowByte val::after.1,after.2)
  | 0,c0::c1::c2::_,ret =>
    let val := decodeBase64 signed c0 c1 c2 (code 'A')
    ([highByte val,middleByte val],ret ||| ((val >>> 31) ||| (val &&& 0xff)).setWidth 8)
  | _,_,ret => ([],ret)

/- The last line of the decoders: 1 if nothing was found wrong. -/
def passed (ret : Byte) : Bool := (1 &&& (ret.setWidth 32 - 1 : BitVec 32).sshiftRight 8) == 1

def keyFromBase64 (signed : Bool) (base64 : List Byte) : Option (List Byte) :=
  if base64.length ≠ wgKeyLenBase64 - 1 ∨ base64[wgKeyLenBase64 - 2]? ≠ some (code '=') then none
  else
    let (key,ret) := fromGroups signed (wgKeyLen / 3) base64 0
    if passed ret then some key else none

/- Which digit stands for which six bits. -/
def digitOf (six : BitVec 6) : Byte := encodeSextet (six.setWidth 8)

theorem decodeDigit : ∀ six : BitVec 6, ∀ signed, decodeSextet (promote signed (digitOf six)) = six.setWidth 32 := by
  decide +kernel

theorem decodeOther : ∀ c : Byte, ∀ signed, decodeSextet (promote signed c) = -1 ∨
    c = digitOf ((decodeSextet (promote signed c)).setWidth 6) := by
  decide +kernel

theorem passedIff : ∀ ret : Byte, passed ret = true ↔ ret = 0 := by
  decide +kernel

/- The number a group of four digits stands for. -/
def joined (s0 s1 s2 s3 : BitVec 6) : BitVec 32 :=
  s0.setWidth 32 <<< 18 ||| s1.setWidth 32 <<< 12 ||| s2.setWidth 32 <<< 6 ||| s3.setWidth 32

section Bits
variable (s0 s1 s2 s3 : BitVec 6) (a b c : Byte)

/- Four digits give back the six bits of each from the three bytes they make. -/
theorem sextetsOfBytes :
    ((highByte (joined s0 s1 s2 s3) >>> 2) &&& 63 = s0.setWidth 8) ∧
    (((highByte (joined s0 s1 s2 s3) <<< 4) ||| (middleByte (joined s0 s1 s2 s3) >>> 4)) &&& 63 = s1.setWidth 8) ∧
    (((middleByte (joined s0 s1 s2 s3) <<< 2) ||| (lowByte (joined s0 s1 s2 s3) >>> 6)) &&& 63 = s2.setWidth 8) ∧
    (lowByte (joined s0 s1 s2 s3) &&& 63 = s3.setWidth 8) := by
  refine ⟨?_,?_,?_,?_⟩ <;> refine BitVec.eq_of_getLsbD_eq (fun i below => ?_) <;> interval_cases i <;>
    simp [highByte,middleByte,lowByte,joined,BitVec.getElem_sshiftRight]

/- Three bytes come back from the four times six bits they are cut into. -/
theorem bytesOfSextets :
    let val := joined (((a >>> 2) &&& 63).setWidth 6) ((((a <<< 4) ||| (b >>> 4)) &&& 63).setWidth 6)
      ((((b <<< 2) ||| (c >>> 6)) &&& 63).setWidth 6) ((c &&& 63).setWidth 6)
    highByte val = a ∧ middleByte val = b ∧ lowByte val = c := by
  refine ⟨?_,?_,?_⟩ <;> refine BitVec.eq_of_getLsbD_eq (fun i below => ?_) <;> interval_cases i <;>
    simp [highByte,middleByte,lowByte,joined,BitVec.getElem_sshiftRight]

theorem joinedSign : (joined s0 s1 s2 s3).getLsbD 31 = false := by
  simp [joined]

end Bits

theorem signBit (val : BitVec 32) : (val >>> 31).setWidth 8 = if val.getLsbD 31 then (1 : Byte) else 0 := by
  refine BitVec.eq_of_getLsbD_eq (fun i below => ?_)
  cases i with
  | zero =>
    simp only [BitVec.getLsbD_setWidth,BitVec.getLsbD_ushiftRight,Nat.add_zero]
    cases val.getLsbD 31 <;> rfl
  | succ i =>
    have past : val.getLsbD (31 + (i+1)) = false := BitVec.getLsbD_of_ge _ _ (by omega)
    cases sign : val.getLsbD 31 <;> simp [past]

variable {signed : Bool}

theorem decodeDigits (s0 s1 s2 s3 : BitVec 6) :
    decodeBase64 signed (digitOf s0) (digitOf s1) (digitOf s2) (digitOf s3) = joined s0 s1 s2 s3 := by
  simp only [decodeBase64,decodeDigit,joined]

/- A group that is not made of digits shows in the sign. -/
theorem decodeGroup (signed : Bool) (c0 c1 c2 c3 : Byte) : (decodeBase64 signed c0 c1 c2 c3).getLsbD 31 = true ∨
    ∃ s0 s1 s2 s3, c0 = digitOf s0 ∧ c1 = digitOf s1 ∧ c2 = digitOf s2 ∧ c3 = digitOf s3 := by
  unfold decodeBase64
  simp only [BitVec.getLsbD_or,Bool.or_eq_true]
  rcases decodeOther c0 signed with bad | good0
  · exact .inl (.inl (.inl (.inl (by rw [bad]; decide))))
  rcases decodeOther c1 signed with bad | good1
  · exact .inl (.inl (.inl (.inr (by rw [bad]; decide))))
  rcases decodeOther c2 signed with bad | good2
  · exact .inl (.inl (.inr (by rw [bad]; decide)))
  rcases decodeOther c3 signed with bad | good3
  · exact .inl (.inr (by rw [bad]; decide))
  exact .inr ⟨_,_,_,_,good0,good1,good2,good3⟩

theorem encodeDigits (s0 s1 s2 s3 : BitVec 6) :
    encodeBase64 (highByte (joined s0 s1 s2 s3)) (middleByte (joined s0 s1 s2 s3)) (lowByte (joined s0 s1 s2 s3)) =
      [digitOf s0,digitOf s1,digitOf s2,digitOf s3] := by
  obtain ⟨first,second,third,fourth⟩ := sextetsOfBytes s0 s1 s2 s3
  simp only [encodeBase64,first,second,third,fourth,List.map_cons,List.map_nil,digitOf]

theorem sixBits (byte : Byte) : ((byte &&& 63).setWidth 6).setWidth 8 = byte &&& 63 := by
  refine BitVec.eq_of_getLsbD_eq (fun i below => ?_)
  interval_cases i <;> simp

/- Three bytes and the four digits that stand for them. -/
theorem encodeDecode (a b c : Byte) : ∃ s0 s1 s2 s3,
    encodeBase64 a b c = [digitOf s0,digitOf s1,digitOf s2,digitOf s3] ∧
      highByte (joined s0 s1 s2 s3) = a ∧ middleByte (joined s0 s1 s2 s3) = b ∧ lowByte (joined s0 s1 s2 s3) = c := by
  refine ⟨_,_,_,_,?_,bytesOfSextets a b c⟩
  simp only [encodeBase64,digitOf,sixBits,List.map_cons,List.map_nil]

theorem orZero {x y : Byte} : x ||| y = 0 ↔ x = 0 ∧ y = 0 := BitVec.or_eq_zero_iff

theorem signZero {val : BitVec 32} : (val >>> 31).setWidth 8 = (0 : Byte) ↔ val.getLsbD 31 = false := by
  rw [signBit]
  cases val.getLsbD 31 <;> decide

theorem groupsEncode (signed : Bool) (n : Nat) : ∀ (text : List Byte) (ret : Byte), text.length = 4*n+4 →
    text[4*n+3]? = some (code '=') → (fromGroups signed n text ret).2 = 0 →
      ret = 0 ∧ (fromGroups signed n text ret).1.length = 3*n+2 ∧
        text = keyToBase64 (fromGroups signed n text ret).1 := by
  induction n with
  | zero =>
    intro text ret size last clean
    match text with
    | [c0,c1,c2,c3] =>
      simp only [fromGroups,BitVec.setWidth_or,orZero] at clean
      obtain ⟨start,sign,low⟩ := clean
      rcases decodeGroup signed c0 c1 c2 (code 'A') with bad | ⟨s0,s1,s2,s3,rfl,rfl,rfl,pad⟩
      · exact absurd (signZero.mp sign) (by rw [bad]; decide)
      · have value : decodeBase64 signed (digitOf s0) (digitOf s1) (digitOf s2) (code 'A') = joined s0 s1 s2 s3 := by
          rw [pad,decodeDigits]
        rw [value] at low
        have digits := encodeDigits s0 s1 s2 s3
        rw [show lowByte (joined s0 s1 s2 s3) = 0 from low] at digits
        refine ⟨start,rfl,?_⟩
        simp only [fromGroups,value,keyToBase64,digits]
        simpa using last
  | succ n ih =>
    intro text ret size last clean
    match text with
    | c0::c1::c2::c3::rest =>
      have shorter : rest.length = 4*n+4 := by simp at size; omega
      have ends : rest[4*n+3]? = some (code '=') := by
        rw [← last,show 4*(n+1)+3 = 4*n+3+1+1+1+1 by omega]
        rfl
      simp only [fromGroups] at clean ⊢
      obtain ⟨both,length,same⟩ := ih rest _ shorter ends clean
      obtain ⟨start,sign⟩ := orZero.mp both
      rcases decodeGroup signed c0 c1 c2 c3 with bad | ⟨s0,s1,s2,s3,rfl,rfl,rfl,rfl⟩
      · exact absurd (signZero.mp sign) (by rw [bad]; decide)
      · refine ⟨start,by simp only [List.length_cons,length]; omega,?_⟩
        rw [decodeDigits] at same ⊢
        rw [keyToBase64,encodeDigits,← same]
        rfl

theorem groupsDecode (signed : Bool) (n : Nat) : ∀ key : List Byte, key.length = 3*n+2 →
    fromGroups signed n (keyToBase64 key) 0 = (key,0) ∧ (keyToBase64 key).length = 4*n+4 ∧
      (keyToBase64 key)[4*n+3]? = some (code '=') := by
  induction n with
  | zero =>
    intro key size
    match key with
    | [a,b] =>
      obtain ⟨s0,s1,s2,s3,digits,high,middle,low⟩ := encodeDecode a b 0
      have pad : digitOf s3 = code 'A' := by
        have six := (sextetsOfBytes s0 s1 s2 s3).2.2.2
        rw [low] at six
        rw [digitOf,← six]
        decide
      have value : decodeBase64 signed (digitOf s0) (digitOf s1) (digitOf s2) (code 'A') = joined s0 s1 s2 s3 := by
        rw [← pad,decodeDigits]
      have text : keyToBase64 [a,b] = [digitOf s0,digitOf s1,digitOf s2,code '='] := by
        rw [keyToBase64,digits]
        rfl
      rw [text]
      refine ⟨?_,rfl,rfl⟩
      simp only [fromGroups,value,high,middle,BitVec.setWidth_or,signBit,joinedSign]
      rw [show BitVec.setWidth 8 (joined s0 s1 s2 s3 &&& 0xff) = (0 : Byte) from low]
      rfl
  | succ n ih =>
    intro key size
    match key with
    | a::b::c::rest =>
      obtain ⟨s0,s1,s2,s3,digits,high,middle,low⟩ := encodeDecode a b c
      obtain ⟨after,length,ends⟩ := ih rest (by simp at size; omega)
      have text : keyToBase64 (a::b::c::rest) = digitOf s0::digitOf s1::digitOf s2::digitOf s3::keyToBase64 rest := by
        rw [keyToBase64,digits]
        rfl
      rw [text]
      refine ⟨?_,by simp only [List.length_cons,length]; omega,?_⟩
      · simp only [fromGroups,decodeDigits,signBit,joinedSign,high,middle,low]
        rw [show (0 : Byte) ||| (if false = true then (1 : Byte) else 0) = 0 by decide,after]
      · rw [← ends,show 4*(n+1)+3 = 4*n+3+1+1+1+1 by omega]
        rfl

theorem base64Decodes (signed : Bool) {key : List Byte} (size : key.length = wgKeyLen) :
    keyFromBase64 signed (keyToBase64 key) = some key := by
  obtain ⟨run,length,last⟩ := groupsDecode signed 10 key size
  have fits : ¬ ((keyToBase64 key).length ≠ wgKeyLenBase64 - 1 ∨
      (keyToBase64 key)[wgKeyLenBase64 - 2]? ≠ some (code '=')) := not_or.mpr ⟨not_not.mpr length,not_not.mpr last⟩
  unfold keyFromBase64
  rw [if_neg fits,show wgKeyLen / 3 = 10 from rfl,run]
  rfl

/- The decoder takes the encodings of keys and nothing else, and gives the key back. -/
theorem keyFromBase64Exact (signed : Bool) (base64 key : List Byte) :
    keyFromBase64 signed base64 = some key ↔ key.length = wgKeyLen ∧ base64 = keyToBase64 key := by
  constructor
  · intro given
    unfold keyFromBase64 at given
    by_cases wrong : base64.length ≠ wgKeyLenBase64 - 1 ∨ base64[wgKeyLenBase64 - 2]? ≠ some (code '=')
    · rw [if_pos wrong] at given
      exact absurd given (by simp)
    · rw [if_neg wrong] at given
      obtain ⟨size,last⟩ := not_or.mp wrong
      dsimp only at given
      by_cases clean : passed (fromGroups signed (wgKeyLen / 3) base64 0).2 = true
      · rw [if_pos clean] at given
        have found := Option.some.inj given
        obtain ⟨_,length,same⟩ := groupsEncode signed 10 base64 0 (not_not.mp size) (not_not.mp last)
          ((passedIff _).mp clean)
        rw [← found]
        exact ⟨length,same⟩
      · rw [if_neg clean] at given
        exact absurd given (by simp)
  · intro given
    rw [given.2]
    exact base64Decodes signed given.1

/-! The hexadecimal code, which is read in either case and written in lower case. -/

def hexDigit (nibble : Byte) : Byte :=
  let v : BitVec 32 := nibble.setWidth 32
  (87 + v + (((v - 10) >>> 8) &&& ~~~38)).setWidth 8

def keyToHex : List Byte → List Byte
  | [] => []
  | byte::rest => hexDigit (byte >>> 4)::hexDigit (byte &&& 0xf)::keyToHex rest

/- The value of a character, and a flag that is not zero if it is no digit. -/
def hexValue (c : Byte) : Byte × Byte :=
  let num : Byte := c ^^^ 48
  let num0 : Byte := ((num.setWidth 32 - 10 : BitVec 32) >>> 8).setWidth 8
  let alpha : Byte := ((c.setWidth 32 &&& ~~~32) - 55 : BitVec 32).setWidth 8
  let alpha0 : Byte := (((alpha.setWidth 32 - 10 : BitVec 32) ^^^ (alpha.setWidth 32 - 16)) >>> 8).setWidth 8
  ((num0 &&& num) ||| (alpha0 &&& alpha),(((num0 ||| alpha0).setWidth 32 - 1 : BitVec 32).sshiftRight 8).setWidth 8)

def fromPairs : List Byte → Byte → List Byte × Byte
  | high::low::rest,ret =>
    let acc := (hexValue high).1 * 16
    let after := fromPairs rest (ret ||| (hexValue high).2 ||| (hexValue low).2)
    ((acc ||| (hexValue low).1)::after.1,after.2)
  | _,ret => ([],ret)

def keyFromHex (hex : List Byte) : Option (List Byte) :=
  if hex.length ≠ wgKeyLenHex - 1 then none
  else
    let (key,ret) := fromPairs hex 0
    if passed ret then some key else none

def lowerHex (c : Byte) : Byte := if code 'A' ≤ c ∧ c ≤ code 'F' then c + 32 else c

def isLowerHex (c : Byte) : Bool := (code '0' ≤ c && c ≤ code '9') || (code 'a' ≤ c && c ≤ code 'f')

theorem hexValueCases : ∀ c : Byte,
    ((hexValue c).2 = 0 ∧ (hexValue c).1 &&& 0xf = (hexValue c).1 ∧ hexDigit (hexValue c).1 = lowerHex c) ∨
      ((hexValue c).2 ≠ 0 ∧ isLowerHex (lowerHex c) = false) := by
  decide +kernel

theorem hexValueLower : ∀ c : Byte, (hexValue (lowerHex c)).1 = (hexValue c).1 := by
  decide +kernel

theorem shiftNibble (x : Byte) : x * (16 : Byte) = x <<< 4 := (BitVec.shiftLeft_eq_mul_twoPow x 4).symm

theorem highNibble (byte : Byte) : (byte >>> 4) &&& (0xf : Byte) = byte >>> 4 ∧
    (byte >>> 4) * 16 ||| (byte &&& 0xf) = byte := by
  rw [shiftNibble]
  refine ⟨?_,?_⟩ <;> refine BitVec.eq_of_getLsbD_eq (fun i below => ?_) <;> interval_cases i <;> simp

theorem nibbles (high low : BitVec 4) : (high.setWidth 8 * 16 ||| low.setWidth 8 : Byte) >>> 4 = high.setWidth 8 ∧
    (high.setWidth 8 * 16 ||| low.setWidth 8 : Byte) &&& 0xf = low.setWidth 8 := by
  rw [shiftNibble]
  refine ⟨?_,?_⟩ <;> refine BitVec.eq_of_getLsbD_eq (fun i below => ?_) <;> interval_cases i <;> simp

theorem nibbleOf (byte : Byte) : (byte.setWidth 4).setWidth 8 = byte &&& 0xf := by
  refine BitVec.eq_of_getLsbD_eq (fun i below => ?_)
  interval_cases i <;> simp

/- What holds of sixteen values holds of both halves of a byte. -/
theorem nibbleHalves {P : Byte → Prop} (each : ∀ n : BitVec 4, P (n.setWidth 8)) (byte : Byte) :
    P (byte >>> 4) ∧ P (byte &&& 0xf) := by
  have low : ∀ b : Byte, P (b &&& 0xf) := fun b => nibbleOf b ▸ each (b.setWidth 4)
  exact ⟨(highNibble byte).1 ▸ low (byte >>> 4),low byte⟩

theorem hexDigitValue (byte : Byte) : isLowerHex (hexDigit (byte &&& 0xf)) = true ∧
    (hexValue (hexDigit (byte &&& 0xf))).1 = byte &&& 0xf :=
  (nibbleHalves (P := fun v => isLowerHex (hexDigit v) = true ∧ (hexValue (hexDigit v)).1 = v) (by decide) byte).2

/- A digit of either case for a nibble reads as the nibble. -/
theorem hexValueOf {c byte : Byte} (same : lowerHex c = hexDigit (byte &&& 0xf)) :
    hexValue c = (byte &&& 0xf,0) := by
  obtain ⟨lower,value⟩ := hexDigitValue byte
  rw [← same] at lower value
  rw [hexValueLower] at value
  rcases hexValueCases c with good | bad
  · exact Prod.ext value good.1
  · exact absurd (lower.symm.trans bad.2) (by decide)

theorem pairsEncode (n : Nat) : ∀ (text : List Byte) (ret : Byte), text.length = 2*n →
    (fromPairs text ret).2 = 0 → ret = 0 ∧ (fromPairs text ret).1.length = n ∧
      text.map lowerHex = keyToHex (fromPairs text ret).1 := by
  induction n with
  | zero =>
    intro text ret size clean
    have none := List.eq_nil_of_length_eq_zero size
    subst none
    exact ⟨clean,rfl,rfl⟩
  | succ n ih =>
    intro text ret size clean
    match text with
    | high::low::rest =>
      simp only [fromPairs] at clean ⊢
      obtain ⟨all,length,same⟩ := ih rest _ (by simp at size; omega) clean
      obtain ⟨both,second⟩ := orZero.mp all
      obtain ⟨start,first⟩ := orZero.mp both
      rcases hexValueCases high with ⟨_,small,digit⟩ | bad
      · rcases hexValueCases low with ⟨_,few,last⟩ | bad
        · have pair := nibbles ((hexValue high).1.setWidth 4) ((hexValue low).1.setWidth 4)
          rw [nibbleOf,nibbleOf,small,few] at pair
          refine ⟨start,by rw [List.length_cons,length],?_⟩
          rw [keyToHex,pair.1,pair.2,digit,last,← same]
          rfl
        · exact absurd second bad.1
      · exact absurd first bad.1

theorem pairsDecode (key : List Byte) : ∀ text : List Byte, text.map lowerHex = keyToHex key →
    fromPairs text 0 = (key,0) := by
  induction key with
  | nil =>
    intro text same
    have none := List.map_eq_nil_iff.mp same
    subst none
    rfl
  | cons byte rest ih =>
    intro text same
    match text with
    | [] => exact absurd same (by simp [keyToHex])
    | [high] => exact absurd same (by simp [keyToHex])
    | high::low::more =>
      simp only [List.map_cons,keyToHex,List.cons.injEq] at same
      obtain ⟨first,second,after⟩ := same
      obtain ⟨small,whole⟩ := highNibble byte
      rw [← small] at first
      rw [fromPairs,hexValueOf first,hexValueOf second]
      dsimp only
      rw [show (0 : Byte) ||| 0 ||| 0 = 0 by decide,ih more after,small,whole]

theorem keyToHexLength (bytes : List Byte) : (keyToHex bytes).length = 2 * bytes.length := by
  induction bytes with
  | nil => rfl
  | cons byte rest ih =>
    simp only [keyToHex,List.length_cons,ih]
    omega

theorem hexDecodes {hex key : List Byte} (size : key.length = wgKeyLen) (same : hex.map lowerHex = keyToHex key) :
    keyFromHex hex = some key := by
  have fits : ¬ hex.length ≠ wgKeyLenHex - 1 := by
    rw [not_not,← List.length_map lowerHex,same,keyToHexLength,size]
    rfl
  unfold keyFromHex
  rw [if_neg fits,pairsDecode key hex same]
  rfl

/- A text is taken for a key if it is its code in some mix of the cases. -/
theorem keyFromHexExact (hex key : List Byte) :
    keyFromHex hex = some key ↔ key.length = wgKeyLen ∧ hex.map lowerHex = keyToHex key := by
  constructor
  · intro given
    unfold keyFromHex at given
    by_cases size : hex.length ≠ wgKeyLenHex - 1
    · rw [if_pos size] at given
      exact absurd given (by simp)
    · rw [if_neg size] at given
      dsimp only at given
      by_cases clean : passed (fromPairs hex 0).2 = true
      · rw [if_pos clean] at given
        obtain ⟨_,length,same⟩ := pairsEncode 32 hex 0 (not_not.mp size) ((passedIff _).mp clean)
        rw [← Option.some.inj given]
        exact ⟨length,same⟩
      · rw [if_neg clean] at given
        exact absurd given (by simp)
  · intro given
    exact hexDecodes given.1 given.2

end WebosWireguard.KeyEncoding
