import WebosWireguard.WgReader

/-! parse_allowedips of config.c, and which entries the reader gives to the peers of a
configuration. inet_pton is a parameter, and the warning about host bits is left out. -/
namespace WebosWireguard.AllowedIps
open TextLines WgReader

structure Inet where
  pton4 : Text → Option Nat
  pton6 : Text → Option Nat

structure Inet.Documented (inet : Inet) : Prop where
  dotted : ∀ t a, inet.pton4 t = some a → t.count '.' = 3 ∧ ∀ c ∈ t, c = '.' ∨ c.isDigit = true
  zero : inet.pton4 "0.0.0.0".toList = some 0
  half : inet.pton4 "128.0.0.0".toList = some (2^31)

inductive Ip where
  | v4 (address : Nat)
  | v6 (address : Nat)
  deriving DecidableEq, Repr

def Ip.width : Ip → Nat
  | .v4 _ => 32
  | .v6 _ => 128

structure AllowedIp where
  ip : Ip
  cidr : Nat
  removeMe : Bool
  deriving DecidableEq, Repr

/- A sign is cut off; it says whether the entry is to be removed, and that the peer keeps
the entries it has. -/
def parseIpPrefix (mask : Text) : Text × Bool × Bool :=
  if mask.head? = some '-' then (mask.tail,true,true)
  else if mask.head? = some '+' then (mask.tail,false,true)
  else (mask,false,false)

def parseCidr (ip : Ip) (mask : Option Text) : Option Nat :=
  match mask with
  | none => some ip.width
  | some digits =>
    if digits ≠ [] ∧ digits.all Char.isDigit ∧ number digits ≤ ip.width then some (number digits)
    else none

section Parse
variable (inet : Inet)

def parseIp (value : Text) : Option Ip :=
  if ':' ∈ value then (inet.pton6 value).map .v6 else (inet.pton4 value).map .v4

def parsePlain (entry : Text) : Option (Ip × Nat) := do
  let ip ← parseIp inet (before '/' entry)
  let cidr ← parseCidr ip (if '/' ∈ entry then some (after '/' entry) else none)
  some (ip,cidr)

def parseEntry (mask : Text) : Option AllowedIp :=
  let signed := parseIpPrefix mask
  (parsePlain inet signed.1).map (fun plain => ⟨plain.1,plain.2,signed.2.1⟩)

def parseEntries : List Text → Option (List AllowedIp × Bool)
  | [] => some ([],true)
  | mask::rest => do
    let entry ← parseEntry inet mask
    let others ← parseEntries rest
    some (entry::others.1,!(parseIpPrefix mask).2.2 && others.2)

def parseAllowedips (value : Text) : Option (List AllowedIp × Bool) :=
  if value = [] then some ([],true) else parseEntries inet (value.splitOn ',')

variable {inet}

theorem parseEntriesMem {texts : List Text} {entries replace}
    (ok : parseEntries inet texts = some (entries,replace)) :
    (∀ t ∈ texts, ∃ e, parseEntry inet t = some e) ∧
      ∀ e, e ∈ entries ↔ ∃ t ∈ texts, parseEntry inet t = some e := by
  induction texts generalizing entries replace with
  | nil =>
    cases Option.some.inj ok
    simp
  | cons t rest ih =>
    simp only [parseEntries,bind,Option.bind_eq_some_iff] at ok
    obtain ⟨first,here,⟨others,flag⟩,later,last⟩ := ok
    cases Option.some.inj last
    obtain ⟨every,mem⟩ := ih later
    refine ⟨List.forall_mem_cons.mpr ⟨⟨first,here⟩,every⟩,fun e => ?_⟩
    simp [here,mem,eq_comm]

theorem parseCidrDigits {ip : Ip} {digits : Text} {cidr} (ok : parseCidr ip (some digits) = some cidr) :
    ∀ c ∈ digits, c.isDigit = true := by
  simp only [parseCidr] at ok
  split at ok
  · rename_i valid
    simpa using valid.2.1
  · contradiction

theorem parsePlainIp {entry : Text} {ip cidr} (ok : parsePlain inet entry = some (ip,cidr)) :
    parseIp inet (before '/' entry) = some ip := by
  simp only [parsePlain,bind,Option.bind_eq_some_iff] at ok
  obtain ⟨found,address,_,_,last⟩ := ok
  cases Option.some.inj last
  exact address

theorem parsePlainV4 {entry : Text} {a cidr} (ok : parsePlain inet entry = some (.v4 a,cidr)) :
    inet.pton4 (before '/' entry) = some a := by
  have address := parsePlainIp ok
  unfold parseIp at address
  split at address
  · obtain ⟨_,_,other⟩ := Option.map_eq_some_iff.mp address
    contradiction
  · obtain ⟨b,found,same⟩ := Option.map_eq_some_iff.mp address
    cases same
    exact found

theorem parsePlainV6 {entry : Text} {a cidr} (ok : parsePlain inet entry = some (.v6 a,cidr)) :
    ':' ∈ entry := by
  have address := parsePlainIp ok
  unfold parseIp at address
  split at address
  · exact beforeSubset (by assumption)
  · obtain ⟨_,_,other⟩ := Option.map_eq_some_iff.mp address
    contradiction

theorem parsePlainText (documented : inet.Documented) {entry : Text} {a cidr}
    (ok : parsePlain inet entry = some (.v4 a,cidr)) :
    entry.count '.' = 3 ∧ ∀ c ∈ entry, c = '.' ∨ c = '/' ∨ c.isDigit = true := by
  obtain ⟨dots,plain⟩ := documented.dotted _ _ (parsePlainV4 ok)
  by_cases slash : '/' ∈ entry
  · have mask : ∀ c ∈ after '/' entry, c.isDigit = true := by
      simp only [parsePlain,bind,Option.bind_eq_some_iff,if_pos slash] at ok
      obtain ⟨_,_,_,read,_⟩ := ok
      exact parseCidrDigits read
    have none : (after '/' entry).count '.' = 0 := by
      rw [List.count_eq_zero]
      intro mem
      exact absurd (mask '.' mem) (by decide)
    rw [cutAt slash]
    constructor
    · simp [List.count_append,dots,none]
    · intro c mem
      rcases List.mem_append.mp mem with left | right
      · rcases plain c left with dot | digit
        · exact .inl dot
        · exact .inr (.inr digit)
      · rcases List.mem_cons.mp right with rfl | digit
        · exact .inr (.inl rfl)
        · exact .inr (.inr (mask c digit))
  · rw [beforeSelf slash] at dots plain
    exact ⟨dots,fun c mem => (plain c mem).imp_right .inr⟩

section Entry
variable {s : Text} {e : AllowedIp}

theorem parseEntryShape (read : parseEntry inet s = some e) :
    (s.head? = some '-' ∧ e.removeMe = true ∧ parsePlain inet s.tail = some (e.ip,e.cidr)) ∨
    (s.head? = some '+' ∧ e.removeMe = false ∧ parsePlain inet s.tail = some (e.ip,e.cidr)) ∨
    ((s.head? ≠ some '-' ∧ s.head? ≠ some '+') ∧ e.removeMe = false ∧
      parsePlain inet s = some (e.ip,e.cidr)) := by
  unfold parseEntry parseIpPrefix at read
  obtain ⟨plain,body,rfl⟩ := Option.map_eq_some_iff.mp read
  by_cases minus : s.head? = some '-'
  · exact .inl ⟨minus,by simp [minus],by simpa [minus] using body⟩
  by_cases plus : s.head? = some '+'
  · exact .inr (.inl ⟨plus,by simp [plus],by simpa [plus] using body⟩)
  · exact .inr (.inr ⟨⟨minus,plus⟩,by simp [minus,plus],by simpa [minus,plus] using body⟩)

theorem parseEntryBody (read : parseEntry inet s = some e) :
    ∃ sign body, s = sign ++ body ∧ (∀ c ∈ sign, c = '-' ∨ c = '+') ∧
      parsePlain inet body = some (e.ip,e.cidr) := by
  have cut : ∀ c, s.head? = some c → s = [c] ++ s.tail := by
    intro c head
    obtain ⟨rest,rfl⟩ := List.head?_eq_some_iff.mp head
    rfl
  rcases parseEntryShape read with ⟨head,_,body⟩ | ⟨head,_,body⟩ | ⟨_,_,body⟩
  · exact ⟨['-'],s.tail,cut _ head,by simp,body⟩
  · exact ⟨['+'],s.tail,cut _ head,by simp,body⟩
  · exact ⟨[],s,rfl,by simp,body⟩

end Entry

end Parse

/-! The reader. AllowedIPs is the only key of both sections that starts with an a. -/

def allowedValue (line : Text) : Option Text := getValue line "AllowedIPs=".toList

section Reader
variable {V : Values}

def assigned (peers : List (Peer V)) : List V.AllowedIp := peers.flatMap Peer.allowedips

def entriesOf (vp : Parsers V) (line : Text) : List V.AllowedIp :=
  ((allowedValue line).bind vp.allowedips).elim [] Prod.fst

theorem getValueHead {line value rest : Text} {c : Char} (found : getValue line (c::rest) = some value) :
    (lower line).head? = some c.toLower := by
  unfold getValue at found
  split at found
  · contradiction
  split at found
  · rename_i long same
    cases line with
    | nil => simp at long
    | cons x xs =>
      simp only [List.length_cons,List.take_succ_cons,lower,List.map_cons,List.cons.injEq] at same
      simp [lower,same.1]
  · contradiction

theorem allowedValueNone {line : Text} (other : (lower line).head? ≠ some 'a') : allowedValue line = none := by
  by_contra found
  obtain ⟨value,found⟩ := Option.ne_none_iff_exists'.mp found
  exact other (getValueHead found)

variable {vp : Parsers V} {ctx next : Ctx V} {line : Text}

theorem parsedOk {α : Type} {result : Option α} {store : α → Ctx V}
    (ok : parsed line result store = .ok next) : ∃ a, result = some a ∧ next = store a := by
  unfold parsed at ok
  split at ok
  · cases ok
    exact ⟨_,rfl,rfl⟩
  · contradiction

inductive LineCase (vp : Parsers V) (line : Text) (old new : List (Peer V)) : Prop where
  | allowed {value result} (found : allowedValue line = some value)
      (read : vp.allowedips value = some result)
      (adds : ∀ e, e ∈ assigned new ↔ e ∈ assigned old ∨ e ∈ result.1)
  | other (head : (lower line).head? ≠ some 'a') (same : ∀ e, e ∈ assigned new ↔ e ∈ assigned old)

theorem keyOther {c : Char} {rest value : Text} {old new : List (Peer V)}
    (found : getValue line (c::rest) = some value) (distinct : c.toLower ≠ 'a')
    (same : ∀ e, e ∈ assigned new ↔ e ∈ assigned old) : LineCase vp line old new := by
  refine .other ?_ same
  rw [getValueHead found]
  simpa using distinct

theorem deviceLineCase (ok : deviceLine vp ctx line = .ok next) :
    LineCase vp line ctx.device.peers next.device.peers := by
  unfold deviceLine at ok
  split at ok
  · obtain ⟨_,_,rfl⟩ := parsedOk ok
    exact keyOther (by assumption) (by decide) (fun _ => Iff.rfl)
  split at ok
  · obtain ⟨_,_,rfl⟩ := parsedOk ok
    exact keyOther (by assumption) (by decide) (fun _ => Iff.rfl)
  split at ok
  · obtain ⟨_,_,rfl⟩ := parsedOk ok
    exact keyOther (by assumption) (by decide) (fun _ => Iff.rfl)
  · contradiction

theorem peerLineCase {peer : Peer V} {others} (ok : peerLine vp ctx peer others line = .ok next) :
    LineCase vp line (peer::others) next.device.peers := by
  unfold peerLine at ok
  dsimp only at ok
  split at ok
  · obtain ⟨_,_,rfl⟩ := parsedOk ok
    exact keyOther (by assumption) (by decide) (fun _ => Iff.rfl)
  split at ok
  · obtain ⟨_,_,rfl⟩ := parsedOk ok
    exact keyOther (by assumption) (by decide) (fun _ => Iff.rfl)
  split at ok
  · obtain ⟨result,read,rfl⟩ := parsedOk ok
    refine .allowed (by assumption) read (fun e => ?_)
    simp only [assigned,List.flatMap_cons,List.mem_append]
    exact or_right_comm
  split at ok
  · obtain ⟨_,_,rfl⟩ := parsedOk ok
    exact keyOther (by assumption) (by decide) (fun _ => Iff.rfl)
  split at ok
  · obtain ⟨_,_,rfl⟩ := parsedOk ok
    exact keyOther (by assumption) (by decide) (fun _ => Iff.rfl)
  · contradiction

theorem headerOther {header : Text} {old new : List (Peer V)} (same : lower line = lower header)
    (bracket : (lower header).head? = some '[') (kept : ∀ e, e ∈ assigned new ↔ e ∈ assigned old) :
    LineCase vp line old new := by
  refine .other ?_ kept
  rw [same,bracket]
  decide

theorem processLineCase (ok : processLine vp ctx line = .ok next) :
    LineCase vp line ctx.device.peers next.device.peers := by
  unfold processLine at ok
  split at ok
  · cases ok
    exact headerOther (by assumption) (by decide) (fun _ => Iff.rfl)
  split at ok
  · cases ok
    exact headerOther (by assumption) (by decide) (fun _ => by simp [assigned,Peer.new])
  split at ok
  · exact deviceLineCase ok
  · rename_i peers
    rw [peers]
    exact peerLineCase ok
  · contradiction

theorem processLinesAssigned {ls : List Text} {out : Ctx V} (ok : processLines vp ctx ls = .ok out) :
    (∀ e, e ∈ assigned out.device.peers ↔
      e ∈ assigned ctx.device.peers ∨ ∃ l ∈ ls, e ∈ entriesOf vp l) ∧
    ∀ l ∈ ls, (lower l).head? = some 'a' →
      ∃ value result, allowedValue l = some value ∧ vp.allowedips value = some result := by
  induction ls generalizing ctx with
  | nil =>
    cases ok
    simp
  | cons l rest ih =>
    simp only [processLines,bind,Except.bind] at ok
    split at ok
    · contradiction
    rename_i mid first
    obtain ⟨entries,valid⟩ := ih ok
    cases processLineCase first with
    | @allowed value result found read adds =>
      refine ⟨fun e => ?_,List.forall_mem_cons.mpr ⟨fun _ => ⟨value,result,found,read⟩,valid⟩⟩
      simp [entries,adds,entriesOf,found,read,or_assoc]
    | other head same =>
      refine ⟨fun e => ?_,List.forall_mem_cons.mpr ⟨fun start => absurd start head,valid⟩⟩
      simp [entries,same,entriesOf,allowedValueNone head]

theorem readConfigAssigned {text : Text} {device : Device V} (ok : readConfig vp text = .ok device) :
    (∀ e, e ∈ assigned device.peers ↔ ∃ l ∈ cleanedLines text, e ∈ entriesOf vp l) ∧
    ∀ l ∈ cleanedLines text, (lower l).head? = some 'a' →
      ∃ value result, allowedValue l = some value ∧ vp.allowedips value = some result := by
  simp only [readConfig,readLinesCleaned,bind,Except.bind] at ok
  split at ok
  · contradiction
  rename_i ctx read
  obtain ⟨entries,valid⟩ := processLinesAssigned read
  refine ⟨fun e => ?_,valid⟩
  unfold configReadFinish at ok
  split at ok
  · cases ok
    have order : e ∈ assigned ctx.device.peers.reverse ↔ e ∈ assigned ctx.device.peers := by
      simp [assigned]
    rw [order,entries]
    simp [assigned,configReadInit,cleanedLines]
  · contradiction

end Reader

end WebosWireguard.AllowedIps
