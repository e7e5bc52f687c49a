import WebosWireguard.LeakProtection

/-! Where the packets of the tunnel itself go once it is up: the longest match for a
peer's endpoint among the pinned host routes, the routes of applied-routes and what the
table had before. How ip reads a prefix is left open, except that a bare address is a
host. -/
namespace WebosWireguard.EndpointRouting
open TextLines StartText ShellScript SubnetTable TunnelScripts ScriptEffects
open LeakProtection (sampleEnv sampleWorld)

def dotted (a : Nat) : Text :=
  Nat.toDigits 10 (a / 2^24) ++ '.'::(Nat.toDigits 10 (a / 2^16 % 256) ++
    '.'::(Nat.toDigits 10 (a / 2^8 % 256) ++ '.'::Nat.toDigits 10 (a % 256)))

structure Endpoint where
  address : Nat
  port : Nat
  bounded : address < 2^32

def Endpoint.printed (e : Endpoint) : Text := dotted e.address ++ ':'::Nat.toDigits 10 e.port

def Endpoint.host (e : Endpoint) : Subnet 32 := Subnet.host e.address e.bounded

def BareIsHost (destination : Text → Option (Subnet 32)) : Prop :=
  ∀ e : Endpoint, destination (dotted e.address) = some e.host

theorem digitsPlain {n : Nat} {c : Char} (other : c.isDigit = false) : c ∉ Nat.toDigits 10 n := by
  intro mem
  have digit := Nat.isDigit_of_mem_toDigits (by decide) (by decide) mem
  rw [other] at digit
  contradiction

theorem dottedNoColon (a : Nat) : ':' ∉ dotted a := by
  simp [dotted,digitsPlain]

theorem dottedNonempty (a : Nat) : dotted a ≠ [] := by
  simp [dotted]

/- The line the loop prints before it pins a host. -/
def announcement (hop : Hop) (host : Text) : Text :=
  match hop.via with
  | some gw => "endpoint ".toList ++ host ++ " via ".toList ++ gw ++ " dev ".toList ++ hop.dev
  | none => "endpoint ".toList ++ host ++ " dev ".toList ++ hop.dev

theorem announcePinSays (host : Text) (hop : Hop) : announcePin host hop = say (announcement hop host) := by
  unfold announcePin announcement
  cases hop.via <;> rfl

theorem pinEndpointSkips {env : Env} {hop : Hop} {endpoint : Text} (skipped : pinnedHost endpoint = none) :
    pinEndpoint env hop endpoint = pure () := by
  simp only [pinEndpoint,skipped]

theorem pinEndpointPins {env : Env} {hop : Hop} {endpoint host : Text} (pinned : pinnedHost endpoint = some host) :
    pinEndpoint env hop endpoint = say (announcement hop host) >>= fun _ => ipRouteReplace env host hop >>=
      fun _ => Script.command (fun w => {w with endpointRoutes := some (w.endpointRoutes.getD [] ++ [host])}) := by
  simp only [pinEndpoint,pinned,announcePinSays]

section Pins
variable {env : Env} (bare : BareIsHost env.destination)
include bare

/- Two addresses with one text would be one host. -/
theorem dottedZero (e : Endpoint) : dotted e.address = "0.0.0.0".toList ↔ e.address = 0 := by
  have zero : dotted 0 = "0.0.0.0".toList := by decide
  constructor
  · intro same
    have left := bare e
    rw [same,← zero,bare ⟨0,0,by decide⟩] at left
    exact (congrArg Subnet.base (Option.some.inj left)).symm
  · intro same
    rw [same,zero]

theorem pinnedHostPrinted (e : Endpoint) :
    pinnedHost e.printed = if e.address = 0 then none else some (dotted e.address) := by
  have cut : before ':' e.printed = dotted e.address := (cutFirst (dottedNoColon e.address) _).1
  have solid : ¬ (e.printed = [] ∨ e.printed = "(none)".toList) := by
    have colon : ':' ∈ e.printed := by simp [Endpoint.printed]
    intro given
    rcases given with same | same
    · simp [same] at colon
    · rw [same] at colon
      exact absurd colon (by decide)
  unfold pinnedHost
  simp only [cut,if_neg solid,dottedNonempty,dottedNoColon,dottedZero bare,false_or,or_false]

theorem pinsMem {hop : Hop} {eps : List Endpoint} {pins : List (Subnet 32)} {d : Subnet 32}
    (read : ReadAs env (pinTexts (some hop) (eps.map Endpoint.printed)) pins) :
    d ∈ pins ↔ ∃ e ∈ eps, e.address ≠ 0 ∧ d = e.host := by
  have texts : pinTexts (some hop) (eps.map Endpoint.printed) =
      (eps.filter (fun e => e.address ≠ 0)).map (fun e => dotted e.address) := by
    clear read
    induction eps with
    | nil => rfl
    | cons e rest ih =>
      simp only [pinTexts,List.map_cons,List.flatMap_cons,pinnedHostPrinted bare] at ih ⊢
      rw [ih]
      by_cases zero : e.address = 0 <;> simp [zero]
  have hosts : pins = (eps.filter (fun e => e.address ≠ 0)).map Endpoint.host := by
    apply List.map_injective_iff.mpr (Option.some_injective _)
    rw [← read,texts]
    simp only [List.map_map]
    exact List.map_congr_left (fun e _ => bare e)
  rw [hosts]
  simp only [List.mem_map,List.mem_filter,decide_eq_true_eq]
  constructor
  · intro given
    obtain ⟨e,⟨mem,solid⟩,rfl⟩ := given
    exact ⟨e,mem,solid,rfl⟩
  · intro given
    obtain ⟨e,mem,solid,rfl⟩ := given
    exact ⟨e,⟨mem,solid⟩,rfl⟩

end Pins

theorem readAsMem {env : Env} {texts : List Text} {dests : List (Subnet 32)} {d : Subnet 32}
    (read : ReadAs env texts dests) : d ∈ dests ↔ ∃ text ∈ texts, env.destination text = some d := by
  have lifted : d ∈ dests ↔ some d ∈ dests.map some := by simp
  rw [lifted,← read,List.mem_map]

structure Layered (hop : Hop) (routes pins : List (Subnet 32)) (earlier table : Table 32 Hop) : Prop where
  outside : hop.dev ≠ iface
  clear : ∀ r ∈ earlier, r.hop.dev ≠ iface
  table : table = install tunnelHop routes (install hop pins earlier)

namespace Layered
variable {hop : Hop} {routes pins : List (Subnet 32)} {earlier table : Table 32 Hop}
  (layered : Layered hop routes pins earlier table)
include layered

theorem mem {r : Route 32 Hop} : r ∈ table ↔ (r.dest ∈ routes ∧ r.hop = tunnelHop) ∨
    (((r.dest ∈ pins ∧ r.hop = hop) ∨ (r ∈ earlier ∧ r.dest ∉ pins)) ∧ r.dest ∉ routes) := by
  rw [layered.table,memInstall,memInstall]

theorem tunnelIff {r : Route 32 Hop} (here : r ∈ table) : r.hop.dev = iface ↔ r.dest ∈ routes := by
  rcases layered.mem.mp here with ⟨inside,same⟩ | ⟨below,outer⟩
  · simp [inside,same,tunnelHop]
  · refine iff_of_false ?_ outer
    rcases below with ⟨_,same⟩ | ⟨old,_⟩
    · rw [same]
      exact layered.outside
    · exact layered.clear r old

theorem destKept {d : Subnet 32} (known : d ∈ pins ∨ ∃ r ∈ earlier, r.dest = d) :
    ∃ s ∈ table, s.dest = d := by
  by_cases inside : d ∈ routes
  · exact ⟨⟨d,tunnelHop⟩,layered.mem.mpr (.inl ⟨inside,rfl⟩),rfl⟩
  by_cases pinned : d ∈ pins
  · exact ⟨⟨d,hop⟩,layered.mem.mpr (.inr ⟨.inl ⟨pinned,rfl⟩,inside⟩),rfl⟩
  obtain ⟨r,old,rfl⟩ := known.resolve_left pinned
  exact ⟨r,layered.mem.mpr (.inr ⟨.inr ⟨old,pinned⟩,inside⟩),rfl⟩

theorem avoidsIff {a : Nat} :
    (∀ r, lookup table a = some r → r.hop.dev ≠ iface) ↔
      ∀ d ∈ routes, d.Covers a →
        (∃ p ∈ pins, p.Covers a ∧ d.length < p.length) ∨
        (∃ r ∈ earlier, r.dest.Covers a ∧ d.length < r.dest.length) := by
  constructor
  · intro avoids d inside covers
    have uniform : ∀ r ∈ table, ∀ s ∈ table, r.dest = s.dest → r.hop.dev = iface → s.hop.dev = iface := by
      intro r hereR s hereS same tunnel
      rw [layered.tunnelIff hereS,← same]
      exact (layered.tunnelIff hereR).mp tunnel
    have here : (⟨d,tunnelHop⟩ : Route 32 Hop) ∈ table := layered.mem.mpr (.inl ⟨inside,rfl⟩)
    obtain ⟨s,hereS,coversS,outer,longer⟩ :=
      lookupBeats (P := fun hop => hop.dev = iface) uniform avoids here covers rfl
    rcases layered.mem.mp hereS with ⟨inner,_⟩ | ⟨⟨pinned,_⟩ | ⟨old,_⟩,_⟩
    · exact absurd ((layered.tunnelIff hereS).mpr inner) outer
    · exact .inl ⟨s.dest,pinned,coversS,longer⟩
    · exact .inr ⟨s,old,coversS,longer⟩
  · intro beaten r found
    refine lookupAvoids (P := fun hop => hop.dev = iface) ?_ found
    intro r here covers tunnel
    have known : ∃ d, d.Covers a ∧ r.dest.length < d.length ∧
        (d ∈ pins ∨ ∃ r ∈ earlier, r.dest = d) := by
      rcases beaten r.dest ((layered.tunnelIff here).mp tunnel) covers with
        ⟨p,pinned,coversP,longer⟩ | ⟨old,mem,coversOld,longer⟩
      · exact ⟨p,coversP,longer,.inl pinned⟩
      · exact ⟨old.dest,coversOld,longer,.inr ⟨old,mem,rfl⟩⟩
    obtain ⟨d,coversD,longer,known⟩ := known
    obtain ⟨s,hereS,rfl⟩ := layered.destKept known
    exact ⟨s,hereS,coversD,longer⟩

end Layered

/-! A reading of prefixes to run the script with. -/

def readOctets : Nat → Text → Nat
  | 0,_ => 0
  | n+1,t => number (before '.' t) * 2^(8*n) + readOctets n (after '.' t)

def readPrefix (t : Text) : Option (Subnet 32) :=
  let base := readOctets 4 (before '/' t)
  let length := if '/' ∈ t then number (after '/' t) else 32
  if h : base < 2^32 ∧ length ≤ 32 ∧ 2^(32-length) ∣ base then
    some ⟨base,length,h.1,h.2.1,h.2.2⟩
  else none

theorem readOctetsDigits (n k : Nat) (t : Text) :
    readOctets (n+1) (Nat.toDigits 10 k ++ '.'::t) = k * 2^(8*n) + readOctets n t := by
  obtain ⟨first,others⟩ := cutFirst (digitsPlain (n := k) (c := '.') (by decide)) t
  rw [readOctets,first,others,number,Nat.ofDigitChars_ten_toDigits]

theorem readOctetsDotted (a : Nat) : readOctets 4 (dotted a) = a := by
  have last : ∀ k, readOctets 1 (Nat.toDigits 10 k) = k := by
    intro k
    have whole := beforeSelf (digitsPlain (n := k) (c := '.') (by decide))
    simp [readOctets,whole,number,Nat.ofDigitChars_ten_toDigits]
  rw [dotted,readOctetsDigits,readOctetsDigits,readOctetsDigits,last]
  omega

theorem readPrefixBare : BareIsHost readPrefix := by
  intro e
  have plain : '/' ∉ dotted e.address := by simp [dotted,digitsPlain]
  have base := readOctetsDotted e.address
  simp only [readPrefix,beforeSelf plain,plain,base,if_false]
  rw [dif_pos ⟨e.bounded,le_refl 32,by simp⟩]
  rfl

def samplePeer : Endpoint := ⟨203*2^24+5,51820,by decide⟩

def pinningEnv : Env := {sampleEnv with endpoints := fun _ => [samplePeer.printed], destination := readPrefix}

theorem pinningDestination : pinningEnv.destination = readPrefix := by rw [pinningEnv]

theorem pinningBare : BareIsHost pinningEnv.destination := pinningDestination ▸ readPrefixBare

theorem pinningPeers (config : Text) :
    pinningEnv.endpoints config = [samplePeer].map Endpoint.printed := rfl

theorem sampleDefault (allowed : Text) :
    defaultHop (sampleWorld allowed).table = some ⟨some "192.168.1.1".toList,"eth0".toList⟩ := by
  have table : (sampleWorld allowed).table = [LeakProtection.defaultVia "eth0".toList] := rfl
  rw [table]
  decide +kernel

/-- After a successful start no packet to a peer's endpoint goes into the tunnel, if and only
if every route given for the tunnel that covers the endpoint is shorter than a host route,
and, for the endpoint 0.0.0.0 that is never pinned, shorter than an earlier route outside
wg0. -/
theorem endpointsAvoidTunnelIff {env : Env} {faults rest : List Fault} {w t : World} {hop : Hop}
    {eps : List Endpoint} (finished : (start env).exec faults w = .finished () t rest)
    (outside : defaultHop w.table = some hop)
    (peers : ∀ config, env.endpoints config = eps.map Endpoint.printed)
    (bare : BareIsHost env.destination) :
    (∀ e ∈ eps, ∀ r, lookup t.table e.address = some r → r.hop.dev ≠ iface) ↔
      ∀ e ∈ eps, ∀ text ∈ appliedRoutes env.grepQx (w.conf.getD []) w.routesExtra,
        ∀ d, env.destination text = some d → d.Covers e.address →
          d.length < 32 ∧ (e.address ≠ 0 ∨
            ∃ r ∈ w.table, r.hop.dev ≠ iface ∧ r.dest.Covers e.address ∧ d.length < r.dest.length) := by
  have raised : Raised env (defaultHop w.table) w t := by
    have h := Script.wpExec (startRaised env w) faults
    rw [finished] at h
    exact h
  rw [outside] at raised
  obtain ⟨config,pins,routes,readPins,readRoutes,table⟩ := raised.table
  rw [peers config] at readPins
  have layered : Layered hop routes pins (w.table.filter (fun r => r.hop.dev ≠ iface)) t.table :=
    ⟨defaultHopOutside outside,fun r mem => by simpa using (List.mem_filter.mp mem).2,table⟩
  refine forall₂_congr (fun e mem => ?_)
  rw [layered.avoidsIff]
  constructor
  · intro beaten text given d read covers
    rcases beaten d ((readAsMem readRoutes).mpr ⟨text,given,read⟩) covers with
      ⟨p,pinned,coversP,longer⟩ | ⟨r,old,coversR,longer⟩
    · obtain ⟨e',_,solid,rfl⟩ := (pinsMem bare readPins).mp pinned
      have same : e.address = e'.address := Subnet.coversHost.mp coversP
      exact ⟨longer,.inl (same ▸ solid)⟩
    · obtain ⟨here,dev⟩ := List.mem_filter.mp old
      exact ⟨lt_of_lt_of_le longer r.dest.short,.inr ⟨r,here,by simpa using dev,coversR,longer⟩⟩
  · intro short d inside covers
    obtain ⟨text,given,read⟩ := (readAsMem readRoutes).mp inside
    obtain ⟨below,solid | ⟨r,here,dev,coversR,longer⟩⟩ := short text given d read covers
    · exact .inl ⟨e.host,(pinsMem bare readPins).mpr ⟨e,mem,solid,rfl⟩,Subnet.coversHost.mpr rfl,below⟩
    · exact .inr ⟨r,List.mem_filter.mpr ⟨here,by simpa using dev⟩,coversR,longer⟩

def allTraffic : Text := "0.0.0.0/0\nEndpoint=203.0.0.5:51820".toList

theorem fullTunnelSparesEndpoint :
    ∃ t rest, (start pinningEnv).exec [] (sampleWorld allTraffic) = .finished () t rest ∧
      ∀ r, lookup t.table samplePeer.address = some r → r.hop.dev ≠ iface := by
  have run : ∃ t rest, (start pinningEnv).exec [] (sampleWorld allTraffic) = .finished () t rest :=
    ⟨_,_,rfl⟩
  obtain ⟨t,rest,run⟩ := run
  refine ⟨t,rest,run,?_⟩
  refine (endpointsAvoidTunnelIff run (sampleDefault allTraffic) pinningPeers pinningBare).mpr ?_
    samplePeer List.mem_cons_self
  have routes : appliedRoutes pinningEnv.grepQx ((sampleWorld allTraffic).conf.getD [])
      (sampleWorld allTraffic).routesExtra = [lowerHalf,upperHalf] := by decide +kernel
  have halves : ∀ text ∈ [lowerHalf,upperHalf], (readPrefix text).map Subnet.length = some 1 := by
    decide +kernel
  intro e mem text given d read _
  cases List.mem_singleton.mp mem
  rw [routes] at given
  rw [pinningDestination] at read
  have one := halves text given
  rw [read] at one
  have length : d.length = 1 := Option.some.inj one
  exact ⟨by omega,.inl (by decide)⟩

/- The peer's own address among its allowed IPs takes the pin's place. -/
def ownAddress : Text := "10.0.0.0/8,203.0.0.5/32\nEndpoint=203.0.0.5:51820".toList

theorem allowedEndpointLoops :
    ¬ ∀ env faults w t rest hop (eps : List Endpoint), (start env).exec faults w = .finished () t rest →
      defaultHop w.table = some hop → (∀ config, env.endpoints config = eps.map Endpoint.printed) →
      BareIsHost env.destination →
      ∀ e ∈ eps, ∀ r, lookup t.table e.address = some r → r.hop.dev ≠ iface := by
  intro every
  have run : ∃ t rest, (start pinningEnv).exec [] (sampleWorld ownAddress) = .finished () t rest ∧
      lookup t.table samplePeer.address = some ⟨samplePeer.host,tunnelHop⟩ :=
    ⟨_,_,rfl,by decide +kernel⟩
  obtain ⟨t,rest,run,found⟩ := run
  exact every pinningEnv [] _ t rest _ [samplePeer] run (sampleDefault ownAddress) pinningPeers
    pinningBare samplePeer List.mem_cons_self _ found rfl

end WebosWireguard.EndpointRouting
