import WebosWireguard.EndpointRouting

/-! The pin loop over every form in which wg prints an endpoint. The loop cuts the host at
the first colon, which takes an address in brackets apart before the case over the host
can see its colons. Commands other than ip are taken to succeed here. -/
namespace WebosWireguard.EndpointForms
open ShellScript ShellScript.Script SubnetTable TextLines TunnelScripts EndpointRouting
open LeakProtection (sampleEnv sampleWorld)

/- endpoint() of show.c puts brackets around an IPv6 address with a colon in it, and
`wg show` prints (none) for a peer without an endpoint. -/
inductive PeerEndpoint where
  | ipv4 (e : Endpoint)
  | ipv6 (address : Text) (port : Nat) (colon : ':' ∈ address)
  | absent

def PeerEndpoint.printed : PeerEndpoint → Text
  | .ipv4 e => e.printed
  | .ipv6 address port _ => '['::(address ++ ']':: ':'::Nat.toDigits 10 port)
  | .absent => "(none)".toList

/- An IPv4 endpoint with a host; 0.0.0.0 names none, as the loop's own case has it. -/
def PeerEndpoint.ipv4Host : PeerEndpoint → Option Endpoint
  | .ipv4 e => if e.address = 0 then none else some e
  | _ => none

def PeerEndpoint.isIpv6 : PeerEndpoint → Bool
  | .ipv6 _ _ _ => true
  | _ => false

def ipv4Hosts (peers : List PeerEndpoint) : List Endpoint := peers.filterMap PeerEndpoint.ipv4Host

/- ip takes no destination that starts with a bracket. -/
def RefusesBracket (destination : Text → Option (Subnet 32)) : Prop :=
  ∀ t, t.head? = some '[' → destination t = none

theorem pinnedHostIpv6 (address : Text) (port : Nat) (colon : ':' ∈ address) :
    pinnedHost (PeerEndpoint.ipv6 address port colon).printed = some ('['::before ':' address) := by
  have cut : before ':' (PeerEndpoint.ipv6 address port colon).printed = '['::before ':' address := by
    rw [PeerEndpoint.printed,before,List.takeWhile_cons_of_pos (by decide)]
    exact congrArg (List.cons '[') (beforeAppendMem colon _)
  have solid : ¬ ((PeerEndpoint.ipv6 address port colon).printed = [] ∨
      (PeerEndpoint.ipv6 address port colon).printed = "(none)".toList) := by
    intro given
    rcases given with same | same
    · simp [PeerEndpoint.printed] at same
    · exact absurd (congrArg List.head? same) (show some '[' ≠ "(none)".toList.head? by decide)
  have taken : ¬ ('['::before ':' address = [] ∨ '['::before ':' address = "0.0.0.0".toList ∨
      ':' ∈ '['::before ':' address) := by
    intro given
    rcases given with same | same | mem
    · simp at same
    · exact absurd (congrArg List.head? same) (show some '[' ≠ "0.0.0.0".toList.head? by decide)
    · rcases List.mem_cons.mp mem with same | inside
      · contradiction
      · exact beforeNotMem address inside
  unfold pinnedHost
  dsimp only
  rw [if_neg solid,cut,if_neg taken]

theorem pinnedHostAbsent : pinnedHost PeerEndpoint.absent.printed = none := by
  unfold pinnedHost
  exact if_pos (.inr rfl)

theorem pinnedHostPlain {env : Env} (bare : BareIsHost env.destination) {p : PeerEndpoint}
    (plain : p.isIpv6 = false) : pinnedHost p.printed = p.ipv4Host.map (fun e => dotted e.address) := by
  cases p with
  | ipv4 e =>
    refine (pinnedHostPrinted bare e).trans ?_
    by_cases zero : e.address = 0 <;> simp [PeerEndpoint.ipv4Host,zero]
  | ipv6 address port colon => simp [PeerEndpoint.isIpv6] at plain
  | absent => exact pinnedHostAbsent

theorem pinnedHosts {env : Env} (bare : BareIsHost env.destination) {peers : List PeerEndpoint}
    (plain : ∀ p ∈ peers, p.isIpv6 = false) :
    (peers.map PeerEndpoint.printed).filterMap pinnedHost = (ipv4Hosts peers).map (fun e => dotted e.address) := by
  rw [List.filterMap_map,ipv4Hosts,List.map_filterMap]
  exact List.filterMap_congr (fun p mem => pinnedHostPlain bare (plain p mem))

section Loop
variable {env : Env} (hop : Hop)

/- Every host is taken: one line, one route and one record for each, in their order. -/
theorem loopPins {endpoints : List Text} {dests : List (Subnet 32)} {t : World} {l : List Text}
    (file : t.endpointRoutes = some l)
    (taken : (endpoints.filterMap pinnedHost).map env.destination = dests.map some) :
    ∃ u, (forEach (pinEndpoint env hop) endpoints).exec [] t = .finished () u [] ∧
      u.table = install hop dests t.table ∧ u.endpointRoutes = some (l ++ endpoints.filterMap pinnedHost) ∧
      u.output = t.output ++ (endpoints.filterMap pinnedHost).map (announcement hop) := by
  induction endpoints generalizing t l dests with
  | nil =>
    have none_ : dests = [] := by simpa using taken.symm
    exact ⟨t,rfl,by rw [none_]; rfl,by simpa using file,by simp⟩
  | cons endpoint rest ih =>
    have unfolded : forEach (pinEndpoint env hop) (endpoint::rest) =
        pinEndpoint env hop endpoint >>= fun _ => forEach (pinEndpoint env hop) rest := rfl
    rw [unfolded]
    cases pinned : pinnedHost endpoint with
    | none =>
      rw [List.filterMap_cons_none pinned] at taken ⊢
      rw [pinEndpointSkips pinned]
      exact ih file taken
    | some host =>
      rw [List.filterMap_cons_some pinned] at taken ⊢
      cases dests with
      | nil => simp at taken
      | cons dest dests =>
        obtain ⟨own,others⟩ := List.cons.inj taken
        have pinnedWorld : ({t with
            table := replace ⟨dest,hop⟩ t.table
            endpointRoutes := some (t.endpointRoutes.getD [] ++ [host])
            output := t.output ++ [announcement hop host]} : World).endpointRoutes = some (l ++ [host]) := by
          simp [file]
        obtain ⟨u,ran,table,record,output⟩ := ih pinnedWorld others
        refine ⟨u,?_,table,by simpa using record,by simpa using output⟩
        rw [pinEndpointPins pinned,ipRouteReplace,own]
        exact ran

/- One host that ip does not take ends the script. -/
theorem loopRefused {endpoints : List Text} {host : Text} (mem : host ∈ endpoints.filterMap pinnedHost)
    (refused : env.destination host = none) (t : World) :
    ∃ u, (forEach (pinEndpoint env hop) endpoints).exec [] t = .aborted u := by
  induction endpoints generalizing t with
  | nil => simp at mem
  | cons endpoint rest ih =>
    have unfolded : forEach (pinEndpoint env hop) (endpoint::rest) =
        pinEndpoint env hop endpoint >>= fun _ => forEach (pinEndpoint env hop) rest := rfl
    rw [unfolded]
    cases pinned : pinnedHost endpoint with
    | none =>
      rw [List.filterMap_cons_none pinned] at mem
      rw [pinEndpointSkips pinned]
      exact ih mem t
    | some first =>
      rw [List.filterMap_cons_some pinned] at mem
      rw [pinEndpointPins pinned,ipRouteReplace]
      cases own : env.destination first with
      | none => exact ⟨_,rfl⟩
      | some dest =>
        rcases List.mem_cons.mp mem with rfl | later
        · rw [refused] at own
          contradiction
        · exact ih later _

end Loop

/- The loop did its work: each IPv4 host announced, routed and recorded, in order. -/
def PinsIpv4 (hop : Hop) (hosts : List Endpoint) (w t : World) : Prop :=
  t.table = install hop (hosts.map Endpoint.host) w.table ∧
    t.endpointRoutes = some (hosts.map (fun e => dotted e.address)) ∧
    t.output = w.output ++ "== pinning endpoint routes outside the tunnel ==".toList::
      hosts.map (fun e => announcement hop (dotted e.address))

def bracketRefusing (t : Text) : Option (Subnet 32) := if t.head? = some '[' then none else readPrefix t

theorem bracketRefusingBare : BareIsHost bracketRefusing := by
  intro e
  have digit : (dotted e.address).head? ≠ some '[' := by
    intro bracket
    have inside := List.mem_of_head? bracket
    simp [dotted,digitsPlain] at inside
  rw [bracketRefusing,if_neg digit]
  exact readPrefixBare e

theorem bracketRefusingRefuses : RefusesBracket bracketRefusing := fun _ bracket => if_pos bracket

def formsEnv (peers : List PeerEndpoint) : Env :=
  {sampleEnv with endpoints := fun _ => peers.map PeerEndpoint.printed, destination := bracketRefusing}

def eth0 : Hop := ⟨some "192.168.1.1".toList,"eth0".toList⟩

def ipv6Peer : PeerEndpoint := .ipv6 "2001:db8::1".toList 51820 (by decide)

end WebosWireguard.EndpointForms
