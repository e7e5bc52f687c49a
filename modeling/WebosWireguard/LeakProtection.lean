import WebosWireguard.ScriptEffects
import WebosWireguard.TransitionRun

/-! IPv6 leak protection over histories of starts, stops, network changes and edits of the
configuration: while wg0 carries routes, disable_ipv6 is 1 on the interface recorded in
original-dev. The trap of a failed start does not look at wg0, so the property holds
exactly along histories whose starts are safe in the sense below. -/
namespace WebosWireguard.LeakProtection
open ShellScript ShellScript.Script SubnetTable TextLines StartText TunnelScripts ScriptEffects TransitionRun

def CarriesRoutes (w : World) : Prop := w.link.isSome = true ∧ ∃ r ∈ w.table, r.hop.dev = iface

def Protected (w : World) : Prop :=
  CarriesRoutes w → ∀ dev, w.originalDev = some dev → dev ≠ [] → w.disableIpv6 dev = 1

/- The value a failed start leaves on an interface it has recorded: the one an earlier
start saved, or else the one from before this start. -/
def backValue (w : World) (dev : Text) : Nat := w.originalIpv6Disabled.getD (w.disableIpv6 dev)

/-- A start may fail only where wg0 carries no routes or where the value given back is 1. A
start that succeeds without an original default route must install no routes or find the
interface of an earlier start still disabled. -/
def StartSafe (env : Env) (faults : List Fault) (w : World) : Prop :=
  match (start env).exec faults w with
  | .finished _ _ _ => defaultHop w.table = none →
      appliedRoutes env.grepQx (w.conf.getD []) w.routesExtra ≠ [] →
      ∀ dev, w.originalDev = some dev → dev ≠ [] → w.disableIpv6 dev = 1
  | .aborted t => CarriesRoutes t →
      ∀ dev, t.originalDev = some dev → dev ≠ [] → backValue w dev = 1

def Safe (w : World) : Event → Prop
  | .start env faults => StartSafe env faults w
  | _ => True

def Works : Event → Prop
  | .start env _ => SysctlWorks env
  | .stop env => SysctlWorks env
  | _ => True

theorem restoreSavedValue {env t dev} (works : SysctlWorks env) (recorded : t.originalDev = some dev)
    (filled : dev ≠ []) : (restoreSaved env t).disableIpv6 dev = backValue t dev := by
  unfold restoreSaved backValue
  rw [recorded]
  cases t.originalIpv6Disabled with
  | none => rfl
  | some value => simp [filled,(works dev).2]

theorem backValueKept {w t dev} (recorded : t.originalDev = some dev)
    (h : Untouched w t ∨ ∃ hop, defaultHop w.table = some hop ∧ Secured w hop.dev t) :
    backValue t dev = backValue w dev := by
  unfold backValue
  rcases h with ⟨flags,saved⟩ | ⟨hop,_,_,saved,original⟩
  · rw [flags,saved]
  · cases Option.some.inj (original.symm.trans recorded)
    rw [saved,Option.getD_some]

theorem readAsNil {env : Env} {texts dests} (reads : ReadAs env texts dests) :
    dests = [] ↔ texts = [] := by
  have same := congrArg List.length reads
  simp only [List.length_map] at same
  rw [← List.length_eq_zero_iff,← same,List.length_eq_zero_iff]

theorem raisedCarries {env w t} (raised : Raised env none w t) :
    CarriesRoutes t ↔ appliedRoutes env.grepQx (w.conf.getD []) w.routesExtra ≠ [] := by
  obtain ⟨link,config,pins,routes,readPins,readRoutes,table⟩ := raised
  obtain rfl : pins = [] := (readAsNil readPins).mpr rfl
  rw [Ne,← not_congr (readAsNil readRoutes)]
  have outside : ∀ r : Route 32 Hop, r ∈ t.table ↔ (r.dest ∈ routes ∧ r.hop = tunnelHop) ∨
      ((r ∈ w.table ∧ r.hop.dev ≠ iface) ∧ r.dest ∉ routes) := by
    intro r
    rw [table,memInstall]
    simp [install]
  constructor
  · rintro ⟨_,r,mem,dev⟩ rfl
    rcases (outside r).mp mem with ⟨listed,_⟩ | ⟨⟨_,other⟩,_⟩
    · simp at listed
    · exact other dev
  · intro some
    obtain ⟨dest,listed⟩ := List.exists_mem_of_ne_nil routes some
    exact ⟨link,⟨dest,tunnelHop⟩,(outside _).mpr (.inl ⟨listed,rfl⟩),rfl⟩

theorem startProtectedIff {env faults w} (works : SysctlWorks env) :
    Protected (startRun env faults w) ↔ StartSafe env faults w := by
  have spec := wpExec (wpAnd (startIpv6 works w) (startRaised env w)) faults
  unfold startRun StartSafe
  revert spec
  cases (start env).exec faults w with
  | finished a t rest =>
    intro given
    obtain ⟨flags,raised⟩ := given
    cases found : defaultHop w.table with
    | none =>
      simp only [found] at flags raised
      obtain ⟨⟨same,_⟩,dev⟩ := flags
      unfold Protected
      rw [raisedCarries raised,dev,same]
      exact ⟨fun h _ => h,fun h => h rfl⟩
    | some hop =>
      simp only [found] at flags
      obtain ⟨disabled,_,dev⟩ := flags
      refine ⟨fun _ none => by simp at none,fun _ _ d recorded _ => ?_⟩
      cases Option.some.inj (dev.symm.trans recorded)
      simp [disabled]
  | aborted t =>
    intro given
    obtain ⟨flags,_⟩ := given
    obtain ⟨table,link,dev,_⟩ := restoreSavedKeeps env t
    have carries : CarriesRoutes (restoreSaved env t) ↔ CarriesRoutes t := by
      unfold CarriesRoutes
      rw [table,link]
    have value : ∀ d, t.originalDev = some d → d ≠ [] →
        (restoreSaved env t).disableIpv6 d = backValue w d :=
      fun d recorded filled => (restoreSavedValue works recorded filled).trans (backValueKept recorded flags)
    unfold Protected restoreIpv6AfterFailedStart
    rw [carries,dev]
    refine imp_congr_right (fun _ => forall_congr' (fun d => ?_))
    refine imp_congr_right (fun recorded => imp_congr_right (fun filled => ?_))
    rw [value d recorded filled]

theorem stepProtectedIff {w event} (works : Works event) (here : Protected w) :
    Safe w event ↔ ∀ t, step w event = some t → Protected t := by
  cases event with
  | start env faults =>
    simp only [step,Option.some.injEq,forall_eq']
    exact (startProtectedIff works).symm
  | stop env =>
    refine ⟨fun _ t stepped => ?_,fun _ => trivial⟩
    cases Option.some.inj stepped
    intro given
    obtain ⟨up,_⟩ := given
    simp [(stopRunIpv6 env w).2] at up
  | network routes =>
    refine ⟨fun _ t stepped => ?_,fun _ => trivial⟩
    cases Option.some.inj stepped
    intro given
    obtain ⟨up,r,mem,dev⟩ := given
    refine here ⟨up,r,?_,dev⟩
    simpa [dev] using mem
  | configure conf address routesExtra =>
    refine ⟨fun _ t stepped => ?_,fun _ => trivial⟩
    cases Option.some.inj stepped
    exact here

def tenNet : Subnet 32 := ⟨10*2^24,8,by decide,by decide,by decide⟩

def sampleEnv : Env where
  here := []
  wgExecutable := true
  wggoExecutable := true
  linkCreated := true
  endpoints _ := []
  destination t := if t = "10.0.0.0/8".toList then some tenNet else none
  grepQx route applied := applied.contains route
  sysctlReads _ := true
  sysctlWrites _ := true

def defaultVia (dev : Text) : Route 32 Hop :=
  ⟨Subnet.everything 32,⟨some "192.168.1.1".toList,dev⟩⟩

def sampleKey : Text := "AAAAAAAAAAAAAAAAAAAAAAAAAAAAAAAAAAAAAAAAAAA=".toList

def sampleWorld (allowed : Text) : World where
  table := [defaultVia "eth0".toList]
  link := none
  disableIpv6 _ := 0
  conf := some ("[Interface]\nPrivateKey=".toList ++ sampleKey ++ "\n[Peer]\nPublicKey=".toList ++
    sampleKey ++ "\nAllowedIPs=".toList ++ allowed)
  address := some "10.0.0.2".toList
  addressTmp := none
  routesExtra := none
  setconf := none
  originalGateway := none
  originalDev := none
  originalIpv6Disabled := none
  endpointRoutes := none
  appliedRoutes := none
  output := []

theorem sampleProtected (allowed : Text) : Protected (sampleWorld allowed) := by
  intro given
  obtain ⟨up,_⟩ := given
  simp [sampleWorld] at up

theorem sampleEnvWorks : SysctlWorks sampleEnv := fun _ => ⟨rfl,rfl⟩

def oneRoute : Text := "10.0.0.0/8".toList

/- The second route has host bits set: ip refuses it when the first is in place. -/
def hostBitsSet : Text := "10.0.0.0/8,10.1.2.3/8".toList

end WebosWireguard.LeakProtection
