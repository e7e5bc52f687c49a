import WebosWireguard.Ipv6Restore

/-! A stop.sh run with no start since the last one. A reboot keeps the files and forgets
what the kernel held; the new kernel's table and flags are arbitrary, without wg0. What
`ip route replace` does when the recorded gateway cannot be reached is not modelled. -/
namespace WebosWireguard.StopAgain
open ShellScript ShellScript.Script SubnetTable TextLines TunnelScripts ScriptEffects TransitionRun
open Ipv6Restore (IsStart)
open LeakProtection (sampleEnv sampleWorld oneRoute defaultVia)

inductive Turn where
  | event (e : Event)
  | reboot (table : Table 32 Hop) (disableIpv6 : Text → Nat)

def turn (w : World) : Turn → Option World
  | .event e => step w e
  | .reboot table disableIpv6 =>
    some {w with table := outside table, link := none, disableIpv6 := disableIpv6}

/- A television that has never run start.sh. -/
structure Fresh (w : World) : Prop where
  saved : w.originalIpv6Disabled = none
  dev : w.originalDev = none

/- A value is saved only for an interface, and that interface is not the tunnel. -/
structure Recorded (w : World) : Prop where
  saved : w.originalIpv6Disabled.isSome = true → w.originalDev.isSome = true
  dev : w.originalDev ≠ some iface

theorem recordedOfIpv6 {w t : World} (same : ipv6 t = ipv6 w) (here : Recorded w) : Recorded t := by
  simp only [ipv6,Prod.mk.injEq] at same
  obtain ⟨_,saved,dev⟩ := same
  exact ⟨by rw [saved,dev]; exact here.saved,by rw [dev]; exact here.dev⟩

theorem recordingRecorded {env : Env} {w : World} (here : Recorded w) :
    (recording env).wp (fun found t => Recorded t ∧ (found.isSome = true → t.originalDev.isSome = true))
      Recorded w := by
  refine wpThen (wpMono (checkFilesKeeps env w)
    (fun _ _ same => recordedOfIpv6 (congrArg Prod.fst same) here)
    (fun _ same => recordedOfIpv6 (congrArg Prod.fst same) here)) (fun _ t at_ => ?_)
  have quiet : ∀ out, Recorded {t with output := out} := fun out => ⟨at_.saved,at_.dev⟩
  simp only [wpSeq,say,wpCommand,effectless,wpRead,id]
  refine ⟨at_,quiet _,?_⟩
  cases found : defaultHop t.table with
  | none => exact ⟨quiet _,quiet _,quiet _,fun none => by simp at none⟩
  | some hop =>
    have tunnel : some hop.dev ≠ some iface := fun same => defaultHopOutside found (Option.some.inj same)
    have empty : some [] ≠ some iface := by decide
    exact ⟨quiet _,⟨fun _ => rfl,empty⟩,⟨fun _ => rfl,tunnel⟩,fun _ => rfl⟩

theorem startRecorded (env : Env) {w : World} (here : Recorded w) :
    (start env).wp (fun _ t => Recorded t) Recorded w := by
  refine wpThen (recordingRecorded here) (fun found a ⟨atA,devA⟩ => ?_)
  have carry : ∀ {t u : World}, ipv6 u = ipv6 t →
      Recorded t ∧ (found.isSome = true → t.originalDev.isSome = true) →
      Recorded u ∧ (found.isSome = true → u.originalDev.isSome = true) := by
    intro t u same at_
    have dev : u.originalDev = t.originalDev := congrArg (fun v => v.2.2) same
    exact ⟨recordedOfIpv6 same at_.1,by rw [dev]; exact at_.2⟩
  refine wpThen (wpMono (recordGatewayKeeps found a)
    (fun _ _ same => carry (congrArg Prod.fst same) ⟨atA,devA⟩)
    (fun _ same => recordedOfIpv6 (congrArg Prod.fst same) atA)) (fun _ b atB => ?_)
  refine wpThen (wpMono (prepareKeeps b)
    (fun _ _ same => carry (congrArg Prod.fst same) atB)
    (fun _ same => recordedOfIpv6 (congrArg Prod.fst same) atB.1)) (fun mtu c atC => ?_)
  have kept : ∀ t : World, (t.originalDev,routing t) = (c.originalDev,routing c) → found.isSome = true →
      Recorded t := by
    intro t same some
    have dev : t.originalDev = c.originalDev := congrArg Prod.fst same
    exact ⟨fun _ => by rw [dev]; exact atC.2 some,by rw [dev]; exact atC.1.dev⟩
  refine wpThen (M := fun _ t => Recorded t) ?_ (fun _ d atD => ?_)
  · cases found with
    | none => exact atC.1
    | some hop =>
      exact wpMono (secureOriginalKeeps (some hop) c) (fun _ t same => kept t same rfl)
        (fun t same => kept t same rfl)
  · exact wpMono (raiseTunnelKeeps env found mtu d) (fun _ _ same => recordedOfIpv6 same atD)
      (fun _ same => recordedOfIpv6 same atD)

theorem restoreSavedRecorded (env : Env) {w : World} (here : Recorded w) :
    Recorded (restoreSaved env w) ∧ (restoreSaved env w).originalIpv6Disabled = none := by
  have dev := (restoreSavedKeeps env w).2.2.1
  have saved : (restoreSaved env w).originalIpv6Disabled = none := by
    unfold restoreSaved
    split
    · split <;> rfl
    · rename_i missing
      cases value : w.originalIpv6Disabled with
      | none => rfl
      | some v =>
        obtain ⟨d,recorded⟩ := Option.isSome_iff_exists.mp (here.saved (by simp [value]))
        exact absurd value (missing d v recorded)
  exact ⟨⟨by simp [saved],by rw [dev]; exact here.dev⟩,saved⟩

theorem turnRecorded {w t : World} {e : Turn} (here : Recorded w) (turned : turn w e = some t) :
    Recorded t := by
  cases e with
  | reboot table flags =>
    cases Option.some.inj turned
    exact ⟨here.saved,here.dev⟩
  | event e =>
    cases e with
    | start env faults =>
      cases Option.some.inj turned
      have spec := wpExec (startRecorded env here) faults
      unfold startRun
      revert spec
      cases (start env).exec faults w with
      | finished a u rest => exact fun at_ => at_
      | aborted u => exact fun at_ => (restoreSavedRecorded env at_).1
    | stop env =>
      cases Option.some.inj turned
      exact recordedOfIpv6 (stopRunStopped env w).ipv6 (restoreSavedRecorded env here).1
    | network routes =>
      cases Option.some.inj turned
      exact ⟨here.saved,here.dev⟩
    | configure conf address routesExtra =>
      cases Option.some.inj turned
      exact ⟨here.saved,here.dev⟩

/- Nothing is left to undo but the default route. -/
structure Idle (w : World) : Prop where
  saved : w.originalIpv6Disabled = none
  applied : w.appliedRoutes = none
  endpoints : w.endpointRoutes = none
  tunnel : ∀ r ∈ w.table, r.hop.dev ≠ iface
  dev : w.originalDev ≠ some iface

theorem stopIdle {env : Env} {w : World} (here : Recorded w) : Idle (stopRun env w) := by
  have stopped := stopRunStopped env w
  obtain ⟨recorded,saved⟩ := restoreSavedRecorded env here
  have same := recordedOfIpv6 stopped.ipv6 recorded
  refine ⟨(congrArg (fun v => v.2.1) stopped.ipv6).trans saved,congrArg Prod.fst stopped.files,
    congrArg (fun v => v.2.1) stopped.files,fun r mem => ?_,same.dev⟩
  rw [stopped.table] at mem
  simpa using (List.mem_filter.mp mem).2

def Calm : Turn → Prop
  | .event e => ¬ IsStart e
  | .reboot _ _ => True

theorem turnIdle {w t : World} {e : Turn} (idle : Idle w) (calm : Calm e) (turned : turn w e = some t) :
    Idle t := by
  cases e with
  | reboot table flags =>
    cases Option.some.inj turned
    exact ⟨idle.saved,idle.applied,idle.endpoints,
      fun r mem => by simpa using (List.mem_filter.mp mem).2,idle.dev⟩
  | event e =>
    cases e with
    | start env faults => exact absurd trivial calm
    | stop env =>
      cases Option.some.inj turned
      exact stopIdle ⟨by simp [idle.saved],idle.dev⟩
    | network routes =>
      cases Option.some.inj turned
      refine ⟨idle.saved,idle.applied,idle.endpoints,fun r mem => ?_,idle.dev⟩
      rcases List.mem_append.mp mem with new | kept
      · simpa using (List.mem_filter.mp new).2
      · exact idle.tunnel r (List.mem_filter.mp kept).1
    | configure conf address routesExtra =>
      cases Option.some.inj turned
      exact ⟨idle.saved,idle.applied,idle.endpoints,idle.tunnel,idle.dev⟩

def Inert (env : Env) (w : World) : Prop :=
  (∀ r, r ∈ (stopRun env w).table ↔ r ∈ w.table) ∧ (stopRun env w).disableIpv6 = w.disableIpv6

/- The route that stop.sh writes from original-gateway and original-dev. -/
def recordedDefault (w : World) : Option (Route 32 Hop) :=
  let gw := w.originalGateway.getD []
  let dev := w.originalDev.getD []
  if gw ≠ [] ∧ dev ≠ [] then some ⟨Subnet.everything 32,⟨some gw,dev⟩⟩ else none

def DefaultCurrent (w : World) : Prop :=
  ∀ back, recordedDefault w = some back → ∀ r, r.dest = Subnet.everything 32 → (r ∈ w.table ↔ r = back)

theorem idleFlags {env : Env} {w : World} (idle : Idle w) :
    (stopRun env w).disableIpv6 = w.disableIpv6 := by
  have same : ipv6 (stopRun env w) = ipv6 w := by
    rw [(stopRunStopped env w).ipv6]
    unfold restoreSaved
    rw [idle.saved]
    cases w.originalDev <;> rfl
  exact congrArg Prod.fst same

theorem idleTable {env : Env} {w : World} (idle : Idle w) :
    (stopRun env w).table = match recordedDefault w with
      | some back => replace back w.table
      | none => w.table := by
  have table := (stopRunStopped env w).table
  rw [undone,idle.applied,idle.endpoints] at table
  refine table.trans ?_
  change (restoredDefault _ _ w.table).filter (fun r => r.hop.dev ≠ iface) = _
  unfold restoredDefault recordedDefault
  dsimp only
  split
  · rename_i filled
    have own : w.originalDev.getD [] ≠ iface := by
      intro same
      cases recorded : w.originalDev with
      | none => simp [recorded] at filled
      | some d =>
        rw [recorded] at same
        exact idle.dev (recorded.trans (congrArg some same))
    refine List.filter_eq_self.mpr (fun r mem => ?_)
    rcases memReplace.mp mem with rfl | ⟨here,_⟩
    · simpa using own
    · simpa using idle.tunnel r here
  · exact List.filter_eq_self.mpr (fun r mem => by simpa using idle.tunnel r mem)

theorem idleInertIff {env : Env} {w : World} (idle : Idle w) : Inert env w ↔ DefaultCurrent w := by
  unfold Inert DefaultCurrent
  rw [idleTable idle,and_iff_left (idleFlags idle)]
  cases given : recordedDefault w with
  | none => simp
  | some back =>
    have dest : back.dest = Subnet.everything 32 := by
      unfold recordedDefault at given
      dsimp only at given
      split at given
      · cases Option.some.inj given
        rfl
      · contradiction
    simp only [Option.some.injEq,forall_eq']
    rw [replaceIdleIff,dest]

theorem sampleFresh (allowed : Text) : Fresh (sampleWorld allowed) := ⟨rfl,rfl⟩

def used : List Turn := [.event (.start sampleEnv [])]

/- The router has been exchanged for another on the same network. -/
def newRouter : Route 32 Hop := ⟨Subnet.everything 32,⟨some "192.168.1.254".toList,"eth0".toList⟩⟩

end WebosWireguard.StopAgain
