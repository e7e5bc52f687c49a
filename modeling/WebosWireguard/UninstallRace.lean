import WebosWireguard.Ipv6Restore
import WebosWireguard.OperationLock
import WebosWireguard.PinCleanup

/-! uninstall.sh beside one start.sh, command by command. Both take operation.lock as in
OperationLock, under the pids 0 and 1, and no process is killed. Any command of start.sh may
fail: after `rm -rf "$BASE"` its reads and writes below the directory do, and which do is left
to the schedule. init.d, the sockets and the upload server are not modelled. -/
namespace WebosWireguard.UninstallRace
open ShellScript ShellScript.Script SubnetTable TextLines TunnelScripts ScriptEffects TransitionRun
open Ipv6Restore (Held Rested restedHeld restoreSavedRested)
open OperationLock (Place Owns OwnerSpared)
open PinCleanup (withoutSublist withoutGone pinnedHostFilled)
open LeakProtection (sampleEnv sampleWorld sampleEnvWorks oneRoute)

def startPid : OperationLock.Pid := 0
def stopPid : OperationLock.Pid := 1

/- What `rm -rf "$BASE"` takes from the world. -/
def removeBase (w : World) : World :=
  {w with
    conf := none, address := none, addressTmp := none, routesExtra := none, setconf := none
    originalGateway := none, originalDev := none, originalIpv6Disabled := none
    endpointRoutes := none, appliedRoutes := none}

/- uninstall.sh between its stop.sh and the removal. wg0 goes with its daemon. -/
def cleanup (env : Env) : Script World Unit := do
  note "== stopping processes ==".toList
  always removeLink
  note "== cleaning interface and routes ==".toList
  always removeLink
  always (ipRouteDel env StartText.lowerHalf (some iface))
  always (ipRouteDel env StartText.upperHalf (some iface))
  note "== removing autostart ==".toList
  note "== removing sockets ==".toList
  note "== removing runtime data ==".toList

inductive Phase where
  | idle
  | stopping (left : Script World Unit)
  | stopped (ok : Bool)
  | cleaning (left : Script World Unit)
  | removed

structure State where
  world : World
  lock : OperationLock.State
  starting : Script World Unit
  phase : Phase

inductive Action where
  | launchStart
  | launchUninstall
  | start (fault : Fault) (reused : Bool)
  | uninstall (reused : Bool)

section Step
variable (env : Env)

/- The exit of start.sh releases the lock, after the restoring trap unless it succeeded. -/
def startStep (s : State) (fault : Fault) (reused : Bool) : Option State :=
  match s.lock.place startPid with
  | .holding =>
    match s.starting,s.starting.advance fault s.world with
    | _,some (left,w) => some {s with world := w, starting := left}
    | .abort,none =>
      (OperationLock.advance s.lock startPid reused).map (fun lock =>
        {s with world := restoreIpv6AfterFailedStart env s.world, lock := lock})
    | _,none => (OperationLock.advance s.lock startPid reused).map (fun lock => {s with lock := lock})
  | _ => (OperationLock.advance s.lock startPid reused).map (fun lock => {s with lock := lock})

def stopStep (s : State) (left : Script World Unit) (reused : Bool) : Option State :=
  match s.lock.place stopPid with
  | .holding =>
    match left.advance .none s.world with
    | some (rest,w) => some {s with world := w, phase := .stopping rest}
    | none => (OperationLock.advance s.lock stopPid reused).map (fun lock =>
        {s with lock := lock, phase := .stopped true})
  | _ => (OperationLock.advance s.lock stopPid reused).map (fun lock =>
      {s with lock := lock, phase := if lock.place stopPid = .ended then .stopped false else .stopping left})

/- `stop.sh || true`: the exit status of stop.sh is not looked at. -/
def uninstallStep (s : State) (reused : Bool) : Option State :=
  match s.phase with
  | .idle | .removed => none
  | .stopping left => stopStep s left reused
  | .stopped _ => some {s with phase := .cleaning (cleanup env)}
  | .cleaning left =>
    match left.advance .none s.world with
    | some (rest,w) => some {s with world := w, phase := .cleaning rest}
    | none => some {s with world := removeBase s.world, lock := {s.lock with lock := none}, phase := .removed}

def step (s : State) : Action → Option State
  | .launchStart =>
    if s.lock.place startPid = .absent then some {s with lock := s.lock.move startPid .firstMkdir} else none
  | .launchUninstall =>
    match s.phase with
    | .idle => some {s with lock := s.lock.move stopPid .firstMkdir, phase := .stopping (stop env)}
    | _ => none
  | .start fault reused => startStep env s fault reused
  | .uninstall reused => uninstallStep env s reused

end Step

structure Initial (env : Env) (w : World) (s : State) : Prop where
  world : s.world = w
  places : OperationLock.Initial s.lock
  starting : s.starting = start env
  phase : s.phase = .idle

def Finished (s : State) : Prop := s.lock.place startPid = .ended ∧ s.phase = .removed

/-! What one start leaves for the stop. -/

/- Every route outside wg0 that the start has added is on file, and alone for its destination. -/
def Listed (env : Env) (w t : World) : Prop :=
  ∀ r ∈ t.table, r.hop.dev ≠ iface → r ∉ w.table →
    (∃ text ∈ t.endpointRoutes.getD [], text ≠ [] ∧ env.destination text = some r.dest) ∧ Single r.dest t.table

section Listed
variable {env : Env} {w : World}

theorem listedOld {t : World} (old : ∀ r ∈ t.table, r ∈ w.table) : Listed env w t :=
  fun r mem _ fresh => absurd (old r mem) fresh

theorem listedCongr {t u : World} (table : u.table = t.table) (file : u.endpointRoutes = t.endpointRoutes)
    (listed : Listed env w t) : Listed env w u := by
  unfold Listed
  rw [table,file]
  exact listed

def routes (t : World) : Table 32 Hop × Option (List Text) := (t.table,t.endpointRoutes)

theorem listedKeeps {α : Type} {p : Script World α} {t : World} (keeps : Keeps routes p) (listed : Listed env w t) :
    p.wp (fun _ u => Listed env w u) (fun _ => True) t :=
  wpMono (keeps t) (fun _ _ same => listedCongr (congrArg Prod.fst same) (congrArg Prod.snd same) listed)
    (fun _ _ => trivial)

theorem listedReplace {t : World} {d : Subnet 32} {hop : Hop} (listed : Listed env w t) {r : Route 32 Hop}
    (mem : r ∈ replace ⟨d,hop⟩ t.table) (outside : r.hop.dev ≠ iface) (fresh : r ∉ w.table) :
    r = ⟨d,hop⟩ ∨ ((∃ text ∈ t.endpointRoutes.getD [], text ≠ [] ∧ env.destination text = some r.dest) ∧
      Single r.dest (replace ⟨d,hop⟩ t.table)) := by
  rcases memReplace.mp mem with same | ⟨old,_⟩
  · exact .inl same
  · obtain ⟨recorded,single⟩ := listed r old outside fresh
    exact .inr ⟨recorded,singleReplace (.inr single)⟩

theorem pinEndpointListed {hop : Hop} (endpoint : Text) {t : World} (listed : Listed env w t) :
    (pinEndpoint env hop endpoint).wp (fun _ u => Listed env w u) (fun _ => True) t := by
  unfold pinEndpoint
  cases pinned : pinnedHost endpoint with
  | none => exact listed
  | some host =>
    have quiet : Keeps routes (announcePin host hop) := by
      unfold announcePin
      split <;> exact sayKeeps (fun _ _ => rfl) _
    refine wpThen (listedKeeps quiet listed) (fun _ u listedU => ?_)
    unfold ipRouteReplace
    cases read : env.destination host with
    | none => trivial
    | some d =>
      refine ⟨trivial,trivial,trivial,trivial,?_⟩
      intro r mem outside fresh
      rcases listedReplace listedU mem outside fresh with rfl | ⟨⟨text,recorded,named⟩,single⟩
      · exact ⟨⟨host,by simp,pinnedHostFilled pinned,read⟩,singleReplace (.inl rfl)⟩
      · exact ⟨⟨text,by simp [recorded],named⟩,single⟩

theorem applyRouteListed (route : Text) {t : World} (listed : Listed env w t) :
    (applyRoute env route).wp (fun _ u => Listed env w u) (fun _ => True) t := by
  unfold applyRoute
  split
  · exact listed
  refine wpThen (listedKeeps (sayKeeps (fun _ _ => rfl) _) listed) (fun _ u listedU => ?_)
  unfold ipRouteReplace
  cases env.destination route with
  | none => trivial
  | some d =>
    refine ⟨trivial,trivial,?_⟩
    intro r mem outside fresh
    rcases listedReplace listedU mem outside fresh with rfl | kept
    · exact absurd rfl outside
    · exact kept

theorem raiseTunnelListed (found : Option Hop) (mtu : Text) {u : World} (old : ∀ r ∈ u.table, r ∈ w.table) :
    (raiseTunnel env found mtu).wp (fun _ t => Listed env w t) (fun _ => True) u := by
  refine wpThen (keepsFinished (keepsMap printSetconfKeeps (fun v => v.2.1)) u) (fun _ a atA => ?_)
  refine wpThen (wpMono (previousCleanupWp a) (fun _ _ h => h) (fun _ _ => trivial)) (fun _ b ⟨tableB,_⟩ => ?_)
  refine wpThen (startWireguardGoWp env b) (fun _ c ⟨tableC,_,_⟩ => ?_)
  have oldC : ∀ r ∈ c.table, r ∈ w.table := by
    intro r mem
    rw [tableC,tableB,show a.table = u.table from atA] at mem
    exact old r (List.mem_of_mem_filter mem)
  refine wpThen (M := fun _ t => Listed env w t) ?_ (fun _ d atD => ?_)
  · unfold pinEndpoints
    simp only [wpSeq,say,wpCommand,true_and]
    have start : Listed env w {c with
        output := c.output ++ ["== pinning endpoint routes outside the tunnel ==".toList]
        endpointRoutes := some []} := listedOld oldC
    cases found with
    | none => exact start
    | some hop =>
      simp only [wpSeq,wpRead]
      exact wpForEach (I := fun _ t => Listed env w t) (fun endpoint _ t listed => pinEndpointListed endpoint listed) start
  refine wpThen (listedKeeps (@assignAddressesKeeps _ routes (fun _ _ _ => rfl) mtu) atD) (fun _ e atE => ?_)
  have generate : Keeps routes (generateRoutes env) :=
    keepsMap (generateRoutesKeeps env) (fun v => (v.2.1,v.2.2.2.2))
  refine wpThen (listedKeeps generate atE) (fun _ f atF => ?_)
  refine wpThen (M := fun _ t => Listed env w t) ?_ (fun _ g atG => ?_)
  · unfold applyRoutes
    simp only [wpSeq,say,wpCommand,wpRead,true_and]
    exact wpForEach (I := fun _ t => Listed env w t) (fun route _ t listed => applyRouteListed route listed)
      (listedCongr rfl rfl atF)
  · exact listedKeeps (keepsMap showStatusKeeps (fun v => (v.2.1,v.2.2.2.2))) atG

theorem startListed : (start env).wp (fun _ t => Listed env w t) (fun _ => True) w := by
  refine wpThen (wpMono (recordingWp w) (fun _ _ h => h) (fun _ _ => trivial)) (fun found a ⟨_,atA,_,_⟩ => ?_)
  refine wpThen (keepsFinished (keepsMap (recordGatewayKeeps _) Prod.snd) a) (fun _ b atB => ?_)
  refine wpThen (keepsFinished (keepsMap prepareKeeps Prod.snd) b) (fun mtu c atC => ?_)
  refine wpThen (keepsFinished (keepsMap (secureOriginalKeeps _) Prod.snd) c) (fun _ d atD => ?_)
  have same : routing d = routing w := atD.trans (atC.trans (atB.trans atA))
  have table : d.table = w.table := congrArg Prod.fst same
  exact raiseTunnelListed found mtu (fun r mem => by rwa [table] at mem)

end Listed

section Sections
variable {env : Env} {w : World}

structure Ready (env : Env) (w t : World) : Prop where
  held : Held w.disableIpv6 t
  listed : Listed env w t

structure Clean (w t : World) : Prop where
  rested : Rested w.disableIpv6 t
  link : t.link = none
  table : ∀ r ∈ t.table, r.dest ≠ Subnet.everything 32 → r ∈ w.table

structure Gone (w t : World) : Prop where
  clean : Clean w t
  conf : t.conf = none
  dev : t.originalDev = none

theorem heldUntouched {t : World} (fresh : w.originalIpv6Disabled = none) (untouched : Untouched w t) :
    Held w.disableIpv6 t :=
  restedHeld ⟨untouched.2.trans fresh,untouched.1⟩

theorem heldSecured {t : World} {hop : Hop} (fresh : w.originalIpv6Disabled = none)
    (found : defaultHop w.table = some hop) (secured : Secured w hop.dev t) : Held w.disableIpv6 t := by
  obtain ⟨flags,saved,dev⟩ := secured
  unfold Held
  rw [saved,fresh]
  exact ⟨hop.dev,defaultHopFilled found,dev,rfl,flags⟩

theorem startReady (works : SysctlWorks env) (fresh : w.originalIpv6Disabled = none) :
    (start env).wp (fun _ t => Ready env w t) (fun t => Held w.disableIpv6 t) w := by
  refine wpMono (wpAnd (startIpv6 works w) startListed) (fun _ t given => ?_) (fun t given => ?_)
  · obtain ⟨flags,listed⟩ := given
    refine ⟨?_,listed⟩
    cases found : defaultHop w.table with
    | none =>
      rw [found] at flags
      exact heldUntouched fresh flags.1
    | some hop =>
      rw [found] at flags
      exact heldSecured fresh found flags
  · rcases given.1 with untouched | ⟨hop,found,secured⟩
    · exact heldUntouched fresh untouched
    · exact heldSecured fresh found secured

theorem restoreReady (works : SysctlWorks env) {t : World} (held : Held w.disableIpv6 t) (listed : Listed env w t) :
    Ready env w (restoreIpv6AfterFailedStart env t) := by
  obtain ⟨table,_,_,files⟩ := restoreSavedKeeps env t
  exact ⟨restedHeld (restoreSavedRested works held),listedCongr table (congrArg (fun v => v.2.1) files) listed⟩

theorem readyStart (fresh : w.originalIpv6Disabled = none) : Ready env w w :=
  ⟨restedHeld ⟨fresh,rfl⟩,listedOld (fun _ mem => mem)⟩

theorem stoppedClean (works : SysctlWorks env) {t u : World} (ready : Ready env w t) (stopped : Stopped env t u) :
    Clean w u := by
  have flags := restoreSavedRested works ready.held
  have saved : u.originalIpv6Disabled = (restoreSaved env t).originalIpv6Disabled :=
    congrArg (fun v => v.2.1) stopped.ipv6
  have disabled : u.disableIpv6 = (restoreSaved env t).disableIpv6 := congrArg Prod.fst stopped.ipv6
  refine ⟨⟨saved.trans flags.1,disabled.trans flags.2⟩,stopped.link,?_⟩
  intro r mem other
  rw [stopped.table] at mem
  obtain ⟨inside,outside⟩ := List.mem_filter.mp mem
  have below : r ∈ undone env t := by
    unfold restoredDefault at inside
    split at inside
    · rcases memReplace.mp inside with rfl | ⟨old,_⟩
      · exact absurd rfl other
      · exact old
    · exact inside
  have cut := withoutSublist env (some iface) (t.appliedRoutes.getD []) t.table
  have before : r ∈ t.table := cut.subset ((withoutSublist env none _ _).subset below)
  by_contra fresh
  obtain ⟨⟨text,recorded,filled,read⟩,single⟩ := ready.listed r before (by simpa using outside) fresh
  exact withoutGone recorded filled read (singleSublist cut single) r below rfl

theorem stopClean (works : SysctlWorks env) {t : World} (ready : Ready env w t) :
    (stop env).wp (fun _ u => Clean w u) (fun _ => False) t :=
  wpMono (stopWp env t) (fun _ _ stopped => stoppedClean works ready stopped) (fun _ h => h)

theorem cleanSublist {t u : World} (clean : Clean w t) (flags : ipv6 u = ipv6 t) (link : u.link = none)
    (table : u.table.Sublist t.table) : Clean w u := by
  refine ⟨⟨?_,?_⟩,link,fun r mem => clean.table r (table.subset mem)⟩
  · exact (congrArg (fun v => v.2.1) flags).trans clean.rested.1
  · exact (congrArg Prod.fst flags).trans clean.rested.2

theorem cleanupClean {t : World} (clean : Clean w t) :
    (cleanup env).wp (fun _ u => Clean w u) (fun _ => False) t := by
  have del : ∀ (text : Text) {u : World}, Clean w u → Clean w (ipRouteDel env text (some iface) u) := by
    intro text u here
    unfold ipRouteDel
    split
    · exact cleanSublist here rfl here.link List.eraseP_sublist
    · exact here
  have quiet : ∀ (out : List Text) {u : World}, Clean w u → Clean w {u with output := out} :=
    fun out u here => cleanSublist here rfl here.link (List.Sublist.refl _)
  have unlinked : ∀ {u : World}, Clean w u → Clean w (removeLink u) :=
    fun here => cleanSublist here rfl rfl List.filter_sublist
  simp only [cleanup,note,wpSeq,wpAlways]
  exact quiet _ (quiet _ (quiet _ (del _ (del _ (unlinked (quiet _ (unlinked (quiet _ clean))))))))

theorem removeBaseGone {t : World} (clean : Clean w t) : Gone w (removeBase t) :=
  ⟨⟨⟨rfl,clean.rested.2⟩,clean.link,clean.table⟩,rfl,rfl⟩

/- Without its configuration a start ends at its first checks. -/
theorem startGone {t : World} (gone : Gone w t) : (start env).wp (fun _ _ => False) (fun u => Gone w u) t := by
  have quiet : ∀ out, Gone w {t with output := out} := fun out =>
    ⟨⟨gone.clean.rested,gone.clean.link,gone.clean.table⟩,gone.conf,gone.dev⟩
  unfold start recording checkFiles
  cases wg : env.wgExecutable with
  | false => exact ⟨gone,gone,quiet _⟩
  | true =>
    cases wggo : env.wggoExecutable with
    | false => exact ⟨gone,gone,quiet _⟩
    | true =>
      simp only [orExit,if_true,seqAssoc,pureSeq,wpSeq,wpRead,gone.conf,Option.isSome_none,Bool.false_eq_true,if_false]
      exact ⟨gone,gone,quiet _⟩

theorem restoreGone {t : World} (gone : Gone w t) : Gone w (restoreIpv6AfterFailedStart env t) := by
  have same : restoreIpv6AfterFailedStart env t = t := by
    unfold restoreIpv6AfterFailedStart restoreSaved
    rw [gone.dev]
  rw [same]
  exact gone

end Sections

/-! Who may touch the world. -/

def Cleaning : Phase → Prop
  | .stopped _ | .cleaning _ => True
  | _ => False

/-- The lock is not taken over from a live owner, no start takes it between the end of
uninstall's stop.sh and the removal, uninstall goes on only after a stop.sh that succeeded,
and no start fails with a host route it has pinned and not put on file. -/
def Orderly (env : Env) (w : World) (s : State) : Action → Prop
  | .start _ reused => OwnerSpared s.lock (.advance startPid reused) ∧
      (s.lock.place startPid = .firstMkdir ∨ s.lock.place startPid = .secondMkdir → s.lock.lock = none →
        ¬ Cleaning s.phase) ∧
      (s.lock.place startPid = .holding → s.starting = .abort → s.phase ≠ .removed → Listed env w s.world)
  | .uninstall reused => OwnerSpared s.lock (.advance stopPid reused) ∧ s.phase ≠ .stopped false
  | _ => True

def Early (env : Env) (w : World) (place : Place) (starting : Script World Unit) (world : World) : Prop :=
  match place with
  | .holding => starting.wp (fun _ t => Ready env w t) (fun t => Held w.disableIpv6 t) world
  | .ended => Ready env w world
  | _ => world = w

def Late (w : World) (place : Place) (starting : Script World Unit) (world : World) : Prop :=
  match place with
  | .holding => starting.wp (fun _ _ => False) (fun t => Gone w t) world
  | _ => Gone w world

/- Until stop.sh holds the lock the world is the start's or as it has left it; from then on
until the removal it is uninstall's. -/
def Resource (env : Env) (w : World) (place other : Place) (starting : Script World Unit) (world : World) : Phase → Prop
  | .idle | .stopped false => Early env w place starting world
  | .stopping left =>
    if other = .holding then left.wp (fun _ t => Clean w t) (fun _ => False) world
    else left = stop env ∧ Early env w place starting world
  | .stopped true => Clean w world ∧ ¬ Owns place
  | .cleaning left => left.wp (fun _ t => Clean w t) (fun _ => False) world ∧ ¬ Owns place
  | .removed => Late w place starting world

def StopPlace (place : Place) : Phase → Prop
  | .idle => place = .absent
  | .stopping _ => place.alive = true
  | _ => place = .ended

structure Inv (env : Env) (w : World) (s : State) : Prop where
  lock : OperationLock.Inv s.lock
  others : ∀ q, q ≠ startPid → q ≠ stopPid → ¬ Owns (s.lock.place q)
  unstarted : s.lock.place startPid ≠ .holding → s.lock.place startPid ≠ .ended → s.starting = start env
  stopPlace : StopPlace (s.lock.place stopPid) s.phase
  resource : Resource env w (s.lock.place startPid) (s.lock.place stopPid) s.starting s.world s.phase

section Steps
variable {env : Env} {w : World}

theorem initialInv {s : State} (initial : Initial env w s) : Inv env w s where
  lock := OperationLock.initialInv initial.places
  others q _ _ := by simp [initial.places q,Owns]
  unstarted _ _ := initial.starting
  stopPlace := by
    rw [initial.phase]
    exact initial.places stopPid
  resource := by
    rw [initial.phase,initial.places startPid]
    exact initial.world

theorem earlyReady (fresh : w.originalIpv6Disabled = none) {place : Place} {starting : Script World Unit} {world : World}
    (out : ¬ Owns place) (early : Early env w place starting world) : Ready env w world := by
  cases place with
  | holding => exact absurd trivial out
  | ended => exact early
  | _ =>
    rw [show world = w from early]
    exact readyStart fresh

/- The start goes on towards the lock. -/
theorem resourceWaits (works : SysctlWorks env) (fresh : w.originalIpv6Disabled = none) {place next other : Place}
    {world : World} {phase : Phase} (waiting : place ≠ .holding) (going : place ≠ .ended)
    (taken : Owns next → Owns place ∨ ¬ Cleaning phase)
    (given : Resource env w place other (start env) world phase) :
    Resource env w next other (start env) world phase := by
  have early : Early env w place (start env) world → Early env w next (start env) world := by
    intro before
    have same : world = w := by
      cases place with
      | holding => exact absurd rfl waiting
      | ended => exact absurd rfl going
      | _ => exact before
    rw [same]
    cases next with
    | holding => exact startReady works fresh
    | ended => exact readyStart fresh
    | _ => rfl
  have late : Late w place (start env) world → Late w next (start env) world := by
    intro before
    have gone : Gone w world := by
      cases place with
      | holding => exact absurd rfl waiting
      | _ => exact before
    cases next with
    | holding => exact startGone gone
    | _ => exact gone
  cases phase with
  | idle => exact early given
  | stopping left =>
    simp only [Resource] at given ⊢
    split
    · rename_i inside
      rwa [if_pos inside] at given
    · rename_i outside
      rw [if_neg outside] at given
      exact ⟨given.1,early given.2⟩
  | stopped ok =>
    cases ok with
    | false => exact early given
    | true => exact ⟨given.1,fun owns => (taken owns).elim given.2 (fun h => h trivial)⟩
  | cleaning left => exact ⟨given.1,fun owns => (taken owns).elim given.2 (fun h => h trivial)⟩
  | removed => exact late given

/- The start takes a step of its own or exits. -/
theorem resourceHolds {next other : Place} {starting left : Script World Unit} {world later : World} {phase : Phase}
    (alone : other ≠ .holding) (given : Resource env w .holding other starting world phase)
    (early : phase ≠ .removed → Early env w .holding starting world → Early env w next left later)
    (late : Late w .holding starting world → Late w next left later) :
    Resource env w next other left later phase := by
  cases phase with
  | idle => exact early (by simp) given
  | stopping rest =>
    simp only [Resource,if_neg alone] at given ⊢
    exact ⟨given.1,early (by simp) given.2⟩
  | stopped ok =>
    cases ok with
    | false => exact early (by simp) given
    | true => exact absurd trivial given.2
  | cleaning rest => exact absurd trivial given.2
  | removed => exact late given

theorem startWaits (works : SysctlWorks env) (fresh : w.originalIpv6Disabled = none) {s : State} {fault reused lock}
    (inv : Inv env w s) (orderly : Orderly env w s (.start fault reused)) (waiting : s.lock.place startPid ≠ .holding)
    (stepped : OperationLock.advance s.lock startPid reused = some lock) : Inv env w {s with lock := lock} := by
  have going : s.lock.place startPid ≠ .ended := by
    intro ended
    simp [OperationLock.advance,ended] at stepped
  have other : lock.place stopPid = s.lock.place stopPid := OperationLock.advanceOthers stepped (by decide)
  have unstarted := inv.unstarted waiting going
  obtain ⟨spared,window,_⟩ := orderly
  refine ⟨OperationLock.advancePreserves inv.lock spared stepped,?_,fun _ _ => unstarted,?_,?_⟩
  · intro q notStart notStop
    rw [OperationLock.advanceOthers stepped notStart]
    exact inv.others q notStart notStop
  · simp only [other]
    exact inv.stopPlace
  · have before := inv.resource
    simp only [other]
    rw [unstarted] at before ⊢
    refine resourceWaits works fresh waiting going (fun owns => ?_) before
    rcases (OperationLock.advanceOwn stepped).2.2 owns with already | ⟨making,free⟩
    · exact .inl already
    · exact .inr (window making free)

theorem releaseEnds {l m : OperationLock.State} {p reused} (holding : l.place p = .holding)
    (stepped : OperationLock.advance l p reused = some m) : m.place p = .ended := by
  simp only [OperationLock.advance,holding] at stepped
  cases Option.some.inj stepped
  exact OperationLock.moveSelf _ p .ended

theorem aloneInside {s : State} (inv : Inv env w s) (holding : s.lock.place startPid = .holding) :
    ¬ Owns (s.lock.place stopPid) :=
  OperationLock.aloneWhenOwning inv.lock (p := startPid) (by simp [holding,Owns]) stopPid (by decide)

theorem startExits {s : State} {reused lock} {world : World} (inv : Inv env w s) (holding : s.lock.place startPid = .holding)
    (stepped : OperationLock.advance s.lock startPid reused = some lock)
    (early : s.phase ≠ .removed → Early env w .holding s.starting s.world → Ready env w world)
    (late : Late w .holding s.starting s.world → Gone w world) :
    Inv env w {s with world := world, lock := lock} := by
  have other : lock.place stopPid = s.lock.place stopPid := OperationLock.advanceOthers stepped (by decide)
  have ended := releaseEnds holding stepped
  have alone : s.lock.place stopPid ≠ .holding := fun both => aloneInside inv holding (by simp [both,Owns])
  refine ⟨OperationLock.advancePreserves inv.lock (fun taking => ?_) stepped,?_,fun _ h => absurd ended h,?_,?_⟩
  · simp [holding] at taking
  · intro q notStart notStop
    rw [OperationLock.advanceOthers stepped notStart]
    exact inv.others q notStart notStop
  · simp only [other]
    exact inv.stopPlace
  · have before := inv.resource
    rw [holding] at before
    simp only [other,ended]
    exact resourceHolds alone before early late

theorem startStepExits {s t : State} {fault reused} (holding : s.lock.place startPid = .holding)
    (through : s.starting.advance fault s.world = none) (stepped : startStep env s fault reused = some t) :
    ∃ lock, OperationLock.advance s.lock startPid reused = some lock ∧
      ((s.starting = .abort ∧ t = {s with world := restoreIpv6AfterFailedStart env s.world, lock := lock}) ∨
        (s.starting ≠ .abort ∧ t = {s with lock := lock})) := by
  simp only [startStep,holding,through] at stepped
  split at stepped
  · contradiction
  · rename_i failed _
    obtain ⟨lock,released,same⟩ := Option.map_eq_some_iff.mp stepped
    exact ⟨lock,released,.inl ⟨failed,same.symm⟩⟩
  · rename_i other
    obtain ⟨lock,released,same⟩ := Option.map_eq_some_iff.mp stepped
    exact ⟨lock,released,.inr ⟨other,same.symm⟩⟩

theorem startPreserves (works : SysctlWorks env) (fresh : w.originalIpv6Disabled = none) {s t : State} {fault reused}
    (inv : Inv env w s) (orderly : Orderly env w s (.start fault reused))
    (stepped : startStep env s fault reused = some t) : Inv env w t := by
  by_cases holding : s.lock.place startPid = .holding
  · have alone : s.lock.place stopPid ≠ .holding := fun both => aloneInside inv holding (by simp [both,Owns])
    cases moved : s.starting.advance fault s.world with
    | some next =>
      obtain ⟨left,world⟩ := next
      simp only [startStep,holding,moved] at stepped
      cases Option.some.inj stepped
      refine ⟨inv.lock,inv.others,fun h => absurd holding h,inv.stopPlace,?_⟩
      have before := inv.resource
      rw [holding] at before
      simp only [holding]
      exact resourceHolds alone before (fun _ early => wpAdvance early moved) (fun late => wpAdvance late moved)
    | none =>
      obtain ⟨lock,released,⟨failed,rfl⟩ | ⟨fine,rfl⟩⟩ := startStepExits holding moved stepped
      · refine startExits inv holding released (fun present early => ?_) (fun late => ?_)
        · rw [failed] at early
          exact restoreReady works early (orderly.2.2 holding failed present)
        · rw [failed] at late
          exact restoreGone late
      · refine startExits inv holding released (fun _ early => ?_) (fun late => ?_)
        · rcases wpAdvanceNone early moved with ⟨_,_,ready⟩ | ⟨failed,_⟩
          · exact ready
          · exact absurd failed fine
        · rcases wpAdvanceNone late moved with ⟨_,_,impossible⟩ | ⟨failed,_⟩
          · exact impossible.elim
          · exact absurd failed fine
  · have waits : (OperationLock.advance s.lock startPid reused).map (fun lock => {s with lock := lock}) = some t := by
      unfold startStep at stepped
      split at stepped
      · contradiction
      · exact stepped
    obtain ⟨lock,moved,rfl⟩ := Option.map_eq_some_iff.mp waits
    exact startWaits works fresh inv orderly holding moved

theorem stopLock {s : State} {reused lock} (inv : Inv env w s) (spared : OwnerSpared s.lock (.advance stopPid reused))
    (moved : OperationLock.advance s.lock stopPid reused = some lock) :
    OperationLock.Inv lock ∧ lock.place startPid = s.lock.place startPid ∧
      ∀ q, q ≠ startPid → q ≠ stopPid → ¬ Owns (lock.place q) := by
  refine ⟨OperationLock.advancePreserves inv.lock spared moved,OperationLock.advanceOthers moved (by decide),?_⟩
  intro q notStart notStop
  rw [OperationLock.advanceOthers moved notStop]
  exact inv.others q notStart notStop

/- stop.sh on its way to the lock; once it is inside, the world is as it wants it. -/
theorem stopWaits (works : SysctlWorks env) (fresh : w.originalIpv6Disabled = none) {s : State} {left reused lock}
    (inv : Inv env w s) (spared : OwnerSpared s.lock (.advance stopPid reused)) (phase : s.phase = .stopping left)
    (waiting : s.lock.place stopPid ≠ .holding) (moved : OperationLock.advance s.lock stopPid reused = some lock) :
    Inv env w
      {s with lock := lock, phase := if lock.place stopPid = .ended then .stopped false else .stopping left} := by
  have before := inv.resource
  simp only [phase,Resource,if_neg waiting] at before
  obtain ⟨rfl,early⟩ := before
  obtain ⟨lockInv,same,others⟩ := stopLock inv spared moved
  refine ⟨lockInv,others,?_,?_,?_⟩
  · simp only [same]
    exact inv.unstarted
  · split
    · rename_i ended
      exact ended
    · rename_i going
      have present := (OperationLock.advanceOwn moved).1
      simp only [StopPlace]
      cases here : lock.place stopPid <;> simp_all [Place.alive]
  · simp only [same]
    split
    · exact early
    · simp only [Resource]
      split
      · rename_i inside
        have out : ¬ Owns (lock.place startPid) :=
          OperationLock.aloneWhenOwning lockInv (p := stopPid) (by simp [inside,Owns]) startPid (by decide)
        rw [same] at out
        exact stopClean works (earlyReady fresh out early)
      · exact ⟨trivial,early⟩

theorem stopPreserves (works : SysctlWorks env) (fresh : w.originalIpv6Disabled = none) {s t : State} {left reused}
    (inv : Inv env w s) (spared : OwnerSpared s.lock (.advance stopPid reused)) (phase : s.phase = .stopping left)
    (stepped : stopStep s left reused = some t) : Inv env w t := by
  by_cases holding : s.lock.place stopPid = .holding
  · have out : ¬ Owns (s.lock.place startPid) :=
      OperationLock.aloneWhenOwning inv.lock (p := stopPid) (by simp [holding,Owns]) startPid (by decide)
    have before := inv.resource
    simp only [phase,Resource,if_pos holding] at before
    cases moved : left.advance .none s.world with
    | some next =>
      obtain ⟨rest,world⟩ := next
      simp only [stopStep,holding,moved] at stepped
      cases Option.some.inj stepped
      refine ⟨inv.lock,inv.others,inv.unstarted,?_,?_⟩
      · simp [StopPlace,holding,Place.alive]
      · simp only [Resource,if_pos holding]
        exact wpAdvance before moved
    | none =>
      simp only [stopStep,holding,moved] at stepped
      obtain ⟨lock,released,rfl⟩ := Option.map_eq_some_iff.mp stepped
      obtain ⟨lockInv,same,others⟩ := stopLock inv spared released
      refine ⟨lockInv,others,?_,releaseEnds holding released,?_⟩
      · simp only [same]
        exact inv.unstarted
      · rcases wpAdvanceNone before moved with ⟨_,_,clean⟩ | ⟨_,impossible⟩
        · exact ⟨clean,by rwa [same]⟩
        · exact impossible.elim
  · have waits : (OperationLock.advance s.lock stopPid reused).map (fun lock =>
        {s with lock := lock, phase := if lock.place stopPid = .ended then .stopped false else .stopping left}) =
        some t := by
      unfold stopStep at stepped
      split at stepped
      · contradiction
      · exact stepped
    obtain ⟨lock,moved,rfl⟩ := Option.map_eq_some_iff.mp waits
    exact stopWaits works fresh inv spared phase holding moved

theorem uninstallPreserves (works : SysctlWorks env) (fresh : w.originalIpv6Disabled = none) {s t : State} {reused}
    (inv : Inv env w s) (orderly : Orderly env w s (.uninstall reused))
    (stepped : uninstallStep env s reused = some t) : Inv env w t := by
  have before := inv.resource
  have place := inv.stopPlace
  unfold uninstallStep at stepped
  cases phase : s.phase with
  | idle | removed => simp [phase] at stepped
  | stopping left =>
    simp only [phase] at stepped
    exact stopPreserves works fresh inv orderly.1 phase stepped
  | stopped ok =>
    simp only [phase] at stepped before place
    cases Option.some.inj stepped
    cases ok with
    | false => exact absurd phase orderly.2
    | true => exact ⟨inv.lock,inv.others,inv.unstarted,place,cleanupClean before.1,before.2⟩
  | cleaning left =>
    simp only [phase] at stepped before place
    cases moved : left.advance .none s.world with
    | some next =>
      obtain ⟨rest,world⟩ := next
      simp only [moved] at stepped
      cases Option.some.inj stepped
      exact ⟨inv.lock,inv.others,inv.unstarted,place,wpAdvance before.1 moved,before.2⟩
    | none =>
      simp only [moved] at stepped
      cases Option.some.inj stepped
      have unowned : ∀ q, ¬ Owns (s.lock.place q) := by
        intro q
        by_cases isStart : q = startPid
        · rw [isStart]
          exact before.2
        by_cases isStop : q = stopPid
        · rw [isStop,show s.lock.place stopPid = .ended from place]
          exact id
        exact inv.others q isStart isStop
      have clean : Clean w s.world := by
        rcases wpAdvanceNone before.1 moved with ⟨_,_,clean⟩ | ⟨_,impossible⟩
        · exact clean
        · exact impossible.elim
      refine ⟨⟨fun a _ owns => absurd owns (unowned a),fun a owns => absurd owns (unowned a)⟩,inv.others,
        inv.unstarted,place,?_⟩
      simp only [Resource,Late]
      split
      · rename_i inside
        exact absurd (by rw [inside]; trivial) before.2
      · exact removeBaseGone clean

theorem stepPreserves (works : SysctlWorks env) (fresh : w.originalIpv6Disabled = none) {s : State} {action t}
    (inv : Inv env w s) (orderly : Orderly env w s action) (stepped : step env s action = some t) : Inv env w t := by
  cases action with
  | launchStart =>
    simp only [step] at stepped
    split at stepped
    · rename_i absent
      cases Option.some.inj stepped
      have moved := OperationLock.moveSelf s.lock startPid .firstMkdir
      have kept : ∀ q, q ≠ startPid → (s.lock.move startPid .firstMkdir).place q = s.lock.place q :=
        fun q ne => OperationLock.moveOthers s.lock startPid .firstMkdir ne
      have unstarted := inv.unstarted (by simp [absent]) (by simp [absent])
      refine ⟨OperationLock.moveOut inv.lock id,fun q notStart notStop => ?_,fun _ _ => unstarted,?_,?_⟩
      · rw [kept q notStart]
        exact inv.others q notStart notStop
      · rw [kept stopPid (by decide)]
        exact inv.stopPlace
      · have before := inv.resource
        simp only [moved,kept stopPid (by decide)]
        rw [unstarted] at before ⊢
        exact resourceWaits works fresh (by simp [absent]) (by simp [absent]) (fun owns => owns.elim) before
    · contradiction
  | launchUninstall =>
    cases phase : s.phase with
    | idle =>
      simp only [step,phase] at stepped
      cases Option.some.inj stepped
      have moved := OperationLock.moveSelf s.lock stopPid .firstMkdir
      have kept : ∀ q, q ≠ stopPid → (s.lock.move stopPid .firstMkdir).place q = s.lock.place q :=
        fun q ne => OperationLock.moveOthers s.lock stopPid .firstMkdir ne
      have before := inv.resource
      simp only [phase] at before
      refine ⟨OperationLock.moveOut inv.lock id,fun q notStart notStop => ?_,?_,?_,?_⟩
      · rw [kept q notStop]
        exact inv.others q notStart notStop
      · simp only [kept startPid (by decide)]
        exact inv.unstarted
      · simp only [moved]
        rfl
      · simp only [moved,kept startPid (by decide)]
        exact ⟨rfl,before⟩
    | _ => simp [step,phase] at stepped
  | start fault reused => exact startPreserves works fresh inv orderly stepped
  | uninstall reused => exact uninstallPreserves works fresh inv orderly stepped

end Steps

def orderlyCheck (s : State) : Action → Bool
  | .start _ _ => s.lock.place startPid ≠ .takeover &&
      (match s.phase with
      | .stopped _ | .cleaning _ => false
      | _ => true) &&
      match s.starting with
      | .abort => false
      | _ => true
  | .uninstall _ => s.lock.place stopPid ≠ .takeover &&
      match s.phase with
      | .stopped false => false
      | _ => true
  | _ => true

theorem orderlyOfCheck {env : Env} {w : World} (s : State) (action : Action) (passed : orderlyCheck s action = true) :
    Orderly env w s action := by
  cases action with
  | launchStart => trivial
  | launchUninstall => trivial
  | start fault reused =>
    simp only [orderlyCheck,Bool.and_eq_true,decide_eq_true_eq] at passed
    obtain ⟨⟨spared,phase⟩,starting⟩ := passed
    refine ⟨fun taking => absurd taking spared,fun _ _ cleaning => ?_,fun _ failed => ?_⟩
    · cases here : s.phase <;> simp [here,Cleaning] at phase cleaning
    · simp [failed] at starting
  | uninstall reused =>
    simp only [orderlyCheck,Bool.and_eq_true,decide_eq_true_eq] at passed
    obtain ⟨spared,phase⟩ := passed
    refine ⟨fun taking => absurd taking spared,fun refused => ?_⟩
    simp [refused] at phase

def sampleState : State := ⟨sampleWorld oneRoute,OperationLock.idle none,start sampleEnv,.idle⟩

def startSteps (count : Nat) : List Action := List.replicate count (.start .none false)
def uninstallSteps (count : Nat) : List Action := List.replicate count (.uninstall false)

theorem sampleInitial : Initial sampleEnv (sampleWorld oneRoute) sampleState := ⟨rfl,fun _ => rfl,rfl,rfl⟩

def finished (s : State) : Bool :=
  s.lock.place startPid = .ended &&
    match s.phase with
    | .removed => true
    | _ => false

theorem finishedSound {s : State} (passed : finished s = true) : Finished s := by
  simp only [finished,Bool.and_eq_true,decide_eq_true_eq] at passed
  refine ⟨passed.1,?_⟩
  have last := passed.2
  cases here : s.phase <;> simp [here] at last
  rfl

def startThenUninstall : List Action :=
  .launchUninstall::.launchStart::startSteps 66 ++ uninstallSteps 33

/- uninstall.sh comes during the `sleep 2` of start.sh: its stop.sh is refused, the records
are removed with the directory, and start.sh finds neither wg0 nor what its trap restores. -/
def uninstallDuringStart : List Action :=
  .launchStart::startSteps 36 ++ .launchUninstall::uninstallSteps 14 ++ startSteps 3

end WebosWireguard.UninstallRace
