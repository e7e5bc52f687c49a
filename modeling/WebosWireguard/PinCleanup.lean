import WebosWireguard.EndpointRouting

/-! The host routes that start.sh pins for the endpoints, over histories of uploads, starts
and stops. endpoint-routes is the only record of them: each start empties it while the
kernel keeps what earlier starts have pinned. Changes that the network makes on its own
are not part of these histories. -/
namespace WebosWireguard.PinCleanup
open ShellScript ShellScript.Script SubnetTable TextLines StartText TunnelScripts ScriptEffects TransitionRun
open LeakProtection (sampleEnv sampleWorld)
open EndpointRouting (Endpoint BareIsHost announcement pinEndpointSkips pinEndpointPins pinnedHostPrinted readPrefix
  readPrefixBare samplePeer)

section Parts
variable (env : Env)

/- start.sh up to the line that empties endpoint-routes, then the loop, then the rest. -/
def upToPins : Script World (Option Hop × Text) := do
  let found ← recording env
  recordGateway found
  let mtu ← prepare
  secureOriginal env found
  printSetconf
  previousCleanup
  startWireguardGo env
  say "== pinning endpoint routes outside the tunnel ==".toList
  command (fun w => {w with endpointRoutes := some []})
  pure (found,mtu)

def pinLoop : Option Hop → Script World Unit
  | none => pure ()
  | some hop => do
    let printed ← read (fun w => env.endpoints ((w.link.bind Link.config).getD []))
    forEach (pinEndpoint env hop) printed

def afterPins (mtu : Text) : Script World Unit := do
  assignAddresses mtu
  generateRoutes env
  applyRoutes env
  showStatus

theorem startParts :
    start env = upToPins env >>= fun p => pinLoop env p.1 >>= fun _ => afterPins env p.2 := by
  have loop : ∀ found, pinEndpoints env found = say "== pinning endpoint routes outside the tunnel ==".toList
      >>= fun _ => command (fun w => {w with endpointRoutes := some []}) >>= fun _ => pinLoop env found := by
    intro found
    cases found <;> rfl
  simp only [start,raiseTunnel,upToPins,afterPins,loop,seqAssoc,pureSeq]

end Parts

/- The hosts that one run of the loop pins and those it writes to endpoint-routes: three
commands for each host, the echo, the route and the record. -/
structure PinLog where
  pinned : List Text
  recorded : List Text

def pinLog (destination : Text → Option (Subnet 32)) : List Text → List Fault → PinLog
  | [],_ => ⟨[],[]⟩
  | host::rest,faults =>
    match spend faults,destination host with
    | some faults,some _ =>
      match spend faults with
      | none => ⟨[],[]⟩
      | some faults =>
        match spend faults with
        | none => ⟨[host],[]⟩
        | some faults =>
          let log := pinLog destination rest faults
          ⟨host::log.pinned,host::log.recorded⟩
    | _,_ => ⟨[],[]⟩

theorem pinLoopLog {env : Env} {hop : Hop} (endpoints : List Text) (faults : List Fault) {t : World}
    {l : List Text} (file : t.endpointRoutes = some l) :
    let log := pinLog env.destination (endpoints.filterMap pinnedHost) faults
    let u := ((forEach (pinEndpoint env hop) endpoints).exec faults t).state
    u.table = install hop (log.pinned.filterMap env.destination) t.table ∧
      u.endpointRoutes = some (l ++ log.recorded) := by
  induction endpoints generalizing faults t l with
  | nil => exact ⟨rfl,by simpa [forEach,exec,Outcome.state,pinLog] using file⟩
  | cons endpoint rest ih =>
    have unfolded : forEach (pinEndpoint env hop) (endpoint::rest) =
        pinEndpoint env hop endpoint >>= fun _ => forEach (pinEndpoint env hop) rest := rfl
    rw [unfolded]
    cases pinned : pinnedHost endpoint with
    | none =>
      rw [List.filterMap_cons_none pinned,pinEndpointSkips pinned]
      exact ih faults file
    | some host =>
      rw [List.filterMap_cons_some pinned,pinEndpointPins pinned]
      simp only [seqAssoc,say,commandExec]
      unfold pinLog
      cases spend faults with
      | none => exact ⟨rfl,file.trans (by simp)⟩
      | some faults =>
        unfold ipRouteReplace
        cases read : env.destination host with
        | none => exact ⟨rfl,file.trans (by simp)⟩
        | some dest =>
          simp only [commandExec]
          cases spend faults with
          | none => exact ⟨rfl,file.trans (by simp)⟩
          | some faults =>
            simp only
            cases spend faults with
            | none =>
              refine ⟨?_,file.trans (by simp)⟩
              simp [Outcome.state,install,read]
            | some faults =>
              obtain ⟨table,record⟩ := ih faults (l := l ++ [host])
                (t := {t with
                  table := replace ⟨dest,hop⟩ t.table
                  endpointRoutes := some (t.endpointRoutes.getD [] ++ [host])
                  output := t.output ++ [announcement hop host]}) (by simp [file])
              refine ⟨table.trans ?_,record.trans ?_⟩
              · simp [install,read]
              · simp

theorem pinLogPinned {destination : Text → Option (Subnet 32)} {hosts : List Text} {faults : List Fault}
    {host : Text} (mem : host ∈ (pinLog destination hosts faults).pinned) : host ∈ hosts := by
  induction hosts generalizing faults with
  | nil => simp [pinLog] at mem
  | cons first rest ih =>
    unfold pinLog at mem
    split at mem
    · split at mem
      · simp at mem
      split at mem
      · exact List.mem_cons.mpr (.inl (List.mem_singleton.mp mem))
      · rcases List.mem_cons.mp mem with rfl | later
        · exact List.mem_cons_self
        · exact List.mem_cons_of_mem first (ih later)
    · simp at mem

section Effect
variable (env : Env)

theorem upToPinsWp (w : World) :
    (upToPins env).wp
      (fun p t => p.1 = defaultHop w.table ∧ t.table = outside w.table ∧ t.endpointRoutes = some [])
      (fun t => t.table.Sublist w.table ∧ t.endpointRoutes = w.endpointRoutes) w := by
  have early : ∀ {t : World}, routing t = routing w →
      t.table.Sublist w.table ∧ t.endpointRoutes = w.endpointRoutes := by
    intro t same
    have table : t.table = w.table := congrArg Prod.fst same
    exact ⟨table ▸ List.Sublist.refl _,congrArg (fun r => r.2.2.2) same⟩
  refine wpThen (wpMono (recordingWp w) (fun _ _ h => h) (fun t h => early h.1)) ?_
  intro found a given
  obtain ⟨rfl,atA,_,_⟩ := given
  refine wpThen (wpMono (keepsMap (recordGatewayKeeps _) Prod.snd a) (fun _ t same => same.trans atA)
    (fun t same => early (same.trans atA))) (fun _ b atB => ?_)
  refine wpThen (wpMono (keepsMap prepareKeeps Prod.snd b) (fun _ t same => same.trans atB)
    (fun t same => early (same.trans atB))) (fun mtu c atC => ?_)
  refine wpThen (wpMono (keepsMap (secureOriginalKeeps _) Prod.snd c) (fun _ t same => same.trans atC)
    (fun t same => early (same.trans atC))) (fun _ d atD => ?_)
  refine wpThen (wpMono (keepsMap printSetconfKeeps Prod.snd d) (fun _ t same => same.trans atD)
    (fun t same => early (same.trans atD))) (fun _ e atE => ?_)
  have table : e.table = w.table := congrArg Prod.fst atE
  have file : e.endpointRoutes = w.endpointRoutes := congrArg (fun r => r.2.2.2) atE
  have late : ∀ {t : World}, (t.table,t.endpointRoutes) = (outside w.table,w.endpointRoutes) →
      t.table.Sublist w.table ∧ t.endpointRoutes = w.endpointRoutes := by
    intro t same
    have table : t.table = outside w.table := congrArg Prod.fst same
    exact ⟨table ▸ List.filter_sublist,congrArg Prod.snd same⟩
  refine wpThen (M := fun _ t => (t.table,t.endpointRoutes) = (outside w.table,w.endpointRoutes)) ?_
    (fun _ f atF => ?_)
  · refine wpMono (previousCleanupWp e) (fun _ t h => ?_) (fun t h => ?_)
    · rw [h.1,table,← file]
      exact congrArg (fun v => (_,v.2)) h.2
    · exact ⟨table ▸ h.1,(congrArg Prod.snd h.2).trans file⟩
  refine wpThen (wpMono (@startWireguardGoKeeps _ env (fun w => (w.table,w.endpointRoutes)) (fun _ _ _ => rfl) f)
    (fun _ t same => same.trans atF) (fun t same => late (same.trans atF))) (fun _ g atG => ?_)
  obtain ⟨tableG,_⟩ := Prod.mk.inj atG
  exact ⟨late atG,late atG,late atG,late atG,rfl,tableG,rfl⟩

/- From here on the table only gets routes of the tunnel. -/
def Tunnelled (u t : World) : Prop :=
  (∃ routes, t.table = install tunnelHop routes u.table) ∧ t.endpointRoutes = u.endpointRoutes

theorem tunnelledKept {u t v : World} (at_ : Tunnelled u t)
    (same : (v.table,v.endpointRoutes) = (t.table,t.endpointRoutes)) : Tunnelled u v := by
  obtain ⟨table,file⟩ := Prod.mk.inj same
  obtain ⟨⟨routes,installed⟩,record⟩ := at_
  exact ⟨⟨routes,table.trans installed⟩,file.trans record⟩

theorem applyRouteTunnelled {u t : World} (route : Text) (at_ : Tunnelled u t) :
    (applyRoute env route).wp (fun _ v => Tunnelled u v) (Tunnelled u) t := by
  unfold applyRoute
  split
  · exact at_
  have quiet : ∀ out, Tunnelled u {t with output := out} := fun out => tunnelledKept at_ rfl
  refine ⟨at_,at_,?_⟩
  unfold ipRouteReplace
  cases env.destination route with
  | none => exact quiet _
  | some dest =>
    refine ⟨quiet _,quiet _,?_⟩
    obtain ⟨⟨routes,installed⟩,record⟩ := at_
    refine ⟨⟨routes ++ [dest],?_⟩,record⟩
    rw [installAppend]
    exact congrArg (replace ⟨dest,tunnelHop⟩) installed

theorem afterPinsWp (mtu : Text) (u : World) :
    (afterPins env mtu).wp (fun _ t => Tunnelled u t) (Tunnelled u) u := by
  have start : Tunnelled u u := ⟨⟨[],rfl⟩,rfl⟩
  have pair : ∀ {a b : World}, (ipv6 b,routing b) = (ipv6 a,routing a) →
      (b.table,b.endpointRoutes) = (a.table,a.endpointRoutes) :=
    fun same => congrArg (fun v => (v.2.1,v.2.2.2.2)) same
  refine wpThen (wpMono (@assignAddressesKeeps _ (fun w => (w.table,w.endpointRoutes)) (fun _ _ _ => rfl) mtu u)
    (fun _ t same => tunnelledKept start same) (fun t same => tunnelledKept start same)) (fun _ a atA => ?_)
  refine wpThen (wpMono (generateRoutesKeeps env a)
    (fun _ t same => tunnelledKept atA (pair same)) (fun t same => tunnelledKept atA (pair same)))
    (fun _ b atB => ?_)
  refine wpThen (M := fun _ t => Tunnelled u t) ?_ (fun _ c atC => ?_)
  · unfold applyRoutes
    refine ⟨atB,atB,?_⟩
    exact wpForEach (I := fun _ t => Tunnelled u t) (fun route _ t at_ => applyRouteTunnelled env route at_)
      (tunnelledKept atB rfl)
  · exact wpMono (showStatusKeeps c)
      (fun _ t same => tunnelledKept atC (pair same)) (fun t same => tunnelledKept atC (pair same))

/- The interface found and the log of the loop, for a start that gets as far. -/
def startLog (faults : List Fault) (w : World) : Option (Option Hop × PinLog) :=
  match (upToPins env).exec faults w with
  | .aborted _ => none
  | .finished (none,_) _ _ => some (none,⟨[],[]⟩)
  | .finished (some hop,_) t rest =>
    let endpoints := env.endpoints ((t.link.bind Link.config).getD [])
    some (some hop,pinLog env.destination (endpoints.filterMap pinnedHost) rest)

def startPins (faults : List Fault) (w : World) : List (Route 32 Hop) :=
  match startLog env faults w with
  | some (some hop,log) => (log.pinned.filterMap env.destination).map (fun dest => ⟨dest,hop⟩)
  | _ => []

/- The table and endpoint-routes after a start that has emptied the file. -/
def PinnedStart (found : Option Hop) (log : PinLog) (w t : World) : Prop :=
  found = defaultHop w.table ∧
    (∃ routes, t.table = install tunnelHop routes
      (install (found.getD tunnelHop) (log.pinned.filterMap env.destination) (outside w.table))) ∧
    t.endpointRoutes = some log.recorded

theorem loopPinned {faults : List Fault} {w t : World} {found : Option Hop} {mtu : Text}
    {rest : List Fault} (reached : (upToPins env).exec faults w = .finished (found,mtu) t rest) :
    ∃ log, startLog env faults w = some (found,log) ∧
      PinnedStart env found log w ((pinLoop env found).exec rest t).state := by
  have spec := wpExec (upToPinsWp env w) faults
  rw [reached] at spec
  obtain ⟨hop,table,file⟩ := spec
  unfold startLog
  rw [reached]
  cases found with
  | none => exact ⟨_,rfl,hop,⟨[],table⟩,file⟩
  | some h =>
    obtain ⟨pinned,record⟩ := @pinLoopLog env h (env.endpoints ((t.link.bind Link.config).getD [])) rest t [] file
    rw [table] at pinned
    exact ⟨_,rfl,hop,⟨[],pinned⟩,record⟩

theorem pinnedTunnelled {found : Option Hop} {log : PinLog} {w u t : World}
    (pinned : PinnedStart env found log w u) (later : Tunnelled u t) : PinnedStart env found log w t := by
  obtain ⟨hop,⟨first,table⟩,file⟩ := pinned
  obtain ⟨⟨routes,installed⟩,record⟩ := later
  refine ⟨hop,⟨first ++ routes,?_⟩,record.trans file⟩
  rw [installed,table,installAppend]

theorem startRunPinned (faults : List Fault) (w : World) :
    match startLog env faults w with
    | none => (startRun env faults w).table.Sublist w.table ∧
        (startRun env faults w).endpointRoutes = w.endpointRoutes
    | some (found,log) => PinnedStart env found log w (startRun env faults w) := by
  have trapTable : ∀ t, (restoreSaved env t).table = t.table := fun t => (restoreSavedKeeps env t).1
  have trapFile : ∀ t, (restoreSaved env t).endpointRoutes = t.endpointRoutes :=
    fun t => congrArg (fun v => v.2.1) (restoreSavedKeeps env t).2.2.2
  cases reached : (upToPins env).exec faults w with
  | aborted t =>
    have spec := wpExec (upToPinsWp env w) faults
    rw [reached] at spec
    have ended : startRun env faults w = restoreSaved env t := by
      unfold startRun
      rw [startParts,execBind,reached]
      rfl
    unfold startLog
    rw [reached,ended,trapTable,trapFile]
    exact spec
  | finished p t rest =>
    obtain ⟨found,mtu⟩ := p
    obtain ⟨log,logged,pinned⟩ := loopPinned env reached
    rw [logged]
    refine pinnedTunnelled env pinned ?_
    have trapped : ∀ {u x : World}, Tunnelled u x → Tunnelled u (restoreSaved env x) :=
      fun at_ => tunnelledKept at_ (by rw [trapTable,trapFile])
    unfold startRun
    rw [startParts,execBind,reached]
    simp only [execBind]
    cases (pinLoop env found).exec rest t with
    | aborted u => exact trapped ⟨⟨[],rfl⟩,rfl⟩
    | finished a u rest =>
      have spec := wpExec (afterPinsWp env mtu u) rest
      revert spec
      simp only [Outcome.state]
      cases (afterPins env mtu).exec rest u with
      | finished b x faults => exact fun at_ => at_
      | aborted x => exact fun at_ => trapped at_

end Effect

def HostsOnly (env : Env) : Prop :=
  ∀ config, ∀ endpoint ∈ env.endpoints config, ∀ host, pinnedHost endpoint = some host →
    ∀ d, env.destination host = some d → d.length = 32

/- ip reads a destination in one way, and wg prints the endpoints by their addresses. -/
def Tools (destination : Text → Option (Subnet 32)) : Event → Prop
  | .start env _ => env.destination = destination ∧ HostsOnly env
  | .stop env => env.destination = destination
  | .configure _ _ _ => True
  | .network _ => False

def eventPins (w : World) : Event → List (Route 32 Hop)
  | .start env faults => startPins env faults w
  | _ => []

/- A state together with every host route that a start has pinned so far. -/
def pinStep (s : World × List (Route 32 Hop)) (e : Event) : Option (World × List (Route 32 Hop)) :=
  (step s.1 e).map (fun w => (w,s.2 ++ eventPins s.1 e))

/-- A start that empties endpoint-routes writes down every host it pins, and again every host
that the file held. -/
def PinsKept (s : World × List (Route 32 Hop)) : Event → Prop
  | .start env faults => ∀ found log, startLog env faults s.1 = some (found,log) →
      log.pinned = log.recorded ∧ ∀ host ∈ s.1.endpointRoutes.getD [], host ∈ log.recorded
  | _ => True

structure Tracked (destination : Text → Option (Subnet 32)) (s : World × List (Route 32 Hop)) : Prop where
  host : ∀ r ∈ s.2, r.dest.length = 32 ∧ r.hop.dev ≠ iface
  recorded : ∀ r ∈ s.2, r ∈ s.1.table →
    ∃ text ∈ s.1.endpointRoutes.getD [], text ≠ [] ∧ destination text = some r.dest
  single : ∀ r ∈ s.2, r ∈ s.1.table → Single r.dest s.1.table

theorem pinnedHostFilled {endpoint host : Text} (pinned : pinnedHost endpoint = some host) : host ≠ [] := by
  unfold pinnedHost at pinned
  dsimp only at pinned
  split at pinned
  · contradiction
  split at pinned
  · contradiction
  rename_i filled
  cases Option.some.inj pinned
  exact fun empty => filled (.inl empty)

theorem startLogHosts {env : Env} {faults : List Fault} {w : World} {found : Option Hop} {log : PinLog}
    (logged : startLog env faults w = some (found,log)) {host : Text} (pinned : host ∈ log.pinned) :
    ∃ config, ∃ endpoint ∈ env.endpoints config, pinnedHost endpoint = some host := by
  unfold startLog at logged
  split at logged
  · contradiction
  · cases Option.some.inj logged
    simp at pinned
  · cases Option.some.inj logged
    obtain ⟨endpoint,listed,own⟩ := List.mem_filterMap.mp (pinLogPinned pinned)
    exact ⟨_,endpoint,listed,own⟩

theorem startPinsLogged {env : Env} {faults : List Fault} {w : World} {found : Option Hop} {log : PinLog}
    (logged : startLog env faults w = some (found,log)) {r : Route 32 Hop}
    (mem : r ∈ startPins env faults w) :
    r.dest ∈ log.pinned.filterMap env.destination ∧ found = some r.hop := by
  unfold startPins at mem
  rw [logged] at mem
  cases found with
  | none => simp at mem
  | some hop =>
    obtain ⟨dest,inside,rfl⟩ := List.mem_map.mp mem
    exact ⟨inside,rfl⟩

/- A route pinned by a start is the host of some endpoint, by way of the interface found. -/
theorem startPinsHost {env : Env} {faults : List Fault} {w : World} {r : Route 32 Hop}
    (hosts : HostsOnly env) (mem : r ∈ startPins env faults w) :
    r.dest.length = 32 ∧ r.hop.dev ≠ iface := by
  have spec := startRunPinned env faults w
  cases logged : startLog env faults w with
  | none => simp [startPins,logged] at mem
  | some pair =>
    rw [logged] at spec
    obtain ⟨inside,found⟩ := startPinsLogged logged mem
    obtain ⟨host,pinned,read⟩ := List.mem_filterMap.mp inside
    obtain ⟨config,endpoint,listed,own⟩ := startLogHosts logged pinned
    exact ⟨hosts config endpoint listed host own r.dest read,defaultHopOutside (spec.1.symm.trans found)⟩

theorem startTracked {destination : Text → Option (Subnet 32)} {env : Env} {faults : List Fault}
    {w : World} {pins : List (Route 32 Hop)} (tools : Tools destination (.start env faults))
    (tracked : Tracked destination (w,pins)) (kept : PinsKept (w,pins) (.start env faults)) :
    Tracked destination (startRun env faults w,pins ++ startPins env faults w) := by
  obtain ⟨rfl,hosts⟩ := tools
  have host : ∀ r ∈ pins ++ startPins env faults w, r.dest.length = 32 ∧ r.hop.dev ≠ iface := by
    intro r mem
    rcases List.mem_append.mp mem with old | new
    · exact tracked.host r old
    · exact startPinsHost hosts new
  have spec := startRunPinned env faults w
  cases logged : startLog env faults w with
  | none =>
    rw [logged] at spec
    obtain ⟨sub,file⟩ := spec
    have none : startPins env faults w = [] := by simp [startPins,logged]
    rw [none,List.append_nil] at host ⊢
    refine ⟨host,fun r mem here => ?_,fun r mem here => ?_⟩
    · simp only [file]
      exact tracked.recorded r mem (sub.subset here)
    · exact singleSublist sub (tracked.single r mem (sub.subset here))
  | some pair =>
    obtain ⟨found,log⟩ := pair
    rw [logged] at spec
    obtain ⟨hop,⟨routes,table⟩,file⟩ := spec
    obtain ⟨complete,again⟩ := kept found log logged
    -- a route of the history that is still there is pinned anew or has been there before
    have origin : ∀ r ∈ pins ++ startPins env faults w, r ∈ (startRun env faults w).table →
        r.dest ∈ log.pinned.filterMap env.destination ∨ (r ∈ pins ∧ r ∈ w.table) := by
      intro r mem here
      rw [table,memInstall] at here
      rcases here with ⟨_,tunnel⟩ | ⟨below,_⟩
      · exact absurd (congrArg Hop.dev tunnel) (host r mem).2
      rcases memInstall.mp below with ⟨inside,_⟩ | ⟨before,other⟩
      · exact .inl inside
      · refine .inr ⟨?_,(List.mem_filter.mp before).1⟩
        rcases List.mem_append.mp mem with old | new
        · exact old
        · exact absurd (startPinsLogged logged new).1 other
    refine ⟨host,fun r mem here => ?_,fun r mem here => ?_⟩
    · simp only [file,Option.getD_some]
      rcases origin r mem here with anew | ⟨old,before⟩
      · obtain ⟨text,pinned,read⟩ := List.mem_filterMap.mp anew
        obtain ⟨_,endpoint,_,own⟩ := startLogHosts logged pinned
        exact ⟨text,complete ▸ pinned,pinnedHostFilled own,read⟩
      · obtain ⟨text,listed,filled,read⟩ := tracked.recorded r old before
        exact ⟨text,again text listed,filled,read⟩
    · simp only [table]
      refine singleInstall (.inr (singleInstall ?_))
      rcases origin r mem here with anew | ⟨old,before⟩
      · exact .inl anew
      · exact .inr (singleSublist List.filter_sublist (tracked.single r old before))

/-! What stop.sh deletes. -/

theorem withoutSublist (env : Env) (dev : Option Text) (texts : List Text) (table : Table 32 Hop) :
    (texts.foldl (without env dev) table).Sublist table := by
  induction texts generalizing table with
  | nil => exact List.Sublist.refl _
  | cons text rest ih =>
    refine (ih _).trans ?_
    unfold without
    split
    · exact List.Sublist.refl _
    split
    · exact List.eraseP_sublist
    · exact List.Sublist.refl _

theorem withoutGone {env : Env} {texts : List Text} {text : Text} {d : Subnet 32} {table : Table 32 Hop}
    (listed : text ∈ texts) (filled : text ≠ []) (read : env.destination text = some d)
    (single : Single d table) : ∀ r ∈ texts.foldl (without env none) table, r.dest ≠ d := by
  induction texts generalizing table with
  | nil => simp at listed
  | cons first rest ih =>
    rcases List.mem_cons.mp listed with rfl | later
    · have gone : ∀ r ∈ without env none table text, r.dest ≠ d := by
        unfold without
        rw [if_neg filled,read]
        exact singleErased single (fun r => by simp)
      intro r mem
      exact gone r ((withoutSublist env none rest _).subset mem)
    · exact ih later (singleSublist (withoutSublist env none [first] table) single)

theorem stopGone {destination : Text → Option (Subnet 32)} {env : Env} {w : World}
    {pins : List (Route 32 Hop)} (tools : env.destination = destination)
    (tracked : Tracked destination (w,pins)) : ∀ r ∈ pins, r ∉ (stopRun env w).table := by
  intro r mem here
  subst tools
  rw [(stopRunStopped env w).table] at here
  have below : r ∈ undone env w := by
    have inside := (List.mem_filter.mp here).1
    unfold restoredDefault at inside
    split at inside
    · rcases memReplace.mp inside with rfl | ⟨old,_⟩
      · have short : (Subnet.everything 32).length ≠ 32 := by decide
        exact absurd (tracked.host _ mem).1 short
      · exact old
    · exact inside
  have cut := withoutSublist env (some iface) (w.appliedRoutes.getD []) w.table
  have before : r ∈ w.table := cut.subset ((withoutSublist env none _ _).subset below)
  obtain ⟨text,listed,filled,read⟩ := tracked.recorded r mem before
  exact withoutGone listed filled read (singleSublist cut (tracked.single r mem before)) r below rfl

theorem stepTracked {destination : Text → Option (Subnet 32)} {s t : World × List (Route 32 Hop)} {e : Event}
    (tools : Tools destination e) (tracked : Tracked destination s) (kept : PinsKept s e)
    (stepped : pinStep s e = some t) : Tracked destination t := by
  obtain ⟨w,pins⟩ := s
  cases e with
  | start env faults =>
    cases Option.some.inj stepped
    exact startTracked tools tracked kept
  | stop env =>
    cases Option.some.inj stepped
    have gone := stopGone tools tracked
    simp only [eventPins,List.append_nil]
    exact ⟨tracked.host,fun r mem here => absurd here (gone r mem),fun r mem here => absurd here (gone r mem)⟩
  | network routes => exact tools.elim
  | configure conf address routesExtra =>
    cases Option.some.inj stepped
    simp only [eventPins,List.append_nil]
    exact ⟨tracked.host,tracked.recorded,tracked.single⟩

theorem printedHostsOnly {env : Env} (peers : Text → List Endpoint)
    (printed : ∀ config, env.endpoints config = (peers config).map Endpoint.printed)
    (bare : BareIsHost env.destination) : HostsOnly env := by
  intro config endpoint listed host own d read
  rw [printed config] at listed
  obtain ⟨e,_,rfl⟩ := List.mem_map.mp listed
  rw [pinnedHostPrinted bare] at own
  split at own
  · contradiction
  cases Option.some.inj own
  cases Option.some.inj ((bare e).symm.trans read)
  rfl

def movedPeer : Endpoint := ⟨203*2^24+6,51820,by decide⟩

def peerOf (config : Text) : Endpoint := if '6' ∈ config then movedPeer else samplePeer

def peerEnv : Env := {sampleEnv with
  endpoints := fun config => [(peerOf config).printed]
  destination := readPrefix}

def peerLine (endpoint : Text) : Text := "10.0.0.0/8\nEndpoint=".toList ++ endpoint

def peerWorld : World := sampleWorld (peerLine "203.0.0.5:51820".toList)

theorem peerDestination : peerEnv.destination = readPrefix := by rw [peerEnv]

theorem peerHostsOnly : HostsOnly peerEnv :=
  printedHostsOnly (fun config => [peerOf config]) (fun _ => rfl) (peerDestination ▸ readPrefixBare)

def samplePin : Route 32 Hop := ⟨samplePeer.host,⟨some "192.168.1.1".toList,"eth0".toList⟩⟩

def moved : Event :=
  .configure (sampleWorld (peerLine "203.0.0.6:51820".toList)).conf peerWorld.address none

theorem peerTools {events : List Event}
    (only : ∀ e ∈ events, e = .start peerEnv [] ∨ e = .stop peerEnv ∨ e = moved) :
    ∀ e ∈ events, Tools readPrefix e := by
  intro e mem
  rcases only e mem with rfl | rfl | rfl
  · exact ⟨peerDestination,peerHostsOnly⟩
  · exact peerDestination
  · trivial

def sampleLog : PinLog := ⟨["203.0.0.5".toList],["203.0.0.5".toList]⟩

end WebosWireguard.PinCleanup
