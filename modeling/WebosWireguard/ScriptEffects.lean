import WebosWireguard.RouteList
import WebosWireguard.TunnelScripts

/-! What the parts of start.sh and stop.sh do to the world. In start.sh the early parts only
write text files, the IPv6 part changes one flag and its state file, and everything after it
leaves both alone. The tables that a successful start and a completed stop leave behind are
given in closed form. -/
namespace WebosWireguard.ScriptEffects
open ShellScript ShellScript.Script SubnetTable TextLines StartText RouteList TunnelScripts

variable {γ : Type}

def ipv6 (w : World) : (Text → Nat) × Option Nat × Option Text :=
  (w.disableIpv6,w.originalIpv6Disabled,w.originalDev)

def sources (w : World) : Option Text × Option Text := (w.conf,w.routesExtra)

def listed (w : World) : (Option Text × Option Text) × Option (List Text) := (sources w,w.endpointRoutes)

def routing (w : World) :
    Table 32 Hop × Option Link × (Option Text × Option Text) × Option (List Text) :=
  (w.table,w.link,listed w)

def outside (table : Table 32 Hop) : Table 32 Hop := table.filter (fun r => r.hop.dev ≠ iface)

section Parts
variable (env : Env)

theorem sayKeeps {view : World → γ} (blind : ∀ w out, view {w with output := out} = view w) (t) :
    Keeps view (say t) := by
  intro w
  simp [say,blind]

theorem effectlessKeeps (view : World → γ) : Keeps view effectless := by
  intro w
  simp [effectless]

theorem orExitKeeps {view : World → γ} (blind : ∀ w out, view {w with output := out} = view w) (ok t) :
    Keeps view (orExit ok t) := by
  intro w
  cases ok <;> simp [orExit,say,blind]

theorem checkFilesKeeps : Keeps (fun w => (ipv6 w,routing w)) (checkFiles env) := by
  refine keepsBind (orExitKeeps (fun _ _ => rfl) _ _) (fun _ => ?_)
  refine keepsBind (orExitKeeps (fun _ _ => rfl) _ _) (fun _ => ?_)
  exact keepsBind (fun w => rfl) (fun _ => orExitKeeps (fun _ _ => rfl) _ _)

theorem recordGatewayKeeps (found : Option Hop) :
    Keeps (fun w => (ipv6 w,routing w)) (recordGateway found) := by
  intro w
  match found with
  | none => rfl
  | some ⟨some gw,dev⟩ => simp [recordGateway,say,ipv6,routing,listed,sources]
  | some ⟨none,dev⟩ => simp [recordGateway,say,ipv6,routing,listed,sources]

theorem writeAddressTmpKeeps (found) : Keeps (fun w => (ipv6 w,routing w)) (writeAddressTmp found) := by
  intro w
  cases found <;> simp [writeAddressTmp,ipv6,routing,listed,sources]

theorem moveAddressTmpKeeps (tmp) : Keeps (fun w => (ipv6 w,routing w)) (moveAddressTmp tmp) := by
  intro w
  cases tmp <;> simp [moveAddressTmp,say,effectless,ipv6,routing,listed,sources]

theorem extractAddressesKeeps : Keeps (fun w => (ipv6 w,routing w)) extractAddresses :=
  keepsBind (fun _ => rfl) (fun found => keepsBind (writeAddressTmpKeeps found)
    (fun _ => keepsBind (fun _ => rfl) (fun tmp => moveAddressTmpKeeps tmp)))

theorem prepareKeeps : Keeps (fun w => (ipv6 w,routing w)) prepare := by
  refine keepsBind (sayKeeps (fun _ _ => rfl) _) (fun _ => ?_)
  refine keepsBind extractAddressesKeeps (fun _ => keepsBind (fun w => rfl) (fun _ => ?_))
  refine keepsBind (orExitKeeps (fun _ _ => rfl) _ _) (fun _ => ?_)
  intro w
  simp [effectless,say,ipv6,routing,listed,sources]

theorem printSetconfKeeps : Keeps (fun w => (ipv6 w,routing w)) printSetconf := by
  refine keepsBind (sayKeeps (fun _ _ => rfl) _) (fun _ => ?_)
  refine keepsBind (sayKeeps (fun _ _ => rfl) _) (fun _ => keepsBind (fun _ => rfl) (fun printed => ?_))
  exact keepsForEach (fun line => sayKeeps (fun _ _ => rfl) _) printed

theorem ipRouteReplaceKeeps (destination hop) :
    Keeps (fun w => (ipv6 w,listed w)) (ipRouteReplace env destination hop) := by
  intro w
  unfold ipRouteReplace
  cases env.destination destination <;> simp [ipv6,listed,sources]

theorem pinEndpointKeeps (hop endpoint) :
    Keeps (fun w => (ipv6 w,sources w)) (pinEndpoint env hop endpoint) := by
  unfold pinEndpoint
  split
  · exact fun _ => rfl
  refine keepsBind ?_ (fun _ => keepsBind
    (keepsMap (ipRouteReplaceKeeps env _ _) (fun v => (v.1,v.2.1))) (fun _ w => ?_))
  · unfold announcePin
    split <;> exact sayKeeps (fun _ _ => rfl) _
  · simp [ipv6,sources]

theorem pinEndpointsKeeps (found) : Keeps (fun w => (ipv6 w,sources w)) (pinEndpoints env found) := by
  refine keepsBind (sayKeeps (fun _ _ => rfl) _) (fun _ => keepsBind (fun w => ?_) (fun _ => ?_))
  · simp [ipv6,sources]
  · cases found with
    | none => exact fun _ => rfl
    | some hop =>
      exact keepsBind (fun _ => rfl) (fun printed => keepsForEach (pinEndpointKeeps env hop) printed)

section Link
variable {view : World → γ} (blind : ∀ w link out, view {w with link := link, output := out} = view w)
include blind

theorem startWireguardGoKeeps : Keeps view (startWireguardGo env) := by
  have quiet : ∀ w out, view {w with output := out} = view w := fun w out => blind w w.link out
  refine keepsBind (sayKeeps quiet _) (fun _ => keepsBind (fun w => ?_) (fun _ => ?_))
  · simp only [wpAlways]
    split
    · exact blind w _ w.output
    · rfl
  refine keepsBind (effectlessKeeps _) (fun _ => keepsBind (fun _ => rfl) (fun created => ?_))
  refine keepsBind (orExitKeeps quiet _ _) (fun _ => ?_)
  refine keepsBind (sayKeeps quiet _) (fun _ w => ?_)
  exact ⟨rfl,rfl,blind w _ w.output⟩

theorem assignAddressKeeps (raw) : Keeps view (assignAddress raw) := by
  have quiet : ∀ w out, view {w with output := out} = view w := fun w out => blind w w.link out
  unfold assignAddress
  dsimp only
  split
  · exact fun _ => rfl
  split
  · exact sayKeeps quiet _
  · exact keepsBind (sayKeeps quiet _) (fun _ w => ⟨blind w _ w.output,rfl⟩)

theorem assignAddressesKeeps (mtu) : Keeps view (assignAddresses mtu) := by
  have quiet : ∀ w out, view {w with output := out} = view w := fun w out => blind w w.link out
  refine keepsBind (sayKeeps quiet _) (fun _ => keepsBind (fun _ => rfl) (fun entries => ?_))
  exact keepsBind (keepsForEach (assignAddressKeeps blind) entries)
    (fun _ w => ⟨rfl,rfl,blind w _ w.output⟩)

end Link

theorem recordLineKeeps (route) : Keeps (fun w => (ipv6 w,routing w)) (recordLine env route) := by
  refine keepsBind (fun _ => rfl) (fun known w => ?_)
  cases known <;> simp [ipv6,routing,listed,sources]

theorem addRouteLineKeeps (route) : Keeps (fun w => (ipv6 w,routing w)) (addRouteLine env route) := by
  unfold addRouteLine
  split
  · exact fun _ => rfl
  split
  · exact sayKeeps (fun _ _ => rfl) _
  split
  · exact keepsBind (recordLineKeeps env _) (fun _ => recordLineKeeps env _)
  · exact recordLineKeeps env route

theorem generateRoutesKeeps : Keeps (fun w => (ipv6 w,routing w)) (generateRoutes env) := by
  refine keepsBind (sayKeeps (fun _ _ => rfl) _) (fun _ => keepsBind (fun w => ?_) (fun _ => ?_))
  · simp [ipv6,routing,listed,sources]
  refine keepsBind (fun _ => rfl) (fun pieces => ?_)
  refine keepsBind (keepsForEach (addRouteLineKeeps env) pieces) (fun _ => ?_)
  refine keepsBind (fun _ => rfl) (fun extra => ?_)
  cases extra with
  | none => exact fun _ => rfl
  | some t =>
    exact keepsBind (sayKeeps (fun _ _ => rfl) _)
      (fun _ => keepsForEach (addRouteLineKeeps env) _)

theorem applyRoutesKeeps : Keeps (fun w => (ipv6 w,listed w)) (applyRoutes env) := by
  refine keepsBind (sayKeeps (fun _ _ => rfl) _) (fun _ => keepsBind (fun _ => rfl) (fun routes => ?_))
  refine keepsForEach (fun route => ?_) routes
  unfold applyRoute
  split
  · exact fun _ => rfl
  · exact keepsBind (sayKeeps (fun _ _ => rfl) _) (fun _ => ipRouteReplaceKeeps env _ _)

theorem showStatusKeeps : Keeps (fun w => (ipv6 w,routing w)) showStatus := by
  intro w
  simp [showStatus,say,effectless,ipv6,routing,listed,sources]

theorem previousCleanupKeeps : Keeps (fun w => (ipv6 w,listed w)) previousCleanup := by
  intro w
  simp [previousCleanup,say,effectless,removeLink,ipv6,listed,sources]

theorem raiseTunnelKeeps (found mtu) : Keeps ipv6 (raiseTunnel env found mtu) := by
  refine keepsBind (keepsMap printSetconfKeeps Prod.fst) (fun _ => ?_)
  refine keepsBind (keepsMap previousCleanupKeeps Prod.fst) (fun _ => ?_)
  refine keepsBind (startWireguardGoKeeps env (fun _ _ _ => rfl)) (fun _ => ?_)
  refine keepsBind (keepsMap (pinEndpointsKeeps env found) Prod.fst) (fun _ => ?_)
  refine keepsBind (assignAddressesKeeps (fun _ _ _ => rfl) mtu) (fun _ => ?_)
  refine keepsBind (keepsMap (generateRoutesKeeps env) Prod.fst) (fun _ => ?_)
  exact keepsBind (keepsMap (applyRoutesKeeps env) Prod.fst)
    (fun _ => keepsMap showStatusKeeps Prod.fst)

end Parts

theorem defaultHopOutside {table : Table 32 Hop} {hop : Hop} (found : defaultHop table = some hop) :
    hop.dev ≠ iface := by
  unfold defaultHop at found
  obtain ⟨mapped,_⟩ := Option.filter_eq_some_iff.mp found
  obtain ⟨r,first,rfl⟩ := Option.map_eq_some_iff.mp mapped
  have h := List.find?_some first
  simp only [decide_eq_true_eq] at h
  exact h.2

theorem defaultHopFilled {table hop} (found : defaultHop table = some hop) : hop.dev ≠ [] := by
  have h := (Option.filter_eq_some_iff.mp found).2
  simpa using h

section Ipv6
variable {env : Env}

def SysctlWorks (env : Env) : Prop :=
  ∀ dev, env.sysctlReads dev = true ∧ env.sysctlWrites dev = true

def Untouched (w t : World) : Prop :=
  t.disableIpv6 = w.disableIpv6 ∧ t.originalIpv6Disabled = w.originalIpv6Disabled

def Secured (w : World) (dev : Text) (t : World) : Prop :=
  t.disableIpv6 = Function.update w.disableIpv6 dev 1 ∧
    t.originalIpv6Disabled = some (w.originalIpv6Disabled.getD (w.disableIpv6 dev)) ∧
    t.originalDev = some dev

theorem untouchedOfIpv6 {w t : World} (same : ipv6 t = ipv6 w) : Untouched w t :=
  ⟨congrArg Prod.fst same,congrArg (fun v => v.2.1) same⟩

theorem untouchedCongr {w t u : World} (same : ipv6 u = ipv6 t) (h : Untouched w t) : Untouched w u :=
  ⟨(untouchedOfIpv6 same).1.trans h.1,(untouchedOfIpv6 same).2.trans h.2⟩

theorem securedCongr {w t u : World} {dev} (same : ipv6 u = ipv6 t) (h : Secured w dev t) :
    Secured w dev u :=
  ⟨(untouchedOfIpv6 same).1.trans h.1,(untouchedOfIpv6 same).2.trans h.2.1,
    (congrArg (fun v => v.2.2) same).trans h.2.2⟩

theorem recordingWp (w : World) :
    (recording env).wp
      (fun found t => found = defaultHop w.table ∧ routing t = routing w ∧ Untouched w t ∧
        t.originalDev = (found.map Hop.dev).or w.originalDev)
      (fun t => routing t = routing w ∧ Untouched w t) w := by
  have cut : ∀ t, (ipv6 t,routing t) = (ipv6 w,routing w) → routing t = routing w ∧ Untouched w t :=
    fun t same => ⟨congrArg Prod.snd same,untouchedOfIpv6 (congrArg Prod.fst same)⟩
  refine wpThen (wpMono (checkFilesKeeps env w) (fun _ _ same => same) cut) (fun _ t same => ?_)
  have table : t.table = w.table := congrArg (fun v => v.2.1) same
  have dev : t.originalDev = w.originalDev := congrArg (fun v => v.1.2.2) same
  have here := cut t same
  -- from here on t differs from w in its output only
  cases found : defaultHop w.table with
  | none => simpa [say,effectless,recordDev,table,found,dev,routing,listed,sources,Untouched] using here
  | some hop => simpa [say,effectless,recordDev,table,found,dev,routing,listed,sources,Untouched] using here

theorem secureOriginalKeeps (found) :
    Keeps (fun w => (w.originalDev,routing w)) (secureOriginal env found) := by
  cases found with
  | none => exact fun _ => rfl
  | some hop =>
    have save : ∀ kept, Keeps (fun w => (w.originalDev,routing w)) (saveIpv6 env hop.dev kept) := by
      intro kept w
      unfold saveIpv6
      split
      · simp [say,routing,listed,sources]
      split <;> simp [say,routing,listed,sources]
    have write : ∀ saved, Keeps (fun w => (w.originalDev,routing w)) (writeIpv6 env hop.dev saved) := by
      intro saved w
      unfold writeIpv6
      split
      · split <;> simp [say,routing,listed,sources]
      · rfl
    refine keepsBind (sayKeeps (fun _ _ => rfl) _) (fun _ => keepsBind (fun _ => rfl) (fun kept => ?_))
    exact keepsBind (save kept) (fun _ => keepsBind (fun _ => rfl) (fun saved => write saved))

theorem secureOriginalWp (works : SysctlWorks env) (found : Option Hop) (t : World) :
    (secureOriginal env found).wp
      (fun _ u => u.originalDev = t.originalDev ∧
        match found with
        | none => Untouched t u
        | some hop => u.disableIpv6 = Function.update t.disableIpv6 hop.dev 1 ∧
            u.originalIpv6Disabled = some (t.originalIpv6Disabled.getD (t.disableIpv6 hop.dev)))
      (fun u => ipv6 u = ipv6 t) t := by
  cases found with
  | none => exact ⟨rfl,rfl,rfl⟩
  | some hop =>
    obtain ⟨reads,writes⟩ := works hop.dev
    cases saved : t.originalIpv6Disabled with
    | none => simp [secureOriginal,saveIpv6,writeIpv6,say,saved,reads,writes,ipv6]
    | some v => simp [secureOriginal,saveIpv6,writeIpv6,say,saved,writes,ipv6]

/- Every way out of start.sh either has not touched the IPv6 state or has secured it for
the interface it found; it is secured whenever the start succeeds and found one. -/
theorem startIpv6 (works : SysctlWorks env) (w : World) :
    (start env).wp
      (fun _ t => match defaultHop w.table with
        | none => Untouched w t ∧ t.originalDev = w.originalDev
        | some hop => Secured w hop.dev t)
      (fun t => Untouched w t ∨ ∃ hop, defaultHop w.table = some hop ∧ Secured w hop.dev t) w := by
  refine wpThen (wpMono (recordingWp w) (fun _ _ h => h) (fun t h => .inl h.2)) ?_
  rintro found t ⟨rfl,_,before,dev⟩
  refine wpThen (wpMono (recordGatewayKeeps _ t) (fun _ _ h => h)
    (fun u same => .inl (untouchedCongr (congrArg Prod.fst same) before))) (fun _ u sameU => ?_)
  refine wpThen (wpMono (prepareKeeps u) (fun _ _ h => h)
    (fun v same => .inl (untouchedCongr (congrArg Prod.fst (same.trans sameU)) before))) (fun mtu v sameV => ?_)
  have same := congrArg Prod.fst (sameV.trans sameU)
  have untouched := untouchedCongr same before
  have devV : v.originalDev = t.originalDev := congrArg (fun x => x.2.2) same
  refine wpThen (wpMono (secureOriginalWp works _ v) (fun _ _ h => h)
    (fun x same => .inl (untouchedCongr same untouched))) (fun _ x h => ?_)
  obtain ⟨devX,secured⟩ := h
  cases found : defaultHop w.table with
  | none =>
    simp only [found] at secured dev
    have here : Untouched w x := ⟨secured.1.trans untouched.1,secured.2.trans untouched.2⟩
    refine wpMono (raiseTunnelKeeps env _ mtu x) (fun _ y same => ?_) (fun y same => .inl (untouchedCongr same here))
    refine ⟨untouchedCongr same here,?_⟩
    have devY : y.originalDev = x.originalDev := congrArg (fun z => z.2.2) same
    rw [devY,devX,devV,dev]
    rfl
  | some hop =>
    simp only [found] at secured dev
    have here : Secured w hop.dev x := by
      refine ⟨?_,?_,?_⟩
      · rw [secured.1,untouched.1]
      · rw [secured.2,untouched.1,untouched.2]
      · rw [devX,devV,dev]
        rfl
    exact wpMono (raiseTunnelKeeps env _ mtu x) (fun _ y same => securedCongr same here)
      (fun y same => .inr ⟨hop,rfl,securedCongr same here⟩)

end Ipv6
section Table
variable (env : Env)

def tunnelHop : Hop := ⟨none,iface⟩

def ReadAs (texts : List Text) (dests : List (Subnet 32)) : Prop :=
  texts.map env.destination = dests.map some

def Installed (hop : Hop) (texts : List Text) (t u : World) : Prop :=
  ∃ dests, ReadAs env texts dests ∧ u.table = install hop dests t.table ∧ u.link = t.link

theorem installedNone (hop : Hop) (t : World) : Installed env hop [] t t := ⟨[],rfl,rfl,rfl⟩

theorem installedFrom {hop : Hop} {texts} {t u v : World}
    (same : (u.table,u.link) = (t.table,t.link)) (h : Installed env hop texts u v) :
    Installed env hop texts t v := by
  have table : u.table = t.table := congrArg Prod.fst same
  have link : u.link = t.link := congrArg Prod.snd same
  obtain ⟨dests,reads,installed,kept⟩ := h
  exact ⟨dests,reads,by rw [← table]; exact installed,kept.trans link⟩

theorem installedAppend {hop : Hop} {left right} {t u v : World}
    (first : Installed env hop left t u) (second : Installed env hop right u v) :
    Installed env hop (left ++ right) t v := by
  obtain ⟨these,readThese,tableU,linkU⟩ := first
  obtain ⟨those,readThose,tableV,linkV⟩ := second
  refine ⟨these ++ those,?_,?_,linkV.trans linkU⟩
  · simp only [ReadAs] at readThese readThose
    simp [ReadAs,readThese,readThose]
  · rw [tableV,tableU,installAppend]

theorem ipRouteReplaceWp (text : Text) (hop : Hop) (t : World) :
    (ipRouteReplace env text hop).wp (fun _ u => Installed env hop [text] t u) (fun _ => True) t := by
  unfold ipRouteReplace
  cases read : env.destination text with
  | none => trivial
  | some dest => exact ⟨trivial,trivial,[dest],by simp [ReadAs,read],rfl,rfl⟩

theorem installLoopWp {α : Type} {hop : Hop} {body : α → Script World Unit} {texts : α → List Text}
    (round : ∀ a t, (body a).wp (fun _ u => Installed env hop (texts a) t u) (fun _ => True) t)
    (items : List α) (t : World) :
    (forEach body items).wp (fun _ u => Installed env hop (items.flatMap texts) t u) (fun _ => True) t := by
  induction items generalizing t with
  | nil => exact installedNone env hop t
  | cons a rest ih =>
    refine wpThen (round a t) (fun _ u first => ?_)
    exact wpMono (ih u) (fun _ v second => installedAppend env first second) (fun _ h => h)

theorem pinEndpointWp (hop : Hop) (endpoint : Text) (t : World) :
    (pinEndpoint env hop endpoint).wp
      (fun _ u => Installed env hop (pinnedHost endpoint).toList t u) (fun _ => True) t := by
  unfold pinEndpoint
  cases pinnedHost endpoint with
  | none => exact installedNone env hop t
  | some host =>
    have quiet : Keeps (fun w => (w.table,w.link)) (announcePin host hop) := by
      unfold announcePin
      split <;> exact sayKeeps (fun _ _ => rfl) _
    refine wpThen (wpMono (quiet t) (fun _ _ h => h) (fun _ _ => trivial)) (fun _ u same => ?_)
    refine wpThen (ipRouteReplaceWp env host hop u) (fun _ v pinned => ?_)
    exact ⟨trivial,trivial,installedFrom env same pinned⟩

theorem applyRouteWp {route : Text} (filled : route ≠ []) (t : World) :
    (applyRoute env route).wp (fun _ u => Installed env tunnelHop [route] t u) (fun _ => True) t := by
  unfold applyRoute
  rw [if_neg filled]
  have quiet : Keeps (fun w => (w.table,w.link)) (say ("route: ".toList ++ route ++ " dev ".toList ++ iface)) :=
    sayKeeps (fun _ _ => rfl) _
  refine wpThen (wpMono (quiet t) (fun _ _ h => h) (fun _ _ => trivial)) (fun _ u same => ?_)
  exact wpMono (ipRouteReplaceWp env route tunnelHop u) (fun _ v => installedFrom env same) (fun _ h => h)

theorem recordLineWp {route l} {t : World} (file : t.appliedRoutes = some l) :
    (recordLine env route).wp (fun _ u => u.appliedRoutes = some (recordRoute env.grepQx l route))
      (fun _ => True) t := by
  simp only [recordLine,wpSeq,wpRead,file,Option.getD_some]
  unfold recordRoute
  cases env.grepQx route l <;> simp [file]

theorem addRouteLineWp {route l} {t : World} (file : t.appliedRoutes = some l) :
    (addRouteLine env route).wp (fun _ u => u.appliedRoutes = some (addRoute env.grepQx l route))
      (fun _ => True) t := by
  unfold addRouteLine addRoute
  split
  · exact file
  split
  · exact ⟨trivial,trivial,file⟩
  split
  · exact wpThen (recordLineWp env file) (fun _ u fileU => recordLineWp env fileU)
  · exact recordLineWp env file

theorem addRouteLoopWp (pieces : List Text) {l} {t : World} (file : t.appliedRoutes = some l) :
    (forEach (addRouteLine env) pieces).wp
      (fun _ u => u.appliedRoutes = some (pieces.foldl (addRoute env.grepQx) l)) (fun _ => True) t := by
  induction pieces generalizing l t with
  | nil => exact file
  | cons piece rest ih => exact wpThen (addRouteLineWp env file) (fun _ u fileU => ih fileU)

theorem generateRoutesWp (t : World) :
    (generateRoutes env).wp
      (fun _ u => u.appliedRoutes = some (appliedRoutes env.grepQx (t.conf.getD []) t.routesExtra))
      (fun _ => True) t := by
  refine wpThen (M := fun _ u => routing u = routing t) (by simp [say,routing,listed,sources]) (fun _ u same => ?_)
  refine wpThen (M := fun _ v => v.appliedRoutes = some [] ∧ routing v = routing t)
    (by simpa [routing,listed,sources] using same) (fun _ v h => ?_)
  obtain ⟨file,same⟩ := h
  refine wpThen (M := fun pieces x => pieces = routePieces (t.conf.getD []) ∧
    x.appliedRoutes = some [] ∧ routing x = routing t) ?_ ?_
  · have conf : v.conf = t.conf := congrArg (fun r => r.2.2.1.1) same
    simp [file,same,conf]
  rintro pieces x ⟨rfl,file,same⟩
  refine wpThen (wpMono (wpAnd (addRouteLoopWp env _ file) (keepsForEach (addRouteLineKeeps env) _ x))
    (fun _ _ h => h) (fun _ _ => trivial)) (fun _ y h => ?_)
  obtain ⟨fileY,sameY⟩ := h
  refine wpThen (M := fun extra z => extra = t.routesExtra ∧ z = y) ?_ ?_
  · have extra : y.routesExtra = t.routesExtra :=
      congrArg (fun r => r.2.2.1.2) ((congrArg Prod.snd sameY).trans same)
    simp [extra]
  rintro extra z ⟨rfl,rfl⟩
  unfold appliedRoutes
  cases extra : t.routesExtra with
  | none => simpa [extraPieces] using fileY
  | some text =>
    rw [List.foldl_append]
    refine wpThen (M := fun _ y => y.appliedRoutes = z.appliedRoutes) (by simp [say]) (fun _ y file => ?_)
    exact addRouteLoopWp env _ (file.trans fileY)

def pinTexts (found : Option Hop) (endpoints : List Text) : List Text :=
  match found with
  | none => []
  | some _ => endpoints.flatMap (fun e => (pinnedHost e).toList)

/- The table of a raised tunnel: what was outside wg0, then the pins, then the routes of
applied-routes, each replacing what the table had for its destination. -/
structure Raised (env : Env) (found : Option Hop) (w t : World) : Prop where
  link : t.link.isSome = true
  table : ∃ config pins routes,
    ReadAs env (pinTexts found (env.endpoints config)) pins ∧
    ReadAs env (appliedRoutes env.grepQx (w.conf.getD []) w.routesExtra) routes ∧
    t.table = install tunnelHop routes
      (install (found.getD tunnelHop) pins (w.table.filter (fun r => r.hop.dev ≠ iface)))

theorem previousCleanupWp (t : World) :
    previousCleanup.wp (fun _ u => u.table = outside t.table ∧ listed u = listed t)
      (fun u => u.table.Sublist t.table ∧ listed u = listed t) t := by
  have here : t.table.Sublist t.table ∧ listed t = listed t := ⟨List.Sublist.refl _,rfl⟩
  have cleaned : (outside t.table).Sublist t.table := List.filter_sublist
  exact ⟨here,here,⟨cleaned,rfl⟩,⟨cleaned,rfl⟩,rfl,rfl⟩

theorem startWireguardGoWp (t : World) :
    (startWireguardGo env).wp (fun _ u => u.table = t.table ∧ u.link.isSome = true ∧
      sources u = sources t) (fun _ => True) t := by
  unfold startWireguardGo
  simp only [wpSeq,say,wpCommand,wpAlways,effectless,wpRead,true_and,id]
  split
  · simp [orExit,sources]
  · cases t.link <;> simp [orExit,say,sources]

theorem pinEndpointsWp (found : Option Hop) (t : World) :
    (pinEndpoints env found).wp
      (fun _ u => ∃ config, Installed env (found.getD tunnelHop) (pinTexts found (env.endpoints config)) t u)
      (fun _ => True) t := by
  unfold pinEndpoints
  simp only [wpSeq,say,wpCommand,true_and]
  cases found with
  | none => exact ⟨[],installedFrom env rfl (installedNone env tunnelHop _)⟩
  | some hop =>
    simp only [wpSeq,wpRead]
    refine wpMono (installLoopWp env (pinEndpointWp env hop) _ _) (fun _ u h => ?_) (fun _ h => h)
    exact ⟨_,installedFrom env rfl h⟩

theorem assignAddressesKeepsTable (mtu) :
    Keeps (fun w => (w.table,w.link.isSome)) (assignAddresses mtu) := by
  have each : ∀ raw, Keeps (fun w => (w.table,w.link.isSome)) (assignAddress raw) := by
    intro raw w
    unfold assignAddress
    dsimp only
    split
    · rfl
    split <;> simp [say]
  refine keepsBind (sayKeeps (fun _ _ => rfl) _) (fun _ => keepsBind (fun _ => rfl) (fun entries => ?_))
  refine keepsBind (keepsForEach each entries) (fun _ w => ?_)
  simp

theorem applyRoutesWp {l : List Text} (solid : [] ∉ l) {t : World} (file : t.appliedRoutes = some l) :
    (applyRoutes env).wp (fun _ u => Installed env tunnelHop l t u) (fun _ => True) t := by
  unfold applyRoutes
  simp only [wpSeq,say,wpCommand,wpRead,true_and,file,Option.getD_some]
  have loop : ∀ (rest : List Text), [] ∉ rest → ∀ u,
      (forEach (applyRoute env) rest).wp (fun _ v => Installed env tunnelHop rest u v) (fun _ => True) u := by
    intro rest
    induction rest with
    | nil => exact fun _ u => installedNone env tunnelHop u
    | cons route rest ih =>
      intro solid u
      have filled : route ≠ [] := fun h => solid (by simp [h])
      refine wpThen (applyRouteWp env filled u) (fun _ v first => ?_)
      exact wpMono (ih (fun h => solid (List.mem_cons_of_mem route h)) v)
        (fun _ x second => installedAppend env first second) (fun _ h => h)
  exact wpMono (loop l solid _) (fun _ u h => installedFrom env rfl h) (fun _ h => h)

theorem raiseTunnelWp (found : Option Hop) (mtu : Text) (w : World) :
    (raiseTunnel env found mtu).wp (fun _ t => Raised env found w t) (fun _ => True) w := by
  refine wpThen (keepsFinished (keepsMap printSetconfKeeps Prod.snd) w) (fun _ a atA => ?_)
  refine wpThen (wpMono (previousCleanupWp a) (fun _ _ h => h) (fun _ _ => trivial))
    (fun _ b ⟨tableB,atB⟩ => ?_)
  refine wpThen (startWireguardGoWp env b) (fun _ c ⟨tableC,linkC,atC⟩ => ?_)
  refine wpThen (wpMono (wpAnd (pinEndpointsWp env found c) (keepsFinished (pinEndpointsKeeps env found) c))
    (fun _ _ h => h) (fun _ _ => trivial)) (fun _ d ⟨⟨config,pins,readPins,tableD,linkD⟩,atD⟩ => ?_)
  refine wpThen (wpMono (wpAnd (keepsFinished (assignAddressesKeepsTable mtu) d)
    (keepsFinished (@assignAddressesKeeps _ sources (fun _ _ _ => rfl) mtu) d))
    (fun _ _ h => h) (fun _ _ => trivial)) (fun _ e ⟨tableE,atE⟩ => ?_)
  refine wpThen (wpMono (wpAnd (generateRoutesWp env e) (keepsFinished (generateRoutesKeeps env) e))
    (fun _ _ h => h) (fun _ _ => trivial)) (fun _ f ⟨file,atF⟩ => ?_)
  -- the texts the routes come from are those of the start
  have texts : sources e = sources w := by
    have read : sources a = sources w := congrArg (fun r => r.2.2.1) atA
    exact atE.trans ((congrArg Prod.snd atD).trans (atC.trans ((congrArg Prod.fst atB).trans read)))
  have conf : e.conf = w.conf := congrArg Prod.fst texts
  have extra : e.routesExtra = w.routesExtra := congrArg Prod.snd texts
  rw [conf,extra] at file
  refine wpThen (applyRoutesWp env (appliedRoutesFilled _ _ _) file)
    (fun _ g ⟨routes,readRoutes,tableG,linkG⟩ => ?_)
  refine wpMono (keepsFinished showStatusKeeps g) (fun _ h atH => ?_) (fun _ h => h)
  have tableH : h.table = g.table := congrArg (fun r => r.2.1) atH
  have linkH : h.link = g.link := congrArg (fun r => r.2.2.1) atH
  have tableF : f.table = e.table := congrArg (fun r => r.2.1) atF
  have linkF : f.link = e.link := congrArg (fun r => r.2.2.1) atF
  have tableA : a.table = w.table := congrArg Prod.fst atA
  obtain ⟨tableE,linkE⟩ := Prod.mk.inj tableE
  refine ⟨?_,config,pins,routes,readPins,readRoutes,?_⟩
  · rw [linkH,linkG,linkF,linkE,linkD,linkC]
  · rw [tableH,tableG,tableF,tableE,tableD,tableC,tableB,tableA,outside]

theorem startRaised (w : World) :
    (start env).wp (fun _ t => Raised env (defaultHop w.table) w t) (fun _ => True) w := by
  refine wpThen (wpMono (recordingWp w) (fun _ _ h => h) (fun _ _ => trivial)) ?_
  rintro found a ⟨rfl,atA,_,_⟩
  refine wpThen (keepsFinished (keepsMap (recordGatewayKeeps _) Prod.snd) a) (fun _ b atB => ?_)
  refine wpThen (keepsFinished (keepsMap prepareKeeps Prod.snd) b) (fun mtu c atC => ?_)
  refine wpThen (keepsFinished (keepsMap (secureOriginalKeeps _) Prod.snd) c) (fun _ d atD => ?_)
  have same : routing d = routing w := atD.trans (atC.trans (atB.trans atA))
  have table : d.table = w.table := congrArg Prod.fst same
  have conf : d.conf = w.conf := congrArg (fun r => r.2.2.1.1) same
  have extra : d.routesExtra = w.routesExtra := congrArg (fun r => r.2.2.1.2) same
  refine wpMono (raiseTunnelWp env _ mtu d) (fun _ t raised => ?_) (fun _ h => h)
  obtain ⟨link,config,pins,routes,readPins,readRoutes,installed⟩ := raised
  rw [table] at installed
  rw [conf,extra] at readRoutes
  exact ⟨link,config,pins,routes,readPins,readRoutes,installed⟩

end Table
section Stop
variable (env : Env)

/- `ip route del` of one line of a route file; a blank line is passed over. -/
def without (dev : Option Text) (table : Table 32 Hop) (text : Text) : Table 32 Hop :=
  if text = [] then table
  else match env.destination text with
    | some dest => table.eraseP (fun r => r.dest = dest ∧ (dev = none ∨ dev = some r.hop.dev))
    | none => table

def recorded (w : World) : Option (List Text) × Option (List Text) × Option Text :=
  (w.appliedRoutes,w.endpointRoutes,w.originalGateway)

theorem deleteLineWp (dev : Option Text) (text : Text) (R) (w : World) :
    (if text = [] then pure () else always (ipRouteDel env text dev) : Script World Unit).wp
      (fun _ t => t.table = without env dev w.table text ∧
        (ipv6 t,recorded t) = (ipv6 w,recorded w)) R w := by
  unfold without
  split
  · exact ⟨rfl,rfl⟩
  · simp only [wpAlways,ipRouteDel]
    cases env.destination text with
    | none => exact ⟨rfl,rfl⟩
    | some dest => exact ⟨rfl,rfl⟩

theorem deleteRecordedWp (file dev R) (w : World) :
    (deleteRecorded env file dev).wp
      (fun _ t => t.table = ((file w).getD []).foldl (without env dev) w.table ∧
        (ipv6 t,recorded t) = (ipv6 w,recorded w)) R w := by
  simp only [deleteRecorded,wpSeq,wpRead]
  generalize (file w).getD [] = texts
  induction texts generalizing w with
  | nil => exact ⟨rfl,rfl⟩
  | cons text rest ih =>
    refine wpThen (deleteLineWp env dev text R w) (fun _ t here => ?_)
    obtain ⟨table,same⟩ := here
    refine wpMono (ih t) (fun _ u later => ?_) (fun _ h => h)
    rw [table,same] at later
    exact later

def undone (w : World) : Table 32 Hop :=
  (w.endpointRoutes.getD []).foldl (without env none)
    ((w.appliedRoutes.getD []).foldl (without env (some iface)) w.table)

def restoredDefault (gw dev : Text) (table : Table 32 Hop) : Table 32 Hop :=
  if gw ≠ [] ∧ dev ≠ [] then replace ⟨Subnet.everything 32,⟨some gw,dev⟩⟩ table else table

/- What a completed stop leaves of everything but the configuration and the output. -/
structure Stopped (env : Env) (w t : World) : Prop where
  ipv6 : ipv6 t = ipv6 (restoreSaved env w)
  link : t.link = none
  table : t.table = (restoredDefault (w.originalGateway.getD []) (w.originalDev.getD [])
    (undone env w)).filter (fun r => r.hop.dev ≠ iface)
  files : recorded t = (none,none,w.originalGateway)

theorem restoreSavedIpv6 {a b : World} (same : ipv6 a = ipv6 b) :
    ipv6 (restoreSaved env a) = ipv6 (restoreSaved env b) := by
  simp only [ipv6,Prod.mk.injEq] at same
  obtain ⟨flags,saved,dev⟩ := same
  unfold restoreSaved
  rw [dev,saved]
  split
  · split <;> simp [ipv6,flags,dev]
  · simp [ipv6,flags,saved,dev]

theorem restoreSavedKeeps (w : World) :
    (restoreSaved env w).table = w.table ∧ (restoreSaved env w).link = w.link ∧
      (restoreSaved env w).originalDev = w.originalDev ∧ recorded (restoreSaved env w) = recorded w := by
  unfold restoreSaved
  split
  · split <;> exact ⟨rfl,rfl,rfl,rfl⟩
  · exact ⟨rfl,rfl,rfl,rfl⟩

theorem deleteAppliedRoutesWp (R) (w : World) :
    (deleteAppliedRoutes env).wp (fun _ t => ipv6 t = ipv6 w ∧
      t.table = (w.appliedRoutes.getD []).foldl (without env (some iface)) w.table ∧
      recorded t = (none,w.endpointRoutes,w.originalGateway)) R w := by
  simp only [deleteAppliedRoutes,wpSeq,note,wpAlways]
  refine wpMono (deleteRecordedWp env _ _ _ _) (fun _ t here => ?_) (fun _ h => h)
  obtain ⟨table,same⟩ := here
  obtain ⟨flags,files⟩ := Prod.mk.inj same
  exact ⟨flags,table,congrArg (fun v => (none,v.2)) files⟩

theorem deleteEndpointRoutesWp (R) (w : World) :
    (deleteEndpointRoutes env).wp (fun _ t => ipv6 t = ipv6 w ∧
      t.table = (w.endpointRoutes.getD []).foldl (without env none) w.table ∧
      recorded t = (w.appliedRoutes,none,w.originalGateway)) R w := by
  simp only [deleteEndpointRoutes,wpSeq,note,wpAlways]
  refine wpMono (deleteRecordedWp env _ _ _ _) (fun _ t here => ?_) (fun _ h => h)
  obtain ⟨table,same⟩ := here
  obtain ⟨flags,files⟩ := Prod.mk.inj same
  exact ⟨flags,table,congrArg (fun v => (v.1,none,v.2.2)) files⟩

theorem restoreDefaultRouteWp (R) (w : World) :
    restoreDefaultRoute.wp (fun _ t => ipv6 t = ipv6 w ∧
      t.table = restoredDefault (w.originalGateway.getD []) (w.originalDev.getD []) w.table ∧
      recorded t = recorded w) R w := by
  simp only [restoreDefaultRoute,wpSeq,note,wpAlways,wpRead,restoredDefault]
  split
  · exact ⟨rfl,rfl,rfl⟩
  · exact ⟨rfl,rfl,rfl⟩

theorem restoreIpv6Wp (R) (w : World) :
    (restoreIpv6 env).wp (fun _ t => ipv6 t = ipv6 (restoreSaved env w) ∧ t.table = w.table ∧
      recorded t = recorded w) R w := by
  have back : ∀ out, ipv6 (restoreSaved env {w with output := out}) = ipv6 (restoreSaved env w) ∧
      (restoreSaved env {w with output := out}).table = w.table ∧
      recorded (restoreSaved env {w with output := out}) = recorded w := by
    intro out
    obtain ⟨table,_,_,files⟩ := restoreSavedKeeps env {w with output := out}
    exact ⟨restoreSavedIpv6 env rfl,table,files⟩
  simp only [restoreIpv6,wpSeq,note,wpAlways,wpRead]
  split
  · exact back _
  · exact back _

theorem stopWp (w : World) :
    (stop env).wp (fun _ t => Stopped env w t) (fun _ => False) w := by
  refine wpThen (deleteAppliedRoutesWp env _ w) (fun _ a ⟨flagsA,tableA,filesA⟩ => ?_)
  refine wpThen (deleteEndpointRoutesWp env _ a) (fun _ b ⟨flagsB,tableB,filesB⟩ => ?_)
  refine wpThen (restoreDefaultRouteWp _ b) (fun _ c ⟨flagsC,tableC,filesC⟩ => ?_)
  refine wpThen (restoreIpv6Wp env _ c) (fun _ d ⟨flagsD,tableD,filesD⟩ => ?_)
  obtain ⟨applied,endpoints,gatewayA⟩ : a.appliedRoutes = none ∧ a.endpointRoutes = w.endpointRoutes ∧
      a.originalGateway = w.originalGateway := by simpa [recorded] using filesA
  have files : recorded b = (none,none,w.originalGateway) := by rw [filesB,applied,gatewayA]
  have gateway : b.originalGateway = w.originalGateway := congrArg (fun v => v.2.2) files
  have flags : ipv6 b = ipv6 w := flagsB.trans flagsA
  have dev : b.originalDev = w.originalDev := congrArg (fun v => v.2.2) flags
  have table : d.table = restoredDefault (w.originalGateway.getD []) (w.originalDev.getD []) (undone env w) := by
    rw [tableD,tableC,gateway,dev,tableB,endpoints,tableA,undone]
  refine ⟨flagsD.trans (restoreSavedIpv6 env (flagsC.trans flags)),rfl,?_,(filesD.trans filesC).trans files⟩
  rw [← table]
  rfl

theorem stopRunStopped (w : World) : Stopped env w (stopRun env w) := by
  have h := wpExec (stopWp env w) []
  unfold stopRun
  revert h
  cases (stop env).exec [] w with
  | finished a t rest => exact fun h => h
  | aborted t => exact False.elim

theorem stopRunIpv6 (w : World) :
    ipv6 (stopRun env w) = ipv6 (restoreSaved env w) ∧ (stopRun env w).link = none :=
  ⟨(stopRunStopped env w).ipv6,(stopRunStopped env w).link⟩

end Stop
end WebosWireguard.ScriptEffects
