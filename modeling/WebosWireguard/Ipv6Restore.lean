import WebosWireguard.LeakProtection

/-! What stop.sh gives back. A saved value and the interface it belongs to lie in two files;
as long as no start moves original-dev away under a saved value, every completed stop leaves
disable_ipv6 of every interface as it was before the tunnel's first start. -/
namespace WebosWireguard.Ipv6Restore
open ShellScript ShellScript.Script SubnetTable TextLines TunnelScripts ScriptEffects TransitionRun
open LeakProtection (Works sampleEnv sampleEnvWorks sampleWorld oneRoute defaultVia)

/-- No start changes original-dev while an earlier start's value is saved: it finds the same
interface or none, or it fails before it has touched the file. -/
def DevKept (w : World) : Event → Prop
  | .start env faults => w.originalIpv6Disabled.isSome = true →
      ((recording env).exec faults w).state.originalDev = w.originalDev
  | _ => True

/- Nothing is saved and every flag is the original one, or one flag is 1 and the original
value of that interface is saved. -/
def Held (orig : Text → Nat) (w : World) : Prop :=
  match w.originalIpv6Disabled with
  | none => w.disableIpv6 = orig
  | some value => ∃ dev, dev ≠ [] ∧ w.originalDev = some dev ∧ value = orig dev ∧
      w.disableIpv6 = Function.update orig dev 1

def Rested (orig : Text → Nat) (w : World) : Prop :=
  w.originalIpv6Disabled = none ∧ w.disableIpv6 = orig

theorem restedHeld {orig w} (rested : Rested orig w) : Held orig w := by
  unfold Held
  rw [rested.1]
  exact rested.2

theorem restoreSavedRested {env orig w} (works : SysctlWorks env) (held : Held orig w) :
    Rested orig (restoreSaved env w) := by
  unfold Held at held
  unfold restoreSaved
  cases saved : w.originalIpv6Disabled with
  | none =>
    simp only [saved] at held
    cases w.originalDev <;> exact ⟨saved,held⟩
  | some value =>
    simp only [saved] at held
    obtain ⟨dev,filled,recorded,rfl,flags⟩ := held
    have writes : dev ≠ [] ∧ env.sysctlWrites dev = true := ⟨filled,(works dev).2⟩
    simp only [recorded,if_pos writes]
    refine ⟨rfl,?_⟩
    change Function.update w.disableIpv6 dev (orig dev) = orig
    rw [flags,Function.update_idem,Function.update_eq_self]

theorem startDev (env : Env) (faults : List Fault) (w : World) :
    ((start env).exec faults w).state.originalDev =
      ((recording env).exec faults w).state.originalDev := by
  have dev : ∀ {α : Type} {p : Script World α}, Keeps ipv6 p → Keeps World.originalDev p :=
    fun keeps => keepsMap keeps (fun v => v.2.2)
  have rest : ∀ found, Keeps World.originalDev (do
      recordGateway found
      let mtu ← prepare
      secureOriginal env found
      raiseTunnel env found mtu) := by
    intro found
    refine keepsBind (dev (keepsMap (recordGatewayKeeps found) Prod.fst)) (fun _ => ?_)
    refine keepsBind (dev (keepsMap prepareKeeps Prod.fst)) (fun mtu => ?_)
    exact keepsBind (keepsMap (secureOriginalKeeps found) Prod.fst) (fun _ => dev (raiseTunnelKeeps env found mtu))
  unfold start
  rw [execBind]
  cases (recording env).exec faults w with
  | finished found t faults => exact keepsExec (rest found) faults t
  | aborted t => rfl

theorem heldExit {env orig w t} {faults : List Fault} (held : Held orig w)
    (kept : DevKept w (.start env faults))
    (ended : ((start env).exec faults w).state = t)
    (way : Untouched w t ∨ ∃ hop, defaultHop w.table = some hop ∧ Secured w hop.dev t) :
    Held orig t := by
  have dev : w.originalIpv6Disabled.isSome = true → t.originalDev = w.originalDev := by
    intro saved
    rw [← ended,startDev]
    exact kept saved
  unfold Held at held ⊢
  cases saved : w.originalIpv6Disabled with
  | none =>
    simp only [saved] at held
    rcases way with ⟨flags,same⟩ | ⟨hop,found,flags,value,recorded⟩
    · simp only [same,saved]
      exact flags.trans held
    · simp only [value,saved,Option.getD_none]
      exact ⟨hop.dev,defaultHopFilled found,recorded,by rw [held],by rw [flags,held]⟩
  | some value =>
    simp only [saved] at held
    obtain ⟨dev0,filled,original,valueOrig,flags0⟩ := held
    have now : t.originalDev = some dev0 := (dev (by simp [saved])).trans original
    rcases way with ⟨flags,same⟩ | ⟨hop,found,flags,value',recorded⟩
    · simp only [same,saved]
      exact ⟨dev0,filled,now,valueOrig,flags.trans flags0⟩
    · simp only [value',saved,Option.getD_some]
      cases Option.some.inj (recorded.symm.trans now)
      exact ⟨hop.dev,filled,now,valueOrig,by rw [flags,flags0,Function.update_idem]⟩

theorem startHeld {env orig w} {faults : List Fault} (works : SysctlWorks env) (held : Held orig w)
    (kept : DevKept w (.start env faults)) : Held orig (startRun env faults w) := by
  have spec := wpExec (startIpv6 works w) faults
  have exit := fun t => heldExit (t := t) held kept
  unfold startRun
  revert spec exit
  cases (start env).exec faults w with
  | finished a t rest =>
    intro flags exit
    refine exit t rfl ?_
    cases found : defaultHop w.table with
    | none =>
      simp only [found] at flags
      exact .inl flags.1
    | some hop =>
      simp only [found] at flags
      exact .inr ⟨hop,rfl,flags⟩
  | aborted t => exact fun way exit => restedHeld (restoreSavedRested works (exit t rfl way))

theorem stopRested {env orig w} (works : SysctlWorks env) (held : Held orig w) :
    Rested orig (stopRun env w) := by
  obtain ⟨saved,flags⟩ := restoreSavedRested works held
  have same := (stopRunIpv6 env w).1
  exact ⟨(congrArg (fun v => v.2.1) same).trans saved,(congrArg Prod.fst same).trans flags⟩

theorem stepHeld {orig w event t} (works : Works event) (held : Held orig w) (kept : DevKept w event)
    (stepped : step w event = some t) : Held orig t := by
  cases event with
  | start env faults =>
    cases Option.some.inj stepped
    exact startHeld works held kept
  | stop env =>
    cases Option.some.inj stepped
    exact restedHeld (stopRested works held)
  | network routes =>
    cases Option.some.inj stepped
    exact held
  | configure conf address routesExtra =>
    cases Option.some.inj stepped
    exact held

def IsStart : Event → Prop
  | .start _ _ => True
  | _ => False

theorem stepRested {orig w event t} (works : Works event) (rested : Rested orig w)
    (calm : ¬ IsStart event) (stepped : step w event = some t) : Rested orig t := by
  cases event with
  | start env faults => exact absurd trivial calm
  | stop env =>
    cases Option.some.inj stepped
    exact stopRested works (restedHeld rested)
  | network routes =>
    cases Option.some.inj stepped
    exact rested
  | configure conf address routesExtra =>
    cases Option.some.inj stepped
    exact rested

theorem runStopRested {orig w t events env} (works : ∀ e ∈ events ++ [.stop env], Works e)
    (held : Held orig w) (kept : Guarded step DevKept w (events ++ [.stop env]))
    (ran : run step w (events ++ [.stop env]) = some t) : Rested orig t := by
  rw [runAppend] at ran
  obtain ⟨u,before,last⟩ := Option.bind_eq_some_iff.mp ran
  have heldU : Held orig u :=
    runInvariant (fun s e t mem => stepHeld (works e (List.mem_append_left _ mem))) held
      (guardedAppend kept before).1 before
  obtain ⟨v,stepped,ended⟩ := runCons last
  cases Option.some.inj ended
  cases Option.some.inj stepped
  have worksStop : SysctlWorks env := works (.stop env) (by simp)
  exact stopRested worksStop heldU

/-- After a completed stop every interface has the setting it had before the first start
since the last stop before it, or since the beginning. `u` is the state of that moment. -/
theorem stopGivesBack {w u t before quiet after env} (fresh : w.originalIpv6Disabled = none)
    (works : ∀ e ∈ before ++ quiet ++ after ++ [.stop env], Works e)
    (kept : Guarded step DevKept w (before ++ quiet ++ after ++ [.stop env]))
    (boundary : before = [] ∨ ∃ earlier last, before = earlier ++ [.stop last])
    (calm : ∀ e ∈ quiet, ¬ IsStart e)
    (reached : run step w (before ++ quiet) = some u)
    (ended : run step u (after ++ [.stop env]) = some t) :
    t.disableIpv6 = u.disableIpv6 := by
  have start : Rested w.disableIpv6 w := ⟨fresh,rfl⟩
  rw [runAppend] at reached
  obtain ⟨b,ranBefore,ranQuiet⟩ := Option.bind_eq_some_iff.mp reached
  rw [List.append_assoc,List.append_assoc] at kept
  obtain ⟨keptBefore,keptRest⟩ := guardedAppend kept ranBefore
  obtain ⟨keptQuiet,keptAfter⟩ := guardedAppend keptRest ranQuiet
  have restedB : Rested w.disableIpv6 b := by
    rcases boundary with rfl | ⟨earlier,last,rfl⟩
    · cases Option.some.inj ranBefore
      exact start
    · exact runStopRested (fun e mem => works e (by simp only [List.mem_append] at mem ⊢; tauto))
        (restedHeld start) keptBefore ranBefore
  have restedU : Rested w.disableIpv6 u :=
    runInvariant (I := Rested w.disableIpv6)
      (fun s e t mem rested _ => stepRested (works e (by simp [mem])) rested (calm e mem))
      restedB keptQuiet ranQuiet
  have restedT : Rested w.disableIpv6 t :=
    runStopRested (fun e mem => works e (by simp only [List.mem_append] at mem ⊢; tauto))
      (restedHeld restedU) keptAfter ended
  exact restedT.2.trans restedU.2.symm

theorem sampleWorks {events : List Event}
    (only : ∀ e ∈ events, e = .start sampleEnv [] ∨ e = .stop sampleEnv ∨ ∃ routes, e = .network routes) :
    ∀ e ∈ events, Works e := by
  intro e mem
  rcases only e mem with rfl | rfl | ⟨routes,rfl⟩
  · exact sampleEnvWorks
  · exact sampleEnvWorks
  · trivial

theorem restartGivesBack :
    ∃ t, run step (sampleWorld oneRoute) [.start sampleEnv [],.start sampleEnv [],.stop sampleEnv] = some t ∧
      t.disableIpv6 = (sampleWorld oneRoute).disableIpv6 := by
  refine ⟨_,rfl,@stopGivesBack (sampleWorld oneRoute) _ _ [] [] [.start sampleEnv [],.start sampleEnv []]
    sampleEnv rfl (sampleWorks (by simp)) ?_ (.inl rfl) (by simp) rfl rfl⟩
  refine ⟨fun saved => absurd saved (by decide),fun t first => ?_⟩
  cases Option.some.inj first
  exact ⟨fun _ => rfl,fun _ _ => ⟨trivial,fun _ _ => trivial⟩⟩

/- The default route moves from eth0 to wlan0 between two starts. -/
def switchedHistory : List Event :=
  [.start sampleEnv [],.network [defaultVia "wlan0".toList],.start sampleEnv []]

theorem switchedInterfaceStaysDisabled :
    ¬ ∀ w u t before quiet after env, w.originalIpv6Disabled = none →
      (∀ e ∈ before ++ quiet ++ after ++ [.stop env], Works e) →
      (before = [] ∨ ∃ earlier last, before = earlier ++ [Event.stop last]) →
      (∀ e ∈ quiet, ¬ IsStart e) → run step w (before ++ quiet) = some u →
      run step u (after ++ [.stop env]) = some t → t.disableIpv6 = u.disableIpv6 := by
  intro every
  have same := every (sampleWorld oneRoute) _ _ [] [] switchedHistory sampleEnv rfl
    (sampleWorks (by simp [switchedHistory])) (.inl rfl) (by simp) rfl rfl
  exact absurd (congrFun same "eth0".toList) (by decide)

end WebosWireguard.Ipv6Restore
