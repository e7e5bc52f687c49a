import WebosWireguard.LeakProtection
import WebosWireguard.UploadUsable

/-! The addresses of wg0. An upload leaves one address in conf/address; a wg0.conf put in
place by hand has its Address line read by start.sh at each start. Both ways are compared,
and the uploaded address is followed over later starts. Whether `ip addr add` takes an
address is not modelled. -/
namespace WebosWireguard.AddressAgreement
open ShellScript ShellScript.Script TextLines ConvertConfig UploadMeaning UploadUsable TunnelScripts ScriptEffects
open TransitionRun
open AddressChoice (foldPickChosen addressNoBreak)
open StartText (trim trimTwice trimNoBreak quickLine quickKeys firstInterfaceValue extractAddressesFromConf
  extractMtuFromConf)
open LeakProtection (sampleEnv sampleWorld oneRoute)

/-! Only extract_addresses_from_conf touches the files of the address. -/

def addressFiles (w : World) : Option Text × Option Text × Option Text := (w.conf,w.address,w.addressTmp)

def kept (w : World) : (Option Text × Option Text × Option Text) × Option Link := (addressFiles w,w.link)

section Frame
variable (env : Env)

theorem sayKept (t) : Keeps kept (say t) := sayKeeps (fun _ _ => rfl) t

theorem recordingKept : Keeps kept (recording env) := by
  refine keepsBind (keepsBind (orExitKeeps (fun _ _ => rfl) _ _) (fun _ => ?_)) (fun _ => ?_)
  · refine keepsBind (orExitKeeps (fun _ _ => rfl) _ _) (fun _ => ?_)
    exact keepsBind (keepsRead _) (fun _ => orExitKeeps (fun _ _ => rfl) _ _)
  refine keepsBind (sayKept _) (fun _ => keepsBind (keepsRead _) (fun found => ?_))
  refine keepsBind (effectlessKeeps _) (fun _ => keepsBind ?_ (fun _ _ => rfl))
  cases found with
  | none => exact sayKept _
  | some hop => exact fun w => ⟨rfl,rfl,rfl⟩

theorem recordGatewayKept (found) : Keeps kept (recordGateway found) := by
  match found with
  | none => exact fun _ => rfl
  | some ⟨some gw,dev⟩ => exact keepsBind (fun w => ⟨rfl,rfl⟩) (fun _ => sayKept _)
  | some ⟨none,dev⟩ => exact keepsBind (keepsCommand (fun _ => rfl)) (fun _ => sayKept _)

theorem secureOriginalKept (found) : Keeps kept (secureOriginal env found) := by
  cases found with
  | none => exact fun _ => rfl
  | some hop =>
    refine keepsBind (sayKept _) (fun _ => keepsBind (keepsRead _) (fun held => ?_))
    refine keepsBind ?_ (fun _ => keepsBind (keepsRead _) (fun saved => ?_))
    · unfold saveIpv6
      split
      · exact sayKept _
      split
      · exact keepsCommand (fun _ => rfl)
      · exact sayKept _
    · unfold writeIpv6
      split
      · split
        · exact keepsAlways (fun _ => rfl)
        · exact keepsBind (sayKept _) (fun _ => keepsAlways (fun _ => rfl))
      · exact fun _ => rfl

theorem printSetconfKept : Keeps kept printSetconf := by
  refine keepsBind (sayKept _) (fun _ => keepsBind (sayKept _) (fun _ => ?_))
  exact keepsBind (keepsRead _) (fun printed => keepsForEach (fun line => sayKept _) printed)

theorem ipRouteReplaceKept (destination hop) : Keeps kept (ipRouteReplace env destination hop) := by
  unfold ipRouteReplace
  split
  · exact keepsCommand (fun _ => rfl)
  · exact fun _ => rfl

theorem pinEndpointsKept (found) : Keeps kept (pinEndpoints env found) := by
  refine keepsBind (sayKept _) (fun _ => keepsBind (keepsCommand (fun _ => rfl)) (fun _ => ?_))
  cases found with
  | none => exact fun _ => rfl
  | some hop =>
    refine keepsBind (keepsRead _) (fun printed => keepsForEach (fun endpoint => ?_) printed)
    unfold pinEndpoint
    split
    · exact fun _ => rfl
    refine keepsBind ?_ (fun _ => keepsBind (ipRouteReplaceKept env _ _) (fun _ => keepsCommand (fun _ => rfl)))
    unfold announcePin
    split <;> exact sayKept _

theorem addRouteLineKept (route) : Keeps kept (addRouteLine env route) := by
  have line : ∀ route, Keeps kept (recordLine env route) := by
    intro route
    refine keepsBind (keepsRead _) (fun known => ?_)
    split
    · exact fun _ => rfl
    · exact keepsCommand (fun _ => rfl)
  unfold addRouteLine
  split
  · exact fun _ => rfl
  split
  · exact sayKept _
  split
  · exact keepsBind (line _) (fun _ => line _)
  · exact line route

theorem generateRoutesKept : Keeps kept (generateRoutes env) := by
  refine keepsBind (sayKept _) (fun _ => keepsBind (keepsCommand (fun _ => rfl)) (fun _ => ?_))
  refine keepsBind (keepsRead _) (fun pieces => ?_)
  refine keepsBind (keepsForEach (addRouteLineKept env) pieces) (fun _ => keepsBind (keepsRead _) (fun extra => ?_))
  cases extra with
  | none => exact fun _ => rfl
  | some t => exact keepsBind (sayKept _) (fun _ => keepsForEach (addRouteLineKept env) _)

theorem applyRoutesKept : Keeps kept (applyRoutes env) := by
  refine keepsBind (sayKept _) (fun _ => keepsBind (keepsRead _) (fun routes => keepsForEach (fun route => ?_) routes))
  unfold applyRoute
  split
  · exact fun _ => rfl
  · exact keepsBind (sayKept _) (fun _ => ipRouteReplaceKept env _ _)

theorem showStatusKept : Keeps kept showStatus := by
  refine keepsBind (sayKept _) (fun _ => keepsBind (effectlessKeeps _) (fun _ => ?_))
  refine keepsBind (effectlessKeeps _) (fun _ => keepsBind (sayKept _) (fun _ => keepsBind (sayKept _) (fun _ => ?_)))
  exact keepsBind (effectlessKeeps _) (fun _ => keepsBind (sayKept _) (fun _ => sayKept _))

/- What follows the extraction, cut where wg0 gets its addresses. -/
def afterExtraction (found : Option Hop) : Script World Text := do
  let present ← read (fun w => w.address.isSome)
  orExit present ("ERROR: missing Address. Add Address = x.x.x.x/xx to wg0.conf or create ".toList
    ++ base ++ "/conf/address".toList)
  effectless
  let mtu ← read (fun w => extractMtuFromConf (w.conf.getD []))
  say ("MTU: ".toList ++ mtu)
  write (fun w => {w with setconf := some (StartText.makeWgSetconfFile (w.conf.getD []))})
    (fun w => {w with setconf := some []})
  secureOriginal env found
  printSetconf
  pure mtu

def newLink (found : Option Hop) : Script World Unit := do
  previousCleanup
  startWireguardGo env
  pinEndpoints env found

def afterAddresses : Script World Unit := do
  generateRoutes env
  applyRoutes env
  showStatus

theorem startAround : start env = (do
    let found ← recording env
    recordGateway found
    say "== preparing configuration ==".toList
    extractAddresses
    let mtu ← afterExtraction env found
    newLink env found
    assignAddresses mtu
    afterAddresses env) := by
  simp only [start,prepare,raiseTunnel,afterExtraction,newLink,afterAddresses,seqAssoc,pureSeq]

theorem filesOfKept {α : Type} {p : Script World α} (keeps : Keeps kept p) : Keeps addressFiles p :=
  keepsMap keeps Prod.fst

theorem afterExtractionKept (found) : Keeps kept (afterExtraction env found) := by
  refine keepsBind (keepsRead _) (fun _ => keepsBind (orExitKeeps (fun _ _ => rfl) _ _) (fun _ => ?_))
  refine keepsBind (effectlessKeeps _) (fun _ => keepsBind (keepsRead _) (fun mtu => keepsBind (sayKept _) (fun _ => ?_)))
  refine keepsBind (fun w => ⟨rfl,rfl,rfl⟩) (fun _ => keepsBind (secureOriginalKept env found) (fun _ => ?_))
  exact keepsBind printSetconfKept (fun _ _ => rfl)

theorem newLinkFiles (found) : Keeps addressFiles (newLink env found) := by
  have cleanup : Keeps addressFiles previousCleanup :=
    keepsBind (filesOfKept (sayKept _)) (fun _ => keepsBind (keepsAlways (fun _ => rfl)) (fun _ => effectlessKeeps _))
  refine keepsBind cleanup (fun _ => keepsBind (startWireguardGoKeeps env (fun _ _ _ => rfl)) (fun _ => ?_))
  exact filesOfKept (pinEndpointsKept env found)

theorem afterAddressesKept : Keeps kept (afterAddresses env) :=
  keepsBind (generateRoutesKept env) (fun _ => keepsBind (applyRoutesKept env) (fun _ => showStatusKept))

/- Everything behind the extraction. -/
theorem tailFiles (found) : Keeps addressFiles (do
    let mtu ← afterExtraction env found
    newLink env found
    assignAddresses mtu
    afterAddresses env) := by
  refine keepsBind (filesOfKept (afterExtractionKept env found)) (fun mtu => ?_)
  refine keepsBind (newLinkFiles env found) (fun _ => ?_)
  refine keepsBind (@assignAddressesKeeps _ addressFiles (fun _ _ _ => rfl) mtu) (fun _ => ?_)
  exact filesOfKept (afterAddressesKept env)

theorem restoreSavedFiles (w : World) : addressFiles (restoreSaved env w) = addressFiles w := by
  unfold restoreSaved
  split
  · dsimp only
    split <;> rfl
  · rfl

theorem startRunFiles (faults : List Fault) (w : World) :
    addressFiles (startRun env faults w) = addressFiles ((start env).exec faults w).state := by
  unfold startRun restoreIpv6AfterFailedStart
  cases (start env).exec faults w with
  | finished a t rest => rfl
  | aborted t => exact restoreSavedFiles env t

theorem noteFiles (t : Text) : Keeps addressFiles (note t) := keepsAlways (fun _ => rfl)

theorem deleteRecordedFiles (file : World → Option (List Text)) (dev : Option Text) :
    Keeps addressFiles (deleteRecorded env file dev) := by
  refine keepsBind (keepsRead _) (fun texts => keepsForEach (fun t => ?_) texts)
  split
  · exact fun _ => rfl
  · refine keepsAlways (fun w => ?_)
    unfold ipRouteDel
    split <;> rfl

theorem restoreDefaultRouteFiles : Keeps addressFiles restoreDefaultRoute := by
  refine keepsBind (noteFiles _) (fun _ => keepsBind (keepsRead _) (fun gw => ?_))
  refine keepsBind (keepsRead _) (fun dev => ?_)
  split
  · exact keepsAlways (fun _ => rfl)
  · exact fun _ => rfl

theorem restoreIpv6Files : Keeps addressFiles (restoreIpv6 env) := by
  refine keepsBind (noteFiles _) (fun _ => keepsBind (keepsRead _) (fun dev => ?_))
  refine keepsBind (keepsRead _) (fun saved => keepsBind (keepsAlways (restoreSavedFiles env)) (fun _ => ?_))
  split
  · exact noteFiles _
  · exact fun _ => rfl

theorem stopFiles : Keeps addressFiles (stop env) := by
  have applied : Keeps addressFiles (deleteAppliedRoutes env) :=
    keepsBind (noteFiles _) (fun _ => keepsBind (deleteRecordedFiles env _ _) (fun _ => keepsAlways (fun _ => rfl)))
  have pinned : Keeps addressFiles (deleteEndpointRoutes env) :=
    keepsBind (noteFiles _) (fun _ => keepsBind (deleteRecordedFiles env _ _) (fun _ => keepsAlways (fun _ => rfl)))
  refine keepsBind applied (fun _ => keepsBind pinned (fun _ => ?_))
  refine keepsBind restoreDefaultRouteFiles (fun _ => keepsBind (restoreIpv6Files env) (fun _ => ?_))
  refine keepsBind (noteFiles _) (fun _ => keepsBind (keepsAlways (fun _ => rfl)) (fun _ => ?_))
  exact keepsBind (noteFiles _) (fun _ => noteFiles _)

end Frame

/-! The extraction itself. -/

def extracted (w : World) : Option (Option Text) :=
  match extractAddressesFromConf (w.conf.getD []) with
  | some entries =>
    if entries.getLast? = some [] then none else some (some (unlines (entries.filter (fun e => e ≠ []))))
  | none => some (w.addressTmp.or w.address)

theorem writeAddressTmpExec (entries : List Text) (w : World) :
    (writeAddressTmp (some entries)).exec [] w =
      let t := {w with addressTmp := some (unlines (entries.filter (fun e => e ≠ [])))}
      if entries.getLast? = some [] then .aborted t else .finished () t [] := by
  change (require (fun _ => entries.getLast? ≠ some [])).exec [] _ = _
  simp only [require,exec]
  by_cases blank : entries.getLast? = some [] <;> simp [blank,exec]

theorem extractExec (w : World) :
    match extracted w with
    | none => ∃ t, extractAddresses.exec [] w = .aborted t
    | some file => ∃ t, extractAddresses.exec [] w = .finished () t [] ∧ addressFiles t = (w.conf,file,none) := by
  unfold extracted extractAddresses
  rw [execBind]
  simp only [Script.read,exec]
  cases found : extractAddressesFromConf (w.conf.getD []) with
  | none =>
    simp only [writeAddressTmp,pureSeq]
    rw [execBind]
    simp only [exec]
    cases tmp : w.addressTmp with
    | none => exact ⟨w,rfl,by simp [addressFiles,tmp]⟩
    | some x => exact ⟨_,rfl,by simp [addressFiles]⟩
  | some entries =>
    rw [execBind,writeAddressTmpExec]
    by_cases blank : entries.getLast? = some []
    · simp only [if_pos blank]
      exact ⟨_,rfl⟩
    · simp only [if_neg blank]
      exact ⟨_,rfl,rfl⟩

/- What the loop over conf/address passes to ip addr add. -/
def addable (a : Text) : Bool := a ≠ [] ∧ ':' ∉ a

def ipv4Lines (file : Text) : List Text := ((lines file).map trim).filter addable

theorem assignAddressExec (raw : Text) {w : World} {l : Link} (link : w.link = some l) :
    ∃ t, (assignAddress raw).exec [] w = .finished () t [] ∧
      t.link = some {l with addresses := l.addresses ++ [trim raw].filter addable} := by
  unfold assignAddress
  dsimp only
  by_cases empty : trim raw = []
  · have skipped : [trim raw].filter addable = [] := by rw [empty]; rfl
    rw [if_pos empty,skipped,List.append_nil]
    exact ⟨w,rfl,link⟩
  rw [if_neg empty]
  by_cases colon : ':' ∈ trim raw
  · have skipped : [trim raw].filter addable = [] := List.filter_cons_of_neg (by simp [addable,colon])
    rw [if_pos colon,skipped,List.append_nil]
    exact ⟨_,rfl,link⟩
  · have passed : [trim raw].filter addable = [trim raw] := List.filter_cons_of_pos (by simp [addable,empty,colon])
    rw [if_neg colon,passed]
    exact ⟨_,rfl,congrArg (Option.map (fun l : Link => {l with addresses := l.addresses ++ [trim raw]})) link⟩

theorem assignLoopExec (entries : List Text) {w : World} {l : Link} (link : w.link = some l) :
    ∃ t, (forEach assignAddress entries).exec [] w = .finished () t [] ∧
      t.link = some {l with addresses := l.addresses ++ (entries.map trim).filter addable} := by
  induction entries generalizing w l with
  | nil => exact ⟨w,rfl,by rw [link,List.map_nil,List.filter_nil,List.append_nil]⟩
  | cons raw rest ih =>
    obtain ⟨t,ran,linked⟩ := assignAddressExec raw link
    obtain ⟨u,later,final⟩ := ih linked
    refine ⟨u,?_,?_⟩
    · change (assignAddress raw >>= fun _ => forEach assignAddress rest).exec [] w = _
      rw [execBind,ran]
      exact later
    · rw [final,List.append_assoc,← List.filter_append]
      rfl

theorem assignExec {w : World} {l : Link} {file : Text} (link : w.link = some l) (address : w.address = some file)
    (mtu : Text) : ∃ t, (assignAddresses mtu).exec [] w = .finished () t [] ∧
      t.link = some ⟨l.config,l.addresses ++ ipv4Lines file,some mtu⟩ := by
  obtain ⟨t,ran,linked⟩ := @assignLoopExec (lines file)
    {w with output := w.output ++ ["== assigning IP address ==".toList]} l link
  unfold assignAddresses
  change ∃ t, (forEach assignAddress (lines (w.address.getD [])) >>= _).exec [] _ = _ ∧ _
  rw [address,execBind]
  simp only [Option.getD_some] at ran ⊢
  rw [ran]
  exact ⟨_,rfl,congrArg (Option.map (fun l : Link => {l with mtu := some mtu})) linked⟩

/- The steps of start.sh that decide which addresses a new wg0 gets. -/
def addressSteps : Script World Unit := do
  extractAddresses
  let present ← read (fun w => w.address.isSome)
  orExit present ("ERROR: missing Address. Add Address = x.x.x.x/xx to wg0.conf or create ".toList
    ++ base ++ "/conf/address".toList)
  always (fun w => {w with link := some ⟨none,[],none⟩})
  assignAddresses []

def linkAddresses (w : World) : List Text := (w.link.map Link.addresses).getD []

def addressesPassed (w : World) : List Text :=
  match addressSteps.exec [] w with
  | .finished _ t _ => linkAddresses t
  | .aborted _ => []

theorem addressesPassedEq (w : World) :
    addressesPassed w =
      match extracted w with
      | some (some file) => ipv4Lines file
      | _ => [] := by
  have ran := extractExec w
  unfold addressesPassed addressSteps
  rw [execBind]
  cases ends : extracted w with
  | none =>
    rw [ends] at ran
    obtain ⟨t,ran⟩ := ran
    rw [ran]
  | some result =>
    rw [ends] at ran
    obtain ⟨t,ran,files⟩ := ran
    have address : t.address = result := congrArg (fun f => f.2.1) files
    rw [ran]
    dsimp only
    rw [execBind]
    simp only [Script.read,exec,address]
    cases result with
    | none => rfl
    | some file =>
      obtain ⟨u,assigned,linked⟩ := @assignExec {t with link := some ⟨none,[],none⟩} _ file rfl address []
      change (match (assignAddresses []).exec [] {t with link := some ⟨none,[],none⟩} with
        | .finished _ t _ => linkAddresses t
        | .aborted _ => []) = _
      rw [assigned]
      simp [linkAddresses,linked]

theorem extractedCongr {a b : World} (same : addressFiles a = addressFiles b) : extracted a = extracted b := by
  have conf : a.conf = b.conf := congrArg Prod.fst same
  have address : a.address = b.address := congrArg (fun f => f.2.1) same
  have tmp : a.addressTmp = b.addressTmp := congrArg (fun f => f.2.2) same
  unfold extracted
  rw [conf,address,tmp]

theorem keptFinished {α : Type} {p : Script World α} {s t : World} {a rest} (keeps : Keeps kept p)
    (ran : p.exec [] s = .finished a t rest) : rest = [] ∧ kept t = kept s := by
  have same := keepsExec keeps [] s
  rw [ran] at same
  exact ⟨finishedCalm ran,same⟩

theorem newLinkWp (env : Env) (found : Option Hop) (w : World) :
    (newLink env found).wp (fun _ t => ∃ config, t.link = some ⟨config,[],none⟩) (fun _ => True) w := by
  have gone : previousCleanup.wp (fun _ t => t.link = none) (fun _ => True) w := by
    simp [previousCleanup,say,effectless,removeLink]
  refine wpThen gone (fun _ a none => ?_)
  have made : (startWireguardGo env).wp (fun _ t => ∃ config, t.link = some ⟨config,[],.none⟩) (fun _ => True) a := by
    unfold startWireguardGo
    simp only [wpSeq,say,wpCommand,wpAlways,effectless,wpRead,true_and,id]
    split
    · simp [orExit]
    · simp [orExit,say,none]
  refine wpThen made (fun _ b link => ?_)
  refine wpMono (pinEndpointsKept env found b) (fun _ c same => ?_) (fun _ _ => trivial)
  rw [show c.link = b.link from congrArg Prod.snd same]
  exact link

/-- A start that meets no fault and completes gives wg0 the addresses that the address
steps alone pass. -/
theorem startAddresses {env : Env} {w t : World} {rest} (ran : (start env).exec [] w = .finished () t rest) :
    linkAddresses t = addressesPassed w := by
  rw [startAround] at ran
  obtain ⟨found,a,_,first,ran⟩ := finishedBind ran
  obtain ⟨rfl,sameA⟩ := keptFinished (recordingKept env) first
  obtain ⟨_,b,_,second,ran⟩ := finishedBind ran
  obtain ⟨rfl,sameB⟩ := keptFinished (recordGatewayKept found) second
  obtain ⟨_,c,_,third,ran⟩ := finishedBind ran
  obtain ⟨rfl,sameC⟩ := keptFinished (sayKept _) third
  have files : addressFiles c = addressFiles w := congrArg Prod.fst (sameC.trans (sameB.trans sameA))
  obtain ⟨_,d,_,extract,ran⟩ := finishedBind ran
  cases finishedCalm extract
  have steps := extractExec c
  rw [extractedCongr files] at steps
  rw [addressesPassedEq]
  cases ends : extracted w with
  | none =>
    rw [ends] at steps
    obtain ⟨u,cut⟩ := steps
    rw [cut] at extract
    contradiction
  | some result =>
    rw [ends] at steps
    obtain ⟨u,finished,filesU⟩ := steps
    cases finished.symm.trans extract
    have address : d.address = result := congrArg (fun f => f.2.1) filesU
    obtain ⟨mtu,e,_,checked,ran⟩ := finishedBind ran
    obtain ⟨rfl,sameE⟩ := keptFinished (afterExtractionKept env found) checked
    cases result with
    | none =>
      unfold afterExtraction at checked
      rw [execBind] at checked
      simp only [Script.read,exec,address] at checked
      contradiction
    | some file =>
      obtain ⟨_,f,_,fresh,ran⟩ := finishedBind ran
      cases finishedCalm fresh
      have sameF : addressFiles f = addressFiles e := by
        have same := keepsExec (newLinkFiles env found) [] e
        rw [fresh] at same
        exact same
      have addressF : f.address = some file :=
        (congrArg (fun x => x.2.1) (sameF.trans (congrArg Prod.fst sameE))).trans address
      obtain ⟨config,link⟩ : ∃ config, f.link = some ⟨config,[],none⟩ := by
        have linked := wpExec (newLinkWp env found e) []
        rw [fresh] at linked
        exact linked
      obtain ⟨g,assigned,linkG⟩ := assignExec link addressF mtu
      obtain ⟨_,g',_,given,ran⟩ := finishedBind ran
      cases assigned.symm.trans given
      obtain ⟨_,sameH⟩ := keptFinished (afterAddressesKept env) ran
      rw [linkAddresses,show t.link = g.link from congrArg Prod.snd sameH,linkG]
      rfl

/-! The address of an upload, and the addresses of a file put in place. -/

theorem firstInterfaceValueHead (key current : Text) (ls : List Text) :
    firstInterfaceValue key current ls = (interfaceValues key current ls).head? := by
  induction ls generalizing current with
  | nil => rfl
  | cons raw rest ih =>
    unfold firstInterfaceValue interfaceValues
    dsimp only
    split
    · rename_i empty
      simp [empty,bracketed,ih]
    split
    · exact ih _
    split
    · rfl
    · exact ih _

theorem foreignValues {key current : Text} {ls : List Text} (quick : key ∈ quickKeys)
    (foreign : ∀ l ∈ ls, quickLine (trim l) = false) : interfaceValues key current ls = [] := by
  apply List.eq_nil_iff_forall_not_mem.mpr
  intro v mem
  obtain ⟨raw,inside,present,own,_⟩ := interfaceValuesFrom mem
  have line := foreign raw inside
  simp [quickLine,present,own,quick] at line

theorem convertedUnaddressed {t converted address : Text} (ok : convertConfig t = .ok (converted,address)) :
    extractAddressesFromConf converted = none := by
  unfold extractAddressesFromConf
  rw [firstInterfaceValueHead,foreignValues (by decide) (convertedForeign ok)]
  rfl

theorem convertedDefaultMtu {t converted address : Text} (ok : convertConfig t = .ok (converted,address)) :
    extractMtuFromConf converted = "1420".toList := by
  unfold extractMtuFromConf
  rw [firstInterfaceValueHead,foreignValues (by decide) (convertedForeign ok)]
  rfl

def uploaded (w : World) (converted address : Text) : World :=
  {w with conf := some converted, address := some (address ++ ['\n'])}

def placed (w : World) (t : Text) : World := {w with conf := some t}

/- The one address the uploader chooses, as the loop over conf/address sees it. -/
def uploadedEntry (t : Text) : Option Text :=
  ((((lines t).filterMap addressOf).map firstIPv4OrFirst).find? (fun a => a ≠ [])).map trim |>.filter addable

/- The entries of the first Address line of [Interface]; a blank last entry ends the start. -/
def placedEntries (old : Option Text) (t : Text) : List Text :=
  match interfaceValues "address".toList [] (lines t) with
  | [] => (old.map ipv4Lines).getD []
  | v::_ =>
    let entries := (v.splitOn ',').map trim
    if entries.getLast? = some [] then [] else entries.filter addable

theorem uploadedPassed {t converted address : Text} {w : World} (ok : convertConfig t = .ok (converted,address))
    (tmp : w.addressTmp = none) : addressesPassed (uploaded w converted address) = (uploadedEntry t).toList := by
  have single : ipv4Lines (address ++ ['\n']) = [trim address].filter addable := by
    have one : lines (address ++ ['\n']) = [address] := linesAppendBreak (addressNoBreak ok) []
    rw [ipv4Lines,one]
    rfl
  obtain ⟨_,_,same,filled⟩ := convertConfigOk.mp ok
  rw [foldPickChosen,if_pos rfl] at same
  have chosen : (((lines t).filterMap addressOf).map firstIPv4OrFirst).find? (fun a => a ≠ []) = some address := by
    cases found : ((((lines t).filterMap addressOf).map firstIPv4OrFirst).find? (fun a => a ≠ [])) with
    | none => exact absurd (by rw [same,found]; rfl) filled
    | some a => rw [same,found,Option.getD_some]
  have file : extracted (uploaded w converted address) = some (some (address ++ ['\n'])) := by
    unfold extracted uploaded
    simp only [Option.getD_some,convertedUnaddressed ok,tmp,Option.none_or]
  rw [addressesPassedEq,file,uploadedEntry,chosen]
  dsimp only
  rw [single]
  by_cases fit : addable (trim address) = true
  · rw [List.filter_cons_of_pos fit,Option.map_some,Option.filter_some_pos fit]
    rfl
  · rw [List.filter_cons_of_neg fit,Option.map_some,Option.filter_some_neg (by simpa using fit)]
    rfl

theorem valueNoBreak {key current v t : Text} (mem : v ∈ interfaceValues key current (lines t)) : '\n' ∉ v := by
  obtain ⟨raw,origin,present,_,rfl⟩ := interfaceValuesFrom mem
  intro broken
  unfold StartText.getValue StartText.dropThroughEquals at broken
  rw [if_pos present] at broken
  exact trimNoBreak (linesNoBreak origin) (afterSubset (stripSubset broken))

/- The file written from the entries is read back to the same entries. -/
theorem entriesFile {parts : List Text} (clean : ∀ part ∈ parts, '\n' ∉ part) :
    ipv4Lines (unlines ((parts.map trim).filter (fun e => e ≠ []))) = (parts.map trim).filter addable := by
  have unbroken : ∀ e ∈ (parts.map trim).filter (fun e => e ≠ []), '\n' ∉ e := by
    intro e mem
    obtain ⟨part,inside,rfl⟩ := List.mem_map.mp (List.mem_of_mem_filter mem)
    exact trimNoBreak (clean part inside)
  have again : ((parts.map trim).filter (fun e => e ≠ [])).map trim = (parts.map trim).filter (fun e => e ≠ []) := by
    refine (List.map_congr_left (fun e mem => ?_)).trans (List.map_id _)
    obtain ⟨part,_,rfl⟩ := List.mem_map.mp (List.mem_of_mem_filter mem)
    exact trimTwice part
  rw [ipv4Lines,linesUnlines unbroken,again,List.filter_filter]
  refine List.filter_congr (fun e _ => ?_)
  unfold addable
  by_cases empty : e = [] <;> simp [empty]

theorem placedPassed (t : Text) (w : World) :
    addressesPassed (placed w t) = placedEntries (w.addressTmp.or w.address) t := by
  rw [addressesPassedEq]
  unfold extracted placed placedEntries extractAddressesFromConf
  simp only [Option.getD_some,firstInterfaceValueHead]
  cases values : interfaceValues "address".toList [] (lines t) with
  | nil =>
    simp only [List.head?_nil,Option.map_none]
    cases w.addressTmp.or w.address <;> rfl
  | cons v rest =>
    simp only [List.head?_cons,Option.map_some]
    by_cases blank : ((v.splitOn ',').map trim).getLast? = some []
    · simp only [if_pos blank]
    · simp only [if_neg blank]
      apply entriesFile
      intro part inside broken
      exact valueNoBreak (values ▸ List.mem_cons_self) (splitOnSubset inside broken)

theorem leftoverPassed {t converted address x : Text} {w : World} (ok : convertConfig t = .ok (converted,address))
    (tmp : w.addressTmp = some x) : addressesPassed (uploaded w converted address) = ipv4Lines x := by
  have file : extracted (uploaded w converted address) = some (some x) := by
    unfold extracted uploaded
    simp only [Option.getD_some,convertedUnaddressed ok,tmp,Option.some_or]
  rw [addressesPassedEq,file]

/- All entries start.sh takes from the file are the one the uploader chooses, or neither way
has one. A leftover conf/address.tmp takes the place of the uploader's address. -/
def Agree (tmp old : Option Text) (t : Text) : Prop :=
  match tmp with
  | none => (uploadedEntry t = none ∧ placedEntries old t = []) ∨
      ∃ a, uploadedEntry t = some a ∧ placedEntries old t ≠ [] ∧ ∀ e ∈ placedEntries old t, e = a
  | some x => ∀ a, a ∈ ipv4Lines x ↔ a ∈ placedEntries (some x) t

def twoAddresses : Text := "[Interface]\nAddress = 10.0.0.2/32, 10.0.0.3/32\nPrivateKey = k\n".toList

def Settled (w : World) : Prop := w.addressTmp = none ∨ w.addressTmp = w.address

structure Holds (conf address : Option Text) (w : World) : Prop where
  conf : w.conf = conf
  address : w.address = address
  settled : Settled w

theorem holdsCongr {conf address : Option Text} {w t : World} (same : addressFiles t = addressFiles w)
    (holds : Holds conf address w) : Holds conf address t := by
  have sameConf : t.conf = w.conf := congrArg Prod.fst same
  have sameAddress : t.address = w.address := congrArg (fun f => f.2.1) same
  have sameTmp : t.addressTmp = w.addressTmp := congrArg (fun f => f.2.2) same
  refine ⟨sameConf.trans holds.conf,sameAddress.trans holds.address,?_⟩
  unfold Settled
  rw [sameTmp,sameAddress]
  exact holds.settled

theorem holdsKeeps {conf address : Option Text} {α : Type} {p : Script World α} {w : World}
    (keeps : Keeps addressFiles p) (holds : Holds conf address w) :
    p.wp (fun _ t => Holds conf address t) (fun t => Holds conf address t) w :=
  wpMono (keeps w) (fun _ _ same => holdsCongr same holds) (fun _ same => holdsCongr same holds)

section Foreign
variable {converted : Text} {address : Option Text} (foreign : extractAddressesFromConf converted = none)
include foreign

theorem extractHolds {w : World} (holds : Holds (some converted) address w) :
    extractAddresses.wp (fun _ t => Holds (some converted) address t) (fun t => Holds (some converted) address t) w := by
  have none : extractAddressesFromConf (w.conf.getD []) = .none := by rw [holds.conf]; exact foreign
  unfold extractAddresses
  simp only [wpSeq,wpRead,none,writeAddressTmp,wpPure]
  cases tmp : w.addressTmp with
  | none => exact holds
  | some x =>
    have own : some x = address := by
      rcases holds.settled with gone | same
      · rw [tmp] at gone
        contradiction
      · rw [← tmp,same,holds.address]
    have moved : ∀ out, Holds (some converted) address {w with address := some x, addressTmp := .none, output := out} :=
      fun out => ⟨holds.conf,own,.inl rfl⟩
    simp only [moveAddressTmp,wpSeq,wpCommand,effectless,say,id]
    exact ⟨holds,moved _,moved _,moved _,moved _⟩

theorem startHolds {env : Env} {w : World} (holds : Holds (some converted) address w) (faults : List Fault) :
    Holds (some converted) address (startRun env faults w) := by
  have whole : (start env).wp (fun _ t => Holds (some converted) address t)
      (fun t => Holds (some converted) address t) w := by
    rw [startAround]
    refine wpThen (holdsKeeps (filesOfKept (recordingKept env)) holds) (fun found a atA => ?_)
    refine wpThen (holdsKeeps (filesOfKept (recordGatewayKept found)) atA) (fun _ b atB => ?_)
    refine wpThen (holdsKeeps (filesOfKept (sayKept _)) atB) (fun _ c atC => ?_)
    exact wpThen (extractHolds foreign atC) (fun _ d atD => holdsKeeps (tailFiles env found) atD)
  refine holdsCongr (startRunFiles env faults w) ?_
  have ended := wpExec whole faults
  revert ended
  cases (start env).exec faults w <;> exact fun ended => ended

end Foreign

def Configures : Event → Prop
  | .configure _ _ _ => True
  | _ => False

theorem stepHolds {converted : Text} {address : Option Text} (foreign : extractAddressesFromConf converted = none)
    {w t : World} {e : Event} (quiet : ¬ Configures e) (stepped : step w e = some t)
    (holds : Holds (some converted) address w) : Holds (some converted) address t := by
  cases e with
  | start env faults =>
    cases Option.some.inj stepped
    exact startHolds foreign holds faults
  | stop env =>
    cases Option.some.inj stepped
    exact holdsCongr (keepsExec (stopFiles env) [] w) holds
  | network routes =>
    cases Option.some.inj stepped
    exact holdsCongr (w := w) rfl holds
  | configure conf address extra => exact absurd trivial quiet

/- With no default route and nothing in the way, a start moves the leftover file. -/
theorem startMoves {env : Env} {w : World} {x : Text} (wg : env.wgExecutable = true) (wggo : env.wggoExecutable = true)
    (conf : w.conf.isSome = true) (table : defaultHop w.table = none)
    (foreign : extractAddressesFromConf (w.conf.getD []) = none) (tmp : w.addressTmp = some x) :
    (startRun env [] w).address = some x := by
  have recorded : ∃ out, (recording env).exec [] w = .finished none {w with output := out} [] := by
    unfold recording checkFiles
    simp only [wg,wggo,orExit,if_true,pureSeq,seqAssoc]
    rw [execBind]
    simp only [Script.read,exec,conf,if_true,pureSeq]
    refine ⟨(w.output ++ ["== detecting original default route ==".toList]) ++
      ["WARNING: cannot find original default route outside wg0".toList],?_⟩
    change (effectless >>= fun _ => recordDev (defaultHop w.table) >>= fun _ => pure (defaultHop w.table)).exec []
      {w with output := w.output ++ ["== detecting original default route ==".toList]} = _
    rw [table]
    rfl
  obtain ⟨out,recorded⟩ := recorded
  have moved := extractExec {w with output := out ++ ["== preparing configuration ==".toList]}
  have file : extracted {w with output := out ++ ["== preparing configuration ==".toList]} = some (some x) := by
    unfold extracted
    simp only [foreign,tmp,Option.some_or]
  rw [file] at moved
  obtain ⟨t,ran,files⟩ := moved
  have ended : addressFiles ((start env).exec [] w).state = addressFiles t := by
    rw [startAround,execBind,recorded]
    change addressFiles ((extractAddresses >>= fun _ => _).exec [] _).state = _
    rw [execBind,ran]
    exact keepsExec (tailFiles env none) [] t
  exact congrArg (fun f => f.2.1) ((startRunFiles env [] w).trans (ended.trans files))

/-- start.sh finds no Address and no MTU in a converted file. What the uploader wrote to
conf/address stays there over every history without another configuration if and only if
no other text lies in conf/address.tmp. -/
theorem uploadedAddressHoldsIff {t converted address : Text} {w : World}
    (ok : convertConfig t = .ok (converted,address)) (conf : w.conf = some converted)
    (file : w.address = some (address ++ ['\n'])) :
    extractAddressesFromConf converted = none ∧ extractMtuFromConf converted = "1420".toList ∧
      ((∀ events s, (∀ e ∈ events, ¬ Configures e) → run step w events = some s →
          s.conf = some converted ∧ s.address = some (address ++ ['\n'])) ↔
        w.addressTmp = none ∨ w.addressTmp = some (address ++ ['\n'])) := by
  have foreign := convertedUnaddressed ok
  refine ⟨foreign,convertedDefaultMtu ok,?_,?_⟩
  · intro stays
    cases tmp : w.addressTmp with
    | none => exact .inl rfl
    | some x =>
      have cut : ∃ u, step w (.network []) = some u := ⟨_,rfl⟩
      obtain ⟨u,cut⟩ := cut
      have bare : defaultHop u.table = none := by
        cases Option.some.inj cut
        have none : ∀ r ∈ w.table.filter (fun r => r.hop.dev = iface), r.hop.dev = iface :=
          fun r mem => by simpa using (List.mem_filter.mp mem).2
        unfold defaultHop
        rw [List.find?_eq_none.mpr (fun r mem => by simpa using fun _ => none r mem)]
        rfl
      have files : addressFiles u = addressFiles w := by
        cases Option.some.inj cut
        rfl
      have confU : u.conf = some converted := (congrArg Prod.fst files).trans conf
      have tmpU : u.addressTmp = some x := (congrArg (fun f => f.2.2) files).trans tmp
      have moved : (startRun sampleEnv [] u).address = some x :=
        startMoves rfl rfl (by rw [confU]; rfl) bare (by rw [confU]; exact foreign) tmpU
      have kept := (stays [.network [],.start sampleEnv []] (startRun sampleEnv [] u) (by simp [Configures])
        (by simp [run,cut]; rfl)).2
      exact .inr (moved.symm.trans kept)
  · intro settled events s quiet ran
    have here : Holds (some converted) (some (address ++ ['\n'])) w := ⟨conf,file,by rw [Settled,file]; exact settled⟩
    have holds : Holds (some converted) (some (address ++ ['\n'])) s :=
      runInvariant (fun _ e _ mem holds _ stepped => stepHolds foreign (quiet e mem) stepped holds) here guardedTrivial ran
    exact ⟨holds.conf,holds.address⟩

theorem homeAddressHolds :
    convertConfig homeFile = .ok (homeConverted,"10.0.0.2/32".toList) ∧
      ∀ events s, (∀ e ∈ events, ¬ Configures e) →
        run step (uploaded (sampleWorld oneRoute) homeConverted "10.0.0.2/32".toList) events = some s →
        s.conf = some homeConverted ∧ s.address = some ("10.0.0.2/32".toList ++ ['\n']) := by
  exact ⟨homeConverts,(uploadedAddressHoldsIff homeConverts rfl rfl).2.2.mpr (.inl rfl)⟩

/- The blank entry behind the comma ends the first start before it has moved the file. -/
def trailingComma : Text := "[Interface]\nAddress = 10.0.0.9/24,\nPrivateKey = k\n".toList

theorem leftoverAddressReturns :
    convertConfig homeFile = .ok (homeConverted,"10.0.0.2/32".toList) ∧
      ∃ s, run step (placed (sampleWorld oneRoute) trailingComma)
        [.start sampleEnv [],.configure (some homeConverted) (some "10.0.0.2/32\n".toList) none,
          .start sampleEnv []] = some s ∧
        s.conf = some homeConverted ∧ s.address = some "10.0.0.9/24\n".toList := by
  refine ⟨homeConverts,_,rfl,?_,?_⟩
  · decide +kernel
  · decide +kernel

end WebosWireguard.AddressAgreement
