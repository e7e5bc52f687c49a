import WebosWireguard.RemoteFocus
import WebosWireguard.TransitionRun

/-! The page of the app under the remote: its two dialogs, the focus, the timers and the
service requests under way. Timers fire and requests are answered in any order; an
unavailable service and a timeout count as failed answers. The browser refuses the focus
to what is hidden or disabled, and may take it from there. Texts, the output box and the
mouse pointer are left out. -/
namespace WebosWireguard.RemoteDialog
open RemoteFocus TransitionRun

inductive Modal where
  | upload
  | donate
  deriving DecidableEq, Repr

inductive Control where
  | langEn
  | langEs
  | install
  | start
  | stop
  | status
  | uninstall
  | routes
  | config
  | log
  | upload
  | donate
  | autostartToggle
  | scrollUp
  | scrollDown
  | scrollEnd
  | uploadClose
  | donateClose
  deriving DecidableEq, Repr

def Control.modal : Control → Option Modal
  | .uploadClose => some .upload
  | .donateClose => some .donate
  | _ => none

def documentOrder : List Control :=
  [.langEn,.langEs,.install,.start,.stop,.status,.uninstall,.routes,.config,.log,.upload,.donate,
    .autostartToggle,.scrollUp,.scrollDown,.scrollEnd,.uploadClose,.donateClose]

inductive Timer where
  | load
  | popup (m : Modal)
  | uploadStopped
  | donateClosed
  | refreshAutostart
  deriving DecidableEq, Repr

/- button.upload is the class of two buttons, and querySelector takes the first. -/
def Timer.target : Timer → Option Control
  | .load => some .langEn
  | .popup .upload => some .uploadClose
  | .popup .donate => some .donateClose
  | .uploadStopped => some .install
  | .donateClosed => some .donate
  | .refreshAutostart => none

inductive Command where
  | checkComponents
  | autostartStatus
  | install
  | uploadStart
  | uploadStop
  | other
  deriving DecidableEq, Repr

/- Of the text of an answer only what the callbacks look for in it: COMPONENTS_STATUS=installed,
INSTALL_RC=0 and unavailable. -/
structure Response where
  ok : Bool
  installed : Bool
  installRcZero : Bool
  unavailable : Bool
  deriving DecidableEq, Repr

structure State where
  active : Option Control
  uploadShown : Bool
  donateShown : Bool
  toggleDisabled : Bool
  timers : List Timer
  requests : List Command
  deriving DecidableEq, Repr

def loaded : State := ⟨none,false,false,false,[.load],[.checkComponents]⟩

def State.shown (s : State) : Modal → Bool
  | .upload => s.uploadShown
  | .donate => s.donateShown

def visibleModal (s : State) : Option Modal :=
  if s.uploadShown then some .upload else if s.donateShown then some .donate else none

def rendered (s : State) (c : Control) : Bool := c.modal.all s.shown

def enabled (s : State) (c : Control) : Bool := c != .autostartToggle || !s.toggleDisabled

def focus (s : State) (c : Control) : State :=
  if rendered s c && enabled s c then {s with active := some c} else s

def execCommand (s : State) (command : Command) : State := {s with requests := s.requests ++ [command]}

def setTimeout (s : State) (timer : Timer) : State := {s with timers := s.timers ++ [timer]}

def showUploadPopup (s : State) : State := setTimeout {s with uploadShown := true} (.popup .upload)

def closeUploadPopup (s : State) : State := execCommand {s with uploadShown := false} .uploadStop

def showDonatePopup (s : State) : State := setTimeout {s with donateShown := true} (.popup .donate)

def closeDonatePopup (s : State) : State := setTimeout {s with donateShown := false} .donateClosed

def click (s : State) : Control → State
  | .install => execCommand s .install
  | .start | .stop | .status | .uninstall | .routes | .config | .log => execCommand s .other
  | .upload => execCommand s .uploadStart
  | .donate => showDonatePopup s
  | .autostartToggle => setTimeout (execCommand s .other) .refreshAutostart
  | .uploadClose => closeUploadPopup s
  | .donateClose => closeDonatePopup s
  | .langEn | .langEs | .scrollUp | .scrollDown | .scrollEnd => s

/- The control that Enter clicks; a disabled one takes no click. -/
def clicked (s : State) : Option Control := s.active.filter (enabled s)

def page (s : State) (layout : Control → Box) : Page Control where
  elements := documentOrder.filter (fun c => (visibleModal s).all (fun m => c.modal == some m))
  box := fun c => {layout c with
    offsetWidth := if rendered s c then (layout c).offsetWidth else 0
    offsetHeight := if rendered s c then (layout c).offsetHeight else 0
    disabled := !enabled s c}

/- An arrow key comes with the layout of its moment. Back leaves the app when no dialog is
open, and with it the runs looked at here. -/
inductive Key where
  | arrow (d : Direction) (layout : Control → Box)
  | enter
  | escape
  | back
  | other

def closeVisible (s : State) : State :=
  match visibleModal s with
  | some .upload => closeUploadPopup s
  | some .donate => closeDonatePopup s
  | none => s

def handleRemoteKey (s : State) : Key → State
  | .arrow d layout =>
    match moveRemoteFocus (page s layout) s.active d with
    | some c => focus s c
    | none => s
  | .enter =>
    match clicked s with
    | some c => click s c
    | none => s
  | .escape | .back => closeVisible s
  | .other => s

def fireTimer (s : State) (timer : Timer) : State :=
  match timer.target with
  | some c => focus s c
  | none => execCommand s .autostartStatus

def callback (s : State) (r : Response) : Command → State
  | .checkComponents => if r.installed then execCommand s .autostartStatus else {s with toggleDisabled := true}
  | .autostartStatus => {s with toggleDisabled := r.unavailable}
  | .install => if r.ok && r.installRcZero then execCommand s .autostartStatus else s
  | .uploadStart => if r.ok then showUploadPopup s else s
  | .uploadStop => setTimeout s .uploadStopped
  | .other => s

inductive Action where
  | key (k : Key)
  | fire (i : Nat)
  | respond (i : Nat) (r : Response)
  | blur

def step (s : State) : Action → Option State
  | .key k => some (handleRemoteKey s k)
  | .fire i => do
    let timer ← s.timers[i]?
    some (fireTimer {s with timers := s.timers.eraseIdx i} timer)
  | .respond i r => do
    let command ← s.requests[i]?
    some (callback {s with requests := s.requests.eraseIdx i} r command)
  | .blur => do
    let c ← s.active
    if rendered s c && enabled s c then none else some {s with active := none}

/-! The runs along which an open dialog owns the OK key. -/

/- The dialog has got its focus before Enter is pressed, no timer focuses a control outside
the visible dialog, and the upload popup does not come up over the other one. -/
def Orderly (s : State) : Action → Prop
  | .key .enter => ∀ m ∈ visibleModal s, Timer.popup m ∉ s.timers
  | .fire i => ∀ m ∈ visibleModal s, ∀ timer ∈ s.timers[i]?, ∀ c ∈ timer.target, c.modal = some m
  | .respond i r => s.requests[i]? = some .uploadStart → r.ok = true → s.donateShown = false
  | _ => True

instance (s : State) (a : Action) : Decidable (Orderly s a) := by
  unfold Orderly
  split <;> infer_instance

def Inside (s : State) (m : Modal) : Prop := ∀ c, s.active = some c → c.modal = some m

structure Held (s : State) : Prop where
  single : s.uploadShown = true → s.donateShown = false
  owns : ∀ m, visibleModal s = some m → Timer.popup m ∈ s.timers ∨ Inside s m

theorem visibleShown {s : State} {m : Modal} (visible : visibleModal s = some m) : s.shown m = true := by
  unfold visibleModal at visible
  split at visible
  · rename_i shown
    cases Option.some.inj visible
    exact shown
  split at visible
  · rename_i shown
    cases Option.some.inj visible
    exact shown
  · contradiction

theorem hiddenBoth {s : State} : visibleModal s = none ↔ s.uploadShown = false ∧ s.donateShown = false := by
  unfold visibleModal
  cases s.uploadShown <;> cases s.donateShown <;> simp

theorem heldFocus {s : State} {c : Control} (held : Held s)
    (inside : ∀ m, visibleModal s = some m → c.modal = some m) : Held (focus s c) := by
  unfold focus
  split
  · refine ⟨held.single,fun m visible => .inr (fun d same => ?_)⟩
    cases Option.some.inj same
    exact inside m visible
  · exact held

theorem heldTimer {s : State} (held : Held s) (timer : Timer) : Held (setTimeout s timer) := by
  refine ⟨held.single,fun m visible => ?_⟩
  rcases held.owns m visible with pending | inside
  · exact .inl (List.mem_append_left _ pending)
  · exact .inr inside

theorem heldCommand {s : State} (held : Held s) (command : Command) : Held (execCommand s command) :=
  ⟨held.single,held.owns⟩

/- Where no dialog is left, nothing is asked of the focus. -/
theorem heldHidden {s : State} (hidden : visibleModal s = none) : Held s := by
  obtain ⟨upload,donate⟩ := hiddenBoth.mp hidden
  exact ⟨fun shown => by simp [upload] at shown,fun m visible => by simp [hidden] at visible⟩

theorem closedUpload {s : State} (held : Held s) (shown : visibleModal s = some .upload) :
    visibleModal (closeUploadPopup s) = none := by
  have donate := held.single (visibleShown shown)
  exact hiddenBoth.mpr ⟨rfl,donate⟩

theorem closedDonate {s : State} (shown : visibleModal s = some .donate) :
    visibleModal (closeDonatePopup s) = none := by
  have upload : s.uploadShown = false := by
    cases up : s.uploadShown with
    | false => rfl
    | true => simp [visibleModal,up] at shown
  exact hiddenBoth.mpr ⟨upload,rfl⟩

theorem clickedActive {s : State} {c : Control} (found : clicked s = some c) : s.active = some c :=
  (Option.filter_eq_some_iff.mp found).1

theorem focusVisible (s : State) (c : Control) : visibleModal (focus s c) = visibleModal s := by
  unfold focus
  split <;> rfl

/- A control of a shown dialog takes the focus. -/
theorem focusInside {s : State} {c : Control} {m : Modal} (visible : visibleModal s = some m)
    (inside : c.modal = some m) : focus s c = {s with active := some c} := by
  have shown : rendered s c = true := by simp [rendered,inside,visibleShown visible]
  have usable : enabled s c = true := by
    have other : c ≠ .autostartToggle := by
      intro same
      simp [same,Control.modal] at inside
    simp [enabled,other]
  rw [focus,shown,usable]
  rfl

theorem heldArrow {s : State} (held : Held s) (d : Direction) (layout : Control → Box) :
    Held (handleRemoteKey s (.arrow d layout)) := by
  unfold handleRemoteKey
  dsimp only
  split
  · rename_i c moved
    refine heldFocus held (fun m visible => ?_)
    have listed := List.mem_of_mem_filter (moveListed moved)
    have own := (List.mem_filter.mp listed).2
    simpa [visible] using own
  · exact held

/- With a dialog open Enter closes it; without one only the donate button opens another. -/
theorem heldEnter {s : State} (held : Held s) (orderly : Orderly s (.key .enter)) :
    Held (handleRemoteKey s .enter) := by
  unfold handleRemoteKey
  dsimp only
  split
  · rename_i c found
    have active := clickedActive found
    cases visible : visibleModal s with
    | some m =>
      have inside : c.modal = some m :=
        ((held.owns m visible).resolve_left (orderly m visible)) c active
      cases c <;> simp only [Control.modal,reduceCtorEq,Option.some.injEq] at inside
      · exact heldHidden (closedUpload held (inside ▸ visible))
      · exact heldHidden (closedDonate (inside ▸ visible))
    | none =>
      have idle := heldHidden visible
      obtain ⟨upload,donate⟩ := hiddenBoth.mp visible
      cases c with
      | donate =>
        refine ⟨fun shown => ?_,fun m shown => .inl ?_⟩
        · simp [click,showDonatePopup,setTimeout,upload] at shown
        · simp only [click,showDonatePopup,setTimeout,visibleModal,upload,Bool.false_eq_true,if_false,if_true,
            Option.some.injEq] at shown
          simp [click,showDonatePopup,setTimeout,shown]
      | uploadClose => exact heldHidden (hiddenBoth.mpr ⟨rfl,donate⟩)
      | donateClose => exact heldHidden (hiddenBoth.mpr ⟨upload,rfl⟩)
      | autostartToggle => exact heldTimer (heldCommand idle _) _
      | langEn | langEs | scrollUp | scrollDown | scrollEnd => exact idle
      | install | start | stop | status | uninstall | routes | config | log | upload => exact heldCommand idle _
  · exact held

theorem heldClose {s : State} (held : Held s) : Held (closeVisible s) := by
  unfold closeVisible
  split
  · rename_i visible
    exact heldHidden (closedUpload held visible)
  · rename_i visible
    exact heldHidden (closedDonate visible)
  · exact held

theorem heldFire {s t : State} {i : Nat} (held : Held s) (orderly : Orderly s (.fire i))
    (stepped : step s (.fire i) = some t) : Held t := by
  obtain ⟨timer,pending,last⟩ := Option.bind_eq_some_iff.mp stepped
  cases Option.some.inj last
  unfold fireTimer
  cases visible : visibleModal s with
  | none =>
    split
    · exact heldHidden ((focusVisible _ _).trans visible)
    · exact heldHidden visible
  | some m =>
    split
    · rename_i c target
      have inside := orderly m visible timer pending c target
      rw [focusInside (s := {s with timers := s.timers.eraseIdx i}) visible inside]
      refine ⟨held.single,fun n shown => .inr (fun d same => ?_)⟩
      cases Option.some.inj same
      rw [inside]
      exact visible.symm.trans shown
    · rename_i targetless
      refine ⟨held.single,fun n shown => ?_⟩
      rcases held.owns n shown with waiting | inside
      -- the timer that fired has no target, so it is not the one of the dialog
      · obtain ⟨j,here⟩ := List.mem_iff_getElem?.mp waiting
        refine .inl (List.mem_eraseIdx_iff_getElem?.mpr ⟨j,?_,here⟩)
        intro same
        cases Option.some.inj ((same ▸ pending).symm.trans here)
        cases n <;> simp [Timer.target] at targetless
      · exact .inr inside

theorem heldRespond {s t : State} {i : Nat} {r : Response} (held : Held s) (orderly : Orderly s (.respond i r))
    (stepped : step s (.respond i r) = some t) : Held t := by
  obtain ⟨command,pending,last⟩ := Option.bind_eq_some_iff.mp stepped
  cases Option.some.inj last
  have rest : Held {s with requests := s.requests.eraseIdx i} := ⟨held.single,held.owns⟩
  cases command with
  | checkComponents =>
    dsimp only [callback]
    split
    · exact heldCommand rest _
    · exact ⟨held.single,held.owns⟩
  | autostartStatus => exact ⟨held.single,held.owns⟩
  | install =>
    dsimp only [callback]
    split
    · exact heldCommand rest _
    · exact rest
  | uploadStart =>
    dsimp only [callback]
    split
    · rename_i ok
      have free := orderly pending ok
      refine ⟨fun _ => free,fun m shown => .inl ?_⟩
      simp only [showUploadPopup,setTimeout,visibleModal,if_true,Option.some.injEq] at shown
      simp [showUploadPopup,setTimeout,shown]
    · exact rest
  | uploadStop => exact heldTimer rest _
  | other => exact rest

theorem heldStep (s : State) (a : Action) (t : State) (held : Held s) (orderly : Orderly s a)
    (stepped : step s a = some t) : Held t := by
  cases a with
  | key k =>
    cases Option.some.inj stepped
    cases k with
    | arrow d layout => exact heldArrow held d layout
    | enter => exact heldEnter held orderly
    | escape | back => exact heldClose held
    | other => exact held
  | fire i => exact heldFire held orderly stepped
  | respond i r => exact heldRespond held orderly stepped
  | blur =>
    obtain ⟨c,_,last⟩ := Option.bind_eq_some_iff.mp stepped
    split at last
    · contradiction
    · cases Option.some.inj last
      exact ⟨held.single,fun m visible => .inr (fun c same => by contradiction)⟩

/-- Along an orderly run, Enter clicks nothing outside the dialog that is open. -/
theorem dialogOwnsEnter {t : State} {actions : List Action} (ran : run step loaded actions = some t)
    (orderly : Guarded step Orderly loaded (actions ++ [.key .enter])) :
    ∀ m, visibleModal t = some m → ∀ c, clicked t = some c → c.modal = some m := by
  obtain ⟨before,last⟩ := guardedAppend orderly ran
  have held : Held t := runInvariant (fun s a t _ => heldStep s a t) (heldHidden rfl) before ran
  intro m visible c found
  exact ((held.owns m visible).resolve_left (last.1 m visible)) c (clickedActive found)

/- The rows of the page, centred, with both Close buttons in the middle. -/
def fiveColumns : Control → Box
  | .langEn => button 285 0 170
  | .langEs => button 475 0 170
  | .install => button 0 100 170
  | .start => button 190 100 170
  | .stop => button 380 100 170
  | .status => button 570 100 170
  | .uninstall => button 760 100 170
  | .routes => button 0 150 170
  | .config => button 190 150 170
  | .log => button 380 150 170
  | .upload => button 570 150 170
  | .donate => button 760 150 170
  | .autostartToggle => button 450 200 30
  | .scrollUp => button 240 250 140
  | .scrollDown => button 395 250 140
  | .scrollEnd => button 550 250 140
  | .uploadClose | .donateClose => button 335 180 260

def arrows (ds : List Direction) : List Action := ds.map (fun d => .key (.arrow d fiveColumns))

def success : Response := ⟨true,true,true,false⟩

def started : List Action := [.fire 0,.respond 0 success,.respond 0 success]

def openDonate : List Action := arrows [.down,.down,.right,.right,.right] ++ [.key .enter,.fire 0]

def overPage (c : Control) : State := ⟨some c,false,true,false,[],[]⟩

theorem donateCloseOwnsEnter :
    run step loaded (started ++ openDonate) = some (overPage .donateClose) ∧
      visibleModal (overPage .donateClose) = some .donate ∧ clicked (overPage .donateClose) = some .donateClose ∧
      ∀ c, clicked (overPage .donateClose) = some c → c.modal = some .donate := by
  have ran : run step loaded (started ++ openDonate) = some (overPage .donateClose) := by decide +kernel
  have passed : checks step (fun s a => decide (Orderly s a)) loaded
      (started ++ openDonate ++ [.key .enter]) = true := by decide +kernel
  have orderly := guardedOfChecks (fun _ _ fine => of_decide_eq_true fine) passed
  exact ⟨ran,rfl,rfl,dialogOwnsEnter ran orderly .donate rfl⟩

/- The answer to upload-stop comes when the donation dialog is open. -/
def lateStop : List Action :=
  started ++ arrows [.down,.down,.right,.right] ++ [.key .enter,.respond 0 success,.fire 0,.key .enter,.blur] ++
    arrows [.down] ++ openDonate ++ [.respond 0 success,.fire 0]

theorem lateStopInstalls :
    run step loaded lateStop = some (overPage .install) ∧ visibleModal (overPage .install) = some .donate ∧
      clicked (overPage .install) = some .install ∧
      (handleRemoteKey (overPage .install) .enter).requests = [.install] := by
  exact ⟨by decide +kernel,rfl,rfl,rfl⟩

end WebosWireguard.RemoteDialog
