import WebosWireguard.TransitionRun
import WebosWireguard.UploadHandler

/-! The upload server with any number of handlers in flight. A handler is interleaved with
the others at its locked increment and at each directory creation and file write; its
checks touch nothing shared and are one step. Shutdown closes the listener after its sleep
and main then returns, which ends every handler where it stands; until then a connection
may still bring a request. Timeouts of single connections are not modelled. -/
namespace WebosWireguard.UploadServer
open TextLines UploadHandler TransitionRun

inductive Place where
  | begun
  | wrongCode (lang : Lang)
  | counted (lang : Lang) (locked : Bool)
  | mkdirConf (job : Job)
  | mkdirUploads (job : Job)
  | writeBackup (job : Job)
  | writeConf (job : Job) (backup : Text)
  | writeAddress (job : Job) (backup : Text)
  | respond (job : Job) (backup : Text)
  | shutting
  | finished
  deriving DecidableEq, Repr

/- `attemptsBefore` and `wroteConf` only record: the counter when the request began, and
whether its write of wg0.conf has been carried out. -/
structure Handler where
  request : Request
  attemptsBefore : Nat
  place : Place
  answer : Option Answer
  wroteConf : Bool
  deriving DecidableEq, Repr

inductive Shutdown where
  | none
  | sleeping
  | closing
  | exited
  deriving DecidableEq, Repr

def Shutdown.once : Shutdown → Shutdown
  | .none => .sleeping
  | other => other

/- `confBy` and `addressBy` record which handler wrote each file last. -/
structure Server where
  token : Text
  failedAttempts : Nat
  shutdown : Shutdown
  files : Files
  handlers : List Handler
  confBy : Option Nat
  addressBy : Option Nat

structure Effect where
  error : Option Text
  left : Option Text
  ts : Stamp

def Effect.write (e : Effect) : Write :=
  match e.error with
  | none => .ok
  | some message => .failed message e.left

namespace Handler

def go (h : Handler) (place : Place) : Handler := {h with place := place}

def reply (h : Handler) (answer : Answer) (place : Place) : Handler :=
  {h with answer := some answer, place := place}

def orFail (h : Handler) (e : Effect) (job : Job) (place : Place) : Handler :=
  match e.error with
  | none => h.go place
  | some message => h.reply (.error job.lang 500 message) .finished

def next (token : Text) (failedAttempts : Nat) (h : Handler) (e : Effect) : Option Handler :=
  match h.place with
  | .begun =>
    match judge token h.request with
    | .refused answer => some (h.reply answer .finished)
    | .wrongCode lang => some (h.go (.wrongCode lang))
    | .accepted job => some (h.go (.mkdirConf job))
  | .wrongCode lang => some (h.go (.counted lang (maxFailedAttempts ≤ failedAttempts+1)))
  | .counted lang locked =>
    some (h.reply (lockedAnswer lang locked) (if locked then .shutting else .finished))
  | .mkdirConf job => some (h.orFail e job (.mkdirUploads job))
  | .mkdirUploads job => some (h.orFail e job (.writeBackup job))
  | .writeBackup job => some (h.orFail e job (.writeConf job (backupPath e.ts job.name)))
  | .writeConf job backup => some ({h with wroteConf := true}.orFail e job (.writeAddress job backup))
  | .writeAddress job backup => some (h.orFail e job (.respond job backup))
  | .respond job backup => some (h.reply (.success job.lang backup job.address) .shutting)
  | .shutting => some (h.go .finished)
  | .finished => none

end Handler

def share (s : Server) (i : Nat) (h : Handler) (e : Effect) : Server :=
  match h.place with
  | .wrongCode _ => {s with failedAttempts := s.failedAttempts+1}
  | .writeBackup job =>
    {s with files := e.write.apply s.files (backupPath e.ts job.name) job.data}
  | .writeConf job _ =>
    {s with files := e.write.apply s.files confPath job.converted, confBy := some i}
  | .writeAddress job _ =>
    {s with files := e.write.apply s.files addressPath (job.address ++ ['\n']), addressBy := some i}
  | .shutting => {s with shutdown := s.shutdown.once}
  | _ => s

inductive Action where
  | begin (r : Request)
  | advance (i : Nat) (e : Effect)
  | expire
  | wake
  | exit

def newHandler (s : Server) (r : Request) : Handler := ⟨r,s.failedAttempts,.begun,none,false⟩

def step (s : Server) (a : Action) : Option Server :=
  if s.shutdown = .exited then none else
  match a with
  | .begin r => some {s with handlers := s.handlers ++ [newHandler s r]}
  | .advance i e => do
    let h ← s.handlers[i]?
    let h' ← h.next s.token s.failedAttempts e
    some {share s i h e with handlers := s.handlers.set i h'}
  | .expire => some {s with shutdown := s.shutdown.once}
  | .wake => if s.shutdown = .sleeping then some {s with shutdown := .closing} else none
  | .exit => if s.shutdown = .closing then some {s with shutdown := .exited} else none

def Initial (s : Server) : Prop :=
  s.failedAttempts = 0 ∧ s.shutdown = .none ∧ s.handlers = [] ∧ s.confBy = none ∧ s.addressBy = none

def Acceptable (token : Text) (r : Request) : Prop := ∃ job, judge token r = .accepted job

inductive StepCase (s : Server) (a : Action) (t : Server) : Prop where
  | begin (r : Request) (act : a = .begin r)
      (same : t = {s with handlers := s.handlers ++ [newHandler s r]})
  | advance (i : Nat) (e : Effect) (h h' : Handler) (act : a = .advance i e)
      (at_ : s.handlers[i]? = some h) (moved : h.next s.token s.failedAttempts e = some h')
      (same : t = {share s i h e with handlers := s.handlers.set i h'})
  | server (shutdown : Shutdown) (same : t = {s with shutdown := shutdown})

theorem stepCase {s a t} (stepped : step s a = some t) : StepCase s a t := by
  unfold step at stepped
  split at stepped
  · contradiction
  cases a with
  | begin r => exact .begin r rfl (Option.some.inj stepped).symm
  | advance i e =>
    obtain ⟨h,at_,rest⟩ := Option.bind_eq_some_iff.mp stepped
    obtain ⟨h',moved,last⟩ := Option.bind_eq_some_iff.mp rest
    exact .advance i e h h' rfl at_ moved (Option.some.inj last).symm
  | expire => exact .server _ (Option.some.inj stepped).symm
  | wake =>
    dsimp only at stepped
    split at stepped <;> try contradiction
    exact .server _ (Option.some.inj stepped).symm
  | exit =>
    dsimp only at stepped
    split at stepped <;> try contradiction
    exact .server _ (Option.some.inj stepped).symm

theorem shareToken (s i h e) : (share s i h e).token = s.token := by
  unfold share
  split <;> rfl

theorem stepToken {s a t} (stepped : step s a = some t) : t.token = s.token := by
  cases stepCase stepped with
  | begin r act same => rw [same]
  | advance i e h h' act at_ moved same =>
    rw [same]
    exact shareToken s i h e
  | server shutdown same => rw [same]

theorem eachHandler {P : Text → Handler → Prop} {s a t}
    (fresh : ∀ r, a = .begin r → P s.token (newHandler s r))
    (kept : ∀ i e h h', a = .advance i e → P s.token h →
      h.next s.token s.failedAttempts e = some h' → P s.token h')
    (all : ∀ h ∈ s.handlers, P s.token h) (stepped : step s a = some t) :
    ∀ h ∈ t.handlers, P t.token h := by
  rw [stepToken stepped]
  cases stepCase stepped with
  | begin r act same =>
    rw [same]
    intro h mem
    rcases List.mem_append.mp mem with old | new
    · exact all h old
    · rw [List.mem_singleton.mp new]
      exact fresh r act
  | advance i e h h' act at_ moved same =>
    rw [same]
    intro x mem
    rcases List.mem_or_eq_of_mem_set mem with old | rfl
    · exact all x old
    · exact kept i e h x act (all h (List.mem_of_getElem? at_)) moved
  | server shutdown same =>
    rw [same]
    exact all

def Place.job? : Place → Option Job
  | .mkdirConf job | .mkdirUploads job | .writeBackup job => some job
  | .writeConf job _ | .writeAddress job _ | .respond job _ => some job
  | _ => none

inductive NextCase (token : Text) (h : Handler) (e : Effect) (h' : Handler) : Prop where
  | refuse (answer : Answer) (at_ : h.place = .begun) (judged : judge token h.request = .refused answer)
      (same : h' = h.reply answer .finished)
  | wrong (lang : Lang) (at_ : h.place = .begun) (judged : judge token h.request = .wrongCode lang)
      (same : h' = h.go (.wrongCode lang))
  | accept (job : Job) (at_ : h.place = .begun) (judged : judge token h.request = .accepted job)
      (same : h' = h.go (.mkdirConf job))
  | count (lang : Lang) (locked : Bool) (at_ : h.place = .wrongCode lang)
      (same : h' = h.go (.counted lang locked))
  | turnAway (lang : Lang) (locked : Bool) (at_ : h.place = .counted lang locked)
      (same : h' = h.reply (lockedAnswer lang locked) (if locked then .shutting else .finished))
  | prepare (job : Job) (place : Place) (at_ : h.place.job? = some job) (into : place.job? = some job)
      (later : ∀ backup, place ≠ .writeAddress job backup ∧ place ≠ .respond job backup)
      (same : h' = h.orFail e job place)
  | conf (job : Job) (backup : Text) (at_ : h.place = .writeConf job backup)
      (same : h' = {h with wroteConf := true}.orFail e job (.writeAddress job backup))
  | address (job : Job) (backup : Text) (at_ : h.place = .writeAddress job backup)
      (same : h' = h.orFail e job (.respond job backup))
  | respond (job : Job) (backup : Text) (at_ : h.place = .respond job backup)
      (same : h' = h.reply (.success job.lang backup job.address) .shutting)
  | leave (at_ : h.place = .shutting) (same : h' = h.go .finished)

theorem nextCase {token attempts e} {h h' : Handler} (moved : h.next token attempts e = some h') :
    NextCase token h e h' := by
  unfold Handler.next at moved
  cases at_ : h.place with
  | begun =>
    simp only [at_] at moved
    split at moved <;> rename_i judged <;> cases Option.some.inj moved
    · exact .refuse _ at_ judged rfl
    · exact .wrong _ at_ judged rfl
    · exact .accept _ at_ judged rfl
  | wrongCode lang =>
    simp only [at_] at moved
    exact .count lang _ at_ (Option.some.inj moved).symm
  | counted lang locked =>
    simp only [at_] at moved
    exact .turnAway lang locked at_ (Option.some.inj moved).symm
  | mkdirConf job =>
    simp only [at_] at moved
    exact .prepare job _ (by rw [at_]; rfl) rfl (by simp) (Option.some.inj moved).symm
  | mkdirUploads job =>
    simp only [at_] at moved
    exact .prepare job _ (by rw [at_]; rfl) rfl (by simp) (Option.some.inj moved).symm
  | writeBackup job =>
    simp only [at_] at moved
    exact .prepare job _ (by rw [at_]; rfl) rfl (by simp) (Option.some.inj moved).symm
  | writeConf job backup =>
    simp only [at_] at moved
    exact .conf job backup at_ (Option.some.inj moved).symm
  | writeAddress job backup =>
    simp only [at_] at moved
    exact .address job backup at_ (Option.some.inj moved).symm
  | respond job backup =>
    simp only [at_] at moved
    exact .respond job backup at_ (Option.some.inj moved).symm
  | shutting =>
    simp only [at_] at moved
    exact .leave at_ (Option.some.inj moved).symm
  | finished => simp [at_] at moved

theorem orFailKeeps (h : Handler) (e job place) :
    (h.orFail e job place).request = h.request ∧
      (h.orFail e job place).attemptsBefore = h.attemptsBefore ∧
      (h.orFail e job place).wroteConf = h.wroteConf := by
  unfold Handler.orFail
  split <;> exact ⟨rfl,rfl,rfl⟩

theorem nextRequest {token attempts e} {h h' : Handler} (moved : h.next token attempts e = some h') :
    h'.request = h.request ∧ h'.attemptsBefore = h.attemptsBefore := by
  cases nextCase moved with
  | prepare job place at_ into later same =>
    rw [same]
    exact ⟨(orFailKeeps h e job place).1,(orFailKeeps h e job place).2.1⟩
  | conf job backup at_ same =>
    rw [same]
    exact ⟨(orFailKeeps {h with wroteConf := true} e job _).1,(orFailKeeps _ e job _).2.1⟩
  | address job backup at_ same =>
    rw [same]
    exact ⟨(orFailKeeps h e job _).1,(orFailKeeps h e job _).2.1⟩
  | refuse _ _ _ same | wrong _ _ _ same | accept _ _ _ same | count _ _ _ same
  | turnAway _ _ _ same | respond _ _ _ same | leave _ same =>
    rw [same]
    exact ⟨rfl,rfl⟩

structure Sound (token : Text) (h : Handler) : Prop where
  job : ∀ job, h.place.job? = some job → judge token h.request = .accepted job
  wrote : h.wroteConf = true → Acceptable token h.request

theorem orFailSound {token h e job place} (sound : Sound token h)
    (accepted : judge token h.request = .accepted job) (into : place.job? = some job) :
    Sound token (h.orFail e job place) := by
  unfold Handler.orFail
  split
  · refine ⟨fun other at_ => ?_,sound.wrote⟩
    cases Option.some.inj (into.symm.trans at_)
    exact accepted
  · exact ⟨fun other at_ => by simp [Handler.reply,Place.job?] at at_,sound.wrote⟩

theorem nextSound {token attempts e} {h h' : Handler} (sound : Sound token h)
    (moved : h.next token attempts e = some h') : Sound token h' := by
  have idle : ∀ {place answer}, place.job? = none → Sound token {h with place := place, answer := answer} :=
    fun none => ⟨fun job at_ => by simp [none] at at_,sound.wrote⟩
  cases nextCase moved with
  | accept job at_ judged same =>
    rw [same]
    refine ⟨fun other into => ?_,sound.wrote⟩
    cases Option.some.inj into
    exact judged
  | prepare job place at_ into later same =>
    rw [same]
    exact orFailSound sound (sound.job job at_) into
  | conf job backup at_ same =>
    have accepted := sound.job job (by rw [at_]; rfl)
    rw [same]
    exact orFailSound (h := {h with wroteConf := true}) ⟨sound.job,fun _ => ⟨job,accepted⟩⟩ accepted rfl
  | address job backup at_ same =>
    rw [same]
    exact orFailSound sound (sound.job job (by rw [at_]; rfl)) rfl
  | turnAway lang locked at_ same =>
    rw [same]
    exact idle (by cases locked <;> rfl)
  | refuse _ _ _ same | wrong _ _ _ same | count _ _ _ same | respond _ _ _ same | leave _ same =>
    rw [same]
    exact idle rfl

def solo (i : Nat) : Server → Handler → List Effect → Option (Server × Handler)
  | s,h,[] => some (s,h)
  | s,h,e::rest => (h.next s.token s.failedAttempts e).bind (fun h' => solo i (share s i h e) h' rest)

theorem shareFrame (s i h e) (pre : List Handler) :
    share {s with handlers := pre} i h e = {share s i h e with handlers := pre} := by
  unfold share
  split <;> rfl

theorem shareRuns {s i h e} (running : s.shutdown ≠ .exited) : (share s i h e).shutdown ≠ .exited := by
  have once : s.shutdown.once ≠ .exited := by
    revert running
    cases s.shutdown <;> simp [Shutdown.once]
  unfold share
  split <;> first | exact running | exact once

theorem soloRun {s h effects t h'} (pre : List Handler) (running : s.shutdown ≠ .exited)
    (alone : solo pre.length s h effects = some (t,h')) :
    run step {s with handlers := pre ++ [h]} (effects.map (Action.advance pre.length)) =
      some {t with handlers := pre ++ [h']} := by
  induction effects generalizing s h with
  | nil =>
    cases Option.some.inj alone
    rfl
  | cons e rest ih =>
    obtain ⟨g,moved,later⟩ := Option.bind_eq_some_iff.mp alone
    have first : step {s with handlers := pre ++ [h]} (.advance pre.length e) =
        some {share s pre.length h e with handlers := pre ++ [g]} := by
      simp [step,running,moved,shareFrame]
    simp only [List.map_cons,run,first,Option.bind_some]
    exact ih (shareRuns running) later

def Ends (i : Nat) (s : Server) (h : Handler) (answer : Answer) (files : Files) (attempts : Nat) : Prop :=
  ∃ effects t h', solo i s h effects = some (t,h') ∧ h'.place = .finished ∧ h'.answer = some answer ∧
    t.files = files ∧ t.failedAttempts = attempts

section Ends
variable {i : Nat} {s : Server} {h : Handler} {answer : Answer} {files : Files} {attempts : Nat}

theorem endsFinished (at_ : h.place = .finished) (said : h.answer = some answer) :
    Ends i s h answer s.files s.failedAttempts :=
  ⟨[],s,h,rfl,at_,said,rfl,rfl⟩

theorem endsStep {n} (e : Effect) (moved : h.next s.token s.failedAttempts e = some n)
    (later : Ends i (share s i h e) n answer files attempts) : Ends i s h answer files attempts := by
  obtain ⟨effects,t,g,alone,rest⟩ := later
  exact ⟨e::effects,t,g,by simp [solo,moved,alone],rest⟩

theorem endsShutting (ts : Stamp) (at_ : h.place = .shutting) (said : h.answer = some answer) :
    Ends i s h answer s.files s.failedAttempts := by
  refine endsStep ⟨none,none,ts⟩ (n := h.go .finished) (by simp [Handler.next,at_]) ?_
  have shared : share s i h ⟨none,none,ts⟩ = {s with shutdown := s.shutdown.once} := by simp [share,at_]
  rw [shared]
  exact endsFinished (s := {s with shutdown := _}) rfl said

theorem endsTurnAway (ts : Stamp) {lang locked} (at_ : h.place = .counted lang locked) :
    Ends i s h (lockedAnswer lang locked) s.files s.failedAttempts := by
  refine endsStep ⟨none,none,ts⟩ (by simp only [Handler.next,at_]; rfl) ?_
  have shared : share s i h ⟨none,none,ts⟩ = s := by simp [share,at_]
  rw [shared]
  cases locked with
  | true => exact endsShutting ts rfl rfl
  | false => exact endsFinished rfl rfl

def effectOf (io : Io) : Write → Effect
  | .ok => ⟨none,none,io.stamp⟩
  | .failed message left => ⟨some message,left,io.stamp⟩

theorem effectOfWrite (io : Io) (w : Write) : (effectOf io w).write = w := by
  cases w <;> rfl

theorem endsAddress (io : Io) {job backup} (at_ : h.place = .writeAddress job backup) :
    Ends i s h (storeAddress io job backup s.files).1 (storeAddress io job backup s.files).2
      s.failedAttempts := by
  have shared : share s i h (effectOf io io.address) = {s with
      files := io.address.apply s.files addressPath (job.address ++ ['\n']), addressBy := some i} := by
    simp [share,at_,effectOfWrite]
  refine endsStep (effectOf io io.address) (by simp only [Handler.next,at_]; rfl) ?_
  rw [shared]
  unfold storeAddress
  cases io.address with
  | failed message left => exact endsFinished (s := {s with files := _, addressBy := _}) rfl rfl
  | ok =>
    refine endsStep ⟨none,none,io.stamp⟩ (n := h.reply (.success job.lang backup job.address) .shutting) rfl ?_
    exact endsShutting (s := {s with files := _, addressBy := _}) io.stamp rfl rfl

theorem endsConf (io : Io) {job backup} (at_ : h.place = .writeConf job backup) :
    Ends i s h (storeConf io job backup s.files).1 (storeConf io job backup s.files).2
      s.failedAttempts := by
  have shared : share s i h (effectOf io io.conf) = {s with
      files := io.conf.apply s.files confPath job.converted, confBy := some i} := by
    simp [share,at_,effectOfWrite]
  refine endsStep (effectOf io io.conf) (by simp only [Handler.next,at_]; rfl) ?_
  rw [shared]
  unfold storeConf
  cases conf : io.conf with
  | failed message left => exact endsFinished (s := {s with files := _, confBy := _}) rfl rfl
  | ok => exact endsAddress (s := {s with files := _, confBy := _}) io rfl

theorem endsBackup (io : Io) {job} (at_ : h.place = .writeBackup job) :
    Ends i s h (storeBackup io job s.files).1 (storeBackup io job s.files).2 s.failedAttempts := by
  have stamp : (effectOf io io.backup).ts = io.stamp := by cases io.backup <;> rfl
  have shared : share s i h (effectOf io io.backup) =
      {s with files := io.backup.apply s.files (backupPath io.stamp job.name) job.data} := by
    simp [share,at_,effectOfWrite,stamp]
  refine endsStep (effectOf io io.backup) (by simp only [Handler.next,at_]; rfl) ?_
  rw [shared,stamp]
  unfold storeBackup
  cases io.backup with
  | failed message left => exact endsFinished (s := {s with files := _}) rfl rfl
  | ok => exact endsConf (s := {s with files := _}) io rfl

theorem endsStore (io : Io) {job} (at_ : h.place = .mkdirConf job) :
    Ends i s h (store io job s.files).1 (store io job s.files).2 s.failedAttempts := by
  have still : ∀ {g : Handler} {e job}, g.place = .mkdirConf job ∨ g.place = .mkdirUploads job →
      share s i g e = s := by
    rintro g e job (at_ | at_) <;> simp [share,at_]
  refine endsStep ⟨io.mkdirConf,none,io.stamp⟩ (by simp only [Handler.next,at_]; rfl) ?_
  rw [still (.inl at_)]
  unfold store
  cases io.mkdirConf with
  | some message => exact endsFinished rfl rfl
  | none =>
    refine endsStep ⟨io.mkdirUploads,none,io.stamp⟩ rfl ?_
    rw [still (.inr rfl)]
    cases io.mkdirUploads with
    | some message => exact endsFinished rfl rfl
    | none => exact endsBackup io rfl

end Ends

/- A handler that nobody interrupts does what the sequential handler does. -/
theorem soloUpload (i : Nat) (s : Server) (io : Io) (r : Request) :
    Ends i s (newHandler s r) (upload s.token io s.failedAttempts s.files r).answer
      (upload s.token io s.failedAttempts s.files r).files
      (upload s.token io s.failedAttempts s.files r).failedAttempts := by
  let idle : Effect := ⟨none,none,io.stamp⟩
  have begun : share s i (newHandler s r) idle = s := rfl
  have first : (newHandler s r).next s.token s.failedAttempts idle =
      match judge s.token r with
      | .refused answer => some ((newHandler s r).reply answer .finished)
      | .wrongCode lang => some ((newHandler s r).go (.wrongCode lang))
      | .accepted job => some ((newHandler s r).go (.mkdirConf job)) := rfl
  unfold upload
  cases judged : judge s.token r with
  | refused answer =>
    rw [judged] at first
    refine endsStep idle first ?_
    rw [begun]
    exact endsFinished rfl rfl
  | wrongCode lang =>
    rw [judged] at first
    refine endsStep idle first ?_
    rw [begun]
    exact endsStep idle rfl (endsTurnAway (s := {s with failedAttempts := _}) io.stamp rfl)
  | accepted job =>
    rw [judged] at first
    refine endsStep idle first ?_
    rw [begun]
    exact endsStore io rfl

theorem handlerAlone {s : Server} (running : s.shutdown ≠ .exited) (io : Io) (r : Request) :
    ∃ (effects : List Effect) (t : Server) (h : Handler),
      run step s (.begin r::effects.map (.advance s.handlers.length)) = some t ∧
      t.handlers = s.handlers ++ [h] ∧ h.place = .finished ∧
      h.answer = some (upload s.token io s.failedAttempts s.files r).answer ∧
      t.files = (upload s.token io s.failedAttempts s.files r).files := by
  obtain ⟨effects,t,h,alone,place,answer,files,_⟩ := soloUpload s.handlers.length s io r
  refine ⟨effects,{t with handlers := s.handlers ++ [h]},h,?_,rfl,place,answer,files⟩
  have begun : step s (.begin r) = some {s with handlers := s.handlers ++ [newHandler s r]} := by
    simp [step,running]
  simp only [run,begun,Option.bind_some]
  exact soloRun s.handlers running alone

end WebosWireguard.UploadServer
