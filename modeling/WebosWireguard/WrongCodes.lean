import WebosWireguard.UploadLimits

/-! Wrong access codes under every interleaving. The counter is raised and compared under
one lock, the answers are written outside it, and the shutdown has three triggers. What an
attacker learns from the answers is not considered. -/
namespace WebosWireguard.WrongCodes
open TextLines UploadHandler UploadServer UploadLimits TransitionRun

def isWrong (token : Text) (r : Request) : Bool :=
  match judge token r with
  | .wrongCode _ => true
  | _ => false

def status : Answer → Nat
  | .error _ code _ => code
  | .success _ _ _ => 200

/- A handler behind the token check whose code was wrong. -/
def foundWrong (token : Text) (h : Handler) : Bool := isWrong token h.request && h.place != .begun

def wrongCodes (s : Server) : Nat := s.handlers.countP (foundWrong s.token)

def answered (s : Server) (code : Nat) : Nat :=
  s.handlers.countP (fun h => foundWrong s.token h && h.answer.map status == some code)

/- What the locked increment told the handler, from then on. -/
def tally (token : Text) (h : Handler) : Option Bool :=
  if isWrong token h.request then
    match h.place with
    | .counted _ locked => some locked
    | .shutting | .finished => h.answer.map (fun a => status a == 429)
    | _ => none
  else none

theorem statusLocked (lang : Lang) (locked : Bool) :
    status (lockedAnswer lang locked) = if locked then 429 else 403 := by
  cases locked <;> rfl

/- The places of a handler whose code is right or was never looked at. -/
def Unconcerned (h : Handler) : Prop :=
  ((h.place.job?.isSome = true ∨ h.place = .begun) ∧ h.answer = none) ∨ h.place = .finished ∨
    (h.place = .shutting ∧ Succeeded h)

inductive Course (token : Text) (h : Handler) : Prop where
  | right (fits : isWrong token h.request = false) (at_ : Unconcerned h)
  | waiting (wrong : isWrong token h.request = true) (at_ : h.place = .begun) (silent : h.answer = none)
  | checking (wrong : isWrong token h.request = true) (lang : Lang) (at_ : h.place = .wrongCode lang)
      (silent : h.answer = none)
  | counted (wrong : isWrong token h.request = true) (lang : Lang) (locked : Bool)
      (at_ : h.place = .counted lang locked) (silent : h.answer = none)
  | told (wrong : isWrong token h.request = true) (lang : Lang) (locked : Bool)
      (at_ : (h.place = .shutting ∧ locked = true) ∨ h.place = .finished)
      (said : h.answer = some (lockedAnswer lang locked))

/- One step of a handler: the counting step gives it its tally, no other step changes it. -/
inductive Tallied (token : Text) (attempts : Nat) (h h' : Handler) : Prop where
  | same (apart : ∀ lang, h.place ≠ .wrongCode lang) (kept : tally token h' = tally token h)
  | counting (lang : Lang) (at_ : h.place = .wrongCode lang) (before : tally token h = none)
      (after : tally token h' = some (decide (maxFailedAttempts ≤ attempts+1)))

theorem isWrongIff {token r} : isWrong token r = true ↔ ∃ lang, judge token r = .wrongCode lang := by
  unfold isWrong
  cases judge token r <;> simp

section Right
variable {token : Text} {attempts : Nat} {e : Effect} {h h' : Handler}

theorem rightTally (fits : isWrong token h.request = false) : tally token h = none := by
  simp [tally,fits]

theorem unconcernedApart (at_ : Unconcerned h) :
    (∀ lang, h.place ≠ .wrongCode lang) ∧ ∀ lang locked, h.place ≠ .counted lang locked := by
  rcases at_ with ⟨job | same,_⟩ | same | ⟨same,_⟩
  · constructor
    · intro lang at_
      simp [at_,Place.job?] at job
    · intro lang locked at_
      simp [at_,Place.job?] at job
  all_goals simp [same]

theorem storingSilent {job : Job} (at_ : Unconcerned h) (storing : h.place.job? = some job) : h.answer = none := by
  rcases at_ with ⟨_,silent⟩ | same | ⟨same,_⟩
  · exact silent
  all_goals simp [same,Place.job?] at storing

theorem orFailUnconcerned {job : Job} {place : Place} (silent : h.answer = none) (into : place.job? = some job) :
    Unconcerned (h.orFail e job place) := by
  unfold Handler.orFail
  split
  · refine .inl ⟨.inl ?_,silent⟩
    rw [show (h.go place).place = place from rfl,into]
    rfl
  · exact .inr (.inl rfl)

theorem nextUnconcerned (fits : isWrong token h.request = false) (at_ : Unconcerned h)
    (moved : h.next token attempts e = some h') : Unconcerned h' := by
  have apart := unconcernedApart at_
  cases nextCase moved with
  | refuse answer _ _ same =>
    rw [same]
    exact .inr (.inl rfl)
  | wrong lang _ judged same =>
    rw [isWrongIff.mpr ⟨lang,judged⟩] at fits
    contradiction
  | accept job here _ same =>
    have silent : h.answer = none := by
      rcases at_ with ⟨_,silent⟩ | other | ⟨other,_⟩
      · exact silent
      all_goals simp [here] at other
    rw [same]
    exact .inl ⟨.inl rfl,silent⟩
  | count lang locked here same => exact absurd here (apart.1 lang)
  | turnAway lang locked here same => exact absurd here (apart.2 lang locked)
  | prepare job place here into _ same =>
    rw [same]
    exact orFailUnconcerned (storingSilent at_ here) into
  | conf job backup here same =>
    rw [same]
    have silent : h.answer = none := storingSilent at_ (congrArg Place.job? here)
    exact orFailUnconcerned (h := {h with wroteConf := true}) silent rfl
  | address job backup here same =>
    rw [same]
    exact orFailUnconcerned (storingSilent at_ (by rw [here]; rfl)) rfl
  | respond job backup _ same =>
    rw [same]
    exact .inr (.inr ⟨rfl,_,_,_,rfl⟩)
  | leave _ same =>
    rw [same]
    exact .inr (.inl rfl)

end Right

theorem nextCourse {token attempts e} {h h' : Handler} (course : Course token h)
    (moved : h.next token attempts e = some h') : Course token h' ∧ Tallied token attempts h h' := by
  have request := (nextRequest moved).1
  cases course with
  | right fits at_ =>
    have fits' : isWrong token h'.request = false := by rwa [request]
    refine ⟨.right fits' (nextUnconcerned fits at_ moved),.same (unconcernedApart at_).1 ?_⟩
    rw [rightTally fits,rightTally fits']
  | waiting wrong at_ silent =>
    obtain ⟨lang,judged⟩ := isWrongIff.mp wrong
    simp only [Handler.next,at_,judged] at moved
    cases Option.some.inj moved
    exact ⟨.checking wrong lang rfl silent,.same (by simp [at_]) (by simp [tally,at_,Handler.go,wrong])⟩
  | checking wrong lang at_ silent =>
    simp only [Handler.next,at_] at moved
    cases Option.some.inj moved
    refine ⟨.counted wrong lang _ rfl silent,.counting lang at_ (by simp [tally,at_]) ?_⟩
    simp [tally,Handler.go,wrong]
  | counted wrong lang locked at_ _ =>
    simp only [Handler.next,at_] at moved
    cases Option.some.inj moved
    refine ⟨.told wrong lang locked ?_ rfl,.same (by simp [at_]) ?_⟩
    · cases locked with
      | true => exact .inl ⟨rfl,rfl⟩
      | false => exact .inr rfl
    · cases locked <;> simp [tally,at_,wrong,Handler.reply,statusLocked]
  | told wrong lang locked at_ said =>
    rcases at_ with ⟨place,shut⟩ | place
    · simp only [Handler.next,place] at moved
      cases Option.some.inj moved
      refine ⟨.told wrong lang locked (.inr rfl) said,.same (by simp [place]) ?_⟩
      simp [tally,place,Handler.go,wrong]
    · simp [Handler.next,place] at moved

/-! The tallies of all handlers against the counter. -/

theorem countSet {α : Type} {p : α → Bool} {l : List α} {i : Nat} {x : α} (at_ : l[i]? = some x) (a : α) :
    (l.set i a).countP p + (if p x then 1 else 0) = l.countP p + (if p a then 1 else 0) := by
  obtain ⟨inside,rfl⟩ := List.getElem?_eq_some_iff.mp at_
  have present : p l[i] = true → 0 < l.countP p :=
    fun holds => List.countP_pos_iff.mpr ⟨_,List.getElem_mem inside,holds⟩
  rw [List.countP_set inside]
  by_cases holds : p l[i] = true
  · have positive := present holds
    simp only [holds,if_true]
    omega
  · simp [holds]

def tallied (token : Text) (locked : Bool) (handlers : List Handler) : Nat :=
  handlers.countP (fun h => tally token h == some locked)

structure Counting (s : Server) : Prop where
  course : ∀ h ∈ s.handlers, Course s.token h
  passed : tallied s.token false s.handlers = min s.failedAttempts 4
  locked : tallied s.token true s.handlers = s.failedAttempts - min s.failedAttempts 4

theorem newCourse (s : Server) (r : Request) : Course s.token (newHandler s r) := by
  cases known : isWrong s.token r with
  | true => exact .waiting known rfl rfl
  | false => exact .right known (.inl ⟨.inr rfl,rfl⟩)

theorem newUntallied (s : Server) (r : Request) : tally s.token (newHandler s r) = none := by
  unfold tally newHandler
  split <;> rfl

theorem shareAttempts {s : Server} {i : Nat} {h : Handler} {e : Effect} (apart : ∀ lang, h.place ≠ .wrongCode lang) :
    (share s i h e).failedAttempts = s.failedAttempts := by
  unfold share
  cases at_ : h.place with
  | wrongCode lang => exact absurd at_ (apart lang)
  | _ => rfl

theorem shareCounts {s : Server} {i : Nat} {h : Handler} {e : Effect} {lang : Lang} (at_ : h.place = .wrongCode lang) :
    (share s i h e).failedAttempts = s.failedAttempts+1 := by
  simp [share,at_]

theorem tallySame {token : Text} {handlers : List Handler} {i : Nat} {h h' : Handler} (at_ : handlers[i]? = some h)
    (kept : tally token h' = tally token h) (locked : Bool) :
    tallied token locked (handlers.set i h') = tallied token locked handlers := by
  have counts := countSet (p := fun h => tally token h == some locked) at_ h'
  rw [kept] at counts
  exact Nat.add_right_cancel counts

theorem tallyCounted {token : Text} {handlers : List Handler} {i : Nat} {h h' : Handler} {now : Bool}
    (at_ : handlers[i]? = some h) (before : tally token h = none) (after : tally token h' = some now) (locked : Bool) :
    tallied token locked (handlers.set i h') = tallied token locked handlers + (if now = locked then 1 else 0) := by
  have counts := countSet (p := fun h => tally token h == some locked) at_ h'
  rw [before,after] at counts
  simpa [tallied] using counts

theorem countingStep (s : Server) (a : Action) (t : Server) (counting : Counting s)
    (stepped : step s a = some t) : Counting t := by
  cases stepCase stepped with
  | begin r act same =>
    subst same
    have none_ : ∀ locked, tallied s.token locked (s.handlers ++ [newHandler s r]) = tallied s.token locked s.handlers := by
      intro locked
      simp [tallied,newUntallied]
    refine ⟨?_,(none_ false).trans counting.passed,(none_ true).trans counting.locked⟩
    intro h mem
    rcases List.mem_append.mp mem with old | new
    · exact counting.course h old
    · rw [List.mem_singleton.mp new]
      exact newCourse s r
  | advance i e h h' act at_ moved same =>
    obtain ⟨course,step_⟩ := nextCourse (counting.course h (List.mem_of_getElem? at_)) moved
    have courses : ∀ g ∈ s.handlers.set i h', Course s.token g := by
      intro g mem
      rcases List.mem_or_eq_of_mem_set mem with old | rfl
      · exact counting.course g old
      · exact course
    have token : t.token = s.token := stepToken stepped
    have handlers : t.handlers = s.handlers.set i h' := by rw [same]
    have passed := counting.passed
    have locked := counting.locked
    cases step_ with
    | same apart kept =>
      have attempts : t.failedAttempts = s.failedAttempts := by rw [same]; exact shareAttempts apart
      refine ⟨by rwa [token,handlers],?_,?_⟩
      · rw [token,handlers,attempts,tallySame at_ kept,passed]
      · rw [token,handlers,attempts,tallySame at_ kept,locked]
    | counting lang here before after =>
      have attempts : t.failedAttempts = s.failedAttempts+1 := by rw [same]; exact shareCounts here
      -- the first four increments find the counter below the limit, every later one above it
      have five : maxFailedAttempts = 5 := rfl
      refine ⟨by rwa [token,handlers],?_,?_⟩
      · rw [token,handlers,attempts,tallyCounted at_ before after,passed,five]
        by_cases full : 5 ≤ s.failedAttempts+1
        · simp [full]
          omega
        · simp [full]
          omega
      · rw [token,handlers,attempts,tallyCounted at_ before after,locked,five]
        by_cases full : 5 ≤ s.failedAttempts+1
        · simp [full]
          omega
        · simp [full]
          omega
  | server shutdown same =>
    rw [same]
    exact ⟨counting.course,counting.passed,counting.locked⟩

theorem countingRun {s t : Server} {actions : List Action} (initial : Initial s)
    (ran : run step s actions = some t) : Counting t := by
  have start : Counting s := by
    obtain ⟨zero,_,none_,_⟩ := initial
    refine ⟨?_,?_,?_⟩
    · simp [none_]
    · simp [tallied,none_,zero]
    · simp [tallied,none_,zero]
  exact runInvariant (fun s a t _ counting _ => countingStep s a t counting) start guardedTrivial ran

/-! What starts the shutdown. -/

def shutdownStarts : Server → List Action → Nat
  | _,[] => 0
  | s,a::rest =>
    match step s a with
    | none => 0
    | some t => (if s.shutdown = .none ∧ t.shutdown ≠ .none then 1 else 0) + shutdownStarts t rest

inductive ShutdownCase (s : Server) (a : Action) (t : Server) : Prop where
  | kept (same : t.shutdown = s.shutdown)
  | timer (act : a = .expire) (on_ : t.shutdown ≠ .none)
  | left (h : Handler) (mem : h ∈ s.handlers) (at_ : h.place = .shutting) (on_ : t.shutdown ≠ .none)
  | underway (before : s.shutdown ≠ .none) (on_ : t.shutdown ≠ .none)

theorem onceStarted (shutdown : Shutdown) : shutdown.once ≠ .none := by
  cases shutdown <;> simp [Shutdown.once]

theorem shutdownCase {s a t} (stepped : step s a = some t) : ShutdownCase s a t := by
  unfold step at stepped
  split at stepped
  · contradiction
  cases a with
  | begin r =>
    cases Option.some.inj stepped
    exact .kept rfl
  | advance i e =>
    obtain ⟨h,at_,rest⟩ := Option.bind_eq_some_iff.mp stepped
    obtain ⟨h',_,last⟩ := Option.bind_eq_some_iff.mp rest
    cases Option.some.inj last
    have mem := List.mem_of_getElem? at_
    cases place : h.place with
    | shutting => exact .left h mem place (by simp [share,place,onceStarted])
    | _ => exact .kept (by simp [share,place])
  | expire =>
    cases Option.some.inj stepped
    exact .timer rfl (onceStarted s.shutdown)
  | wake =>
    dsimp only at stepped
    split at stepped <;> try contradiction
    rename_i sleeping
    cases Option.some.inj stepped
    exact .underway (by simp [sleeping]) (by simp)
  | exit =>
    dsimp only at stepped
    split at stepped <;> try contradiction
    rename_i closing
    cases Option.some.inj stepped
    exact .underway (by simp [closing]) (by simp)

theorem shutdownStays {s a t} (stepped : step s a = some t) (before : s.shutdown ≠ .none) : t.shutdown ≠ .none := by
  cases shutdownCase stepped with
  | kept same => rwa [same]
  | timer _ on_ | left _ _ _ on_ | underway _ on_ => exact on_

theorem noSecondStart {s : Server} (actions : List Action) (before : s.shutdown ≠ .none) :
    shutdownStarts s actions = 0 := by
  induction actions generalizing s with
  | nil => rfl
  | cons a rest ih =>
    unfold shutdownStarts
    cases stepped : step s a with
    | none => rfl
    | some t => simp [before,ih (shutdownStays stepped before)]

theorem oneStart (s : Server) (actions : List Action) : shutdownStarts s actions ≤ 1 := by
  induction actions generalizing s with
  | nil => simp [shutdownStarts]
  | cons a rest ih =>
    unfold shutdownStarts
    cases stepped : step s a with
    | none => simp
    | some t =>
      dsimp only
      by_cases off : t.shutdown = .none
      · simpa [off] using ih t
      · rw [noSecondStart rest off]
        split <;> simp

theorem foundOfTally {token : Text} {h : Handler} {locked : Bool} (told : tally token h = some locked) :
    foundWrong token h = true := by
  unfold tally at told
  split at told
  · rename_i wrong
    cases at_ : h.place with
    | begun => simp [at_] at told
    | _ => simp [foundWrong,wrong,at_]
  · contradiction

theorem talliedTotal (token : Text) (handlers : List Handler) :
    tallied token false handlers + tallied token true handlers =
      handlers.countP (fun h => (tally token h).isSome) := by
  unfold tallied
  induction handlers with
  | nil => rfl
  | cons h rest ih =>
    simp only [List.countP_cons]
    rw [← ih]
    cases tally token h with
    | none => simp
    | some locked => cases locked <;> simp <;> omega

theorem attemptsTallied {s : Server} (counting : Counting s) :
    s.failedAttempts = s.handlers.countP (fun h => (tally s.token h).isSome) := by
  rw [← talliedTotal,counting.passed,counting.locked]
  omega

/- Every increment was made by a handler behind the check. -/
theorem attemptsFound {s : Server} (counting : Counting s) : s.failedAttempts ≤ wrongCodes s := by
  rw [attemptsTallied counting]
  refine List.countP_mono_left (fun h _ some_ => ?_)
  obtain ⟨locked,told⟩ := Option.isSome_iff_exists.mp some_
  exact foundOfTally told

/- A handler told that the limit is reached has seen the fifth wrong code. -/
theorem lockedFifth {s : Server} {h : Handler} (counting : Counting s) (mem : h ∈ s.handlers)
    (told : tally s.token h = some true) : maxFailedAttempts ≤ s.failedAttempts := by
  have present : 0 < tallied s.token true s.handlers := List.countP_pos_iff.mpr ⟨h,mem,by simp [told]⟩
  rw [counting.locked] at present
  have five : maxFailedAttempts = 5 := rfl
  omega

theorem shuttingJustified {s : Server} {h : Handler} (counting : Counting s) (mem : h ∈ s.handlers)
    (at_ : h.place = .shutting) : maxFailedAttempts ≤ s.failedAttempts ∨ Succeeded h := by
  cases counting.course h mem with
  | right _ free =>
    rcases free with ⟨storing | other,_⟩ | other | ⟨_,success⟩
    · simp [at_,Place.job?] at storing
    · simp [at_] at other
    · simp [at_] at other
    · exact .inr success
  | waiting _ other _ | checking _ _ other _ | counted _ _ _ other _ => simp [at_] at other
  | told wrong lang locked place said =>
    refine .inl (lockedFifth counting mem ?_)
    have last : locked = true := by
      rcases place with ⟨_,shut⟩ | other
      · exact shut
      · simp [at_] at other
    simp [tally,wrong,at_,said,statusLocked,last]

theorem successKept {token attempts e} {h h' : Handler} (course : Course token h) (success : Succeeded h)
    (moved : h.next token attempts e = some h') : Succeeded h' := by
  obtain ⟨lang,backup,address,said⟩ := success
  cases course with
  | right _ free =>
    rcases free with ⟨_,silent⟩ | done_ | ⟨shut,_⟩
    · simp [silent] at said
    · simp [Handler.next,done_] at moved
    · simp only [Handler.next,shut] at moved
      cases Option.some.inj moved
      exact ⟨lang,backup,address,said⟩
  | waiting _ _ silent | checking _ _ _ silent | counted _ _ _ _ silent => simp [silent] at said
  | told _ _ locked _ answer =>
    rw [answer] at said
    cases locked <;> simp [lockedAnswer] at said

/- The counter and the successes so far, from one state to the next. -/
theorem reasonsKept {s a t} (counting : Counting s) (stepped : step s a = some t) :
    s.failedAttempts ≤ t.failedAttempts ∧ ((∃ h ∈ s.handlers, Succeeded h) → ∃ h ∈ t.handlers, Succeeded h) := by
  cases stepCase stepped with
  | begin r act same =>
    rw [same]
    exact ⟨Nat.le_refl _,fun ⟨h,mem,success⟩ => ⟨h,List.mem_append_left _ mem,success⟩⟩
  | advance i e h h' act at_ moved same =>
    rw [same]
    constructor
    · by_cases checking : ∃ lang, h.place = .wrongCode lang
      · obtain ⟨lang,here⟩ := checking
        exact (shareCounts here).symm ▸ Nat.le_succ _
      · exact (shareAttempts (not_exists.mp checking)).symm ▸ Nat.le_refl _
    · intro given
      obtain ⟨g,mem,success⟩ := given
      obtain ⟨j,inside,rfl⟩ := List.getElem_of_mem mem
      by_cases own : i = j
      · subst own
        cases Option.some.inj (at_.symm.trans (List.getElem?_eq_getElem inside))
        exact ⟨h',List.mem_set inside h',successKept (counting.course _ mem) success moved⟩
      · refine ⟨s.handlers[j],List.mem_of_getElem? (i := j) ?_,success⟩
        rw [List.getElem?_set_ne own,List.getElem?_eq_getElem inside]
  | server shutdown same =>
    rw [same]
    exact ⟨Nat.le_refl _,id⟩

def Justified (actions : List Action) (s : Server) : Prop :=
  s.shutdown ≠ .none →
    maxFailedAttempts ≤ s.failedAttempts ∨ (∃ h ∈ s.handlers, Succeeded h) ∨ Action.expire ∈ actions

theorem justifiedStep {actions : List Action} {s a t} (mem : a ∈ actions) (counting : Counting s)
    (justified : Justified actions s) (stepped : step s a = some t) : Justified actions t := by
  obtain ⟨attempts,successes⟩ := reasonsKept counting stepped
  have carried : (maxFailedAttempts ≤ s.failedAttempts ∨ (∃ h ∈ s.handlers, Succeeded h) ∨ Action.expire ∈ actions) →
      maxFailedAttempts ≤ t.failedAttempts ∨ (∃ h ∈ t.handlers, Succeeded h) ∨ Action.expire ∈ actions := by
    intro given
    rcases given with full | success | timer
    · exact .inl (Nat.le_trans full attempts)
    · exact .inr (.inl (successes success))
    · exact .inr (.inr timer)
  intro on_
  cases shutdownCase stepped with
  | kept same => exact carried (justified (by rwa [← same]))
  | timer act _ => exact .inr (.inr (act ▸ mem))
  | left h inside at_ _ =>
    rcases shuttingJustified counting inside at_ with full | success
    · exact carried (.inl full)
    · exact carried (.inr (.inl ⟨h,inside,success⟩))
  | underway before _ => exact carried (justified before)

theorem justifiedRun {s t : Server} {actions : List Action} (initial : Initial s)
    (ran : run step s actions = some t) : Justified actions t := by
  have idle : run step s [] = some s := rfl
  have start : Counting s ∧ Justified actions s := ⟨countingRun initial idle,fun on_ => absurd initial.2.1 on_⟩
  refine (runInvariant (I := fun s => Counting s ∧ Justified actions s) ?_ start guardedTrivial ran).2
  intro s a t mem both _ stepped
  exact ⟨countingStep s a t both.1 stepped,justifiedStep mem both.1 both.2 stepped⟩

/- A handler at its end was told by the increment which answer to give. -/
theorem endedAnswer {token : Text} {h : Handler} (course : Course token h)
    (ended : foundWrong token h = true → h.place = .finished) :
    foundWrong token h = (tally token h).isSome ∧
      ∀ locked, (foundWrong token h && h.answer.map status == some (if locked then 429 else 403)) =
        (tally token h == some locked) := by
  cases course with
  | right fits _ => simp [foundWrong,tally,fits]
  | waiting wrong at_ silent => simp [foundWrong,tally,wrong,at_]
  | checking wrong lang at_ silent => simp [foundWrong,wrong,at_] at ended
  | counted wrong lang locked at_ silent => simp [foundWrong,wrong,at_] at ended
  | told wrong lang locked at_ said =>
    have found : foundWrong token h = true := by
      rcases at_ with ⟨place,_⟩ | place <;> simp [foundWrong,wrong,place]
    have told : tally token h = some locked := by
      rcases at_ with ⟨place,_⟩ | place <;> cases locked <;> simp [tally,wrong,place,said,statusLocked]
    rw [found,told,said]
    refine ⟨rfl,fun other => ?_⟩
    cases locked <;> cases other <;> simp [statusLocked]

theorem answeredTallied {s : Server} (counting : Counting s)
    (ended : ∀ h ∈ s.handlers, foundWrong s.token h = true → h.place = .finished) :
    wrongCodes s = s.failedAttempts ∧
      ∀ locked : Bool, answered s (if locked then 429 else 403) = tallied s.token locked s.handlers := by
  constructor
  · rw [attemptsTallied counting]
    refine List.countP_congr (fun h mem => ?_)
    rw [(endedAnswer (counting.course h mem) (ended h mem)).1]
  · intro locked
    refine List.countP_congr (fun h mem => ?_)
    rw [(endedAnswer (counting.course h mem) (ended h mem)).2 locked]

def round (ids : List Nat) : List Action := ids.map (fun i => .advance i fine)

/- Six wrong codes, each step of each handler in turn with those of the others. -/
def sixWrong : List Action :=
  List.replicate 6 (.begin wrongRequest) ++ round [0,1,2,3,4,5] ++ round [5,4,3,2,1,0] ++ round [0,1,2,3,4,5] ++
    round [0,1]

end WebosWireguard.WrongCodes
