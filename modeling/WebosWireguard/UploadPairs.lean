import WebosWireguard.UploadLimits

/-! The two files an upload leaves behind. When every write succeeds, wg0.conf is that of
the upload that wrote it last and address that of the upload that wrote it last; the two
writes are not one step, so these may be two uploads. -/
namespace WebosWireguard.UploadPairs
open TextLines UploadHandler UploadServer UploadLimits TransitionRun

def Action.Ok : Action → Prop
  | .advance _ e => e.error = none
  | _ => True

def AddressWritten (h : Handler) : Prop := (∃ job backup, h.place = .respond job backup) ∨ Succeeded h

structure Thorough (token : Text) (h : Handler) : Prop where
  sound : Sound token h
  turned : ∀ lang, h.place = .wrongCode lang ∨ (∃ locked, h.place = .counted lang locked) →
    judge token h.request = .wrongCode lang
  wrote : ∀ job backup, h.place = .writeAddress job backup ∨ h.place = .respond job backup →
    h.wroteConf = true
  ended : h.place = .shutting ∨ h.place = .finished → Acceptable token h.request →
    Succeeded h ∧ h.wroteConf = true

theorem orFailOk {h : Handler} {e job place} (ok : e.error = none) : h.orFail e job place = h.go place := by
  simp [Handler.orFail,ok]

theorem elsewhere {place : Place} {job : Job} (into : place.job? = some job)
    (later : ∀ backup, place ≠ .writeAddress job backup ∧ place ≠ .respond job backup) (other : Job) (backup : Text) :
    place ≠ .writeAddress other backup ∧ place ≠ .respond other backup := by
  refine ⟨fun here => ?_,fun here => ?_⟩
  all_goals
    rw [here] at into
    cases Option.some.inj into
  · exact (later backup).1 here
  · exact (later backup).2 here

theorem newThorough (s : Server) (r : Request) : Thorough s.token (newHandler s r) where
  sound := newSound s r
  turned := by simp [newHandler]
  wrote := by simp [newHandler]
  ended := by simp [newHandler]

theorem nextThorough {token attempts e} {h h' : Handler} (thorough : Thorough token h) (ok : e.error = none)
    (moved : h.next token attempts e = some h') : Thorough token h' := by
  have sound := nextSound thorough.sound moved
  cases nextCase moved with
  | refuse answer at_ judged same =>
    subst same
    refine ⟨sound,by simp [Handler.reply],by simp [Handler.reply],?_⟩
    rintro - ⟨job,accepted⟩
    cases judged.symm.trans accepted
  | wrong lang at_ judged same =>
    subst same
    refine ⟨sound,?_,by simp [Handler.go],by simp [Handler.go]⟩
    rintro other (into | ⟨locked,into⟩) <;> cases into
    exact judged
  | accept job at_ judged same =>
    subst same
    exact ⟨sound,by simp [Handler.go],by simp [Handler.go],by simp [Handler.go]⟩
  | count lang locked at_ same =>
    subst same
    refine ⟨sound,?_,by simp [Handler.go],by simp [Handler.go]⟩
    rintro other (into | ⟨locked,into⟩) <;> cases into
    exact thorough.turned lang (.inl at_)
  | turnAway lang locked at_ same =>
    subst same
    have judged := thorough.turned lang (.inr ⟨locked,at_⟩)
    refine ⟨sound,by cases locked <;> simp [Handler.reply],by cases locked <;> simp [Handler.reply],?_⟩
    rintro - ⟨job,accepted⟩
    cases judged.symm.trans accepted
  | prepare job place at_ into later same =>
    rw [orFailOk ok] at same
    subst same
    refine ⟨sound,?_,?_,?_⟩
    · rintro lang (here | ⟨locked,here⟩) <;> simp only [Handler.go] at here <;> simp [here,Place.job?] at into
    · intro other backup here
      obtain ⟨away,notLast⟩ := elsewhere into later other backup
      exact absurd here (not_or.mpr ⟨away,notLast⟩)
    · rintro (here | here) <;> simp only [Handler.go] at here <;> simp [here,Place.job?] at into
  | conf job backup at_ same =>
    rw [orFailOk ok] at same
    subst same
    exact ⟨sound,by simp [Handler.go],fun _ _ _ => rfl,by simp [Handler.go]⟩
  | address job backup at_ same =>
    rw [orFailOk ok] at same
    subst same
    exact ⟨sound,by simp [Handler.go],fun _ _ _ => thorough.wrote job backup (.inl at_),by simp [Handler.go]⟩
  | respond job backup at_ same =>
    subst same
    refine ⟨sound,by simp [Handler.reply],by simp [Handler.reply],fun _ _ => ⟨⟨_,_,_,rfl⟩,?_⟩⟩
    exact thorough.wrote job backup (.inr at_)
  | leave at_ same =>
    subst same
    exact ⟨sound,by simp [Handler.go],by simp [Handler.go],fun _ => thorough.ended (.inl at_)⟩

def WriterJob (s : Server) (by_ : Option Nat) (job : Job) : Prop :=
  ∃ (i : Nat) (h : Handler), by_ = some i ∧ s.handlers[i]? = some h ∧ judge s.token h.request = .accepted job

/- A file is untouched and nobody is past its write, or it holds what its last writer wrote. -/
def Tracked (s : Server) (by_ : Option Nat) (past : Handler → Prop) (path : Text) (content : Job → Text) : Prop :=
  (by_ = none ∧ ∀ h ∈ s.handlers, ¬ past h) ∨
    ∃ job, WriterJob s by_ job ∧ s.files path = some (content job)

section Tracked
variable {s t : Server} {by_ : Option Nat} {past : Handler → Prop} {path : Text} {content : Job → Text}

theorem writerJobSet {i : Nat} {h h' : Handler} {job} (token : t.token = s.token)
    (handlers : t.handlers = s.handlers.set i h') (at_ : s.handlers[i]? = some h)
    (request : h'.request = h.request) (writer : WriterJob s by_ job) : WriterJob t by_ job := by
  obtain ⟨j,g,who,atG,accepted⟩ := writer
  rw [WriterJob,token,handlers]
  by_cases same : j = i
  · subst same
    cases Option.some.inj (at_.symm.trans atG)
    refine ⟨j,h',who,List.getElem?_set_self (List.getElem?_eq_some_iff.mp at_).1,?_⟩
    rw [request,accepted]
  · exact ⟨j,g,who,by rw [List.getElem?_set_ne (Ne.symm same)]; exact atG,accepted⟩

theorem trackedKept {i : Nat} {h h' : Handler} (token : t.token = s.token)
    (handlers : t.handlers = s.handlers.set i h') (at_ : s.handlers[i]? = some h)
    (request : h'.request = h.request) (file : t.files path = s.files path) (came : past h' → past h)
    (tracked : Tracked s by_ past path content) : Tracked t by_ past path content := by
  rcases tracked with ⟨nobody,not⟩ | ⟨job,writer,holds⟩
  · refine .inl ⟨nobody,fun g mem => ?_⟩
    rw [handlers] at mem
    rcases List.mem_or_eq_of_mem_set mem with old | rfl
    · exact not g old
    · exact fun now => not h (List.mem_of_getElem? at_) (came now)
  · exact .inr ⟨job,writerJobSet token handlers at_ request writer,file.trans holds⟩

theorem trackedWrite {i : Nat} {h h' : Handler} {job} (token : t.token = s.token)
    (handlers : t.handlers = s.handlers.set i h') (at_ : s.handlers[i]? = some h)
    (request : h'.request = h.request) (accepted : judge s.token h.request = .accepted job)
    (file : t.files path = some (content job)) : Tracked t (some i) past path content :=
  .inr ⟨job,writerJobSet token handlers at_ request ⟨i,h,rfl,at_,accepted⟩,file⟩

/- One handler moves: either it is at the write of this file, or the file stays. -/
theorem trackedStep {after : Option Nat} {i : Nat} {h h' : Handler} {writing : Job → Prop} (token : t.token = s.token)
    (handlers : t.handlers = s.handlers.set i h') (at_ : s.handlers[i]? = some h) (request : h'.request = h.request)
    (accepted : ∀ job, writing job → judge s.token h.request = .accepted job)
    (writes : ∀ job, writing job → after = some i ∧ t.files path = some (content job))
    (keeps : (¬ ∃ job, writing job) → after = by_ ∧ t.files path = s.files path)
    (came : past h' → past h ∨ ∃ job, writing job) (tracked : Tracked s by_ past path content) :
    Tracked t after past path content := by
  by_cases busy : ∃ job, writing job
  · obtain ⟨job,here⟩ := busy
    obtain ⟨same,file⟩ := writes job here
    rw [same]
    exact trackedWrite token handlers at_ request (accepted job here) file
  · obtain ⟨same,file⟩ := keeps busy
    rw [same]
    exact trackedKept token handlers at_ request file (fun now => (came now).resolve_right busy) tracked

end Tracked

structure Inv (s : Server) : Prop where
  thorough : ∀ h ∈ s.handlers, Thorough s.token h
  conf : Tracked s s.confBy (fun h => h.wroteConf = true) confPath Job.converted
  address : Tracked s s.addressBy AddressWritten addressPath (fun job => job.address ++ ['\n'])

theorem shareConf {s i e} {h : Handler} (other : ∀ job backup, h.place ≠ .writeConf job backup) :
    (share s i h e).confBy = s.confBy ∧ (share s i h e).files confPath = s.files confPath := by
  unfold share
  split
  case h_2 job at_ => exact ⟨rfl,applyOther e.write (backupApart e.ts job.name).1.symm⟩
  case h_3 job backup at_ => exact absurd at_ (other job backup)
  case h_4 job backup at_ => exact ⟨rfl,applyOther e.write pathsApart⟩
  all_goals exact ⟨rfl,rfl⟩

theorem shareAddress {s i e} {h : Handler} (other : ∀ job backup, h.place ≠ .writeAddress job backup) :
    (share s i h e).addressBy = s.addressBy ∧ (share s i h e).files addressPath = s.files addressPath := by
  unfold share
  split
  case h_2 job at_ => exact ⟨rfl,applyOther e.write (backupApart e.ts job.name).2.symm⟩
  case h_3 job backup at_ => exact ⟨rfl,applyOther e.write pathsApart.symm⟩
  case h_4 job backup at_ => exact absurd at_ (other job backup)
  all_goals exact ⟨rfl,rfl⟩

/- Without a success page and away from the last place the address is not yet written. -/
theorem errorUnwritten {h : Handler} {answer : Answer} (said : h.answer = some answer) (bad : answer.IsError)
    (away : ∀ job backup, h.place ≠ .respond job backup) : ¬ AddressWritten h := by
  intro written
  rcases written with ⟨job,backup,place⟩ | success
  · exact away job backup place
  · exact errorNotSucceeded said bad success

theorem orFailWritten {h : Handler} {e job place} (away : ∀ other backup, place ≠ .respond other backup)
    (now : AddressWritten (h.orFail e job place)) : Succeeded h := by
  cases failed : e.error with
  | some message =>
    have said : (h.orFail e job place).answer = some (.error job.lang 500 message) := by
      simp [Handler.orFail,failed,Handler.reply]
    exact absurd now (errorUnwritten said trivial (by simp [Handler.orFail,failed,Handler.reply]))
  | none =>
    rw [orFailOk failed] at now
    rcases now with ⟨other,backup,here⟩ | success
    · exact absurd here (away other backup)
    · exact success

theorem nextPast {token attempts e} {h h' : Handler} (moved : h.next token attempts e = some h') :
    (h'.wroteConf = true → h.wroteConf = true ∨ ∃ job backup, h.place = .writeConf job backup) ∧
      (AddressWritten h' → AddressWritten h ∨ ∃ job backup, h.place = .writeAddress job backup) := by
  cases nextCase moved with
  | refuse answer at_ judged same =>
    subst same
    exact ⟨.inl,fun now => absurd now (errorUnwritten rfl (refusedIsError judged) (by simp [Handler.reply]))⟩
  | turnAway lang locked at_ same =>
    subst same
    refine ⟨.inl,fun now => absurd now (errorUnwritten rfl ?_ ?_)⟩
    · cases locked <;> simp [lockedAnswer,Answer.IsError]
    · cases locked <;> simp [Handler.reply]
  | prepare job place at_ into later same =>
    subst same
    refine ⟨fun now => .inl ((orFailKeeps h e job place).2.2 ▸ now),fun now => .inl (.inr ?_)⟩
    exact orFailWritten (fun other backup => (elsewhere into later other backup).2) now
  | conf job backup at_ same =>
    subst same
    refine ⟨fun _ => .inr ⟨job,backup,at_⟩,fun now => .inl (.inr ?_)⟩
    exact orFailWritten (h := {h with wroteConf := true}) (by simp) now
  | address job backup at_ same =>
    subst same
    exact ⟨fun now => .inl ((orFailKeeps h e job _).2.2 ▸ now),fun _ => .inr ⟨job,backup,at_⟩⟩
  | respond job backup at_ same =>
    subst same
    exact ⟨.inl,fun _ => .inl (.inl ⟨job,backup,at_⟩)⟩
  | wrong _ _ _ same | accept _ _ _ same | count _ _ _ same | leave _ same =>
    subst same
    refine ⟨.inl,fun now => .inl (.inr ?_)⟩
    rcases now with ⟨job,backup,here⟩ | success
    · simp [Handler.go] at here
    · exact success

theorem advanceInv {s i e} {h h' : Handler} (inv : Inv s) (ok : e.error = none)
    (at_ : s.handlers[i]? = some h) (moved : h.next s.token s.failedAttempts e = some h')
    (thorough : ∀ g ∈ s.handlers.set i h', Thorough s.token g) :
    Inv {share s i h e with handlers := s.handlers.set i h'} := by
  have token := shareToken s i h e
  have request := (nextRequest moved).1
  have here := inv.thorough h (List.mem_of_getElem? at_)
  obtain ⟨pastConf,pastAddress⟩ := nextPast moved
  have write : e.write = .ok := by simp [Effect.write,ok]
  refine ⟨fun g mem => ?_,?_,?_⟩
  · rw [token]
    exact thorough g mem
  · refine trackedStep (t := {share s i h e with handlers := _}) token rfl at_ request ?_ ?_ ?_ pastConf inv.conf
    · intro job given
      obtain ⟨backup,place⟩ := given
      exact here.sound.job job (congrArg Place.job? place)
    · intro job given
      obtain ⟨backup,place⟩ := given
      simp [share,place,write,Write.apply]
    · exact fun idle => shareConf (fun job backup place => idle ⟨job,backup,place⟩)
  · refine trackedStep (t := {share s i h e with handlers := _}) token rfl at_ request ?_ ?_ ?_ pastAddress inv.address
    · intro job given
      obtain ⟨backup,place⟩ := given
      exact here.sound.job job (congrArg Place.job? place)
    · intro job given
      obtain ⟨backup,place⟩ := given
      simp [share,place,write,Write.apply]
    · exact fun idle => shareAddress (fun job backup place => idle ⟨job,backup,place⟩)

theorem trackedBegin {s : Server} {r by_ past path content} (fresh : ¬ past (newHandler s r))
    (tracked : Tracked s by_ past path content) :
    Tracked {s with handlers := s.handlers ++ [newHandler s r]} by_ past path content := by
  rcases tracked with ⟨nobody,not⟩ | ⟨job,⟨i,h,who,at_,accepted⟩,holds⟩
  · refine .inl ⟨nobody,fun g mem => ?_⟩
    rcases List.mem_append.mp mem with old | new
    · exact not g old
    · rw [List.mem_singleton.mp new]
      exact fresh
  · refine .inr ⟨job,⟨i,h,who,?_,accepted⟩,holds⟩
    rw [List.getElem?_append_left (List.getElem?_eq_some_iff.mp at_).1]
    exact at_

theorem stepInv (s : Server) (a : Action) (t : Server) (inv : Inv s) (ok : Action.Ok a)
    (stepped : step s a = some t) : Inv t := by
  have thorough : ∀ h ∈ t.handlers, Thorough t.token h := by
    refine eachHandler (fun r _ => newThorough s r) ?_ inv.thorough stepped
    rintro i e h h' rfl thorough moved
    exact nextThorough thorough ok moved
  cases stepCase stepped with
  | begin r act same =>
    subst same
    exact ⟨thorough,trackedBegin (by simp [newHandler]) inv.conf,
      trackedBegin (by simp [AddressWritten,Succeeded,newHandler]) inv.address⟩
  | advance i e h h' act at_ moved same =>
    subst act
    rw [stepToken stepped] at thorough
    subst same
    exact advanceInv inv ok at_ moved thorough
  | server shutdown same =>
    subst same
    exact ⟨inv.thorough,inv.conf,inv.address⟩

theorem initialInv {s} (initial : Initial s) : Inv s := by
  obtain ⟨_,_,none,confBy,addressBy⟩ := initial
  exact ⟨by simp [none],.inl ⟨confBy,by simp [none]⟩,.inl ⟨addressBy,by simp [none]⟩⟩

def Accepted (s : Server) (job : Job) : Prop := ∃ h ∈ s.handlers, judge s.token h.request = .accepted job

def AllFinished (s : Server) : Prop := ∀ h ∈ s.handlers, h.place = .finished

def Together (s : Server) : Prop :=
  ∃ job, Accepted s job ∧ s.files confPath = some job.converted ∧
    s.files addressPath = some (job.address ++ ['\n'])

def together (s : Server) : Bool :=
  s.handlers.any (fun h => match judge s.token h.request with
    | .accepted job => s.files confPath == some job.converted &&
        s.files addressPath == some (job.address ++ ['\n'])
    | _ => false)

theorem togetherDecided {s : Server} (whole : Together s) : together s = true := by
  obtain ⟨job,⟨h,mem,accepted⟩,conf,address⟩ := whole
  refine List.any_eq_true.mpr ⟨h,mem,?_⟩
  simp [accepted,conf,address]

theorem fineOk {i : Nat} {steps : Nat} : ∀ a ∈ List.replicate steps (Action.advance i fine), Action.Ok a := by
  intro a mem
  rw [(List.mem_replicate.mp mem).2]
  rfl

def inTurn : List Action := served 0 goodRequest 8 ++ served 1 otherRequest 8

/- Both uploads are past their backups; the second one writes its two files between the two
writes of the first. -/
def overtaken : List Action :=
  [.begin goodRequest,.begin otherRequest] ++ List.replicate 5 (.advance 0 fine) ++
    List.replicate 8 (.advance 1 fine) ++ List.replicate 3 (.advance 0 fine)

end WebosWireguard.UploadPairs
