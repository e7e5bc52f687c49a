import WebosWireguard.UploadServer

/-! The announced limits of the upload server, five wrong codes and one upload, under every
interleaving of its handlers with the delayed shutdown. Neither limit is checked by a
request that carries the right code, so each holds along the runs described here only. -/
namespace WebosWireguard.UploadLimits
open TextLines UploadHandler UploadServer TransitionRun

def LockedOut (s : Server) : Prop :=
  ∀ h ∈ s.handlers, maxFailedAttempts ≤ h.attemptsBefore → h.wroteConf = false

/- After the fifth wrong code only requests begin that the handler refuses by itself. -/
def RefusedAfterLockout (s : Server) : Action → Prop
  | .begin r => maxFailedAttempts ≤ s.failedAttempts → ¬ Acceptable s.token r
  | _ => True

def LateRefused (token : Text) (h : Handler) : Prop :=
  Sound token h ∧ (maxFailedAttempts ≤ h.attemptsBefore → ¬ Acceptable token h.request)

theorem newSound (s : Server) (r : Request) : Sound s.token (newHandler s r) :=
  ⟨fun job at_ => by simp [newHandler,Place.job?] at at_,fun wrote => by simp [newHandler] at wrote⟩

theorem lateRefusedStep (s : Server) (a : Action) (t : Server)
    (all : ∀ h ∈ s.handlers, LateRefused s.token h) (refused : RefusedAfterLockout s a)
    (stepped : step s a = some t) : ∀ h ∈ t.handlers, LateRefused t.token h := by
  refine eachHandler (P := LateRefused) ?_ ?_ all stepped
  · rintro r rfl
    exact ⟨newSound s r,refused⟩
  · intro i e h h' _ ⟨sound,late⟩ moved
    obtain ⟨request,before⟩ := nextRequest moved
    rw [LateRefused,request,before]
    exact ⟨nextSound sound moved,late⟩

theorem lockoutEffective {s t actions} (initial : Initial s) (ran : run step s actions = some t)
    (refused : Guarded step RefusedAfterLockout s actions) : LockedOut t := by
  have start : ∀ h ∈ s.handlers, LateRefused s.token h := by
    rw [initial.2.2.1]
    simp
  have all := runInvariant (I := fun s => ∀ h ∈ s.handlers, LateRefused s.token h)
    (fun s a t _ => lateRefusedStep s a t) start refused ran
  intro h mem late
  obtain ⟨sound,never⟩ := all h mem
  by_contra wrote
  exact never late (sound.wrote (by simpa using wrote))

/- Conversely the counter stops no acceptable request: it can be stored as long as the
process has not ended. -/
theorem acceptableCanBeStored {s : Server} {r job} (running : s.shutdown ≠ .exited)
    (accepted : judge s.token r = .accepted job) (ts : Stamp) :
    ∃ actions t, run step s (.begin r::actions) = some t ∧ t.files confPath = some job.converted := by
  obtain ⟨effects,t,h,ran,_,_,_,files⟩ := handlerAlone running ⟨none,none,ts,.ok,.ok,.ok⟩ r
  refine ⟨_,t,ran,?_⟩
  rw [files]
  simp [upload,accepted,store,storeBackup,storeConf,storeAddress,Write.apply,pathsApart]

def sampleServer : Server := ⟨sampleToken,0,.none,fun _ => none,[],none,none⟩

def fine : Effect := ⟨none,none,sampleStamp⟩

def served (i : Nat) (r : Request) (steps : Nat) : List Action :=
  .begin r::List.replicate steps (.advance i fine)

def wrongRequest : Request := ⟨true,[],[],some ⟨"00000000".toList,none⟩⟩

def goodRequest : Request := sampleRequest "k".toList "10.0.0.2".toList

def fourWrong : List Action :=
  served 0 wrongRequest 3 ++ served 1 wrongRequest 3 ++ served 2 wrongRequest 3 ++ served 3 wrongRequest 3

def beginsEarly (s : Server) : Action → Bool
  | .begin _ => s.failedAttempts < maxFailedAttempts
  | _ => true

theorem fourWrongCodesAllowed :
    ∃ t, run step sampleServer (fourWrong ++ served 4 goodRequest 5) = some t ∧
      t.failedAttempts = 4 ∧ LockedOut t := by
  have sound : ∀ s a, beginsEarly s a = true → RefusedAfterLockout s a := by
    intro s a early
    cases a with
    | begin r =>
      intro full
      simp only [beginsEarly,decide_eq_true_eq] at early
      exact absurd early (by omega)
    | _ => trivial
  exact ⟨_,rfl,rfl,@lockoutEffective sampleServer _ (fourWrong ++ served 4 goodRequest 5)
    ⟨rfl,rfl,rfl,rfl,rfl⟩ rfl (guardedOfChecks sound (by decide))⟩

/- The fifth wrong code has been answered; the right one still comes before the sleep ends. -/
theorem lateUploadStored :
    ¬ ∀ s actions t, Initial s → run step s actions = some t → LockedOut t := by
  intro every
  have locked := every sampleServer
    (fourWrong ++ served 4 wrongRequest 4 ++ served 5 goodRequest 5) _ ⟨rfl,rfl,rfl,rfl,rfl⟩ rfl
  exact absurd locked (by unfold LockedOut; decide)

def Succeeded (h : Handler) : Prop := ∃ lang backup address, h.answer = some (.success lang backup address)

def Served (h : Handler) : Prop := Succeeded h ∧ h.wroteConf = true

def AtMostOne (P : Handler → Prop) (handlers : List Handler) : Prop :=
  ∀ (i j : Nat) g h, handlers[i]? = some g → handlers[j]? = some h → P g → P h → i = j

def OneUpload (s : Server) : Prop := AtMostOne Served s.handlers

def Committed (h : Handler) : Prop := h.place.job?.isSome = true ∨ Succeeded h

/- A request passes the checks only while no other is being stored or has been. -/
def AcceptedAlone (s : Server) : Action → Prop
  | .advance i _ => ∀ h, s.handlers[i]? = some h → h.place = .begun → Acceptable s.token h.request →
      ∀ g ∈ s.handlers, ¬ Committed g
  | _ => True

theorem atMostOneConcat {P : Handler → Prop} {handlers x} (one : AtMostOne P handlers) (not : ¬ P x) :
    AtMostOne P (handlers ++ [x]) := by
  have old : ∀ (i : Nat) g, (handlers ++ [x])[i]? = some g → P g → handlers[i]? = some g := by
    intro i g at_ holds
    rcases Nat.lt_or_ge i handlers.length with inside | outside
    · rwa [List.getElem?_append_left inside] at at_
    · rw [List.getElem?_append_right outside] at at_
      obtain rfl := List.mem_singleton.mp (List.mem_of_getElem? at_)
      exact absurd holds not
  intro i j g h atG atH hg hh
  exact one i j g h (old i g atG hg) (old j h atH hh) hg hh

theorem atMostOneSet {P : Handler → Prop} {handlers : List Handler} {i : Nat} {h h'}
    (one : AtMostOne P handlers) (at_ : handlers[i]? = some h)
    (came : P h' → P h ∨ ∀ g ∈ handlers, ¬ P g) : AtMostOne P (handlers.set i h') := by
  -- a handler elsewhere than i is an old one, and then the one at i has nothing new
  have other : ∀ (j : Nat) g, j ≠ i → (handlers.set i h')[j]? = some g → P g → P h' → j = i := by
    intro j g ne atG hg hh
    rw [List.getElem?_set_ne ne.symm] at atG
    rcases came hh with before | none
    · exact one j i g h atG at_ hg before
    · exact absurd hg (none g (List.mem_of_getElem? atG))
  have here : ∀ g, (handlers.set i h')[i]? = some g → g = h' := by
    intro g atG
    rw [List.getElem?_set_self (List.getElem?_eq_some_iff.mp at_).1] at atG
    exact (Option.some.inj atG).symm
  intro j k f g atF atG hf hg
  by_cases left : j = i
  · by_cases right : k = i
    · rw [left,right]
    · rw [left] at atF
      rw [here f atF] at hf
      exact left.trans (other k g right atG hg hf).symm
  · by_cases right : k = i
    · rw [right] at atG
      rw [here g atG] at hg
      exact (other j f left atF hf hg).trans right.symm
    · rw [List.getElem?_set_ne (Ne.symm left)] at atF
      rw [List.getElem?_set_ne (Ne.symm right)] at atG
      exact one j k f g atF atG hf hg

theorem errorNotSucceeded {h : Handler} {answer} (said : h.answer = some answer) (bad : answer.IsError) :
    ¬ Succeeded h := by
  intro given
  obtain ⟨lang,backup,address,success⟩ := given
  cases Option.some.inj (said.symm.trans success)
  exact bad

theorem nextCommitted {token attempts e} {h h' : Handler} (moved : h.next token attempts e = some h')
    (now : Committed h') : Committed h ∨ (h.place = .begun ∧ Acceptable token h.request) := by
  cases nextCase moved with
  | refuse answer at_ judged same =>
    subst same
    rcases now with into | success
    · simp [Handler.reply,Place.job?] at into
    · exact absurd success (errorNotSucceeded rfl (refusedIsError judged))
  | wrong lang at_ judged same =>
    subst same
    rcases now with into | success
    · simp [Handler.go,Place.job?] at into
    · exact .inl (.inr success)
  | accept job at_ judged same => exact .inr ⟨at_,job,judged⟩
  | count lang locked at_ same =>
    subst same
    rcases now with into | success
    · simp [Handler.go,Place.job?] at into
    · exact .inl (.inr success)
  | turnAway lang locked at_ same =>
    subst same
    rcases now with into | success
    · cases locked <;> simp [Handler.reply,Place.job?] at into
    · exact absurd success (errorNotSucceeded rfl (by cases locked <;> trivial))
  | prepare job place at_ into later same => exact .inl (.inl (by rw [at_]; rfl))
  | conf job backup at_ same => exact .inl (.inl (by rw [at_]; rfl))
  | address job backup at_ same => exact .inl (.inl (by rw [at_]; rfl))
  | respond job backup at_ same => exact .inl (.inl (by rw [at_]; rfl))
  | leave at_ same =>
    subst same
    rcases now with into | success
    · simp [Handler.go,Place.job?] at into
    · exact .inl (.inr success)

theorem oneCommittedStep (s : Server) (a : Action) (t : Server) (one : AtMostOne Committed s.handlers)
    (alone : AcceptedAlone s a) (stepped : step s a = some t) : AtMostOne Committed t.handlers := by
  cases stepCase stepped with
  | begin r act same =>
    rw [same]
    exact atMostOneConcat one (by simp [Committed,Succeeded,newHandler,Place.job?])
  | advance i e h h' act at_ moved same =>
    rw [same]
    refine atMostOneSet one at_ (fun now => ?_)
    rcases nextCommitted moved now with before | ⟨begun,acceptable⟩
    · exact .inl before
    · subst act
      exact .inr (alone h at_ begun acceptable)
  | server shutdown same =>
    rw [same]
    exact one

theorem oneUploadWhenAlone {s t actions} (initial : Initial s) (ran : run step s actions = some t)
    (alone : Guarded step AcceptedAlone s actions) : OneUpload t := by
  have start : AtMostOne Committed s.handlers := by
    rw [initial.2.2.1]
    intro i j g h atG
    simp at atG
  have one := runInvariant (I := fun s => AtMostOne Committed s.handlers)
    (fun s a t _ => oneCommittedStep s a t) start alone ran
  intro i j g h atG atH hg hh
  exact one i j g h atG atH (.inr hg.1) (.inr hh.1)

def otherRequest : Request := sampleRequest "j".toList "10.0.0.3".toList

def full : Effect := ⟨some "no space left on device".toList,none,sampleStamp⟩

def uncommitted (h : Handler) : Bool :=
  h.place.job?.isNone && match h.answer with | some (.success _ _ _) => false | _ => true

def acceptsAlone (s : Server) : Action → Bool
  | .advance i _ => (s.handlers[i]?).all (fun h => h.place ≠ .begun || s.handlers.all uncommitted)
  | _ => true

theorem acceptsAloneSound (s : Server) (a : Action) (alone : acceptsAlone s a = true) : AcceptedAlone s a := by
  cases a with
  | advance i e =>
    intro h at_ begun _ g mem
    simp only [acceptsAlone,at_,Option.all_some,begun,ne_eq,not_true,decide_false,Bool.false_or,
      List.all_eq_true] at alone
    have free := alone g mem
    simp only [uncommitted,Bool.and_eq_true] at free
    intro given
    rcases given with job | ⟨lang,backup,address,success⟩
    · simp [Option.isNone_iff_eq_none.mp free.1] at job
    · simp [success] at free
  | _ => trivial

theorem uploadAfterFailedOne :
    ∃ t, run step sampleServer (served 0 goodRequest 4 ++ [.advance 0 full] ++ served 1 otherRequest 8) =
      some t ∧ OneUpload t :=
  ⟨_,rfl,@oneUploadWhenAlone sampleServer _
    (served 0 goodRequest 4 ++ [.advance 0 full] ++ served 1 otherRequest 8)
    ⟨rfl,rfl,rfl,rfl,rfl⟩ rfl (guardedOfChecks acceptsAloneSound (by decide))⟩

/- The second upload comes while the server sleeps before its shutdown. -/
theorem secondUploadServed :
    ¬ ∀ s actions t, Initial s → run step s actions = some t → OneUpload t := by
  intro every
  have one := every sampleServer (served 0 goodRequest 8 ++ served 1 otherRequest 8) _
    ⟨rfl,rfl,rfl,rfl,rfl⟩ rfl
  have same := one 0 1 _ _ rfl rfl ⟨⟨_,_,_,rfl⟩,rfl⟩ ⟨⟨_,_,_,rfl⟩,rfl⟩
  exact absurd same (by decide)

end WebosWireguard.UploadLimits
