import Mathlib.Logic.Function.Basic
import WebosWireguard.TransitionRun

/-! operation.lock as start.sh and stop.sh take and release it. Both scripts carry the
same acquire_operation_lock; only the commands between it and the exit trap differ, and
they do not touch the lock. A process may be killed at any step and then runs no trap.
What the holder does with the tunnel is not part of this model. -/
namespace WebosWireguard.OperationLock
open TransitionRun

abbrev Pid := Nat

inductive Place where
  | absent
  | firstMkdir
  | firstPid
  | readPid
  | killZero (lockPid : Option Pid)
  | takeover
  | secondMkdir
  | secondPid
  | holding
  | ended
  deriving DecidableEq, Repr

def Place.alive : Place → Bool
  | .absent | .ended => false
  | _ => true

/- The directory, once made, and what its pid file holds, once written. -/
structure State where
  place : Pid → Place
  lock : Option (Option Pid)

def State.move (s : State) (p : Pid) (next : Place) : State :=
  {s with place := Function.update s.place p next}

inductive Action where
  | launch (p : Pid)
  | advance (p : Pid) (reused : Bool)
  | die (p : Pid)
  deriving DecidableEq, Repr

/- `reused` says that a process foreign to the scripts now has the recorded pid, so
that kill -0 succeeds although no script runs under it. -/
def advance (s : State) (p : Pid) (reused : Bool) : Option State :=
  match s.place p with
  | .absent | .ended => none
  | .firstMkdir =>
    if s.lock.isNone then some ({s with lock := some none}.move p .firstPid)
    else some (s.move p .readPid)
  | .firstPid | .secondPid =>
    -- the redirection fails under set -e when the directory is gone again
    if s.lock.isSome then some ({s with lock := some (some p)}.move p .holding)
    else some (s.move p .ended)
  | .readPid => some (s.move p (.killZero s.lock.join))
  | .killZero none => some (s.move p .takeover)
  | .killZero (some q) =>
    if (s.place q).alive || reused then some (s.move p .ended) else some (s.move p .takeover)
  | .takeover => some ({s with lock := none}.move p .secondMkdir)
  | .secondMkdir =>
    if s.lock.isNone then some ({s with lock := some none}.move p .secondPid)
    else some (s.move p .ended)
  | .holding => some ({s with lock := none}.move p .ended)

def step (s : State) : Action → Option State
  | .launch p => if (s.place p).alive then none else some (s.move p .firstMkdir)
  | .advance p reused => advance s p reused
  | .die p => if (s.place p).alive then some (s.move p .ended) else none

def Initial (s : State) : Prop := ∀ p, s.place p = .absent

def MutuallyExclusive (s : State) : Prop :=
  ∀ p q, s.place p = .holding → s.place q = .holding → p = q

def Owns : Place → Prop
  | .firstPid | .secondPid | .holding => True
  | _ => False
instance (place) : Decidable (Owns place) := by unfold Owns; split <;> infer_instance

/-- The takeover's rm -rf is run only when no live process made the directory it deletes. -/
def OwnerSpared (s : State) : Action → Prop
  | .advance p _ => s.place p = .takeover → ∀ q, ¬ Owns (s.place q)
  | _ => True

structure Inv (s : State) : Prop where
  unique : ∀ p q, Owns (s.place p) → Owns (s.place q) → p = q
  present : ∀ p, Owns (s.place p) → s.lock.isSome = true

theorem initialInv {s} (initial : Initial s) : Inv s :=
  ⟨fun p _ owns => by simp [initial p,Owns] at owns,fun p owns => by simp [initial p,Owns] at owns⟩

theorem ownsMove {s : State} {p next q} (owns : Owns ((s.move p next).place q)) :
    (q = p ∧ Owns next) ∨ (q ≠ p ∧ Owns (s.place q)) := by
  by_cases same : q = p
  · subst same
    exact .inl ⟨rfl,by simpa [State.move] using owns⟩
  · exact .inr ⟨same,by simpa [State.move,Function.update_of_ne same] using owns⟩

theorem moveOut {s : State} {p next} (inv : Inv s) (out : ¬ Owns next) : Inv (s.move p next) where
  unique a b ha hb := by
    rcases ownsMove ha with ⟨_,h⟩ | ⟨_,ha⟩
    · exact absurd h out
    rcases ownsMove hb with ⟨_,h⟩ | ⟨_,hb⟩
    · exact absurd h out
    exact inv.unique a b ha hb
  present a ha := by
    rcases ownsMove ha with ⟨_,h⟩ | ⟨_,ha⟩
    · exact absurd h out
    exact inv.present a ha

theorem moveIn {s : State} {p next} (content : Option Pid)
    (alone : ∀ q, q ≠ p → ¬ Owns (s.place q)) : Inv ({s with lock := some content}.move p next) where
  unique a b ha hb := by
    rcases ownsMove ha with ⟨ha,_⟩ | ⟨ne,ha⟩
    · rcases ownsMove hb with ⟨hb,_⟩ | ⟨ne,hb⟩
      · exact ha.trans hb.symm
      · exact absurd hb (alone b ne)
    · exact absurd ha (alone a ne)
  present _ _ := rfl

theorem moveAway {s : State} {p next} (out : ¬ Owns next)
    (alone : ∀ q, q ≠ p → ¬ Owns (s.place q)) : Inv ({s with lock := none}.move p next) where
  unique a b ha _ := by
    rcases ownsMove ha with ⟨_,h⟩ | ⟨ne,ha⟩
    · exact absurd h out
    · exact absurd ha (alone a ne)
  present a ha := by
    rcases ownsMove ha with ⟨_,h⟩ | ⟨ne,ha⟩
    · exact absurd h out
    · exact absurd ha (alone a ne)

theorem unownedWhenFree {s} (inv : Inv s) (free : s.lock.isNone = true) (q : Pid) :
    ¬ Owns (s.place q) := by
  intro owns
  have present := inv.present q owns
  cases h : s.lock <;> simp [h] at free present

theorem aloneWhenOwning {s p} (inv : Inv s) (owns : Owns (s.place p)) (q : Pid) (ne : q ≠ p) :
    ¬ Owns (s.place q) :=
  fun other => ne (inv.unique q p other owns)

theorem writePid {s t p} (inv : Inv s) (owns : Owns (s.place p))
    (stepped : (if s.lock.isSome then some ({s with lock := some (some p)}.move p .holding)
      else some (s.move p .ended)) = some t) : Inv t := by
  split at stepped
  · cases Option.some.inj stepped
    exact moveIn (some p) (aloneWhenOwning inv owns)
  · cases Option.some.inj stepped
    exact moveOut inv (by simp [Owns])

theorem advancePreserves {s p reused t} (inv : Inv s) (spared : OwnerSpared s (.advance p reused))
    (stepped : advance s p reused = some t) : Inv t := by
  unfold advance at stepped
  cases at_ : s.place p with
  | absent => simp [at_] at stepped
  | ended => simp [at_] at stepped
  | firstMkdir | secondMkdir =>
    simp only [at_] at stepped
    split at stepped
    · rename_i free
      cases Option.some.inj stepped
      exact moveIn none (fun q _ => unownedWhenFree inv free q)
    · cases Option.some.inj stepped
      exact moveOut inv (by simp [Owns])
  | firstPid | secondPid =>
    simp only [at_] at stepped
    exact writePid inv (by simp [at_,Owns]) stepped
  | readPid =>
    simp only [at_] at stepped
    cases Option.some.inj stepped
    exact moveOut inv (by simp [Owns])
  | killZero lockPid =>
    cases lockPid with
    | none =>
      simp only [at_] at stepped
      cases Option.some.inj stepped
      exact moveOut inv (by simp [Owns])
    | some q =>
      simp only [at_] at stepped
      split at stepped <;> cases Option.some.inj stepped <;> exact moveOut inv (by simp [Owns])
  | takeover =>
    simp only [at_] at stepped
    cases Option.some.inj stepped
    exact moveAway (by simp [Owns]) (fun q _ => spared at_ q)
  | holding =>
    simp only [at_] at stepped
    cases Option.some.inj stepped
    exact moveAway (by simp [Owns]) (aloneWhenOwning inv (by simp [at_,Owns]))

theorem moveSelf (s : State) (p next) : (s.move p next).place p = next := by
  simp [State.move]

theorem moveOthers (s : State) (p next) {q} (ne : q ≠ p) : (s.move p next).place q = s.place q := by
  simp [State.move,Function.update_of_ne ne]

theorem advanceOthers {s p reused t} (stepped : advance s p reused = some t) {q} (ne : q ≠ p) :
    t.place q = s.place q := by
  unfold advance at stepped
  split at stepped
  all_goals first
    | contradiction
    | (cases Option.some.inj stepped; exact moveOthers _ p _ ne)
    | (split at stepped <;> (cases Option.some.inj stepped; exact moveOthers _ p _ ne))

/- Only a successful mkdir makes an owner, and only an owner comes to hold the lock. -/
theorem advanceOwn {s p reused t} (stepped : advance s p reused = some t) :
    t.place p ≠ .absent ∧ (t.place p = .holding → Owns (s.place p)) ∧
      (Owns (t.place p) → Owns (s.place p) ∨
        ((s.place p = .firstMkdir ∨ s.place p = .secondMkdir) ∧ s.lock = none)) := by
  unfold advance at stepped
  cases at_ : s.place p with
  | absent => simp [at_] at stepped
  | ended => simp [at_] at stepped
  | firstMkdir | secondMkdir =>
    simp only [at_] at stepped
    split at stepped
    · rename_i free
      cases Option.some.inj stepped
      simpa [moveSelf,Owns] using free
    · cases Option.some.inj stepped
      simp [moveSelf,Owns]
  | firstPid | secondPid =>
    simp only [at_] at stepped
    split at stepped <;> cases Option.some.inj stepped <;> simp [moveSelf,Owns]
  | killZero lockPid =>
    cases lockPid with
    | none =>
      simp only [at_] at stepped
      cases Option.some.inj stepped
      simp [moveSelf,Owns]
    | some q =>
      simp only [at_] at stepped
      split at stepped <;> cases Option.some.inj stepped <;> simp [moveSelf,Owns]
  | readPid | takeover | holding =>
    simp only [at_] at stepped
    cases Option.some.inj stepped
    simp [moveSelf,Owns]

theorem stepPreserves (s : State) (a : Action) (t : State) (inv : Inv s) (spared : OwnerSpared s a)
    (stepped : step s a = some t) : Inv t := by
  cases a with
  | advance p reused => exact advancePreserves inv spared stepped
  | launch p | die p =>
    simp only [step] at stepped
    split at stepped <;> try contradiction
    cases Option.some.inj stepped
    exact moveOut inv (by simp [Owns])

theorem invExclusive {s} (inv : Inv s) : MutuallyExclusive s :=
  fun p q hp hq => inv.unique p q (by simp [hp,Owns]) (by simp [hq,Owns])

def idle (lock : Option (Option Pid)) : State := ⟨fun _ => .absent,lock⟩

def staleTakeover : List Action := .launch 1 :: List.replicate 6 (.advance 1 false)

/- Conversely, from any state in which the takeover is about to delete a live owner's
directory, both processes can go on into the critical section. -/
theorem unsparedOwnerReachesOverlap {s p q} (taking : s.place p = .takeover)
    (owner : Owns (s.place q)) :
    ∃ actions t, run step s actions = some t ∧ t.place p = .holding ∧ t.place q = .holding := by
  have ne : q ≠ p := by
    intro same
    subst same
    simp [taking,Owns] at owner
  have kept : ∀ (s : State) next, (s.move p next).place q = s.place q :=
    fun s next => Function.update_of_ne ne _ _
  -- rm -rf, the second mkdir and the second pid bring p in; q then writes its pid if it must
  have enter : ∃ t, run step s [.advance p false,.advance p false,.advance p false] = some t ∧
      t.place p = .holding ∧ t.place q = s.place q ∧ t.lock = some (some p) := by
    let made := {s with lock := some (some p)}.move p .secondMkdir
    refine ⟨(made.move p .secondPid).move p .holding,?_,by simp [State.move],?_,rfl⟩
    · simp [run,step,advance,taking,State.move,made]
    · simp only [kept,made]
  obtain ⟨t,ran,inside,same,made⟩ := enter
  have other : t.place q = .holding ∨ t.place q = .firstPid ∨ t.place q = .secondPid := by
    rw [same]
    revert owner
    cases s.place q <;> simp [Owns]
  rcases other with here | early
  · exact ⟨_,t,ran,inside,here⟩
  · have last : step t (.advance q false) = some ({t with lock := some (some q)}.move q .holding) := by
      rcases early with h | h <;> simp [step,advance,h,made]
    refine ⟨List.replicate 3 (.advance p false) ++ [.advance q false],
      {t with lock := some (some q)}.move q .holding,?_,?_,?_⟩
    · rw [runAppend,show run step s (List.replicate 3 (.advance p false)) = some t from ran]
      simp [run,last]
    · simp [State.move,Function.update_of_ne ne.symm,inside]
    · simp [State.move]

end WebosWireguard.OperationLock
