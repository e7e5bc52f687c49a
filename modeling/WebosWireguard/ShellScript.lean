import Mathlib.Data.List.Basic

/-! Scripts run under `set -e`. `act` is a command whose failure ends the script, either
with no effect or halfway, as a redirection does that has truncated its file and cannot
write it. `either` is a command with a fallback, `tell` one that is taken to succeed, and
`ask` reads the state and decides how to go on. Shell variables are the bound variables
of the continuation. Signals and background jobs are not part of the language. -/
namespace WebosWireguard.ShellScript

inductive Script (σ α : Type) where
  | done (a : α)
  | abort
  | act (f broken : σ → σ) (next : Script σ α)
  | either (f fallback : σ → σ) (next : Script σ α)
  | tell (f : σ → σ) (next : Script σ α)
  | ask (k : σ → Script σ α)

variable {σ α β : Type}

namespace Script

def bind : Script σ α → (α → Script σ β) → Script σ β
  | done a,next => next a
  | abort,_ => abort
  | act f broken p,next => act f broken (p.bind next)
  | either f fallback p,next => either f fallback (p.bind next)
  | tell f p,next => tell f (p.bind next)
  | ask k,next => ask (fun s => (k s).bind next)

instance : Monad (Script σ) where
  pure := done
  bind := bind

def command (f : σ → σ) : Script σ Unit := act f id (done ())
def write (f truncated : σ → σ) : Script σ Unit := act f truncated (done ())
def orElse (f fallback : σ → σ) : Script σ Unit := either f fallback (done ())
def always (f : σ → σ) : Script σ Unit := tell f (done ())
def read (f : σ → α) : Script σ α := ask (fun s => done (f s))
def require (p : σ → Bool) : Script σ Unit := ask (fun s => if p s then done () else abort)

def forEach (body : β → Script σ Unit) : List β → Script σ Unit
  | [] => done ()
  | b::rest => (body b).bind (fun _ => forEach body rest)

end Script

inductive Fault where
  | none
  | clean
  | halfway
  deriving DecidableEq, Repr

inductive Outcome (σ α : Type) where
  | finished (a : α) (s : σ) (faults : List Fault)
  | aborted (s : σ)

def Outcome.state : Outcome σ α → σ
  | finished _ s _ => s
  | aborted s => s

def Outcome.Satisfies (Q : α → σ → Prop) (R : σ → Prop) : Outcome σ α → Prop
  | finished a s _ => Q a s
  | aborted s => R s

namespace Script

/- One fault entry for each command that may fail; an exhausted list means that the
remaining commands succeed. -/
def exec : Script σ α → List Fault → σ → Outcome σ α
  | done a,faults,s => .finished a s faults
  | abort,_,s => .aborted s
  | act f _ p,[],s => p.exec [] (f s)
  | act f _ p,.none::faults,s => p.exec faults (f s)
  | act _ _ _,.clean::_,s => .aborted s
  | act _ broken _,.halfway::_,s => .aborted (broken s)
  | either f _ p,[],s => p.exec [] (f s)
  | either f _ p,.none::faults,s => p.exec faults (f s)
  | either _ fallback p,_::faults,s => p.exec faults (fallback s)
  | tell f p,faults,s => p.exec faults (f s)
  | ask k,faults,s => (k s).exec faults s

theorem execBind (p : Script σ α) (next : α → Script σ β) (faults s) :
    (p >>= next).exec faults s =
      match p.exec faults s with
      | .finished a t rest => (next a).exec rest t
      | .aborted t => .aborted t := by
  change (p.bind next).exec faults s = _
  induction p generalizing faults s with
  | done a => rfl
  | abort => rfl
  | act f broken p ih =>
    match faults with
    | [] => exact ih [] (f s)
    | .none::rest => exact ih rest (f s)
    | .clean::_ | .halfway::_ => rfl
  | either f fallback p ih =>
    match faults with
    | [] => exact ih [] (f s)
    | .none::rest => exact ih rest (f s)
    | .clean::rest | .halfway::rest => exact ih rest (fallback s)
  | tell f p ih => exact ih faults (f s)
  | ask k ih => exact ih s faults s

theorem seqAssoc {γ : Type} (p : Script σ α) (f : α → Script σ β) (g : β → Script σ γ) :
    (p >>= f) >>= g = p >>= fun a => f a >>= g := by
  change (p.bind f).bind g = p.bind (fun a => (f a).bind g)
  induction p with
  | done a => rfl
  | abort => rfl
  | act f broken p ih => exact congrArg (act f broken) ih
  | either f fallback p ih => exact congrArg (either f fallback) ih
  | tell f p ih => exact congrArg (tell f) ih
  | ask k ih => exact congrArg ask (funext ih)

theorem pureSeq (a : α) (f : α → Script σ β) : (pure a >>= f) = f a := rfl

/- What is left of the faults when the next command succeeds. -/
def spend : List Fault → Option (List Fault)
  | [] => some []
  | .none::rest => some rest
  | _::_ => none

theorem commandExec (f : σ → σ) (next : Unit → Script σ α) (faults s) :
    (command f >>= next).exec faults s =
      match spend faults with
      | some rest => (next ()).exec rest (f s)
      | none => .aborted s := by
  change (act f id (next ())).exec faults s = _
  match faults with
  | [] => rfl
  | .none::_ => rfl
  | .clean::_ => rfl
  | .halfway::_ => rfl

theorem finishedBind {p : Script σ α} {next : α → Script σ β} {faults rest s b t}
    (ran : (p >>= next).exec faults s = .finished b t rest) :
    ∃ a u left, p.exec faults s = .finished a u left ∧ (next a).exec left u = .finished b t rest := by
  rw [execBind] at ran
  cases first : p.exec faults s with
  | aborted u => simp [first] at ran
  | finished a u left =>
    rw [first] at ran
    exact ⟨a,u,left,rfl,ran⟩

/- No fault is left over where none was planned. -/
theorem finishedCalm {p : Script σ α} {s a t rest} (ran : p.exec [] s = .finished a t rest) : rest = [] := by
  induction p generalizing s with
  | done b =>
    cases ran
    rfl
  | abort => contradiction
  | act f broken p ih => exact ih ran
  | either f fallback p ih => exact ih ran
  | tell f p ih => exact ih ran
  | ask k ih => exact ih s ran

/-- Every way of finishing meets `Q` and every way of being cut short meets `R`. -/
def wp : Script σ α → (α → σ → Prop) → (σ → Prop) → σ → Prop
  | done a,Q,_,s => Q a s
  | abort,_,R,s => R s
  | act f broken p,Q,R,s => R s ∧ R (broken s) ∧ p.wp Q R (f s)
  | either f fallback p,Q,R,s => p.wp Q R (f s) ∧ p.wp Q R (fallback s)
  | tell f p,Q,R,s => p.wp Q R (f s)
  | ask k,Q,R,s => (k s).wp Q R s

theorem wpExec {p : Script σ α} {Q R s} (h : p.wp Q R s) (faults : List Fault) :
    (p.exec faults s).Satisfies Q R := by
  induction p generalizing s faults with
  | done a => exact h
  | abort => exact h
  | act f broken p ih =>
    match faults with
    | [] => exact ih h.2.2 []
    | .none::rest => exact ih h.2.2 rest
    | .clean::_ => exact h.1
    | .halfway::_ => exact h.2.1
  | either f fallback p ih =>
    match faults with
    | [] => exact ih h.1 []
    | .none::rest => exact ih h.1 rest
    | .clean::rest => exact ih h.2 rest
    | .halfway::rest => exact ih h.2 rest
  | tell f p ih => exact ih h faults
  | ask k ih => exact ih s h faults

/- One command at a time, for scripts that run beside others. `done` and `abort` are left to
whoever runs the script, as its exit trap is. -/
def advance : Script σ α → Fault → σ → Option (Script σ α × σ)
  | done _,_,_ => none
  | abort,_,_ => none
  | act f _ p,.none,s => some (p,f s)
  | act _ _ _,.clean,s => some (abort,s)
  | act _ broken _,.halfway,s => some (abort,broken s)
  | either f _ p,.none,s => some (p,f s)
  | either _ fallback p,_,s => some (p,fallback s)
  | tell f p,_,s => some (p,f s)
  | ask k,_,s => some (k s,s)

theorem wpAdvance {p q : Script σ α} {Q R fault s t} (h : p.wp Q R s) (stepped : p.advance fault s = some (q,t)) :
    q.wp Q R t := by
  cases p with
  | done a => contradiction
  | abort => contradiction
  | act f broken p =>
    cases fault with
    | none =>
      cases Option.some.inj stepped
      exact h.2.2
    | clean =>
      cases Option.some.inj stepped
      exact h.1
    | halfway =>
      cases Option.some.inj stepped
      exact h.2.1
  | either f fallback p =>
    cases fault with
    | none =>
      cases Option.some.inj stepped
      exact h.1
    | clean | halfway =>
      cases Option.some.inj stepped
      exact h.2
  | tell f p =>
    cases Option.some.inj stepped
    exact h
  | ask k =>
    cases Option.some.inj stepped
    exact h

theorem wpAdvanceNone {p : Script σ α} {Q R fault s} (h : p.wp Q R s) (ended : p.advance fault s = none) :
    (∃ a, p = .done a ∧ Q a s) ∨ (p = .abort ∧ R s) := by
  cases p with
  | done a => exact .inl ⟨a,rfl,h⟩
  | abort => exact .inr ⟨rfl,h⟩
  | act => cases fault <;> contradiction
  | either => cases fault <;> contradiction
  | tell | ask => contradiction

theorem wpMono {p : Script σ α} {Q Q' : α → σ → Prop} {R R' : σ → Prop} {s}
    (h : p.wp Q R s) (normal : ∀ a t, Q a t → Q' a t) (cut : ∀ t, R t → R' t) :
    p.wp Q' R' s := by
  induction p generalizing s with
  | done a => exact normal a s h
  | abort => exact cut s h
  | act f broken p ih => exact ⟨cut s h.1,cut (broken s) h.2.1,ih h.2.2⟩
  | either f fallback p ih => exact ⟨ih h.1,ih h.2⟩
  | tell f p ih => exact ih h
  | ask k ih => exact ih s h

theorem wpAnd {p : Script σ α} {Q Q' : α → σ → Prop} {R R' : σ → Prop} {s}
    (left : p.wp Q R s) (right : p.wp Q' R' s) :
    p.wp (fun a t => Q a t ∧ Q' a t) (fun t => R t ∧ R' t) s := by
  induction p generalizing s with
  | done a => exact ⟨left,right⟩
  | abort => exact ⟨left,right⟩
  | act f broken p ih => exact ⟨⟨left.1,right.1⟩,⟨left.2.1,right.2.1⟩,ih left.2.2 right.2.2⟩
  | either f fallback p ih => exact ⟨ih left.1 right.1,ih left.2 right.2⟩
  | tell f p ih => exact ih left right
  | ask k ih => exact ih s left right

theorem wpBind (p : Script σ α) (next : α → Script σ β) (Q R s) :
    (p.bind next).wp Q R s ↔ p.wp (fun a t => (next a).wp Q R t) R s := by
  induction p generalizing s with
  | done a => exact Iff.rfl
  | abort => exact Iff.rfl
  | act f broken p ih => exact and_congr_right (fun _ => and_congr_right (fun _ => ih (f s)))
  | either f fallback p ih => exact and_congr (ih (f s)) (ih (fallback s))
  | tell f p ih => exact ih (f s)
  | ask k ih => exact ih s s

@[simp] theorem wpDone (a : α) (Q R) (s : σ) : (done a : Script σ α).wp Q R s ↔ Q a s := Iff.rfl
@[simp] theorem wpAbort (Q R) (s : σ) : (abort : Script σ α).wp Q R s ↔ R s := Iff.rfl
@[simp] theorem wpPure (a : α) (Q R) (s : σ) : (pure a : Script σ α).wp Q R s ↔ Q a s := Iff.rfl
@[simp] theorem wpSeq (p : Script σ α) (next : α → Script σ β) (Q R s) :
    (p >>= next).wp Q R s ↔ p.wp (fun a t => (next a).wp Q R t) R s := wpBind p next Q R s
@[simp] theorem wpCommand (f : σ → σ) (Q R s) :
    (command f).wp Q R s ↔ R s ∧ Q () (f s) := by simp [command,wp]
@[simp] theorem wpWrite (f truncated : σ → σ) (Q R s) :
    (write f truncated).wp Q R s ↔ R s ∧ R (truncated s) ∧ Q () (f s) := Iff.rfl
@[simp] theorem wpOrElse (f fallback : σ → σ) (Q R s) :
    (orElse f fallback).wp Q R s ↔ Q () (f s) ∧ Q () (fallback s) := Iff.rfl
@[simp] theorem wpAlways (f : σ → σ) (Q R s) : (always f).wp Q R s ↔ Q () (f s) := Iff.rfl
@[simp] theorem wpRead (f : σ → α) (Q R s) : (read f).wp Q R s ↔ Q (f s) s := Iff.rfl
@[simp] theorem wpRequire (p : σ → Bool) (Q R s) :
    (require p).wp Q R s ↔ if p s then Q () s else R s := by
  simp only [require,wp]
  split <;> rfl

theorem wpThen {p : Script σ α} {next : α → Script σ β} {M : α → σ → Prop} {Q R s}
    (first : p.wp M R s) (second : ∀ a t, M a t → (next a).wp Q R t) :
    (p >>= next).wp Q R s :=
  (wpSeq p next Q R s).mpr (wpMono first second (fun _ h => h))

/- Loop rule. `I rest` holds whenever `rest` is what remains to be visited. -/
theorem wpForEach {body : β → Script σ Unit} {I : List β → σ → Prop} {R : σ → Prop}
    (round : ∀ b rest s, I (b::rest) s → (body b).wp (fun _ t => I rest t) R s)
    {items s} (start : I items s) : (forEach body items).wp (fun _ t => I [] t) R s := by
  induction items generalizing s with
  | nil => exact start
  | cons b rest ih =>
    refine (wpBind _ _ _ _ _).mpr ?_
    exact wpMono (round b rest s start) (fun _ t ht => ih ht) (fun _ ht => ht)

def Keeps {γ : Type} (view : σ → γ) (p : Script σ α) : Prop :=
  ∀ s, p.wp (fun _ t => view t = view s) (fun t => view t = view s) s

section Keeps
variable {γ : Type} {view : σ → γ}

theorem keepsBind {p : Script σ α} {next : α → Script σ β}
    (first : Keeps view p) (second : ∀ a, Keeps view (next a)) : Keeps view (p >>= next) := by
  intro s
  refine wpThen (first s) (fun a t same => ?_)
  rw [← same]
  exact second a t

theorem keepsCommand {f : σ → σ} (same : ∀ s, view (f s) = view s) : Keeps view (command f) :=
  fun s => ⟨rfl,rfl,same s⟩

theorem keepsAlways {f : σ → σ} (same : ∀ s, view (f s) = view s) : Keeps view (always f) := same

theorem keepsRead (f : σ → α) : Keeps view (read f) := fun _ => rfl

theorem keepsForEach {body : β → Script σ Unit} (each : ∀ b, Keeps view (body b)) (items) :
    Keeps view (forEach body items) := by
  induction items with
  | nil => exact fun s => rfl
  | cons b rest ih => exact keepsBind (each b) (fun _ => ih)

theorem keepsFinished {p : Script σ α} (keeps : Keeps view p) (s) :
    p.wp (fun _ t => view t = view s) (fun _ => True) s :=
  wpMono (keeps s) (fun _ _ h => h) (fun _ _ => trivial)

theorem keepsExec {p : Script σ α} (keeps : Keeps view p) (faults s) :
    view (p.exec faults s).state = view s := by
  have h := wpExec (keeps s) faults
  revert h
  cases p.exec faults s <;> exact fun h => h

theorem keepsMap {δ : Type} {p : Script σ α} (keeps : Keeps view p) (f : γ → δ) :
    Keeps (fun s => f (view s)) p :=
  fun s => wpMono (keeps s) (fun _ _ same => congrArg f same) (fun _ same => congrArg f same)

end Keeps
end Script
end WebosWireguard.ShellScript
