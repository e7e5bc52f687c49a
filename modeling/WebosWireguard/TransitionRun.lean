import Mathlib.Data.List.Basic

/-! Finite runs of a step function that may refuse an action. A run is refused as
soon as one of its actions is. Nothing is said about fairness or infinite runs. -/
namespace WebosWireguard.TransitionRun

variable {S A : Type}

def run (step : S → A → Option S) : S → List A → Option S
  | s,[] => some s
  | s,a::rest => (step s a).bind (fun t => run step t rest)

/- The condition is read in the state before each step, never after it. -/
def Guarded (step : S → A → Option S) (ok : S → A → Prop) : S → List A → Prop
  | _,[] => True
  | s,a::rest => ok s a ∧ ∀ t, step s a = some t → Guarded step ok t rest

theorem guardedTrivial {step : S → A → Option S} {s actions} :
    Guarded step (fun _ _ => True) s actions := by
  induction actions generalizing s with
  | nil => trivial
  | cons a rest ih => exact ⟨trivial,fun t _ => ih⟩

def checks (step : S → A → Option S) (ok : S → A → Bool) : S → List A → Bool
  | _,[] => true
  | s,a::rest => ok s a && (step s a).all (fun t => checks step ok t rest)

theorem guardedOfChecks {step : S → A → Option S} {ok : S → A → Bool} {guard : S → A → Prop}
    (sound : ∀ s a, ok s a = true → guard s a) {s actions} (passed : checks step ok s actions = true) :
    Guarded step guard s actions := by
  induction actions generalizing s with
  | nil => trivial
  | cons a rest ih =>
    simp only [checks,Bool.and_eq_true] at passed
    refine ⟨sound s a passed.1,fun t ht => ih ?_⟩
    simpa [ht] using passed.2

theorem runCons {step : S → A → Option S} {s a rest u}
    (ran : run step s (a::rest) = some u) :
    ∃ t, step s a = some t ∧ run step t rest = some u :=
  Option.bind_eq_some_iff.mp ran

theorem runAppend (step : S → A → Option S) (s : S) (left right : List A) :
    run step s (left ++ right) = (run step s left).bind (fun t => run step t right) := by
  induction left generalizing s with
  | nil => rfl
  | cons a rest ih =>
    simp only [List.cons_append,run]
    cases step s a with
    | none => rfl
    | some t => exact ih t

theorem guardedAppend {step : S → A → Option S} {ok : S → A → Prop} {s t left right}
    (guarded : Guarded step ok s (left ++ right)) (ran : run step s left = some t) :
    Guarded step ok s left ∧ Guarded step ok t right := by
  induction left generalizing s with
  | nil =>
    cases Option.some.inj ran
    exact ⟨trivial,guarded⟩
  | cons a rest ih =>
    obtain ⟨u,hu,later⟩ := runCons ran
    obtain ⟨head,tail⟩ := guarded
    refine ⟨⟨head,?_⟩,(ih (tail u hu) later).2⟩
    intro v hv
    cases Option.some.inj (hu.symm.trans hv)
    exact (ih (tail u hu) later).1

theorem runInvariant {step : S → A → Option S} {ok : S → A → Prop} {I : S → Prop} {actions}
    (preserved : ∀ s a t, a ∈ actions → I s → ok s a → step s a = some t → I t)
    {s t} (start : I s) (guarded : Guarded step ok s actions)
    (ran : run step s actions = some t) : I t := by
  induction actions generalizing s with
  | nil =>
    cases Option.some.inj ran
    exact start
  | cons a rest ih =>
    obtain ⟨u,hu,later⟩ := runCons ran
    have here := preserved s a u (by simp) start guarded.1 hu
    exact ih (fun s b t mem => preserved s b t (List.mem_cons_of_mem a mem)) here (guarded.2 u hu) later

/-- Where one step preserves the invariant exactly under a condition, every state of a run
has it exactly when every step of the run meets the condition. -/
theorem runInvariantIff {step : S → A → Option S} {ok : S → A → Prop} {I : S → Prop} {actions}
    (exact : ∀ s a, a ∈ actions → I s → (ok s a ↔ ∀ t, step s a = some t → I t))
    {s} (start : I s) :
    (∀ left right t, actions = left ++ right → run step s left = some t → I t) ↔
      Guarded step ok s actions := by
  induction actions generalizing s with
  | nil =>
    refine ⟨fun _ => trivial,fun _ left right t split ran => ?_⟩
    obtain ⟨rfl,_⟩ := List.nil_eq_append_iff.mp split
    cases Option.some.inj ran
    exact start
  | cons a rest ih =>
    have tail : ∀ s b, b ∈ rest → I s → (ok s b ↔ ∀ t, step s b = some t → I t) :=
      fun s b mem => exact s b (List.mem_cons_of_mem a mem)
    constructor
    · intro every
      have next : ∀ t, step s a = some t → I t := by
        intro t ht
        exact every [a] rest t rfl (by simp [run,ht])
      refine ⟨(exact s a (by simp) start).mpr next,fun t ht => (ih tail (next t ht)).mp ?_⟩
      intro left right u split ran
      exact every (a::left) right u (by simp [split]) (by simpa [run,ht] using ran)
    · rintro ⟨head,later⟩ left right t split ran
      cases left with
      | nil =>
        cases Option.some.inj ran
        exact start
      | cons b left =>
        obtain ⟨same,parts⟩ := List.cons.inj split
        subst same
        obtain ⟨u,hu,ran⟩ := runCons ran
        exact (ih tail ((exact s a (by simp) start).mp head u hu)).mpr (later u hu) left right t parts ran

end WebosWireguard.TransitionRun
