import WebosWireguard.TransitionRun

/-! Machines followed by a specification: one that answers every call and gives the same
answers, and one that might refuse an action but never does. Calls come one after the other. -/
namespace WebosWireguard.OutputRun
open TransitionRun

variable {S T A B : Type}

def outputs (step : S → A → B × S) : S → List A → List B
  | _,[] => []
  | s,a::rest => (step s a).1::outputs step (step s a).2 rest

/- Related states that answer alike and stay related give the same answers for good. -/
theorem outputsSimulated {step : S → A → B × S} {spec : T → A → B × T} {R : S → T → Prop}
    (alike : ∀ s t a, R s t → (step s a).1 = (spec t a).1 ∧ R (step s a).2 (spec t a).2)
    {s t} (start : R s t) (calls : List A) : outputs step s calls = outputs spec t calls := by
  induction calls generalizing s t with
  | nil => rfl
  | cons a rest ih =>
    obtain ⟨answer,next⟩ := alike s t a start
    rw [outputs,outputs,answer,ih next]

theorem runSimulated {step : S → A → Option S} {spec : T → A → T} {R : S → T → Prop}
    (follows : ∀ s t a, R s t → ∃ u, step s a = some u ∧ R u (spec t a))
    {s t} (start : R s t) (actions : List A) :
    ∃ u, run step s actions = some u ∧ R u (actions.foldl spec t) := by
  induction actions generalizing s t with
  | nil => exact ⟨s,rfl,start⟩
  | cons a rest ih =>
    obtain ⟨u,stepped,next⟩ := follows s t a start
    obtain ⟨v,ran,last⟩ := ih next
    exact ⟨v,by rw [run,stepped,Option.bind_some,ran],last⟩

end WebosWireguard.OutputRun
