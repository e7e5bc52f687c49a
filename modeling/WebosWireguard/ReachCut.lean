import Mathlib.Data.Set.Basic
import Mathlib.Logic.Relation

/-! Reachability by cuts. Inside a closed set every point reaches every other one exactly
when no part of the set is closed by itself. Nothing here needs the set to be finite. -/
namespace WebosWireguard.ReachCut
open Relation

variable {α : Type*} {step : α → α → Prop}

/- A path out of a set has a step that leaves it. -/
theorem leavingStep {part : Set α} {a b : α} (path : ReflTransGen step a b) (inside : a ∈ part)
    (outside : b ∉ part) : ∃ x ∈ part, ∃ y, y ∉ part ∧ step x y := by
  induction path with
  | refl => exact absurd inside outside
  | @tail c d _ last ih =>
    by_cases here : c ∈ part
    · exact ⟨c,here,d,outside,last⟩
    · exact ih here

theorem staysInside {whole : Set α} (closed : ∀ a ∈ whole, ∀ b, step a b → b ∈ whole) {a b : α}
    (path : ReflTransGen step a b) (inside : a ∈ whole) : b ∈ whole := by
  induction path with
  | refl => exact inside
  | tail _ last ih => exact closed _ ih _ last

theorem reachesAllIff {whole : Set α} (closed : ∀ a ∈ whole, ∀ b, step a b → b ∈ whole) :
    (∀ a ∈ whole, ∀ b ∈ whole, ReflTransGen step a b) ↔
      ∀ part ⊆ whole, part.Nonempty → (∃ c ∈ whole, c ∉ part) → ∃ x ∈ part, ∃ y, y ∉ part ∧ step x y := by
  constructor
  · intro reaches part inside filled rest
    obtain ⟨a,first⟩ := filled
    obtain ⟨c,listed,outside⟩ := rest
    exact leavingStep (reaches a (inside first) c listed) first outside
  · intro leaves a first b last
    by_contra unreached
    -- the points that a reaches are a part that no step leaves
    obtain ⟨x,⟨_,path⟩,y,outside,edge⟩ := leaves {c | c ∈ whole ∧ ReflTransGen step a c}
      (fun c given => given.1) ⟨a,first,.refl⟩ ⟨b,last,fun given => unreached given.2⟩
    have longer : ReflTransGen step a y := path.tail edge
    exact outside ⟨staysInside closed longer first,longer⟩

end WebosWireguard.ReachCut
