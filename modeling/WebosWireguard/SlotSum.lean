import Mathlib.Algebra.BigOperators.Group.Finset.Basic
import Mathlib.Data.Fintype.Basic
import Mathlib.Tactic.Abel

/-! Sums over slots of which one is changed. -/
namespace WebosWireguard.SlotSum

variable {I X M : Type} [Fintype I] [DecidableEq I] [AddCommMonoid M]

theorem sumUpdate (f : X → M) (g : I → X) (i : I) (x : X) :
    ∑ j, f (Function.update g i x j) + f (g i) = ∑ j, f (g j) + f x := by
  have others : ∑ j ∈ Finset.univ.erase i, f (Function.update g i x j) = ∑ j ∈ Finset.univ.erase i, f (g j) :=
    Finset.sum_congr rfl (fun j mem => by rw [Function.update_of_ne (Finset.ne_of_mem_erase mem)])
  rw [← Finset.add_sum_erase _ _ (Finset.mem_univ i),← Finset.add_sum_erase _ _ (Finset.mem_univ i),others,
    Function.update_self]
  abel

end WebosWireguard.SlotSum
