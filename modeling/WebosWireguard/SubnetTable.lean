import Mathlib.Algebra.Ring.Nat
import Mathlib.Data.List.MinMax

/-! Routing tables over the subnets of a w-bit address space, looked up by longest
match. A table is in the order it is printed in and may hold several routes to one
subnet, of which the first listed is used. Metrics and gateways' own reachability are
not represented. -/
namespace WebosWireguard.SubnetTable

structure Subnet (w : Nat) where
  base : Nat
  length : Nat
  bounded : base < 2^w
  short : length ≤ w
  aligned : 2^(w-length) ∣ base
  deriving DecidableEq, Repr

variable {w : Nat} {η : Type}

namespace Subnet

def Covers (d : Subnet w) (a : Nat) : Prop := a / 2^(w-d.length) = d.base / 2^(w-d.length)

instance (d : Subnet w) (a) : Decidable (d.Covers a) := by unfold Covers; infer_instance

def host (a : Nat) (bounded : a < 2^w) : Subnet w := ⟨a,w,bounded,le_refl w,by simp⟩

def everything (w : Nat) : Subnet w := ⟨0,0,Nat.two_pow_pos w,Nat.zero_le w,Nat.dvd_zero _⟩

theorem coversHost {a : Nat} {bounded : a < 2^w} {b} : (host a bounded).Covers b ↔ b = a := by
  simp [Covers,host]

theorem coversUnique {d e : Subnet w} {a : Nat} (left : d.Covers a) (right : e.Covers a)
    (same : d.length = e.length) : d = e := by
  have base : d.base = e.base := by
    have high : d.base / 2^(w-d.length) = e.base / 2^(w-d.length) := by
      unfold Covers at left right
      rw [← left,same]
      exact right
    calc d.base = d.base / 2^(w-d.length) * 2^(w-d.length) := (Nat.div_mul_cancel d.aligned).symm
      _ = e.base / 2^(w-d.length) * 2^(w-d.length) := by rw [high]
      _ = e.base := Nat.div_mul_cancel (same ▸ e.aligned)
  cases d
  cases e
  cases base
  cases same
  rfl

end Subnet

structure Route (w : Nat) (η : Type) where
  dest : Subnet w
  hop : η
  deriving DecidableEq, Repr

abbrev Table (w : Nat) (η : Type) := List (Route w η)

def replace (r : Route w η) (table : Table w η) : Table w η :=
  r::table.filter (fun old => old.dest ≠ r.dest)

def install (hop : η) (dests : List (Subnet w)) (table : Table w η) : Table w η :=
  dests.foldl (fun t d => replace ⟨d,hop⟩ t) table

def lookup (table : Table w η) (a : Nat) : Option (Route w η) :=
  (table.filter (fun r => r.dest.Covers a)).argmax (fun r => r.dest.length)

theorem memReplace {r old : Route w η} {table : Table w η} :
    old ∈ replace r table ↔ old = r ∨ (old ∈ table ∧ old.dest ≠ r.dest) := by
  simp [replace]

theorem replaceIdleIff {back : Route w η} {table : Table w η} :
    (∀ r, r ∈ replace back table ↔ r ∈ table) ↔ ∀ r, r.dest = back.dest → (r ∈ table ↔ r = back) := by
  constructor
  · intro idle r here
    rw [← idle r,memReplace]
    simp [here]
  · intro current r
    rw [memReplace]
    by_cases here : r.dest = back.dest
    · simp [here,current r here]
    · have other : r ≠ back := fun same => here (congrArg Route.dest same)
      simp [here,other]

theorem memInstall {hop : η} {dests : List (Subnet w)} {table : Table w η} {r : Route w η} :
    r ∈ install hop dests table ↔
      (r.dest ∈ dests ∧ r.hop = hop) ∨ (r ∈ table ∧ r.dest ∉ dests) := by
  induction dests generalizing table with
  | nil => simp [install]
  | cons d rest ih =>
    have step : install hop (d::rest) table = install hop rest (replace ⟨d,hop⟩ table) := rfl
    rw [step,ih,memReplace]
    obtain ⟨dest,h⟩ := r
    simp only [Route.mk.injEq,List.mem_cons]
    by_cases now : dest = d
    · subst now
      by_cases later : dest ∈ rest <;> simp [later]
    · simp [now]

theorem installAppend (hop : η) (left right : List (Subnet w)) (table : Table w η) :
    install hop (left ++ right) table = install hop right (install hop left table) :=
  List.foldl_append

/- At most one route to a subnet, as `replace` leaves it and `ip route del` needs it. -/
def Single (d : Subnet w) (table : Table w η) : Prop := (table.filter (fun r => r.dest = d)).length ≤ 1

theorem singleSublist {d : Subnet w} {left right : Table w η} (sub : left.Sublist right)
    (single : Single d right) : Single d left :=
  le_trans (sub.filter _).length_le single

theorem singleReplace {d : Subnet w} {r : Route w η} {table : Table w η}
    (known : r.dest = d ∨ Single d table) : Single d (replace r table) := by
  by_cases here : r.dest = d
  · have none : (table.filter (fun old => old.dest ≠ r.dest)).filter (fun s => s.dest = d) = [] := by
      rw [List.filter_eq_nil_iff]
      intro s mem
      have other := (List.mem_filter.mp mem).2
      rw [here] at other
      simpa using other
    unfold Single replace
    rw [List.filter_cons_of_pos (by simpa using here),none]
    exact le_refl 1
  · have rest := singleSublist (table.filter_sublist (p := fun old => decide (old.dest ≠ r.dest)))
      (known.resolve_left here)
    unfold Single replace
    rw [List.filter_cons_of_neg (by simpa using here)]
    exact rest

theorem singleInstall {d : Subnet w} {hop : η} {dests : List (Subnet w)} {table : Table w η}
    (known : d ∈ dests ∨ Single d table) : Single d (install hop dests table) := by
  induction dests generalizing table with
  | nil => exact known.resolve_left (by simp)
  | cons e rest ih =>
    refine ih ?_
    rcases known with mem | single
    · rcases List.mem_cons.mp mem with rfl | later
      · exact .inr (singleReplace (.inl rfl))
      · exact .inl later
    · exact .inr (singleReplace (.inr single))

theorem singleErased {d : Subnet w} {p : Route w η → Bool} {table : Table w η} (single : Single d table)
    (exact : ∀ r, p r = true ↔ r.dest = d) : ∀ r ∈ table.eraseP p, r.dest ≠ d := by
  intro r mem same
  obtain ⟨a,left,right,none,hit,split,cut⟩ :=
    List.exists_of_eraseP (List.mem_of_mem_eraseP mem) ((exact r).mpr same)
  rw [cut] at mem
  rcases List.mem_append.mp mem with before | after
  · exact none r before ((exact r).mpr same)
  · have two : [a,r].Sublist (table.filter (fun r => r.dest = d)) := by
      have behind : [r].Sublist (right.filter (fun r => r.dest = d)) :=
        List.singleton_sublist.mpr (List.mem_filter.mpr ⟨after,by simpa using same⟩)
      rw [split,List.filter_append,List.filter_cons_of_pos (by simpa using (exact a).mp hit)]
      exact (behind.cons_cons a).trans (List.sublist_append_right _ _)
    exact absurd (le_trans two.length_le single) (by simp)

theorem lookupSome {table : Table w η} {a : Nat} {r : Route w η} (found : lookup table a = some r) :
    r ∈ table ∧ r.dest.Covers a ∧ ∀ s ∈ table, s.dest.Covers a → s.dest.length ≤ r.dest.length := by
  have mem := List.argmax_mem found
  simp only [List.mem_filter,decide_eq_true_eq] at mem
  refine ⟨mem.1,mem.2,fun s here covers => ?_⟩
  have candidate : s ∈ table.filter (fun r => r.dest.Covers a) := by simp [here,covers]
  exact List.le_of_mem_argmax (f := fun r => r.dest.length) candidate found

theorem lookupExists {table : Table w η} {a : Nat} {r : Route w η} (here : r ∈ table)
    (covers : r.dest.Covers a) : ∃ best, lookup table a = some best := by
  rw [← Option.isSome_iff_exists,← Option.ne_none_iff_isSome]
  intro missing
  rw [lookup,List.argmax_eq_none,List.filter_eq_nil_iff] at missing
  exact missing r here (by simpa using covers)

section Avoid
variable {P : η → Prop} {table : Table w η} {a : Nat}

/- A lookup that keeps away from the hops in `P` finds a longer route outside `P` for each
route in `P` that covers the address. Routes to one subnet are all in `P` or all outside. -/
theorem lookupBeats (uniform : ∀ r ∈ table, ∀ s ∈ table, r.dest = s.dest → P r.hop → P s.hop)
    (avoids : ∀ r, lookup table a = some r → ¬ P r.hop) {r : Route w η} (here : r ∈ table)
    (covers : r.dest.Covers a) (inside : P r.hop) :
    ∃ s ∈ table, s.dest.Covers a ∧ ¬ P s.hop ∧ r.dest.length < s.dest.length := by
  obtain ⟨best,found⟩ := lookupExists here covers
  obtain ⟨mem,coversBest,longest⟩ := lookupSome found
  refine ⟨best,mem,coversBest,avoids best found,lt_of_le_of_ne (longest r here covers) ?_⟩
  intro same
  exact avoids best found
    (uniform r here best mem (Subnet.coversUnique covers coversBest same) inside)

theorem lookupAvoids
    (beaten : ∀ r ∈ table, r.dest.Covers a → P r.hop →
      ∃ s ∈ table, s.dest.Covers a ∧ r.dest.length < s.dest.length)
    {r : Route w η} (found : lookup table a = some r) : ¬ P r.hop := by
  intro inside
  obtain ⟨mem,covers,longest⟩ := lookupSome found
  obtain ⟨s,here,coversS,longer⟩ := beaten r mem covers inside
  exact absurd (longest s here coversS) (by omega)

end Avoid

end WebosWireguard.SubnetTable
