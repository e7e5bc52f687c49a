import Mathlib.Algebra.Order.Field.Rat
import Mathlib.Data.List.MinMax
import WebosWireguard.ReachCut

/-! The arrow keys of the remote: moveRemoteFocus over the boxes of the buttons and
checkboxes under one root. Coordinates are rational, and scrolling moves all boxes
alike, so it is left out. -/
namespace WebosWireguard.RemoteFocus
open Relation ReachCut

structure Box where
  left : ℚ
  top : ℚ
  width : ℚ
  height : ℚ
  offsetWidth : Nat
  offsetHeight : Nat
  disabled : Bool

def Box.centreX (b : Box) : ℚ := b.left + b.width / 2
def Box.centreY (b : Box) : ℚ := b.top + b.height / 2

/- The elements are in document order. -/
structure Page (ι : Type) where
  elements : List ι
  box : ι → Box

inductive Direction where
  | left
  | right
  | up
  | down
  deriving DecidableEq, Repr

def Direction.horizontal : Direction → Bool
  | .left | .right => true
  | .up | .down => false

def Direction.skips : Direction → ℚ → Bool
  | .left,primary => primary ≥ -2
  | .right,primary => primary ≤ 2
  | .up,primary => primary ≥ -2
  | .down,primary => primary ≤ 2

section Move
variable {ι : Type} [DecidableEq ι] (page : Page ι)

def remoteFocusableElements : List ι :=
  page.elements.filter (fun e =>
    !(page.box e).disabled && (page.box e).offsetWidth != 0 && (page.box e).offsetHeight != 0)

def primary (d : Direction) (current candidate : ι) : ℚ :=
  if d.horizontal then (page.box candidate).centreX - (page.box current).centreX
  else (page.box candidate).centreY - (page.box current).centreY

def cross (d : Direction) (current candidate : ι) : ℚ :=
  if d.horizontal then (page.box candidate).centreY - (page.box current).centreY
  else (page.box candidate).centreX - (page.box current).centreX

def score (d : Direction) (current candidate : ι) : ℚ :=
  |primary page d current candidate| + |cross page d current candidate| * 2

/- One round of the loop; no best candidate stands for the score Infinity. -/
def compare (d : Direction) (current : ι) (best : Option (ι × ℚ)) (candidate : ι) : Option (ι × ℚ) :=
  if candidate = current then best
  else if d.skips (primary page d current candidate) then best
  else match best with
  | none => some (candidate,score page d current candidate)
  | some (_,bestScore) =>
    if score page d current candidate < bestScore then some (candidate,score page d current candidate) else best

/- The element that gets the focus, if the press moves it. -/
def moveRemoteFocus (active : Option ι) (d : Direction) : Option ι :=
  let elements := remoteFocusableElements page
  match elements.head?,active with
  | none,_ => none
  | some first,none => some first
  | some first,some current =>
    if current ∈ elements then (elements.foldl (compare page d current) none).map Prod.fst else some first

def press (current : ι) (d : Direction) : ι := (moveRemoteFocus page (some current) d).getD current

/- The elements that lie in a direction. -/
def ahead (d : Direction) (current : ι) : List ι :=
  (remoteFocusableElements page).filter (fun c => c ≠ current ∧ d.skips (primary page d current c) = false)

theorem foldCompare (d : Direction) (current : ι) (elements : List ι) (best : Option ι) :
    elements.foldl (compare page d current) (best.map (fun c => (c,score page d current c))) =
      ((elements.filter (fun c => c ≠ current ∧ d.skips (primary page d current c) = false)).foldl
        (List.argAux (fun b c => score page d current b < score page d current c)) best).map
          (fun c => (c,score page d current c)) := by
  induction elements generalizing best with
  | nil => rfl
  | cons e rest ih =>
    rw [List.foldl_cons]
    by_cases fits : e ≠ current ∧ d.skips (primary page d current e) = false
    · rw [List.filter_cons_of_pos (by simpa using fits),List.foldl_cons,← ih]
      congr 1
      unfold compare
      rw [if_neg fits.1,fits.2]
      cases best with
      | none => rfl
      | some b =>
        by_cases better : score page d current e < score page d current b <;> simp [List.argAux,better]
    · rw [List.filter_cons_of_neg (by simpa using fits),← ih]
      congr 1
      unfold compare
      by_cases own : e = current
      · rw [if_pos own]
      · have skipped : d.skips (primary page d current e) = true := by
          by_contra shown
          exact fits ⟨own,by simpa using shown⟩
        rw [if_neg own,if_pos skipped]

variable {page}

/- The loop finds the first of the best. -/
theorem moveArgmin {current : ι} (listed : current ∈ remoteFocusableElements page) (d : Direction) :
    moveRemoteFocus page (some current) d = (ahead page d current).argmin (score page d current) := by
  have found := foldCompare page d current (remoteFocusableElements page) none
  obtain ⟨first,rest,split⟩ := List.exists_cons_of_ne_nil (List.ne_nil_of_mem listed)
  unfold moveRemoteFocus
  simp only [split,List.head?_cons]
  rw [← split,if_pos listed,show (none : Option (ι × ℚ)) = (none : Option ι).map _ from rfl,found,Option.map_map]
  exact congrFun Option.map_id _

theorem moveListed {active : Option ι} {d : Direction} {c : ι} (moved : moveRemoteFocus page active d = some c) :
    c ∈ remoteFocusableElements page := by
  cases found : (remoteFocusableElements page).head? with
  | none => simp [moveRemoteFocus,found] at moved
  | some first =>
    have listed := List.mem_of_head? found
    cases active with
    | none =>
      simp only [moveRemoteFocus,found] at moved
      exact Option.some.inj moved ▸ listed
    | some current =>
      by_cases own : current ∈ remoteFocusableElements page
      · rw [moveArgmin own] at moved
        exact List.mem_of_mem_filter (List.argmin_mem moved)
      · simp only [moveRemoteFocus,found,if_neg own] at moved
        exact Option.some.inj moved ▸ listed

variable (page)

def Moves (a b : ι) : Prop := ∃ d, moveRemoteFocus page (some a) d = some b

/- In some direction from an element of the part an element outside it comes before all
elements of the part: by its score, or by its place in the document where the scores agree. -/
def Escapes (part : Set ι) : Prop :=
  ∃ a ∈ part, ∃ d, ∃ b ∈ ahead page d a, b ∉ part ∧ ∀ c ∈ ahead page d a, c ∈ part →
    score page d a b < score page d a c ∨
      (score page d a b = score page d a c ∧ (ahead page d a).idxOf b < (ahead page d a).idxOf c)

variable {page}

theorem escapesIff {part : Set ι} (inside : ∀ a ∈ part, a ∈ remoteFocusableElements page) :
    (∃ a ∈ part, ∃ b, b ∉ part ∧ Moves page a b) ↔ Escapes page part := by
  constructor
  · intro given
    obtain ⟨a,first,b,outside,d,moved⟩ := given
    rw [moveArgmin (inside a first)] at moved
    obtain ⟨lies,least,earliest⟩ := List.argmin_eq_some_iff.mp moved
    refine ⟨a,first,d,b,lies,outside,fun c there own => ?_⟩
    rcases lt_or_eq_of_le (least c there) with less | same
    · exact .inl less
    · refine .inr ⟨same,lt_of_le_of_ne (earliest c there same.ge) ?_⟩
      intro place
      exact outside ((List.idxOf_inj lies).mp place ▸ own)
  · intro given
    obtain ⟨a,first,d,b,lies,outside,beats⟩ := given
    cases best : (ahead page d a).argmin (score page d a) with
    | none =>
      rw [List.argmin_eq_none.mp best] at lies
      simp at lies
    | some m =>
      obtain ⟨there,least,earliest⟩ := List.argmin_eq_some_iff.mp best
      refine ⟨a,first,m,fun own => ?_,d,(moveArgmin (inside a first) d).trans best⟩
      rcases beats m there own with less | ⟨same,before⟩
      · exact absurd (least b lies) (not_le.mpr less)
      · exact absurd (earliest b lies same.le) (not_le.mpr before)

theorem pressesReach {a b : ι} : (∃ keys : List Direction, keys.foldl (press page) a = b) ↔
    ReflTransGen (Moves page) a b := by
  constructor
  · intro given
    obtain ⟨keys,arrived⟩ := given
    induction keys generalizing a with
    | nil =>
      cases arrived
      exact .refl
    | cons d rest ih =>
      rw [List.foldl_cons] at arrived
      have later := ih arrived
      cases moved : moveRemoteFocus page (some a) d with
      | none => rwa [press,moved] at later
      | some c =>
        rw [press,moved] at later
        exact .head ⟨d,moved⟩ later
  · intro path
    induction path with
    | refl => exact ⟨[],rfl⟩
    | @tail c e _ last ih =>
      obtain ⟨keys,arrived⟩ := ih
      obtain ⟨d,moved⟩ := last
      refine ⟨keys ++ [d],?_⟩
      rw [List.foldl_append,arrived]
      simp [press,moved]

end Move

def Separated {ι : Type} (page : Page ι) : Prop :=
  ∀ a ∈ page.elements, ∀ b ∈ page.elements, a ≠ b →
    2 < |(page.box a).centreX - (page.box b).centreX| ∨ 2 < |(page.box a).centreY - (page.box b).centreY|

def button (left top width : Nat) : Box := ⟨left,top,width,30,width,30,false⟩

/- Five centred rows of buttons 20 px apart: two of 60 px, two of 160 px, one of 100 px, and
the first two rows again in the other order. -/
def fiveRows : Page (Fin 9) where
  elements := List.finRange 9
  box := fun i => ([button 130 0 60,button 210 0 60,button 30 50 160,button 210 50 160,button 150 100 100,
    button 30 150 160,button 210 150 160,button 130 200 60,button 210 200 60][i.val]?).getD (button 0 0 0)

theorem middleAvoided :
    ∀ a : Fin 9, a ≠ 4 → ∀ d ∈ [Direction.left,.right,.up,.down], press fiveRows a d ≠ 4 := by
  decide +kernel

end WebosWireguard.RemoteFocus
