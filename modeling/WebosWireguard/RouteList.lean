import WebosWireguard.StartText

/-! The route list of start.sh. add_route is one or two recordings, so the list is one
fold of `recordRoute`; what grep is asked decides which texts of that fold are left out. -/
namespace WebosWireguard.RouteList
open TextLines StartText

def expanded (piece : Text) : List Text :=
  if piece = [] ∨ piece.head? = some '#' ∨ ':' ∈ piece then []
  else if piece = defaultRoute then [lowerHalf,upperHalf]
  else [piece]

theorem expandedFilled {piece r : Text} (mem : r ∈ expanded piece) : r ≠ [] := by
  unfold expanded at mem
  split at mem
  · simp at mem
  rename_i solid
  split at mem
  · rcases List.mem_pair.mp mem with rfl | rfl <;> decide
  · cases List.mem_singleton.mp mem
    exact fun empty => solid (.inl empty)

section Record
variable {grepQx : Text → List Text → Bool} {applied rs : List Text}

theorem addRouteExpanded (piece : Text) :
    addRoute grepQx applied piece = (expanded piece).foldl (recordRoute grepQx) applied := by
  unfold addRoute expanded
  by_cases blank : piece = [] ∨ piece.head? = some '#'
  · simp [blank,← or_assoc]
  by_cases colon : ':' ∈ piece
  · simp [blank,colon]
  have kept : ¬ (piece = [] ∨ piece.head? = some '#' ∨ ':' ∈ piece) := by
    rw [← or_assoc]
    simp [blank,colon]
  rw [if_neg blank,if_neg colon,if_neg kept]
  split <;> rfl

theorem addRoutesRecorded (pieces : List Text) :
    pieces.foldl (addRoute grepQx) applied = (pieces.flatMap expanded).foldl (recordRoute grepQx) applied := by
  rw [List.foldl_flatMap]
  congr 1
  funext applied piece
  exact addRouteExpanded piece

theorem appliedRoutesRecorded (conf : Text) (extra : Option Text) :
    appliedRoutes grepQx conf extra =
      ((routePieces conf ++ extraPieces extra).flatMap expanded).foldl (recordRoute grepQx) [] :=
  addRoutesRecorded _

theorem recordRouteKeeps {r old : Text} (mem : old ∈ applied) : old ∈ recordRoute grepQx applied r := by
  unfold recordRoute
  split
  · exact mem
  · exact List.mem_append_left [r] mem

theorem recordedKeeps {old : Text} (mem : old ∈ applied) :
    old ∈ rs.foldl (recordRoute grepQx) applied := by
  induction rs generalizing applied with
  | nil => exact mem
  | cons r rest ih => exact ih (recordRouteKeeps mem)

theorem recordedFrom {r : Text} (mem : r ∈ rs.foldl (recordRoute grepQx) applied) :
    r ∈ applied ∨ r ∈ rs := by
  induction rs generalizing applied with
  | nil => exact .inl mem
  | cons first rest ih =>
    rcases ih mem with known | later
    · unfold recordRoute at known
      split at known
      · exact .inl known
      · rcases List.mem_append.mp known with old | new
        · exact .inl old
        · exact .inr (List.mem_cons.mpr (.inl (List.mem_singleton.mp new)))
    · exact .inr (List.mem_cons_of_mem first later)

/- A text is left out only when grep finds it among texts that stay in the list. -/
theorem recordedFound {r : Text} (mem : r ∈ rs) :
    r ∈ rs.foldl (recordRoute grepQx) applied ∨
      ∃ seen, (∀ old ∈ seen, old ∈ rs.foldl (recordRoute grepQx) applied) ∧ grepQx r seen = true := by
  induction rs generalizing applied with
  | nil => simp at mem
  | cons first rest ih =>
    rcases List.mem_cons.mp mem with rfl | later
    · by_cases found : grepQx r applied = true
      · exact .inr ⟨applied,fun _ old => recordedKeeps old,found⟩
      · have recorded : r ∈ recordRoute grepQx applied r := by simp [recordRoute,found]
        have later : r ∈ rest.foldl (recordRoute grepQx) (recordRoute grepQx applied r) :=
          recordedKeeps recorded
        exact .inl later
    · exact ih later

end Record

theorem appliedRoutesFilled (grepQx conf extra) : [] ∉ appliedRoutes grepQx conf extra := by
  intro mem
  rw [appliedRoutesRecorded] at mem
  rcases recordedFrom mem with none | given
  · simp at none
  · obtain ⟨piece,_,inside⟩ := List.mem_flatMap.mp given
    exact expandedFilled inside rfl

section Dots
variable {pattern line : Text}

/- A dot of the line can only stand against a dot of the pattern. -/
theorem dotMatchCount (found : dotMatch pattern line = true) : line.count '.' ≤ pattern.count '.' := by
  fun_induction dotMatch pattern line with
  | case1 => simp
  | case2 p ps c cs ih =>
    simp only [Bool.and_eq_true,Bool.or_eq_true,beq_iff_eq] at found
    have rest := ih found.2
    rcases found.1 with rfl | rfl
    · simp only [List.count_cons]
      split <;> simp <;> omega
    · simp only [List.count_cons]
      omega
  | case3 => simp at found

theorem dotMatchEq (found : dotMatch pattern line = true)
    (same : line.count '.' = pattern.count '.') : pattern = line := by
  fun_induction dotMatch pattern line with
  | case1 => rfl
  | case2 p ps c cs ih =>
    simp only [Bool.and_eq_true,Bool.or_eq_true,beq_iff_eq] at found
    have rest := dotMatchCount found.2
    simp only [List.count_cons,beq_iff_eq] at same
    have first : p = c := by
      rcases found.1 with rfl | equal
      · by_contra other
        simp only [if_neg (Ne.symm other),if_true] at same
        omega
      · exact equal
    subst first
    rw [ih found.2 (by omega)]
  | case3 => simp at found

theorem dotMatchSelf (t : Text) : dotMatch t t = true := by
  induction t with
  | nil => rfl
  | cons c rest ih => simp [dotMatch,ih]

theorem dotMatchMem {c : Char} (found : dotMatch pattern line = true) (mem : c ∈ pattern)
    (solid : c ≠ '.') : c ∈ line := by
  fun_induction dotMatch pattern line with
  | case1 => exact mem
  | case2 p ps d cs ih =>
    simp only [Bool.and_eq_true,Bool.or_eq_true,beq_iff_eq] at found
    rcases List.mem_cons.mp mem with rfl | later
    · cases found.1.resolve_left solid
      exact List.mem_cons_self
    · exact List.mem_cons_of_mem d (ih found.2 later)
  | case3 => simp at found

end Dots

end WebosWireguard.RouteList
