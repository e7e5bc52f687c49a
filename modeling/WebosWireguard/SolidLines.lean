import WebosWireguard.TextLines

/-! The lines of a text up to blanks. A normaliser forgets blanks at both ends of a line;
the lines it leaves nonempty do not change when blanks are added around the whole text.
Blanks inside a line are the normaliser's own business. -/
namespace WebosWireguard.SolidLines
open TextLines

structure Normaliser (p : Char → Bool) (f : Text → Text) : Prop where
  empty : f [] = []
  cons : ∀ {c : Char}, p c = true → ∀ l, f (c::l) = f l
  concat : ∀ {c : Char}, p c = true → ∀ l, f (l ++ [c]) = f l

theorem stripNormaliser (p : Char → Bool) : Normaliser p (strip p) :=
  ⟨rfl,fun blank l => stripCons blank l,fun blank l => stripConcat blank l⟩

def solidBy (f : Text → Text) (ls : List Text) : List Text := (ls.map f).filter (fun l => l ≠ [])

theorem solidByCons (f : Text → Text) (l : Text) (rest : List Text) :
    solidBy f (l::rest) = (if f l = [] then [] else [f l]) ++ solidBy f rest := by
  unfold solidBy
  by_cases empty : f l = [] <;> simp [empty]

theorem solidByMem {f : Text → Text} {ls : List Text} {l : Text} (mem : l ∈ ls) (kept : f l ≠ []) :
    f l ∈ solidBy f ls := by
  simp only [solidBy,List.mem_filter,List.mem_map]
  exact ⟨⟨l,mem,rfl⟩,by simpa using kept⟩

theorem solidByOrigin {f : Text → Text} {ls : List Text} {u : Text} (mem : u ∈ solidBy f ls) :
    ∃ l ∈ ls, f l = u := by
  simp only [solidBy,List.mem_filter,List.mem_map] at mem
  exact mem.1

/- What depends on normalised lines only, and ignores the empty one, reads the solid lines. -/
theorem flatMapSolid {α : Type*} {f : Text → Text} {g : Text → List α} (same : ∀ l, g (f l) = g l)
    (skip : g [] = []) (ls : List Text) : (solidBy f ls).flatMap g = ls.flatMap g := by
  induction ls with
  | nil => rfl
  | cons l rest ih =>
    rw [solidByCons,List.flatMap_append,ih,List.flatMap_cons]
    congr 1
    split
    · rename_i empty
      rw [← same l,empty,skip]
      rfl
    · simp [same]

/- How the lines change when one blank is appended to the text: the first lines differ at
most by that blank, and the rest is the same for the normaliser. -/
def Grown (f : Text → Text) (c : Char) (long short : List Text) : Prop :=
  (short = [] ∧ (long = [[]] ∨ long = [[c]])) ∨
  (∃ h r h' r', short = h::r ∧ long = h'::r' ∧ (h' = h ∨ h' = h ++ [c]) ∧ solidBy f r' = solidBy f r)

section Blanks
variable {p : Char → Bool} {f : Text → Text} (norm : Normaliser p f)
include norm

theorem Normaliser.blank {l : Text} (blank : ∀ c ∈ l, p c = true) : f l = [] := by
  induction l with
  | nil => exact norm.empty
  | cons c rest ih =>
    rw [norm.cons (blank c (by simp))]
    exact ih (fun x mem => blank x (List.mem_cons_of_mem c mem))

theorem solidLinesCons {c : Char} (blank : p c = true) (t : Text) :
    solidBy f (lines (c::t)) = solidBy f (lines t) := by
  simp only [lines]
  split
  · simp [solidByCons,norm.empty]
  · cases lines t with
    | nil =>
      have gone : f [c] = [] := norm.blank (by simpa using blank)
      simp [solidBy,gone]
    | cons head tail => simp only [solidByCons,norm.cons blank]

theorem grownSolid {c long short} (blank : p c = true) (h : Grown f c long short) :
    solidBy f long = solidBy f short := by
  rcases h with ⟨rfl,rfl | rfl⟩ | ⟨h,r,h',r',rfl,rfl,same,later⟩
  · simp [solidByCons,norm.empty]
  · have gone : f [c] = [] := norm.blank (by simpa using blank)
    simp [solidByCons,gone]
  · rcases same with rfl | rfl
    · simp only [solidByCons,later]
    · simp only [solidByCons,later,norm.concat blank]

theorem linesGrown {c : Char} (blank : p c = true) (t : Text) :
    Grown f c (lines (t ++ [c])) (lines t) := by
  induction t with
  | nil =>
    refine .inl ⟨rfl,?_⟩
    by_cases same : c = '\n' <;> simp [lines,same]
  | cons d rest ih =>
    by_cases break_ : d = '\n'
    · refine .inr ⟨[],lines rest,[],lines (rest ++ [c]),?_,?_,.inl rfl,grownSolid norm blank ih⟩
      · simp [lines,break_]
      · simp [lines,break_]
    · refine .inr ?_
      rcases ih with ⟨short,long⟩ | ⟨h,r,h',r',short,long,same,later⟩
      · rcases long with long | long
        · exact ⟨[d],[],[d],[],by simp [lines,break_,short],by simp [lines,break_,long],.inl rfl,rfl⟩
        · exact ⟨[d],[],[d,c],[],by simp [lines,break_,short],by simp [lines,break_,long],
            .inr rfl,rfl⟩
      · refine ⟨d::h,r,d::h',r',by simp [lines,break_,short],by simp [lines,break_,long],?_,later⟩
        rcases same with rfl | rfl
        · exact .inl rfl
        · exact .inr rfl

theorem solidLinesLead {pre : Text} (blank : ∀ c ∈ pre, p c = true) (t : Text) :
    solidBy f (lines (pre ++ t)) = solidBy f (lines t) := by
  induction pre with
  | nil => rfl
  | cons c rest ih =>
    rw [List.cons_append,solidLinesCons norm (blank c (by simp))]
    exact ih (fun x mem => blank x (List.mem_cons_of_mem c mem))

theorem solidLinesTrail {post : Text} (blank : ∀ c ∈ post, p c = true) (t : Text) :
    solidBy f (lines (t ++ post)) = solidBy f (lines t) := by
  induction post using List.reverseRecOn with
  | nil => simp
  | append_singleton rest c ih =>
    have last := blank c (by simp)
    rw [← List.append_assoc,grownSolid norm last (linesGrown norm last _)]
    exact ih (fun x mem => blank x (List.mem_append_left _ mem))

theorem solidLinesIntercalate {out : List Text} (clean : ∀ l ∈ out, '\n' ∉ l) :
    solidBy f (lines (List.intercalate ['\n'] out)) = solidBy f out := by
  match out with
  | [] => rfl
  | [l] =>
    by_cases empty : l = []
    · subst empty
      simp [lines,solidBy,norm.empty]
    · rw [List.intercalate_singleton,linesSingle (clean l (by simp)) empty]
  | l::next::rest =>
    have split : List.intercalate ['\n'] (l::next::rest) =
        l ++ '\n'::List.intercalate ['\n'] (next::rest) := by simp [List.intercalate_cons_cons]
    rw [split,linesAppendBreak (clean l (by simp)),solidByCons,solidByCons _ l]
    have later : ∀ x ∈ next::rest, '\n' ∉ x := fun x mem => clean x (List.mem_cons_of_mem l mem)
    rw [solidLinesIntercalate later]

/- A joined text loses no solid line when it is cut back by its own blanks. -/
theorem solidLinesCut {out : List Text} {pre core post : Text} (clean : ∀ l ∈ out, '\n' ∉ l)
    (whole : List.intercalate ['\n'] out = pre ++ core ++ post) (lead : ∀ c ∈ pre, p c = true)
    (trail : ∀ c ∈ post, p c = true) : solidBy f (lines core) = solidBy f out := by
  rw [← solidLinesIntercalate norm clean,whole,solidLinesTrail norm trail,solidLinesLead norm lead]

end Blanks
end WebosWireguard.SolidLines
