import Mathlib.Algebra.Ring.Nat
import Mathlib.Data.List.DropRight
import Mathlib.Data.List.Infix

/-! Text as the line tools see it: blanks, stripping, cutting at a character, lines.
Every function is total and works on characters; encodings are not modelled. -/
namespace WebosWireguard.TextLines

abbrev Text := List Char

/- A statement about the characters of a text is decided along the text, never over all
characters there are. -/
instance (priority := high) textForall (p : Char → Prop) [DecidablePred p] (t : Text) :
    Decidable (∀ c ∈ t, p c) := List.decidableBAll p t

/- The class [[:space:]] of the C locale. -/
def isSpace (c : Char) : Bool := c.toNat == 32 || (9 ≤ c.toNat && c.toNat ≤ 13)

def strip (p : Char → Bool) (t : Text) : Text := (t.dropWhile p).rdropWhile p
def squash (p : Char → Bool) (t : Text) : Text := t.filter (fun c => !p c)
def before (c : Char) (t : Text) : Text := t.takeWhile (fun x => x != c)
def after (c : Char) (t : Text) : Text := (t.dropWhile (fun x => x != c)).drop 1
def lower (t : Text) : Text := t.map Char.toLower
def number (digits : Text) : Nat := Nat.ofDigitChars 10 digits 0
def dropCr (t : Text) : Text := if t.getLast? = some '\r' then t.dropLast else t
def bracketed (t : Text) : Bool := t.head? == some '[' && t.getLast? == some ']'

def lines : Text → List Text
  | [] => []
  | c::rest =>
    if c = '\n' then []::lines rest else
      match lines rest with | [] => [[c]] | head::tail => (c::head)::tail

def unlines (ls : List Text) : Text := ls.flatMap (fun l => l ++ ['\n'])

section Strip
variable {p : Char → Bool}

theorem stripCons {c : Char} (blank : p c = true) (t : Text) : strip p (c::t) = strip p t := by
  simp [strip,blank]

theorem stripConcat {c : Char} (blank : p c = true) (t : Text) :
    strip p (t ++ [c]) = strip p t := by
  unfold strip
  by_cases all : ∀ x ∈ t, p x = true
  · have left : (t ++ [c]).dropWhile p = [] := by
      rw [List.dropWhile_eq_nil_iff]
      intro x mem
      rcases List.mem_append.mp mem with h | h
      · exact all x h
      · simpa [List.mem_singleton.mp h] using blank
    have right : t.dropWhile p = [] := List.dropWhile_eq_nil_iff.mpr all
    rw [left,right]
  · have split : (t ++ [c]).dropWhile p = t.dropWhile p ++ [c] := by
      rw [List.dropWhile_append]
      have nonempty : (t.dropWhile p).isEmpty = false := by
        simpa [List.dropWhile_eq_nil_iff] using all
      simp [nonempty]
    rw [split,List.rdropWhile_concat_pos p _ c blank]

theorem stripAppendLeft {pre : Text} (blank : ∀ c ∈ pre, p c = true) (t : Text) :
    strip p (pre ++ t) = strip p t := by
  induction pre with
  | nil => rfl
  | cons c rest ih =>
    rw [List.cons_append,stripCons (blank c (by simp))]
    exact ih (fun x hx => blank x (List.mem_cons_of_mem c hx))

theorem stripAppendRight {post : Text} (blank : ∀ c ∈ post, p c = true) (t : Text) :
    strip p (t ++ post) = strip p t := by
  induction post using List.reverseRecOn with
  | nil => simp
  | append_singleton rest c ih =>
    rw [← List.append_assoc,stripConcat (blank c (by simp))]
    exact ih (fun x hx => blank x (List.mem_append_left _ hx))

theorem stripSplit (p : Char → Bool) (t : Text) :
    ∃ pre post, t = pre ++ strip p t ++ post ∧ (∀ c ∈ pre, p c = true) ∧ (∀ c ∈ post, p c = true) := by
  refine ⟨t.takeWhile p,(t.dropWhile p).rtakeWhile p,?_,?_,?_⟩
  · rw [List.append_assoc]
    unfold strip
    rw [List.rdropWhile_append_rtakeWhile,List.takeWhile_append_dropWhile]
  · intro c mem
    exact List.mem_takeWhile_imp mem
  · intro c mem
    exact List.mem_rtakeWhile_imp mem

theorem stripSubset {t : Text} {c} (mem : c ∈ strip p t) : c ∈ t := by
  obtain ⟨pre,post,eq,_,_⟩ := stripSplit p t
  rw [eq]
  simp [mem]

theorem memStrip {t : Text} {c} (mem : c ∈ t) (solid : p c = false) : c ∈ strip p t := by
  obtain ⟨pre,post,eq,left,right⟩ := stripSplit p t
  rw [eq,List.append_assoc,List.mem_append,List.mem_append] at mem
  rcases mem with lead | inside | trail
  · simp [left c lead] at solid
  · exact inside
  · simp [right c trail] at solid

theorem stripIdem (t : Text) : strip p (strip p t) = strip p t := by
  obtain ⟨pre,post,eq,left,right⟩ := stripSplit p t
  have h : strip p t = strip p (pre ++ strip p t ++ post) := congrArg (strip p) eq
  rw [stripAppendRight right,stripAppendLeft left] at h
  exact h.symm

theorem stripCongr {q : Char → Bool} {t : Text} (same : ∀ c ∈ t, p c = q c) :
    strip p t = strip q t := by
  obtain ⟨pre,post,eq,left,right⟩ := stripSplit p t
  have inside : ∀ c ∈ pre ++ strip p t ++ post, p c = q c := fun c mem => same c (by rwa [eq])
  have core : strip q (strip p t) = strip p t := by
    unfold strip
    have head : ∀ u : Text, (∀ c ∈ u, p c = q c) → u.dropWhile p = u.dropWhile q := by
      intro u agree
      induction u with
      | nil => rfl
      | cons c rest ih =>
        rw [List.dropWhile_cons,List.dropWhile_cons,agree c (by simp)]
        split
        · exact ih (fun x hx => agree x (List.mem_cons_of_mem c hx))
        · rfl
    have tail : ∀ u : Text, (∀ c ∈ u, p c = q c) → u.rdropWhile p = u.rdropWhile q := by
      intro u agree
      unfold List.rdropWhile
      rw [head u.reverse (fun c mem => agree c (List.mem_reverse.mp mem))]
    have agree : ∀ c ∈ strip p t, p c = q c := fun c mem => same c (stripSubset mem)
    change ((strip p t).dropWhile q).rdropWhile q = strip p t
    rw [← head _ agree,← tail _ (fun c mem => agree c (List.dropWhile_subset p mem))]
    exact stripIdem t
  calc strip p t = strip q (strip p t) := core.symm
    _ = strip q (pre ++ strip p t ++ post) := by
      rw [stripAppendRight (fun c mem => by rw [← inside c (by simp [mem])]; exact right c mem),
        stripAppendLeft (fun c mem => by rw [← inside c (by simp [mem])]; exact left c mem)]
    _ = strip q t := by rw [← eq]

theorem squashBlank {t : Text} (blank : ∀ c ∈ t, p c = true) : squash p t = [] := by
  simpa [squash,List.filter_eq_nil_iff] using blank

theorem squashSelf {t : Text} (solid : ∀ c ∈ t, p c = false) : squash p t = t := by
  simpa [squash,List.filter_eq_self] using solid

theorem squashAppend (t u : Text) : squash p (t ++ u) = squash p t ++ squash p u :=
  List.filter_append t u

theorem squashStrip (t : Text) : squash p (strip p t) = squash p t := by
  obtain ⟨pre,post,eq,left,right⟩ := stripSplit p t
  have h : squash p t = squash p (pre ++ strip p t ++ post) := congrArg (squash p) eq
  rw [h,squashAppend,squashAppend,squashBlank left,squashBlank right]
  simp

theorem stripHeadSolid {t rest : Text} {c : Char} (head : strip p t = c::rest) : p c = false := by
  unfold strip at head
  have first : (t.dropWhile p).head? = some c := by
    obtain ⟨tail,split⟩ := List.rdropWhile_prefix p (l := t.dropWhile p)
    rw [← split,head]
    rfl
  have h := List.head?_dropWhile_not p t
  rw [first] at h
  simpa using h

theorem stripFilled {t : Text} : strip p t ≠ [] ↔ ∃ c ∈ t, p c = false := by
  constructor
  · intro filled
    obtain ⟨c,rest,head⟩ := List.exists_cons_of_ne_nil filled
    exact ⟨c,stripSubset (p := p) (by rw [head]; simp),stripHeadSolid head⟩
  · intro given empty
    obtain ⟨c,mem,solid⟩ := given
    have inside := memStrip mem solid
    simp [empty] at inside

theorem stripSelf {t : Text} (solid : ∀ c ∈ t, p c = false) : strip p t = t := by
  obtain ⟨pre,post,eq,left,right⟩ := stripSplit p t
  have empty : ∀ u : Text, (∀ c ∈ u, c ∈ t) → (∀ c ∈ u, p c = true) → u = [] := by
    intro u inside blank
    cases u with
    | nil => rfl
    | cons c rest =>
      have h := blank c (by simp)
      rw [solid c (inside c (by simp))] at h
      contradiction
  have hpre := empty pre (fun c mem => by rw [eq]; simp [mem]) left
  have hpost := empty post (fun c mem => by rw [eq]; simp [mem]) right
  rw [hpre,hpost] at eq
  simpa using eq.symm

end Strip

section Cut
variable {c : Char}

theorem beforeNotMem (t : Text) : c ∉ before c t := by
  intro mem
  have h := List.mem_takeWhile_imp mem
  simp at h

theorem beforeSelf {t : Text} (absent : c ∉ t) : before c t = t := by
  apply List.takeWhile_eq_self_iff.mpr
  intro x mem
  simp only [bne_iff_ne]
  intro same
  subst same
  exact absent mem

theorem beforeSubset {t : Text} {x} (mem : x ∈ before c t) : x ∈ t :=
  List.takeWhile_subset _ mem

theorem afterSubset {t : Text} {x} (mem : x ∈ after c t) : x ∈ t :=
  List.dropWhile_subset _ (List.mem_of_mem_drop mem)

theorem afterAbsent {t : Text} (absent : c ∉ t) : after c t = [] := by
  have all : t.dropWhile (fun x => x != c) = [] := by
    rw [List.dropWhile_eq_nil_iff]
    intro x mem
    simp only [bne_iff_ne]
    intro same
    exact absent (same ▸ mem)
  rw [after,all]
  rfl

theorem beforeAppend {a : Text} (absent : c ∉ a) (b : Text) :
    before c (a ++ b) = a ++ before c b := by
  unfold before
  rw [List.takeWhile_append_of_pos]
  intro x mem
  simp only [bne_iff_ne]
  intro same
  subst same
  exact absent mem

theorem beforeAppendMem {a : Text} (present : c ∈ a) (b : Text) :
    before c (a ++ b) = before c a := by
  induction a with
  | nil => simp at present
  | cons x rest ih =>
    unfold before
    by_cases same : x = c
    · simp [same]
    · have later : c ∈ rest := by
        rcases List.mem_cons.mp present with h | h
        · exact absurd h.symm same
        · exact h
      have inner := ih later
      unfold before at inner
      simp [same,inner]

theorem cutAt {t : Text} (present : c ∈ t) : t = before c t ++ c::after c t := by
  induction t with
  | nil => simp at present
  | cons x rest ih =>
    by_cases same : x = c
    · simp [before,after,same]
    · have later : c ∈ rest := by
        rcases List.mem_cons.mp present with h | h
        · exact absurd h.symm same
        · exact h
      have inner := ih later
      unfold before after at inner ⊢
      simp only [List.takeWhile_cons,List.dropWhile_cons,bne_iff_ne,ne_eq,same,not_false_eq_true,
        if_true,List.cons_append]
      exact congrArg (List.cons x) inner

theorem cutFirst {a : Text} (absent : c ∉ a) (b : Text) :
    before c (a ++ c::b) = a ∧ after c (a ++ c::b) = b := by
  constructor
  · rw [beforeAppend absent]
    simp [before]
  · unfold after
    rw [List.dropWhile_append_of_pos]
    · simp
    · intro x mem
      simp only [bne_iff_ne]
      intro same
      subst same
      exact absent mem

end Cut

theorem stripBeforeStrip {p : Char → Bool} {c : Char} (solid : p c = false) (t : Text) :
    strip p (before c (strip p t)) = strip p (before c t) := by
  obtain ⟨pre,post,eq,left,right⟩ := stripSplit p t
  have absent : ∀ u : Text, (∀ x ∈ u, p x = true) → c ∉ u := by
    intro u blank mem
    have h := blank c mem
    rw [solid] at h
    contradiction
  have h : before c t = before c (pre ++ strip p t ++ post) := congrArg (before c) eq
  rw [h,List.append_assoc,beforeAppend (absent pre left),stripAppendLeft left]
  by_cases present : c ∈ strip p t
  · rw [beforeAppendMem present]
  · rw [beforeAppend present,beforeSelf present,beforeSelf (absent post right),
      stripAppendRight right]

theorem stripAfterStrip {p : Char → Bool} {c : Char} {t : Text} (solid : p c = false) (present : c ∈ t) :
    strip p (after c (strip p t)) = strip p (after c t) := by
  obtain ⟨pre,post,eq,left,right⟩ := stripSplit p t
  have inside := memStrip present solid
  have absent : c ∉ pre := by
    intro mem
    rw [left c mem] at solid
    contradiction
  have whole : after c t = after c (strip p t) ++ post := by
    have cut : t = (pre ++ before c (strip p t)) ++ c::(after c (strip p t) ++ post) := by
      conv_lhs => rw [eq,cutAt inside]
      simp
    have lead : c ∉ pre ++ before c (strip p t) := by
      rw [List.mem_append,not_or]
      exact ⟨absent,beforeNotMem _⟩
    conv_lhs => rw [cut]
    exact (cutFirst lead _).2
  rw [whole,stripAppendRight right]

theorem afterBefore {c mark : Char} {t : Text} (present : c ∈ before mark t) :
    after c (before mark t) = before mark (after c t) := by
  have lead : mark ∉ before c (before mark t) := fun mem => beforeNotMem t (beforeSubset mem)
  have later : mark ∉ after c (before mark t) := fun mem => beforeNotMem t (afterSubset mem)
  by_cases marked : mark ∈ t
  · have cut : t = before c (before mark t) ++ c::(after c (before mark t) ++ mark::after mark t) := by
      conv_lhs => rw [cutAt marked,cutAt present]
      simp
    conv_rhs => rw [cut,(cutFirst (beforeNotMem _) _).2]
    exact ((cutFirst later _).1).symm
  · rw [beforeSelf marked,beforeSelf (fun mem => marked (afterSubset mem))]

theorem squashBeforeStrip {p : Char → Bool} {c : Char} (solid : p c = false) (t : Text) :
    squash p (before c (strip p t)) = squash p (before c t) := by
  rw [← squashStrip,stripBeforeStrip solid,squashStrip]

theorem dropCrSplit (t : Text) : ∃ post, t = dropCr t ++ post ∧ ∀ c ∈ post, isSpace c = true := by
  unfold dropCr
  split
  · rename_i last
    obtain ⟨init,rfl⟩ := List.getLast?_eq_some_iff.mp last
    exact ⟨['\r'],by simp,by simp [isSpace]⟩
  · exact ⟨[],by simp,by simp⟩

section Lower

theorem lowerBlank {c : Char} (blank : isSpace c = true) : c.toLower = c := by
  simp only [isSpace,Bool.or_eq_true,beq_iff_eq,Bool.and_eq_true,decide_eq_true_eq] at blank
  unfold Char.toLower
  rw [dif_neg]
  intro upper
  have low : 65 ≤ c.toNat := upper.1
  omega

/- The letters are the only results of lowering something else. -/
theorem lowerSame {c d : Char} (same : c.toLower = d) (below : d.toNat < 97) : c = d := by
  unfold Char.toLower at same
  split at same
  · rename_i upper
    have bound : 65 ≤ c.val.toNat ∧ c.val.toNat ≤ 90 := ⟨upper.1,upper.2⟩
    have value : (c.val + 32).toNat = d.toNat := congrArg Char.toNat same
    rw [UInt32.toNat_add] at value
    have small : (32 : UInt32).toNat = 32 := rfl
    omega
  · exact same

theorem lowerNotMem {t u : Text} {c : Char} (same : lower t = u) (fixed : c.toLower = c)
    (absent : c ∉ u) : c ∉ t := by
  intro mem
  apply absent
  rw [← same,← fixed]
  exact List.mem_map_of_mem mem

end Lower

section SplitOn

theorem splitOnCons (sep x : Char) (t : Text) :
    (x::t).splitOn sep = if x = sep then []::t.splitOn sep else (t.splitOn sep).modifyHead (List.cons x) := by
  simp [List.splitOn,List.splitOnP_cons_eq_if_modifyHead]

theorem splitOnParts (sep : Char) (t : Text) : ∃ first rest, t.splitOn sep = first::rest := by
  cases split : t.splitOn sep with
  | nil => exact absurd split (List.splitOn_ne_nil sep t)
  | cons first rest => exact ⟨first,rest,rfl⟩

theorem splitOnSubset {sep c : Char} {t part : Text} (mem : part ∈ t.splitOn sep) (inside : c ∈ part) :
    c ∈ t := by
  induction t generalizing part with
  | nil =>
    rw [List.splitOn_nil] at mem
    cases List.mem_singleton.mp mem
    exact inside
  | cons x rest ih =>
    obtain ⟨first,others,split⟩ := splitOnParts sep rest
    rw [split] at ih
    rw [splitOnCons,split] at mem
    split at mem
    · rcases List.mem_cons.mp mem with rfl | later
      · simp at inside
      · exact List.mem_cons_of_mem x (ih later inside)
    · rcases List.mem_cons.mp mem with rfl | later
      · rcases List.mem_cons.mp inside with rfl | here
        · exact List.mem_cons_self
        · exact List.mem_cons_of_mem x (ih List.mem_cons_self here)
      · exact List.mem_cons_of_mem x (ih (List.mem_cons_of_mem first later) inside)

theorem splitOnCovers {sep c : Char} {t : Text} (mem : c ∈ t) (ne : c ≠ sep) :
    ∃ part ∈ t.splitOn sep, c ∈ part := by
  induction t with
  | nil => simp at mem
  | cons x rest ih =>
    obtain ⟨first,others,split⟩ := splitOnParts sep rest
    rw [splitOnCons,split]
    rw [split] at ih
    rcases List.mem_cons.mp mem with rfl | later
    · rw [if_neg ne]
      exact ⟨c::first,by simp,by simp⟩
    · obtain ⟨part,inside,here⟩ := ih later
      split
      · exact ⟨part,List.mem_cons_of_mem _ inside,here⟩
      · rcases List.mem_cons.mp inside with rfl | inside
        · exact ⟨x::part,by simp,List.mem_cons_of_mem x here⟩
        · exact ⟨part,List.mem_cons_of_mem _ inside,here⟩

theorem splitOnNoSep {sep : Char} {t part : Text} (mem : part ∈ t.splitOn sep) : sep ∉ part := by
  induction t generalizing part with
  | nil =>
    rw [List.splitOn_nil] at mem
    simp [List.mem_singleton.mp mem]
  | cons x rest ih =>
    obtain ⟨first,others,split⟩ := splitOnParts sep rest
    rw [split] at ih
    rw [splitOnCons,split] at mem
    split at mem
    · rcases List.mem_cons.mp mem with rfl | later
      · simp
      · exact ih later
    · rename_i other
      rcases List.mem_cons.mp mem with rfl | later
      · simpa using ⟨Ne.symm other,ih List.mem_cons_self⟩
      · exact ih (List.mem_cons_of_mem first later)

/- Some part of a list is not blank. -/
theorem partsFilled {p : Char → Bool} {sep : Char} {t : Text} :
    (∃ part ∈ t.splitOn sep, strip p part ≠ []) ↔ ∃ c ∈ t, c ≠ sep ∧ p c = false := by
  constructor
  · intro given
    obtain ⟨part,mem,filled⟩ := given
    obtain ⟨c,inside,solid⟩ := stripFilled.mp filled
    refine ⟨c,splitOnSubset mem inside,?_,solid⟩
    intro same
    exact splitOnNoSep mem (same ▸ inside)
  · intro given
    obtain ⟨c,mem,ne,solid⟩ := given
    obtain ⟨part,inside,here⟩ := splitOnCovers mem ne
    exact ⟨part,inside,stripFilled.mpr ⟨c,here,solid⟩⟩

theorem splitOnAppend {sep : Char} {a b last first : Text} {init rest : List Text}
    (left : a.splitOn sep = init ++ [last]) (right : b.splitOn sep = first::rest) :
    (a ++ b).splitOn sep = init ++ (last ++ first)::rest := by
  induction a generalizing init last with
  | nil =>
    rw [List.splitOn_nil] at left
    obtain ⟨rfl,same⟩ : init = [] ∧ last = [] := by
      cases init with
      | nil => exact ⟨rfl,(List.cons.inj left).1.symm⟩
      | cons h tail => simp at left
    rw [same,List.nil_append,right]
    rfl
  | cons x a ih =>
    obtain ⟨init',last',inner⟩ : ∃ init' last', a.splitOn sep = init' ++ [last'] := by
      refine ⟨_,_,(List.dropLast_append_getLast (List.splitOn_ne_nil sep a)).symm⟩
    rw [splitOnCons,inner] at left
    rw [List.cons_append,splitOnCons,ih inner]
    split
    · rename_i here
      rw [if_pos here,← List.cons_append] at left
      obtain ⟨same,final⟩ := List.append_inj' left rfl
      rw [← same,(List.cons.inj final).1]
      rfl
    · rename_i other
      rw [if_neg other] at left
      cases init' with
      | nil =>
        obtain ⟨same,final⟩ := List.append_inj' (show [] ++ [x::last'] = init ++ [last] from left) rfl
        rw [← same,← (List.cons.inj final).1]
        rfl
      | cons h tail =>
        obtain ⟨same,final⟩ := List.append_inj' (show (x::h)::tail ++ [last'] = init ++ [last] from left) rfl
        rw [← same,(List.cons.inj final).1]
        rfl

theorem splitOnBefore {sep mark : Char} (ne : sep ≠ mark) (t : Text) :
    (t.splitOn sep).map (before mark) =
      (before mark t).splitOn sep ++ ((after mark t).splitOn sep).tail.map (before mark) := by
  induction t with
  | nil => simp [before,after]
  | cons x rest ih =>
    rw [splitOnCons]
    by_cases marked : x = mark
    · subst marked
      have cut : before x (x::rest) = [] ∧ after x (x::rest) = rest := by simp [before,after]
      rw [if_neg ne.symm,cut.1,cut.2]
      obtain ⟨first,others,split⟩ := splitOnParts sep rest
      simp [split,before]
    · have cut : before mark (x::rest) = x::before mark rest ∧ after mark (x::rest) = after mark rest := by
        simp [before,after,marked]
      rw [cut.1,cut.2,splitOnCons]
      split
      · simp [ih,before]
      · obtain ⟨first,others,split⟩ := splitOnParts sep rest
        obtain ⟨head,tail,inner⟩ := splitOnParts sep (before mark rest)
        rw [split,inner] at ih
        rw [split,inner]
        simp only [List.map_cons,List.cons_append,List.cons.injEq] at ih
        simp [before,marked,ih.2,← ih.1]

theorem splitOnSquash {p : Char → Bool} {sep : Char} (solid : p sep = false) (t : Text) :
    (squash p t).splitOn sep = (t.splitOn sep).map (squash p) := by
  induction t with
  | nil => rfl
  | cons x rest ih =>
    obtain ⟨first,others,split⟩ := splitOnParts sep rest
    rw [split] at ih
    by_cases blank : p x = true
    · have other : x ≠ sep := by rintro rfl; simp [solid] at blank
      have gone : squash p (x::rest) = squash p rest := by simp [squash,blank]
      rw [gone,ih,splitOnCons,if_neg other,split]
      simp [squash,blank]
    · have kept : squash p (x::rest) = x::squash p rest := by simp [squash,blank]
      rw [kept,splitOnCons,splitOnCons,ih,split]
      split
      · simp [squash]
      · simp [squash,blank]

end SplitOn

section Lines

theorem linesNoBreak {t l : Text} (mem : l ∈ lines t) : '\n' ∉ l := by
  induction t generalizing l with
  | nil => simp [lines] at mem
  | cons c rest ih =>
    unfold lines at mem
    split at mem
    · rcases List.mem_cons.mp mem with rfl | later
      · simp
      · exact ih later
    · rename_i ne
      split at mem
      · simp only [List.mem_singleton] at mem
        subst l
        simpa using Ne.symm ne
      · rename_i head tail same
        rcases List.mem_cons.mp mem with rfl | later
        · have inner := ih (l := head) (by rw [same]; simp)
          simpa using ⟨Ne.symm ne,inner⟩
        · exact ih (by rw [same]; exact List.mem_cons_of_mem _ later)

theorem linesSubset {t l : Text} {x} (mem : l ∈ lines t) (inside : x ∈ l) : x ∈ t := by
  induction t generalizing l with
  | nil => simp [lines] at mem
  | cons c rest ih =>
    unfold lines at mem
    split at mem
    · rcases List.mem_cons.mp mem with rfl | later
      · simp at inside
      · exact List.mem_cons_of_mem c (ih later inside)
    · split at mem
      · simp only [List.mem_singleton] at mem
        subst l
        simp only [List.mem_singleton] at inside
        simp [inside]
      · rename_i head tail same
        rcases List.mem_cons.mp mem with rfl | later
        · rcases List.mem_cons.mp inside with rfl | deeper
          · simp
          · exact List.mem_cons_of_mem c (ih (l := head) (by rw [same]; simp) deeper)
        · exact List.mem_cons_of_mem c (ih (by rw [same]; exact List.mem_cons_of_mem _ later) inside)

theorem linesAppendBreak {l : Text} (clean : '\n' ∉ l) (t : Text) :
    lines (l ++ '\n'::t) = l::lines t := by
  induction l with
  | nil => simp [lines]
  | cons c rest ih =>
    simp only [List.mem_cons,not_or] at clean
    simp only [List.cons_append,lines,if_neg (Ne.symm clean.1),ih clean.2]

theorem linesUnlines {ls : List Text} (clean : ∀ l ∈ ls, '\n' ∉ l) : lines (unlines ls) = ls := by
  induction ls with
  | nil => rfl
  | cons l rest ih =>
    have split : unlines (l::rest) = l ++ '\n'::unlines rest := by simp [unlines]
    rw [split,linesAppendBreak (clean l (by simp)),
      ih (fun x hx => clean x (List.mem_cons_of_mem l hx))]

theorem linesSingle {l : Text} (clean : '\n' ∉ l) (solid : l ≠ []) : lines l = [l] := by
  induction l with
  | nil => contradiction
  | cons c rest ih =>
    simp only [List.mem_cons,not_or] at clean
    cases rest with
    | nil => simp [lines,Ne.symm clean.1]
    | cons d tail =>
      have inner := ih clean.2 (by simp)
      rw [lines,if_neg (Ne.symm clean.1),inner]

end Lines
end WebosWireguard.TextLines
