import WebosWireguard.UploadMeaning

/-! The address convertConfig chooses, against the entries of the Address lines without
their comments. The code splits a value at its commas before anything is cut off, and the
first Address line with any piece decides. -/
namespace WebosWireguard.AddressChoice
open TextLines ConvertConfig UploadMeaning

/- An entry of the IPv4 family, as the uploader and start.sh tell it. -/
def plain (e : Text) : Bool := !e.contains ':'

def preferred (es : List Text) : Option Text := (es.find? plain).or es.head?

def filled (parts : List Text) : List Text := (parts.map trimSpace).filter (fun e => e ≠ [])

def pieces (v : Text) : List Text := filled (v.splitOn ',')

theorem plainIff {e : Text} : plain e = true ↔ ':' ∉ e := by simp [plain]

theorem filledCons (part : Text) (rest : List Text) :
    filled (part::rest) = if trimSpace part = [] then filled rest else trimSpace part::filled rest := by
  unfold filled
  by_cases empty : trimSpace part = [] <;> simp [empty]

theorem pickAddressChosen (first : Text) (parts : List Text) :
    pickAddress first parts = ((filled parts).find? plain).getD
      (if first = [] then (filled parts).head?.getD [] else first) := by
  induction parts generalizing first with
  | nil => by_cases empty : first = [] <;> simp [pickAddress,filled,empty]
  | cons part rest ih =>
    unfold pickAddress
    dsimp only
    rw [filledCons]
    by_cases empty : trimSpace part = []
    · rw [if_pos empty,if_pos empty,ih]
    · rw [if_neg empty,if_neg empty]
      split
      · rename_i colon
        have ipv6 : ¬ plain (trimSpace part) = true := fun fit => plainIff.mp fit colon
        rw [List.find?_cons_of_neg ipv6,ih]
        by_cases taken : first = [] <;> simp [taken,empty]
      · rename_i colon
        rw [List.find?_cons_of_pos (plainIff.mpr colon)]
        rfl

theorem firstIPv4OrFirstChosen (v : Text) : firstIPv4OrFirst v = (preferred (pieces v)).getD [] := by
  unfold firstIPv4OrFirst preferred pieces
  rw [pickAddressChosen,if_pos rfl]
  cases (filled (v.splitOn ',')).find? plain <;> rfl

theorem preferredMem {es : List Text} {e : Text} (chosen : preferred es = some e) : e ∈ es := by
  unfold preferred at chosen
  cases found : es.find? plain with
  | none =>
    rw [found,Option.none_or] at chosen
    exact List.mem_of_head? chosen
  | some p =>
    rw [found,Option.some_or] at chosen
    cases Option.some.inj chosen
    exact List.mem_of_find?_eq_some found

theorem preferredNone {es : List Text} : preferred es = none ↔ es = [] := by
  unfold preferred
  cases es with
  | nil => simp
  | cons e rest => simp

theorem filledShape {parts : List Text} {e : Text} (mem : e ∈ filled parts) :
    e ≠ [] ∧ trimSpace e = e ∧ ∃ part ∈ parts, ∀ c ∈ e, c ∈ part := by
  simp only [filled,List.mem_filter,List.mem_map] at mem
  obtain ⟨⟨part,inside,rfl⟩,solid⟩ := mem
  exact ⟨by simpa using solid,stripIdem part,part,inside,fun c here => stripSubset here⟩

theorem pieceShape {v e : Text} (mem : e ∈ pieces v) :
    e ≠ [] ∧ ',' ∉ e ∧ trimSpace e = e ∧ ∀ c ∈ e, c ∈ v := by
  obtain ⟨solid,trimmed,part,inside,within⟩ := filledShape mem
  refine ⟨solid,?_,trimmed,fun c here => splitOnSubset inside (within c here)⟩
  exact fun comma => splitOnNoSep inside (within _ comma)

theorem firstIPv4OrFirstEmpty {v : Text} : firstIPv4OrFirst v = [] ↔ pieces v = [] := by
  rw [firstIPv4OrFirstChosen,← preferredNone]
  cases chosen : preferred (pieces v) with
  | none => simp
  | some e => simpa using (pieceShape (preferredMem chosen)).1

theorem piecesFilled {v : Text} : pieces v ≠ [] ↔ ∃ c ∈ v, c ≠ ',' ∧ goSpace c = false := by
  have parts : (∃ part ∈ v.splitOn ',', strip goSpace part ≠ []) ↔ ∃ c ∈ v, c ≠ ',' ∧ goSpace c = false :=
    partsFilled
  rw [← parts]
  simp [pieces,filled,trimSpace]

theorem firstIPv4OrFirstFilled {v : Text} :
    firstIPv4OrFirst v ≠ [] ↔ ∃ c ∈ v, c ≠ ',' ∧ goSpace c = false :=
  (not_congr firstIPv4OrFirstEmpty).trans piecesFilled

/- The first Address value with any piece decides. -/
theorem foldPickChosen (ls : List Text) (address : Text) :
    ls.foldl pick address = if address = [] then
      (((ls.filterMap addressOf).map firstIPv4OrFirst).find? (fun a => a ≠ [])).getD [] else address := by
  induction ls generalizing address with
  | nil =>
    by_cases empty : address = [] <;> simp [empty]
  | cons raw rest ih =>
    rw [List.foldl_cons,ih]
    unfold pick
    cases found : addressOf raw with
    | none => simp [found]
    | some v =>
      by_cases empty : address = []
      · by_cases blank : firstIPv4OrFirst v = [] <;> simp [empty,blank,found]
      · simp [empty]

theorem foldPickFilled {ls : List Text} {address : Text} :
    ls.foldl pick address ≠ [] ↔
      address ≠ [] ∨ ∃ raw ∈ ls, ∃ v, addressOf raw = some v ∧ firstIPv4OrFirst v ≠ [] := by
  rw [foldPickChosen]
  by_cases empty : address = []
  · rw [if_pos empty]
    cases found : ((ls.filterMap addressOf).map firstIPv4OrFirst).find? (fun a => a ≠ []) with
    | none =>
      rw [List.find?_eq_none] at found
      simp only [Option.getD_none,ne_eq,not_true_eq_false,empty,false_or,false_iff]
      intro given
      obtain ⟨raw,mem,v,value,solid⟩ := given
      exact found _ (List.mem_map_of_mem (List.mem_filterMap.mpr ⟨raw,mem,value⟩)) (by simpa using solid)
    | some a =>
      have solid : a ≠ [] := by simpa using List.find?_some found
      obtain ⟨v,listed,rfl⟩ := List.mem_map.mp (List.mem_of_find?_eq_some found)
      obtain ⟨raw,mem,value⟩ := List.mem_filterMap.mp listed
      exact ⟨fun _ => .inr ⟨raw,mem,v,value,solid⟩,fun _ => solid⟩
  · simp [empty]

theorem addressOfSubset {raw v : Text} (value : addressOf raw = some v) : ∀ c ∈ v, c ∈ raw := by
  intro c mem
  unfold addressOf at value
  dsimp only at value
  split at value
  · contradiction
  split at value
  · contradiction
  split at value
  · cases Option.some.inj value
    exact scannedSubset (afterSubset (stripSubset mem))
  · contradiction

/- The deciding value, behind values of commas and blanks only. -/
theorem chosenFrom {t converted address : Text} (ok : convertConfig t = .ok (converted,address)) :
    ∃ idle v later, (lines t).filterMap addressOf = idle ++ v::later ∧ (∀ u ∈ idle, pieces u = []) ∧
      preferred (pieces v) = some address := by
  obtain ⟨_,_,same,solid⟩ := convertConfigOk.mp ok
  rw [foldPickChosen,if_pos rfl,List.find?_map] at same
  cases found : ((lines t).filterMap addressOf).find? ((fun a => a ≠ []) ∘ firstIPv4OrFirst) with
  | none =>
    rw [found] at same
    exact absurd same solid
  | some v =>
    obtain ⟨fit,idle,later,split,skipped⟩ := List.find?_eq_some_iff_append.mp found
    refine ⟨idle,v,later,split,fun u mem => ?_,?_⟩
    · have empty := skipped u mem
      exact firstIPv4OrFirstEmpty.mp (by simpa using empty)
    · rw [found,Option.map_some,Option.getD_some,firstIPv4OrFirstChosen] at same
      cases chosen : preferred (pieces v) with
      | none =>
        rw [chosen] at same
        exact absurd same solid
      | some e =>
        rw [chosen,Option.getD_some] at same
        rw [same]

theorem addressPiece {t converted address : Text} (ok : convertConfig t = .ok (converted,address)) :
    ∃ raw ∈ lines t, ∃ v, addressOf raw = some v ∧ address ∈ pieces v := by
  obtain ⟨idle,v,later,split,_,chosen⟩ := chosenFrom ok
  have listed : v ∈ (lines t).filterMap addressOf := by rw [split]; simp
  obtain ⟨raw,mem,value⟩ := List.mem_filterMap.mp listed
  exact ⟨raw,mem,v,value,preferredMem chosen⟩

theorem addressNoBreak {t converted address : Text} (ok : convertConfig t = .ok (converted,address)) :
    '\n' ∉ address := by
  obtain ⟨raw,mem,v,value,inside⟩ := addressPiece ok
  intro broken
  exact linesNoBreak mem (addressOfSubset value _ ((pieceShape inside).2.2.2 _ broken))

/-! The entries without comments, and how the code's pieces differ from them. -/

def entries (v : Text) : List Text := filled ((before '#' v).splitOn ',')

def addressEntries (t : Text) : List Text := ((lines t).filterMap addressOf).flatMap entries

def uncommented (e : Text) : Text := trimSpace (before '#' e)

/- The entries before the last comma of the value, and the one behind it. -/
def front (v : Text) : List Text := filled ((before '#' v).splitOn ',').dropLast
def lastPart (v : Text) : Text := ((before '#' v).splitOn ',').getLast?.getD []
def lastEntry (v : Text) : Text := trimSpace (lastPart v)

/- The comment up to its first comma, which the code reads as one piece with the last entry,
and the pieces it makes of the rest of the comment. -/
def beside (v : Text) : Text := ((after '#' v).splitOn ',').head?.getD []
def behind (v : Text) : List Text := filled ((after '#' v).splitOn ',').tail

def joint (v : Text) : Text :=
  trimSpace (lastPart v ++ if '#' ∈ v then '#'::beside v else [])

def someOf (e : Text) : List Text := if e = [] then [] else [e]

theorem filledAppend (ps qs : List Text) : filled (ps ++ qs) = filled ps ++ filled qs := by
  simp [filled]

theorem filledSingle (part : Text) : filled [part] = someOf (trimSpace part) := filledCons part []

theorem partsSplit (v : Text) :
    (before '#' v).splitOn ',' = ((before '#' v).splitOn ',').dropLast ++ [lastPart v] := by
  have filled := List.splitOn_ne_nil ',' (before '#' v)
  have last : lastPart v = ((before '#' v).splitOn ',').getLast filled := by
    rw [lastPart,List.getLast?_eq_some_getLast filled]
    rfl
  rw [last,List.dropLast_append_getLast filled]

theorem entriesSplit (v : Text) : entries v = front v ++ someOf (lastEntry v) := by
  unfold entries
  rw [partsSplit,filledAppend,filledSingle]
  rfl

theorem piecesSplit (v : Text) : pieces v = front v ++ someOf (joint v) ++ behind v := by
  unfold pieces
  by_cases marked : '#' ∈ v
  · have comment : ('#'::after '#' v).splitOn ',' = ('#'::beside v)::((after '#' v).splitOn ',').tail := by
      obtain ⟨first,rest,split⟩ := splitOnParts ',' (after '#' v)
      rw [splitOnCons,if_neg (by decide),beside,split]
      rfl
    conv_lhs => rw [cutAt marked,splitOnAppend (partsSplit v) comment]
    rw [filledAppend,show ∀ part rest, filled (part::rest) = filled ([part] ++ rest) from fun _ _ => rfl,
      filledAppend,filledSingle,joint,if_pos marked,List.append_assoc]
    rfl
  · have none : behind v = [] := by
      rw [behind,afterAbsent marked]
      rfl
    have same : joint v = lastEntry v := by
      rw [joint,if_neg marked,List.append_nil]
      rfl
    rw [none,same,List.append_nil,← entriesSplit,entries,beforeSelf marked]

theorem uncommentedJoint (v : Text) : uncommented (joint v) = lastEntry v := by
  have clean : '#' ∉ lastPart v := by
    intro mem
    have inside : lastPart v ∈ (before '#' v).splitOn ',' := by
      rw [partsSplit]
      simp
    exact beforeNotMem v (splitOnSubset inside mem)
  unfold uncommented joint trimSpace
  rw [stripBeforeStrip (by decide),beforeAppend clean]
  split
  · simp [before,lastEntry,trimSpace]
  · simp [before,lastEntry,trimSpace]

theorem solidInStrip {t : Text} {c : Char} (solid : goSpace c = false) : c ∈ trimSpace t ↔ c ∈ t :=
  ⟨stripSubset,fun mem => memStrip mem solid⟩

theorem jointPlain (v : Text) : plain (joint v) = (plain (lastEntry v) && plain (beside v)) := by
  have solid : goSpace ':' = false := by decide
  rw [Bool.eq_iff_iff,Bool.and_eq_true]
  simp only [plainIff,joint,lastEntry,solidInStrip solid,List.mem_append,not_or]
  by_cases marked : '#' ∈ v
  · simp [marked]
  · have none : beside v = [] := by
      rw [beside,afterAbsent marked]
      rfl
    simp [marked,none]

theorem jointEmpty (v : Text) : joint v = [] ↔ '#' ∉ v ∧ lastEntry v = [] := by
  constructor
  · intro empty
    by_cases marked : '#' ∈ v
    · have mark : '#' ∈ joint v := by
        rw [joint,solidInStrip (by decide)]
        simp [marked]
      rw [empty] at mark
      simp at mark
    · refine ⟨marked,?_⟩
      rw [← uncommentedJoint,empty]
      rfl
  · intro given
    rw [joint,if_neg given.1,List.append_nil]
    exact given.2

theorem entryClean {v e : Text} (mem : e ∈ entries v) : e ≠ [] ∧ uncommented e = e := by
  obtain ⟨solid,trimmed,part,inside,within⟩ := filledShape mem
  have clean : '#' ∉ e := fun mark => beforeNotMem v (splitOnSubset inside (within _ mark))
  exact ⟨solid,by rw [uncommented,beforeSelf clean,trimmed]⟩

/-! When the two readings of the deciding line end in the same address. -/

/- An IPv4 entry that no comment reaches; or the last entry is one, and its comment hides it
from the code only where the same text results; or there is none, and neither the later
lines nor the pieces of the comment offer another one. -/
def LineClear (v : Text) (later : List Text) : Prop :=
  (∃ e ∈ front v, plain e = true) ∨
  (lastEntry v ≠ [] ∧ plain (lastEntry v) = true ∧
    (plain (beside v) = true ∨ ((behind v).find? plain).map uncommented = some (lastEntry v) ∨
      ((behind v).find? plain = none ∧ front v = []))) ∨
  ((∀ e ∈ entries v, plain e = false) ∧ ('#' ∈ v → lastEntry v = [] → plain (beside v) = false) ∧
    (entries v ≠ [] ∨ ∃ e ∈ behind v, plain e = true) ∧
    (later.flatMap entries).find? plain = ((behind v).find? plain).map uncommented)

section Reading
variable {v address : Text} {later : List Text} (chosen : preferred (pieces v) = some address)

theorem preferredFound {es : List Text} {e : Text} (found : es.find? plain = some e) :
    preferred es = some e := by
  rw [preferred,found]
  rfl

theorem preferredHead {es : List Text} (absent : es.find? plain = none) : preferred es = es.head? := by
  rw [preferred,absent,Option.none_or]

theorem findSomeOf (e : Text) :
    (someOf e).find? plain = if e ≠ [] ∧ plain e = true then some e else none := by
  unfold someOf
  by_cases empty : e = []
  · simp [empty]
  · by_cases fit : plain e = true <;> simp [empty,fit]

theorem frontPlain {e : Text} (found : (front v).find? plain = some e) :
    (pieces v).find? plain = some e ∧ ∀ es, (entries v ++ es).find? plain = some e := by
  rw [piecesSplit]
  constructor
  · rw [List.find?_append,List.find?_append,found]
    rfl
  · intro es
    rw [entriesSplit,List.find?_append,List.find?_append,found]
    rfl

theorem frontEntry {e : Text} (mem : e ∈ front v) : e ∈ entries v := by
  rw [entriesSplit]
  exact List.mem_append_left _ mem

theorem unmarkedBehind (empty : joint v = []) : behind v = [] := by
  rw [behind,afterAbsent ((jointEmpty v).mp empty).1]
  rfl

theorem shadowedFind (front_ : (front v).find? plain = none)
    (shadowed : ¬ (joint v ≠ [] ∧ plain (joint v) = true)) : (pieces v).find? plain = (behind v).find? plain := by
  rw [piecesSplit,List.find?_append,List.find?_append,front_,findSomeOf,if_neg shadowed]
  rfl

/- Without an IPv4 piece the code takes the first piece, which is no piece of the comment. -/
theorem shadowedHead (piece : pieces v ≠ []) :
    (pieces v).head? = some ((front v).head?.getD (joint v)) := by
  rw [piecesSplit] at piece ⊢
  cases lead : front v with
  | cons i rest => rfl
  | nil =>
    have solid : joint v ≠ [] := by
      intro empty
      apply piece
      rw [lead,empty,unmarkedBehind empty]
      rfl
    simp [someOf,solid]

theorem firstEntry (filled : entries v ≠ []) :
    (entries v).head? = some (uncommented ((front v).head?.getD (joint v))) := by
  cases lead : front v with
  | cons i rest =>
    have inside : i ∈ front v := by rw [lead]; simp
    rw [entriesSplit,lead]
    simp [(entryClean (frontEntry inside)).2]
  | nil =>
    rw [entriesSplit,lead] at filled ⊢
    have solid : lastEntry v ≠ [] := by
      intro empty
      simp [someOf,empty] at filled
    simp [someOf,solid,uncommentedJoint]

theorem firstBlank (empty : entries v = []) : uncommented ((front v).head?.getD (joint v)) = [] := by
  rw [entriesSplit,List.append_eq_nil_iff] at empty
  have blank : lastEntry v = [] := by
    by_contra solid
    simp [someOf,solid] at empty
  rw [empty.1]
  exact (uncommentedJoint v).trans blank

theorem plainUncommented {e : Text} (fit : plain e = true) : plain (uncommented e) = true :=
  plainIff.mpr (fun colon => plainIff.mp fit (beforeSubset (stripSubset colon)))

theorem laterFilled {e : Text} (mem : e ∈ later.flatMap entries) : e ≠ [] := by
  obtain ⟨u,_,inside⟩ := List.mem_flatMap.mp mem
  exact (entryClean inside).1

theorem entriesAbsent (absent : ∀ e ∈ entries v, plain e = false) : (entries v).find? plain = none := by
  rw [List.find?_eq_none]
  intro e mem
  simp [absent e mem]

theorem frontAbsent (absent : ∀ e ∈ entries v, plain e = false) : (front v).find? plain = none := by
  rw [List.find?_eq_none]
  intro e mem
  simp [absent e (frontEntry mem)]

include chosen

theorem lastPlainIff (front_ : (front v).find? plain = none)
    (own : lastEntry v ≠ [] ∧ plain (lastEntry v) = true) :
    lastEntry v = uncommented address ↔
      plain (beside v) = true ∨ ((behind v).find? plain).map uncommented = some (lastEntry v) ∨
        ((behind v).find? plain = none ∧ front v = []) := by
  have solid : joint v ≠ [] := fun empty => own.1 ((jointEmpty v).mp empty).2
  by_cases shown : plain (beside v) = true
  · have fit : plain (joint v) = true := by rw [jointPlain,own.2,shown]; rfl
    have found : (pieces v).find? plain = some (joint v) := by
      rw [piecesSplit,List.find?_append,List.find?_append,front_,findSomeOf,if_pos ⟨solid,fit⟩]
      rfl
    cases Option.some.inj ((preferredFound found).symm.trans chosen)
    simp [shown,uncommentedJoint]
  · have shadowed : ¬ (joint v ≠ [] ∧ plain (joint v) = true) := by
      rw [jointPlain,own.2,Bool.true_and]
      exact fun given => shown given.2
    have same := shadowedFind front_ shadowed
    cases found : (behind v).find? plain with
    | some w =>
      cases Option.some.inj ((preferredFound (same.trans found)).symm.trans chosen)
      simp only [shown,Option.map_some,Option.some.injEq,reduceCtorEq,false_and,or_false,false_or]
      exact eq_comm
    | none =>
      rw [preferredHead (same.trans found),shadowedHead (fun empty => by simp [empty] at chosen)] at chosen
      cases Option.some.inj chosen
      cases lead : front v with
      | nil => simp [uncommentedJoint]
      | cons i rest =>
        have inside : i ∈ front v := by rw [lead]; simp
        have other : lastEntry v ≠ i := by
          intro eq
          exact List.find?_eq_none.mp front_ i inside (eq ▸ own.2)
        simp [shown,(entryClean (frontEntry inside)).2,other]

theorem exposedFails (absent : ∀ e ∈ entries v, plain e = false) (exposed : joint v ≠ [] ∧ plain (joint v) = true) :
    uncommented address = [] ∧ '#' ∈ v ∧ lastEntry v = [] ∧ plain (beside v) = true := by
  have fits := exposed.2
  rw [jointPlain,Bool.and_eq_true] at fits
  have blank : lastEntry v = [] := by
    by_contra filled
    have inside : lastEntry v ∈ entries v := by
      rw [entriesSplit]
      simp [someOf,filled]
    rw [absent _ inside] at fits
    exact absurd fits.1 (by simp)
  have marked : '#' ∈ v := by
    by_contra unmarked
    exact exposed.1 ((jointEmpty v).mpr ⟨unmarked,blank⟩)
  have found : (pieces v).find? plain = some (joint v) := by
    rw [piecesSplit,List.find?_append,List.find?_append,frontAbsent absent,findSomeOf,if_pos exposed]
    rfl
  cases Option.some.inj ((preferredFound found).symm.trans chosen)
  exact ⟨(uncommentedJoint v).trans blank,marked,blank,fits.2⟩

omit chosen in
theorem laterFind (later : List Text) (absent : ∀ e ∈ entries v, plain e = false) :
    (entries v ++ later.flatMap entries).find? plain = (later.flatMap entries).find? plain := by
  rw [List.find?_append,entriesAbsent absent,Option.none_or]

/- The code takes a plain piece that stands in the comment. -/
theorem offeredIff {w : Text} (absent : ∀ e ∈ entries v, plain e = false)
    (shadowed : ¬ (joint v ≠ [] ∧ plain (joint v) = true)) (found : (behind v).find? plain = some w) :
    preferred (entries v ++ later.flatMap entries) = some (uncommented address) ↔
      (later.flatMap entries).find? plain = some (uncommented w) := by
  have same := shadowedFind (frontAbsent absent) shadowed
  have rest := laterFind later absent
  cases Option.some.inj ((preferredFound (same.trans found)).symm.trans chosen)
  have fit : plain (uncommented address) = true := plainUncommented (List.find?_some found)
  cases other : (later.flatMap entries).find? plain with
  | some x => rw [preferredFound (rest.trans other)]
  | none =>
    have missing : preferred (entries v ++ later.flatMap entries) ≠ some (uncommented address) := by
      intro given
      exact List.find?_eq_none.mp (rest.trans other) _ (preferredMem given) fit
    simp [missing]

/- There is no plain piece to take, and the code is left with the first one. -/
theorem quietIff (absent : ∀ e ∈ entries v, plain e = false)
    (shadowed : ¬ (joint v ≠ [] ∧ plain (joint v) = true)) (found : (behind v).find? plain = none) :
    preferred (entries v ++ later.flatMap entries) = some (uncommented address) ↔
      entries v ≠ [] ∧ (later.flatMap entries).find? plain = none := by
  have same := shadowedFind (frontAbsent absent) shadowed
  have rest := laterFind later absent
  rw [preferredHead (same.trans found),shadowedHead (fun empty => by simp [empty] at chosen)] at chosen
  have first := Option.some.inj chosen
  cases other : (later.flatMap entries).find? plain with
  | some x =>
    have fit : plain x = true := List.find?_some other
    have solid := laterFilled (List.mem_of_find?_eq_some other)
    have differs : x ≠ uncommented address := by
      intro eq
      by_cases empty : entries v = []
      · exact solid (eq.trans (by rw [← first]; exact firstBlank empty))
      · have inside := List.mem_of_head? (firstEntry empty)
        rw [first,← eq] at inside
        rw [absent x inside] at fit
        contradiction
    rw [preferredFound (rest.trans other)]
    simp [differs]
  | none =>
    rw [preferredHead (rest.trans other)]
    by_cases empty : entries v = []
    · have blank : uncommented address = [] := by rw [← first]; exact firstBlank empty
      have missing : (later.flatMap entries).head? ≠ some [] :=
        fun given => laterFilled (List.mem_of_head? given) rfl
      simp [empty,blank,missing]
    · rw [List.head?_append_of_ne_nil _ empty,firstEntry empty,first]
      simp [empty]

theorem shadowedIff (absent : ∀ e ∈ entries v, plain e = false)
    (shadowed : ¬ (joint v ≠ [] ∧ plain (joint v) = true)) :
    preferred (entries v ++ later.flatMap entries) = some (uncommented address) ↔
      (entries v ≠ [] ∨ ∃ e ∈ behind v, plain e = true) ∧
        (later.flatMap entries).find? plain = ((behind v).find? plain).map uncommented := by
  cases found : (behind v).find? plain with
  | some w =>
    have offered : ∃ e ∈ behind v, plain e = true := ⟨w,List.mem_of_find?_eq_some found,List.find?_some found⟩
    rw [offeredIff chosen absent shadowed found,Option.map_some]
    exact (and_iff_right (.inr offered)).symm
  | none =>
    have quiet : ¬ ∃ e ∈ behind v, plain e = true := by
      intro given
      obtain ⟨e,mem,fit⟩ := given
      exact List.find?_eq_none.mp found e mem fit
    rw [quietIff chosen absent shadowed found,or_iff_left quiet,Option.map_none]

theorem noPlainIff (absent : ∀ e ∈ entries v, plain e = false) :
    preferred (entries v ++ later.flatMap entries) = some (uncommented address) ↔
      ('#' ∈ v → lastEntry v = [] → plain (beside v) = false) ∧
        (entries v ≠ [] ∨ ∃ e ∈ behind v, plain e = true) ∧
          (later.flatMap entries).find? plain = ((behind v).find? plain).map uncommented := by
  by_cases exposed : joint v ≠ [] ∧ plain (joint v) = true
  · obtain ⟨cut,marked,blank,fit⟩ := exposedFails chosen absent exposed
    constructor
    · intro given
      rw [cut] at given
      rcases List.mem_append.mp (preferredMem given) with here | there
      · exact absurd rfl (entryClean here).1
      · exact absurd rfl (laterFilled there)
    · intro given
      exact absurd (given.1 marked blank) (by simp [fit])
  · have hidden : '#' ∈ v → lastEntry v = [] → plain (beside v) = false := by
      intro marked blank
      have shown := not_and.mp exposed (fun empty => ((jointEmpty v).mp empty).1 marked)
      rw [jointPlain,blank] at shown
      simpa [plain] using shown
    rw [shadowedIff chosen absent exposed]
    exact (and_iff_right hidden).symm

theorem lineClearIff :
    preferred (entries v ++ later.flatMap entries) = some (uncommented address) ↔ LineClear v later := by
  unfold LineClear
  cases front_ : (front v).find? plain with
  | some e =>
    obtain ⟨read,given⟩ := frontPlain front_
    have inside := List.mem_of_find?_eq_some front_
    cases Option.some.inj ((preferredFound read).symm.trans chosen)
    rw [preferredFound (given _),(entryClean (frontEntry inside)).2]
    simp only [true_iff]
    exact .inl ⟨_,inside,List.find?_some front_⟩
  | none =>
    have early : ¬ ∃ e ∈ front v, plain e = true := by
      intro given
      obtain ⟨e,mem,fit⟩ := given
      exact List.find?_eq_none.mp front_ e mem fit
    by_cases own : lastEntry v ≠ [] ∧ plain (lastEntry v) = true
    · have inside : lastEntry v ∈ entries v := by
        rw [entriesSplit]
        simp [someOf,own.1]
      have found : (entries v ++ later.flatMap entries).find? plain = some (lastEntry v) := by
        rw [entriesSplit,List.find?_append,List.find?_append,front_,findSomeOf,if_pos own]
        rfl
      have present : ¬ ∀ e ∈ entries v, plain e = false := by
        intro all
        rw [all _ inside] at own
        exact absurd own.2 (by simp)
      rw [preferredFound found,Option.some.injEq,lastPlainIff chosen front_ own]
      simp [early,own.1,own.2,present]
    · have absent : ∀ e ∈ entries v, plain e = false := by
        intro e mem
        rw [entriesSplit] at mem
        rcases List.mem_append.mp mem with here | last
        · simpa using List.find?_eq_none.mp front_ e here
        · unfold someOf at last
          split at last
          · simp at last
          · rename_i filled
            rw [List.mem_singleton.mp last]
            simpa using not_and.mp own filled
      rw [noPlainIff chosen absent]
      have other : ¬ (lastEntry v ≠ [] ∧ plain (lastEntry v) = true ∧
          (plain (beside v) = true ∨ ((behind v).find? plain).map uncommented = some (lastEntry v) ∨
            ((behind v).find? plain = none ∧ front v = []))) := fun given => own ⟨given.1,given.2.1⟩
      simp only [early,other,false_or]
      exact (and_iff_right absent).symm

end Reading

/- A value of commas and blanks only, which leaves the choice to a later line. -/
def idle (v : Text) : Bool := v.all (fun c => c == ',' || goSpace c)

def AddressClear (t : Text) : Prop :=
  match ((lines t).filterMap addressOf).dropWhile idle with
  | [] => False
  | v::later => LineClear v later

theorem idleIff {v : Text} : idle v = true ↔ pieces v = [] := by
  rw [← not_iff_not,← ne_eq (pieces v),piecesFilled]
  simp [idle]

/-- The address of an accepted file is its first IPv4 entry, or its first entry, exactly
when the deciding Address line is clear. -/
theorem chosenAddressIff {t converted address : Text} (ok : convertConfig t = .ok (converted,address)) :
    preferred (addressEntries t) = some (uncommented address) ↔ AddressClear t := by
  obtain ⟨skipped,v,later,split,none_,chosen⟩ := chosenFrom ok
  have deciding : ¬ idle v = true := by
    intro empty
    rw [idleIff.mp empty] at chosen
    simp [preferred] at chosen
  have reached : (skipped ++ v::later).dropWhile idle = v::later := by
    rw [List.dropWhile_append_of_pos (fun u mem => idleIff.mpr (none_ u mem)),
      List.dropWhile_cons_of_neg deciding]
  have nothing : skipped.flatMap entries = [] := by
    rw [List.flatMap_eq_nil_iff]
    intro u mem
    have empty := none_ u mem
    rw [piecesSplit,List.append_eq_nil_iff,List.append_eq_nil_iff] at empty
    have gone : joint u = [] := by
      by_contra solid
      simp [someOf,solid] at empty
    rw [entriesSplit,empty.1.1,((jointEmpty u).mp gone).2]
    rfl
  unfold AddressClear addressEntries
  rw [split,reached,List.flatMap_append,nothing,List.flatMap_cons,List.nil_append]
  exact lineClearIff chosen

def dualStack : Text := "[Interface]\nAddress = fd00::2/64, 10.0.0.2/32 # home\nAddress = 10.0.0.3/32\n".toList

theorem dualStackChosen :
    convertConfig dualStack = .ok ("[Interface]\n".toList,"10.0.0.2/32 # home".toList) ∧ AddressClear dualStack ∧
      preferred (addressEntries dualStack) = some (uncommented "10.0.0.2/32 # home".toList) := by
  have ok : convertConfig dualStack = .ok ("[Interface]\n".toList,"10.0.0.2/32 # home".toList) := rfl
  have clear : AddressClear dualStack := .inr (.inl ⟨by decide,by decide,.inl (by decide)⟩)
  exact ⟨ok,clear,(chosenAddressIff ok).mpr clear⟩

def twoAddressLines : Text := "[Interface]\nAddress = fd00::2/64\nAddress = 10.0.0.2/32\n".toList

/- The IPv4 address of the second line is given, and the IPv6 address of the first is taken. -/
theorem laterIPv4Ignored :
    convertConfig twoAddressLines = .ok ("[Interface]\n".toList,"fd00::2/64".toList) ∧
      (addressEntries twoAddressLines).find? plain = some "10.0.0.2/32".toList ∧
        preferred (addressEntries twoAddressLines) ≠ some (uncommented "fd00::2/64".toList) :=
  ⟨rfl,by decide,by decide⟩

end WebosWireguard.AddressChoice
