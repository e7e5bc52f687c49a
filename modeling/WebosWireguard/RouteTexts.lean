import WebosWireguard.AllowedIps
import WebosWireguard.RouteList

/-! Route texts as prefixes: what a text of applied-routes stands for, and what grep makes
of the texts that wg accepts as entries. A text with blanks inside or with a sign stands
for nothing, and if one is to be recorded some such text ends up in the list. -/
namespace WebosWireguard.RouteTexts
open TextLines StartText AllowedIps RouteList

/-- Besides ordinary patterns: nothing is found in an empty file, and an address with a minus
sign is taken for options, none of which is a dot. -/
structure GrepDocumented (grepQx : Text → List Text → Bool) : Prop where
  ordinary : GrepOrdinary grepQx
  empty : ∀ pattern, grepQx pattern [] = false
  options : ∀ pattern file, pattern.head? = some '-' → '.' ∈ pattern →
    (∀ c ∈ pattern.tail, c = '.' ∨ c = '/' ∨ c.isDigit = true ∨ isSpace c = true) →
    grepQx pattern file = false

def denoted (inet : Inet) (route : Text) : Option (Nat × Nat) :=
  match parsePlain inet route with
  | some (.v4 a,cidr) => some (a,cidr)
  | _ => none

def Plain (piece : Text) : Prop := ∀ c ∈ piece, isSpace c = false ∧ c ≠ '+' ∧ c ≠ '-'

instance (piece : Text) : Decidable (Plain piece) := by unfold Plain; infer_instance

section Texts
variable {inet : Inet} (documented : inet.Documented)

theorem denotedSome {route : Text} {x : Nat × Nat} :
    denoted inet route = some x ↔ parsePlain inet route = some (.v4 x.1,x.2) := by
  unfold denoted
  split
  · rename_i a cidr read
    rw [read]
    simp [Prod.ext_iff]
  · rename_i other
    refine iff_of_false (by simp) (fun read => ?_)
    exact other x.1 x.2 read

def PrefixChar (c : Char) : Prop := c = '.' ∨ c = '/' ∨ c.isDigit = true

theorem charPlain {c : Char} (valid : PrefixChar c) :
    isSpace c = false ∧ c ≠ '+' ∧ c ≠ '-' ∧ c ≠ ':' ∧ c ∉ ['\\','[','*','^','$','\n'] := by
  rcases valid with rfl | rfl | digit
  · decide
  · decide
  · simp only [Char.isDigit,Bool.and_eq_true,decide_eq_true_eq] at digit
    have low : 48 ≤ c.toNat := digit.1
    have high : c.toNat ≤ 57 := digit.2
    refine ⟨by simp [isSpace]; omega,?_,?_,?_,?_⟩
    · rintro rfl; revert low; decide
    · rintro rfl; revert low; decide
    · rintro rfl; revert high; decide
    · intro mem
      simp only [List.mem_cons,List.not_mem_nil,or_false] at mem
      rcases mem with rfl | rfl | rfl | rfl | rfl | rfl <;> revert low high <;> decide

include documented

theorem denotedText {route : Text} {x : Nat × Nat} (read : denoted inet route = some x) :
    route.count '.' = 3 ∧ ∀ c ∈ route, PrefixChar c :=
  parsePlainText documented (denotedSome.mp read)

theorem denotedOrdinary {route : Text} {x : Nat × Nat} (read : denoted inet route = some x) :
    Plain route ∧ Ordinary route := by
  obtain ⟨_,valid⟩ := denotedText documented read
  refine ⟨fun c mem => ?_,fun head => ?_,fun c mem => (charPlain (valid c mem)).2.2.2.2⟩
  · obtain ⟨solid,plus,minus,_,_⟩ := charPlain (valid c mem)
    exact ⟨solid,plus,minus⟩
  · exact (charPlain (valid '-' (List.mem_of_mem_head? head))).2.2.1 rfl

omit documented in
theorem denotedMasked {base digits : Text} {a n : Nat} (plain : ':' ∉ base) (whole : '/' ∉ base)
    (read : inet.pton4 base = some a) (mask : parseCidr (.v4 a) (some digits) = some n) :
    denoted inet (base ++ '/'::digits) = some (a,n) := by
  obtain ⟨first,rest⟩ := cutFirst whole digits
  rw [denotedSome]
  simp [parsePlain,parseIp,first,rest,plain,read,mask]

theorem halvesDenoted : [lowerHalf,upperHalf].map (denoted inet) = [some (0,1),some (2^31,1)] := by
  have first : denoted inet ("0.0.0.0".toList ++ '/'::['1']) = some (0,1) :=
    denotedMasked (by decide) (by decide) documented.zero rfl
  have second : denoted inet ("128.0.0.0".toList ++ '/'::['1']) = some (2^31,1) :=
    denotedMasked (by decide) (by decide) documented.half rfl
  rw [← first,← second]
  rfl

theorem defaultDenoted : denoted inet defaultRoute = some (0,0) := by
  have read : denoted inet ("0.0.0.0".toList ++ '/'::['0']) = some (0,0) :=
    denotedMasked (by decide) (by decide) documented.zero rfl
  exact read

end Texts

section Entries
variable {inet : Inet} {s : Text} {e : AllowedIp}

theorem entryFilled (documented : inet.Documented) (read : parseEntry inet s = some e) : s ≠ [] := by
  intro same
  subst same
  obtain ⟨sign,body,empty,_,plain⟩ := parseEntryBody read
  obtain ⟨_,rfl⟩ := List.append_eq_nil_iff.mp empty.symm
  cases family : e.ip with
  | v4 a =>
    rw [family] at plain
    exact absurd (parsePlainText documented plain).1 (by decide)
  | v6 a =>
    rw [family] at plain
    exact absurd (parsePlainV6 plain) (by decide)

/- add_route tells the families apart by the colon, as parse_ip does. -/
theorem entryColon (documented : inet.Documented) (read : parseEntry inet s = some e) :
    ':' ∈ s ↔ ∃ a, e.ip = .v6 a := by
  obtain ⟨sign,body,rfl,signed,plain⟩ := parseEntryBody read
  have front : ':' ∉ sign := fun mem => by rcases signed ':' mem with h | h <;> simp at h
  cases family : e.ip with
  | v4 a =>
    rw [family] at plain
    obtain ⟨_,valid⟩ := parsePlainText documented plain
    have back : ':' ∉ body := fun mem => (charPlain (valid ':' mem)).2.2.2.1 rfl
    simp [front,back]
  | v6 a =>
    rw [family] at plain
    simp [parsePlainV6 plain]

end Entries

theorem visibleChar {p : Text} {c : Char} (mem : c ∈ p) : isSpace c = true ∨ c ∈ squash isSpace p := by
  cases blank : isSpace c with
  | true => exact .inl rfl
  | false => exact .inr (by simp [squash,mem,blank])

theorem colonSeen {piece : Text} : ':' ∈ squash isSpace piece ↔ ':' ∈ piece := by
  simp [squash,isSpace]

theorem plainEntry {inet : Inet} {piece : Text} {e : AllowedIp} (plain : Plain piece)
    (read : parseEntry inet (squash isSpace piece) = some e) :
    e.removeMe = false ∧ parsePlain inet piece = some (e.ip,e.cidr) := by
  rw [squashSelf (fun c mem => (plain c mem).1)] at read
  rcases parseEntryShape read with ⟨head,_,_⟩ | ⟨head,_,_⟩ | ⟨_,kept,body⟩
  · exact absurd rfl (plain '-' (List.mem_of_mem_head? head)).2.2
  · exact absurd rfl (plain '+' (List.mem_of_mem_head? head)).2.1
  · exact ⟨kept,body⟩

section Recording
variable {inet : Inet} (documented : inet.Documented) {grepQx : Text → List Text → Bool}
  (grep : GrepDocumented grepQx) {rs : List Text}
include documented grep

theorem prefixRecorded {r : Text} {x : Nat × Nat} (read : denoted inet r = some x) (mem : r ∈ rs) :
    r ∈ rs.foldl (recordRoute grepQx) [] ∨
      ∃ q ∈ rs.foldl (recordRoute grepQx) [], denoted inet q = none := by
  rcases recordedFound mem with here | ⟨seen,stay,found⟩
  · exact .inl here
  rw [grep.ordinary r seen (denotedOrdinary documented read).2,List.any_eq_true] at found
  obtain ⟨q,old,matches_⟩ := found
  cases other : denoted inet q with
  | none => exact .inr ⟨q,stay q old,other⟩
  | some y =>
    have dots := (denotedText documented other).1.trans (denotedText documented read).1.symm
    rw [dotMatchEq matches_ dots]
    exact .inl (stay q old)

theorem allRecorded (denotes : ∀ r ∈ rs, denoted inet r ≠ none) (r : Text) :
    r ∈ rs.foldl (recordRoute grepQx) [] ↔ r ∈ rs := by
  have from_ : ∀ q, q ∈ rs.foldl (recordRoute grepQx) [] → q ∈ rs :=
    fun q mem => (recordedFrom mem).resolve_left (by simp)
  constructor
  · exact from_ r
  · intro mem
    obtain ⟨x,read⟩ := Option.ne_none_iff_exists'.mp (denotes r mem)
    rcases prefixRecorded documented grep read mem with here | ⟨q,old,none⟩
    · exact here
    · exact absurd none (denotes q (from_ q old))

/- A signed address is taken for options whatever blanks stand in it. -/
theorem minusRefused {rest : Text} {e : AllowedIp} {a : Nat} (file : List Text)
    (read : parseEntry inet ('-'::squash isSpace rest) = some e) (family : e.ip = .v4 a) :
    grepQx ('-'::rest) file = false := by
  have body : parsePlain inet (squash isSpace rest) = some (.v4 a,e.cidr) := by
    rcases parseEntryShape read with ⟨_,_,body⟩ | ⟨head,_,_⟩ | ⟨⟨head,_⟩,_,_⟩
    · simpa [family] using body
    · simp at head
    · simp at head
  obtain ⟨dots,valid⟩ := parsePlainText documented body
  have dot : '.' ∈ squash isSpace rest := by
    rw [← List.count_pos_iff,dots]
    decide
  refine grep.options ('-'::rest) file rfl (List.mem_cons_of_mem _ (List.mem_of_mem_filter dot)) ?_
  intro d here
  rcases visibleChar here with blank | seen
  · exact .inr (.inr (.inr blank))
  · rcases valid d seen with h | h | h
    · exact .inl h
    · exact .inr (.inl h)
    · exact .inr (.inr (.inl h))

omit grep in
theorem unsignedOrdinary {p : Text} {e : AllowedIp} {a : Nat}
    (read : parseEntry inet (squash isSpace p) = some e) (family : e.ip = .v4 a)
    (unsigned : (squash isSpace p).head? ≠ some '-') (start : p.head? ≠ some '-') (clean : '\n' ∉ p) :
    Ordinary p := by
  refine ⟨start,fun d here => ?_⟩
  have valid : isSpace d = true ∨ d = '+' ∨ PrefixChar d := by
    rcases visibleChar here with blank | seen
    · exact .inl blank
    rcases parseEntryShape read with ⟨head,_,_⟩ | ⟨head,_,body⟩ | ⟨_,_,body⟩
    · exact absurd head unsigned
    · rw [family] at body
      obtain ⟨rest,split⟩ := List.head?_eq_some_iff.mp head
      rw [split] at seen body
      rcases List.mem_cons.mp seen with plus | later
      · exact .inr (.inl plus)
      · exact .inr (.inr ((parsePlainText documented body).2 d later))
    · rw [family] at body
      exact .inr (.inr ((parsePlainText documented body).2 d seen))
  rcases valid with blank | rfl | valid
  · intro special
    simp only [List.mem_cons,List.not_mem_nil,or_false] at special
    rcases special with rfl | rfl | rfl | rfl | rfl | rfl
    all_goals first | exact clean here | simp [isSpace] at blank
  · decide
  · exact (charPlain valid).2.2.2.2

/- A piece that is not plain leaves a text in the list that is no prefix: itself, or one
that has the same odd character. -/
theorem oddRecorded {p : Text} {e : AllowedIp} {a : Nat}
    (read : parseEntry inet (squash isSpace p) = some e) (family : e.ip = .v4 a)
    (stripped : ∀ c rest, p = c::rest → isSpace c = false) (clean : '\n' ∉ p) (odd : ¬ Plain p)
    (mem : p ∈ rs) : ∃ q ∈ rs.foldl (recordRoute grepQx) [], denoted inet q = none := by
  obtain ⟨c,inside,bad⟩ : ∃ c ∈ p, ¬ (isSpace c = false ∧ c ≠ '+' ∧ c ≠ '-') := by
    simpa [Plain] using odd
  have undenoted : ∀ q : Text, c ∈ q → denoted inet q = none := by
    intro q here
    by_contra read
    obtain ⟨x,read⟩ := Option.ne_none_iff_exists'.mp read
    exact bad ((denotedOrdinary documented read).1 c here)
  rcases recordedFound mem with here | ⟨seen,stay,found⟩
  · exact ⟨p,here,undenoted p inside⟩
  obtain ⟨first,rest,rfl⟩ := List.exists_cons_of_ne_nil (List.ne_nil_of_mem inside)
  have kept : squash isSpace (first::rest) = first::squash isSpace rest := by
    simp [squash,stripped first rest rfl]
  by_cases minus : first = '-'
  · subst minus
    rw [kept] at read
    rw [minusRefused documented grep seen read family] at found
    exact absurd found Bool.false_ne_true
  · have ordinary := unsignedOrdinary documented read family (by simpa [kept] using minus)
      (by simpa using minus) clean
    rw [grep.ordinary _ seen ordinary,List.any_eq_true] at found
    obtain ⟨q,old,matches_⟩ := found
    -- only a dot of the pattern may stand for another character
    have solid : c ≠ '.' := by
      intro dot
      subst dot
      exact bad (by decide)
    exact ⟨q,stay q old,undenoted q (dotMatchMem matches_ inside solid)⟩

end Recording

/-! Dotted quads are told apart by grep although every dot of the pattern matches anything. -/

def dottedQuad (route : Text) : Bool :=
  (before '/' route).all (fun c => c == '.' || c.isDigit) && (before '/' route).count '.' == 3 &&
    (after '/' route).all Char.isDigit

/- What add_route puts in the place of one prefix. -/
def halved (route : Text) : List Text := if route = defaultRoute then [lowerHalf,upperHalf] else [route]

theorem nodupEraseDups (l : List Text) : l.eraseDups.Nodup := by
  match l with
  | [] => simp
  | r::rest =>
    rw [List.eraseDups_cons,List.nodup_cons]
    exact ⟨fun mem => by simp [List.mem_eraseDups] at mem,nodupEraseDups _⟩
termination_by l.length
decreasing_by exact Nat.lt_succ_of_le (List.length_filter_le _ _)

theorem quadText {route : Text} (quad : dottedQuad route = true) :
    route.count '.' = 3 ∧ ∀ c ∈ route, PrefixChar c := by
  simp only [dottedQuad,Bool.and_eq_true,List.all_eq_true,Bool.or_eq_true,beq_iff_eq] at quad
  obtain ⟨⟨base,dots⟩,mask⟩ := quad
  have baseChar : ∀ c ∈ before '/' route, PrefixChar c := fun c mem => (base c mem).imp_right .inr
  by_cases slash : '/' ∈ route
  · have noDot : '.' ∉ after '/' route := fun mem => absurd (mask '.' mem) (by decide)
    rw [cutAt slash]
    constructor
    · rw [List.count_append,dots,List.count_cons_of_ne (by decide),List.count_eq_zero_of_not_mem noDot]
    · intro c mem
      rcases List.mem_append.mp mem with inBase | inRest
      · exact baseChar c inBase
      · rcases List.mem_cons.mp inRest with rfl | inMask
        · exact .inr (.inl rfl)
        · exact .inr (.inr (mask c inMask))
  · rw [beforeSelf slash] at dots baseChar
    exact ⟨dots,baseChar⟩

theorem quadExpanded {route : Text} (quad : dottedQuad route = true) : expanded route = halved route := by
  obtain ⟨dots,chars⟩ := quadText quad
  have filled : route ≠ [] := by
    intro empty
    simp [empty] at dots
  have unmarked : route.head? ≠ some '#' := by
    intro mark
    have bad := chars '#' (List.mem_of_mem_head? mark)
    rcases bad with h | h | h <;> exact absurd h (by decide)
  have colon : ':' ∉ route := fun mem => (charPlain (chars ':' mem)).2.2.2.1 rfl
  simp [expanded,halved,filled,unmarked,colon]

theorem quadHalved {route r : Text} (quad : dottedQuad route = true) (mem : r ∈ halved route) : dottedQuad r = true := by
  unfold halved at mem
  split at mem
  · rcases List.mem_pair.mp mem with rfl | rfl <;> decide +kernel
  · rwa [List.mem_singleton.mp mem]

section Quads
variable {grepQx : Text → List Text → Bool} (grep : GrepOrdinary grepQx)
include grep

theorem quadGrep {route : Text} {applied : List Text} (quad : dottedQuad route = true)
    (quads : ∀ r ∈ applied, dottedQuad r = true) : grepQx route applied = true ↔ route ∈ applied := by
  obtain ⟨dots,chars⟩ := quadText quad
  have ordinary : Ordinary route := by
    refine ⟨fun minus => ?_,fun c mem => (charPlain (chars c mem)).2.2.2.2⟩
    exact (charPlain (chars '-' (List.mem_of_mem_head? minus))).2.2.1 rfl
  rw [grep route applied ordinary,List.any_eq_true]
  constructor
  · intro found
    obtain ⟨line,mem,matched⟩ := found
    have same := dotMatchEq matched ((quadText (quads line mem)).1.trans dots.symm)
    rwa [same]
  · intro mem
    exact ⟨route,mem,dotMatchSelf route⟩

theorem quadsRecorded {rs applied : List Text} (quads : ∀ r ∈ applied ++ rs, dottedQuad r = true) :
    rs.foldl (recordRoute grepQx) applied = applied ++ (rs.filter (fun r => !applied.contains r)).eraseDups := by
  induction rs generalizing applied with
  | nil => simp
  | cons r rest ih =>
    have found := quadGrep grep (quads r (by simp)) (fun q mem => quads q (List.mem_append_left _ mem))
    by_cases known : r ∈ applied
    · have skipped : recordRoute grepQx applied r = applied := if_pos (found.mpr known)
      rw [List.foldl_cons,skipped,ih (fun q mem => quads q (by rw [List.mem_append] at mem ⊢; grind)),
        List.filter_cons_of_neg (by simpa using known)]
    · have added : recordRoute grepQx applied r = applied ++ [r] := if_neg (mt found.mp known)
      rw [List.foldl_cons,added,ih (fun q mem => quads q (by simpa using mem)),
        List.filter_cons_of_pos (by simpa using known),List.eraseDups_cons,List.filter_filter]
      have apart : (fun q => !(applied ++ [r]).contains q) = fun q => !q == r && !applied.contains q := by
        funext q
        simp [Bool.and_comm,beq_eq_decide]
      rw [apart,List.append_assoc,List.singleton_append]

/-- add_route over any such list records the prefixes in the order of their first appearance,
each once, with the two halves in the place of the default route. -/
theorem quadRoutesExact {routes : List Text}
    (shaped : ∀ r ∈ routes, r = [] ∨ r.head? = some '#' ∨ ':' ∈ r ∨ dottedQuad r = true) :
    routes.foldl (addRoute grepQx) [] = ((routes.filter dottedQuad).flatMap halved).eraseDups ∧
      (routes.foldl (addRoute grepQx) []).Nodup := by
  have pieces : routes.flatMap expanded = (routes.filter dottedQuad).flatMap halved := by
    induction routes with
    | nil => rfl
    | cons r rest ih =>
      have later := ih (fun q mem => shaped q (List.mem_cons_of_mem r mem))
      by_cases quad : dottedQuad r = true
      · rw [List.filter_cons_of_pos quad,List.flatMap_cons,List.flatMap_cons,later,quadExpanded quad]
      · have skipped : expanded r = [] := by
          rcases shaped r (by simp) with h | h | h | h
          · simp [expanded,h]
          · simp [expanded,h]
          · simp [expanded,h]
          · exact absurd h quad
        rw [List.filter_cons_of_neg quad,List.flatMap_cons,skipped,later,List.nil_append]
  have quads : ∀ r ∈ (routes.filter dottedQuad).flatMap halved, dottedQuad r = true := by
    intro r mem
    obtain ⟨route,listed,inside⟩ := List.mem_flatMap.mp mem
    exact quadHalved (List.mem_filter.mp listed).2 inside
  have recorded : routes.foldl (addRoute grepQx) [] = ((routes.filter dottedQuad).flatMap halved).eraseDups := by
    rw [addRoutesRecorded,pieces,quadsRecorded grep (by simpa using quads)]
    simp
  exact ⟨recorded,recorded ▸ nodupEraseDups _⟩

end Quads

def mixedRoutes : List Text :=
  ["10.0.0.0/8".toList,"1.1.1.11".toList,[],"# all".toList,"0.0.0.0/0".toList,"fd00::/8".toList,"128.0.0.0/1".toList,
    "11.1.1.1".toList,"10.0.0.0/8".toList]

def anyGrep (pattern : Text) (file : List Text) : Bool := file.any (dotMatch pattern)

theorem mixedRoutesExact :
    (∀ r ∈ mixedRoutes, r = [] ∨ r.head? = some '#' ∨ ':' ∈ r ∨ dottedQuad r = true) ∧
      mixedRoutes.foldl (addRoute anyGrep) [] = ((mixedRoutes.filter dottedQuad).flatMap halved).eraseDups ∧
      (mixedRoutes.foldl (addRoute anyGrep) []).Nodup := by
  have shaped : ∀ r ∈ mixedRoutes, r = [] ∨ r.head? = some '#' ∨ ':' ∈ r ∨ dottedQuad r = true := by decide +kernel
  exact ⟨shaped,quadRoutesExact (fun _ _ _ => rfl) shaped⟩

example : mixedRoutes.foldl (addRoute anyGrep) [] =
    ["10.0.0.0/8".toList,"1.1.1.11".toList,lowerHalf,upperHalf,"11.1.1.1".toList] := by decide +kernel

end WebosWireguard.RouteTexts
