import WebosWireguard.AllowedLines
import WebosWireguard.TunnelScripts

/-! What start.sh and the Config view print of two files that differ in their keys only.
Both views pass each line through the same two patterns, start.sh after its own filter.
autostart.log receives what start.sh prints and is not modelled on its own. -/
namespace WebosWireguard.KeyRedaction
open ShellScript ShellScript.Script TextLines WgReader UploadMeaning AllowedLines TunnelScripts
open StartText (trim trimEq quickLine quickKeys setconfLines makeWgSetconfFile linesMakeWgSetconfFile)

def secretKeys : List Text := ["PrivateKey".toList,"PresharedKey".toList]

/- A key entry without its value. -/
structure Place where
  head : Text
  gap : Text
  tail : Text
  named : ∃ key ∈ secretKeys, lower (squash isSpace head) = lower key
  blank : ∀ c ∈ gap, isSpace c = true
  ended : ∀ c ∈ before '#' tail, isSpace c = true

structure Value (v : Text) : Prop where
  filled : v ≠ []
  unmarked : '#' ∉ v
  solid : strip isSpace v = v

def Place.line (p : Place) (v : Text) : Text := p.head ++ '='::(p.gap ++ v ++ p.tail)

/-- Two lines that are equal but for the value of a key entry. -/
inductive Differ : Text → Text → Prop where
  | same (l : Text) : Differ l l
  | value (p : Place) {u v : Text} (left : Value u) (right : Value v) : Differ (p.line u) (p.line v)

namespace Place
variable (p : Place)

theorem headPlain {c : Char} (visible : isSpace c = false) (fixed : c.toLower = c)
    (absent : ∀ key ∈ secretKeys, c ∉ lower key) : c ∉ p.head := by
  intro mem
  obtain ⟨key,known,same⟩ := p.named
  have inside : c ∈ squash isSpace p.head := List.mem_filter.mpr ⟨mem,by simp [visible]⟩
  exact lowerNotMem same fixed (absent key known) inside

theorem headEquals : '=' ∉ p.head := p.headPlain (by decide) (by decide) (by decide +kernel)
theorem headMark : '#' ∉ p.head := p.headPlain (by decide) (by decide) (by decide +kernel)
theorem headBracket : '[' ∉ p.head := p.headPlain (by decide) (by decide) (by decide +kernel)

theorem headFilled : squash isSpace p.head ≠ [] := by
  intro empty
  obtain ⟨key,known,same⟩ := p.named
  rw [empty] at same
  have filled : ∀ key ∈ secretKeys, lower key ≠ [] := by decide +kernel
  exact filled key known same.symm

theorem gapMark : '#' ∉ p.gap := by
  intro mem
  have h := p.blank '#' mem
  simp [isSpace] at h

theorem lineBefore {v : Text} (value : Value v) :
    before '#' (p.line v) = p.head ++ '='::(p.gap ++ v ++ before '#' p.tail) := by
  have lead : '#' ∉ p.head ++ '='::(p.gap ++ v) := by
    simp [p.headMark,p.gapMark,value.unmarked]
  have split : p.line v = (p.head ++ '='::(p.gap ++ v)) ++ p.tail := by simp [line]
  rw [split,beforeAppend lead]
  simp

theorem lineCleaned {v : Text} (value : Value v) :
    cleaned (p.line v) = squash isSpace p.head ++ '='::squash isSpace v := by
  have visible : squash isSpace ['='] = ['='] := rfl
  rw [cleaned,p.lineBefore value,squashAppend,show '='::(p.gap ++ v ++ before '#' p.tail) =
    ['='] ++ (p.gap ++ v ++ before '#' p.tail) from rfl,squashAppend,squashAppend,squashAppend,
    squashBlank p.blank,squashBlank p.ended,visible]
  simp

end Place

theorem valueSquash {v : Text} (value : Value v) : squash isSpace v ≠ [] := by
  rw [← squashStrip]
  intro empty
  have inside : ∃ c ∈ v, isSpace c = false := stripFilled.mp (by rw [value.solid]; exact value.filled)
  obtain ⟨c,mem,solid⟩ := inside
  rw [squashStrip] at empty
  have kept : c ∈ squash isSpace v := List.mem_filter.mpr ⟨mem,by simp [solid]⟩
  simp [empty] at kept

/- Where the reader sees a key and a value, the line itself is cut at the same sign. -/
theorem cleanedCut {l k x : Text} (shape : cleaned l = k ++ '='::x) (plain : '=' ∉ k) :
    '=' ∈ before '#' l ∧ squash isSpace (before '=' (before '#' l)) = k ∧
      squash isSpace (after '=' (before '#' l)) = x := by
  have present : '=' ∈ before '#' l := by
    have inside : '=' ∈ cleaned l := by rw [shape]; simp
    exact List.mem_of_mem_filter inside
  have absent : '=' ∉ squash isSpace (before '=' (before '#' l)) :=
    fun mem => beforeNotMem _ (List.mem_of_mem_filter mem)
  have whole : squash isSpace (before '=' (before '#' l)) ++ '='::squash isSpace (after '=' (before '#' l)) =
      k ++ '='::x := by
    rw [← shape,cleaned]
    conv_rhs => rw [cutAt present,squashAppend]
    rfl
  have left := cutFirst absent (squash isSpace (after '=' (before '#' l)))
  rw [whole] at left
  have right := cutFirst plain x
  exact ⟨present,left.1.symm.trans right.1,left.2.symm.trans right.2⟩

theorem commentCut (l : Text) : ∃ comment, l = before '#' l ++ comment ∧ before '#' comment = [] := by
  by_cases marked : '#' ∈ l
  · exact ⟨'#'::after '#' l,cutAt marked,by simp [before]⟩
  · exact ⟨[],by rw [beforeSelf marked,List.append_nil],rfl⟩

/- The entries meant here are the ones that wg's reader takes for a key. -/
theorem recognisedIff {l : Text} :
    (∃ key ∈ secretKeys, ∃ x, getValue (cleaned l) (key ++ ['=']) = some x) ↔
      ∃ (p : Place) (v : Text), Value v ∧ l = p.line v := by
  constructor
  · intro given
    obtain ⟨key,known,x,found⟩ := given
    obtain ⟨k,shape,same,filled⟩ := getValueShape found
    have plain : '=' ∉ k := by
      have absent : ∀ key ∈ secretKeys, '=' ∉ lower key := by decide +kernel
      exact lowerNotMem same (by decide) (absent key known)
    obtain ⟨present,named,valued⟩ := cleanedCut shape plain
    obtain ⟨comment,rest,mark⟩ := commentCut l
    obtain ⟨gap,post,split,left,right⟩ := stripSplit isSpace (after '=' (before '#' l))
    have quiet : ∀ c ∈ before '#' (post ++ comment), isSpace c = true := by
      have absent : '#' ∉ post := by
        intro mem
        have h := right '#' mem
        simp [isSpace] at h
      rw [beforeAppend absent,mark,List.append_nil]
      exact right
    refine ⟨⟨before '=' (before '#' l),gap,post ++ comment,⟨key,known,by rw [named]; exact same⟩,left,quiet⟩,
      strip isSpace (after '=' (before '#' l)),⟨?_,?_,stripIdem _⟩,?_⟩
    · intro empty
      rw [← squashStrip,empty] at valued
      exact filled valued.symm
    · exact fun mem => beforeNotMem l (afterSubset (stripSubset mem))
    · conv_lhs => rw [rest,cutAt present,split]
      simp [Place.line]
  · intro given
    obtain ⟨p,v,value,rfl⟩ := given
    obtain ⟨key,known,same⟩ := p.named
    refine ⟨key,known,squash isSpace v,?_⟩
    rw [p.lineCleaned value,getValueKeyed same,if_neg (valueSquash value)]

/-! The patterns on one entry. -/

def Headed (key head : Text) : Prop := ∃ gap, head = key ++ gap ∧ ∀ c ∈ gap, isSpace c = true

theorem redactKeyHit {key head : Text} (headed : Headed key head) (rest : Text) :
    redactKey key (head ++ '='::rest) = head ++ '='::(rest.takeWhile isSpace ++ "REDACTED".toList) := by
  obtain ⟨gap,rfl,blank⟩ := headed
  have split : key ++ gap ++ '='::rest = key ++ (gap ++ '='::rest) := by simp
  have dropped : (gap ++ '='::rest).dropWhile isSpace = '='::rest := by
    rw [List.dropWhile_append_of_pos blank]
    rfl
  have taken : (gap ++ '='::rest).takeWhile isSpace = gap := by
    rw [List.takeWhile_append_of_pos blank]
    simp [isSpace]
  unfold redactKey
  dsimp only
  rw [split,List.take_left,List.drop_left,dropped,taken,if_pos ⟨rfl,rfl⟩]
  simp

theorem redactKeyMiss {key head : Text} (keyPlain : '=' ∉ key) (headPlain : '=' ∉ head)
    (miss : ¬ Headed key head) (rest : Text) : redactKey key (head ++ '='::rest) = head ++ '='::rest := by
  unfold redactKey
  dsimp only
  rw [if_neg]
  intro given
  obtain ⟨taken,next⟩ := given
  by_cases short : head.length < key.length
  · -- the equals sign would stand inside the key
    have inside : '=' ∈ (head ++ '='::rest).take key.length := by
      rw [List.take_append]
      refine List.mem_append_right _ ?_
      obtain ⟨n,size⟩ : ∃ n, key.length - head.length = n + 1 := ⟨key.length - head.length - 1,by omega⟩
      rw [size,List.take_succ_cons]
      exact List.mem_cons_self
    exact keyPlain (taken ▸ inside)
  · have long : key.length ≤ head.length := by omega
    have lead : head = key ++ head.drop key.length := by
      rw [List.take_append_of_le_length long] at taken
      conv_lhs => rw [← List.take_append_drop key.length head,taken]
    rw [List.drop_append_of_le_length long] at next
    refine miss ⟨head.drop key.length,lead,fun c mem => ?_⟩
    by_contra visible
    -- otherwise the first visible character is not the equals sign
    obtain ⟨d,more,first⟩ : ∃ d more, (head.drop key.length).dropWhile isSpace = d::more := by
      cases dropped : (head.drop key.length).dropWhile isSpace with
      | nil => exact absurd (List.dropWhile_eq_nil_iff.mp dropped c mem) visible
      | cons d more => exact ⟨d,more,rfl⟩
    have whole : (head.drop key.length ++ '='::rest).dropWhile isSpace = d::(more ++ '='::rest) := by
      rw [List.dropWhile_append,first]
      rfl
    rw [whole] at next
    have equals : d = '=' := by simpa using next
    have inside : d ∈ head := List.drop_subset _ _ (List.dropWhile_subset _ (by rw [first]; simp))
    exact headPlain (equals ▸ inside)

def Secret (head : Text) : Prop := ∃ key ∈ secretKeys, Headed key head

theorem headedOnce {head : Text} (left : Headed "PrivateKey".toList head) : ¬ Headed "PresharedKey".toList head := by
  intro right
  obtain ⟨gap,split,_⟩ := left
  obtain ⟨gap',split',_⟩ := right
  have third : head.take 3 = "Pri".toList := by rw [split]; rfl
  have third' : head.take 3 = "Pre".toList := by rw [split']; rfl
  exact absurd (third.symm.trans third') (by decide)

section Redact
variable {head : Text} (plain : '=' ∉ head)
include plain

theorem redactHit (known : Secret head) (rest : Text) :
    redact (head ++ '='::rest) = head ++ '='::(rest.takeWhile isSpace ++ "REDACTED".toList) := by
  obtain ⟨key,mem,headed⟩ := known
  unfold redact
  rcases List.mem_pair.mp mem with rfl | rfl
  · rw [redactKeyHit headed,redactKeyMiss (by decide) plain (headedOnce headed)]
  · rw [redactKeyMiss (by decide) plain (fun other => headedOnce other headed),redactKeyHit headed]

theorem redactMiss (unknown : ¬ Secret head) (rest : Text) : redact (head ++ '='::rest) = head ++ '='::rest := by
  have private_ : ¬ Headed "PrivateKey".toList head := fun headed => unknown ⟨_,by simp [secretKeys],headed⟩
  have preshared : ¬ Headed "PresharedKey".toList head := fun headed => unknown ⟨_,by simp [secretKeys],headed⟩
  unfold redact
  rw [redactKeyMiss (by decide) plain private_,redactKeyMiss (by decide) plain preshared]

end Redact

theorem valueLead {v : Text} (value : Value v) (gap tail : Text) (blank : ∀ c ∈ gap, isSpace c = true) :
    (gap ++ v ++ tail).takeWhile isSpace = gap := by
  obtain ⟨c,rest,head⟩ := List.exists_cons_of_ne_nil value.filled
  have visible : isSpace c = false := stripHeadSolid (value.solid.trans head)
  rw [List.append_assoc,List.takeWhile_append_of_pos blank,head]
  simp [visible]

theorem redactLineIff (p : Place) {u v : Text} (left : Value u) (right : Value v) :
    redact (p.line u) = redact (p.line v) ↔ (p.line u ≠ p.line v → Secret p.head) := by
  unfold Place.line
  by_cases known : Secret p.head
  · rw [redactHit p.headEquals known,redactHit p.headEquals known,valueLead left _ _ p.blank,
      valueLead right _ _ p.blank]
    exact iff_of_true rfl (fun _ => known)
  · rw [redactMiss p.headEquals known,redactMiss p.headEquals known]
    exact ⟨fun same differ => absurd same differ,fun given => not_not.mp (fun differ => known (given differ))⟩

/-! The same entry after the filter of start.sh: without leading blanks and without comment. -/

def Place.trimmed (p : Place) : Place where
  head := p.head.dropWhile isSpace
  gap := p.gap
  tail := []
  named := by
    have same : squash isSpace (p.head.dropWhile isSpace) = squash isSpace p.head := by
      conv_rhs => rw [← List.takeWhile_append_dropWhile (p := isSpace) (l := p.head),squashAppend,
        squashBlank (fun c mem => List.mem_takeWhile_imp mem)]
      rfl
    rw [same]
    exact p.named
  blank := p.blank
  ended := by simp [before]

theorem stripEnds {t : Text} (first : ∀ c rest, t = c::rest → isSpace c = false)
    (last : ∀ ne : t ≠ [], isSpace (t.getLast ne) = false) : strip isSpace t = t := by
  have lead : t.dropWhile isSpace = t := by
    cases t with
    | nil => rfl
    | cons c rest => simp [first c rest rfl]
  unfold strip
  rw [lead]
  exact List.rdropWhile_eq_self_iff.mpr (fun ne => by simp [last ne])

theorem trimLine (p : Place) {v : Text} (value : Value v) : trim (p.line v) = p.trimmed.line v := by
  have lead : p.head ++ '='::(p.gap ++ v) = p.head.takeWhile isSpace ++ p.trimmed.line v := by
    simp only [Place.line,Place.trimmed,List.append_nil]
    rw [← List.append_assoc,List.takeWhile_append_dropWhile]
  have split : p.head ++ '='::(p.gap ++ v ++ before '#' p.tail) =
      (p.head ++ '='::(p.gap ++ v)) ++ before '#' p.tail := by simp
  rw [trimEq,p.lineBefore value,split,stripAppendRight p.ended,lead,
    stripAppendLeft (fun c mem => List.mem_takeWhile_imp mem)]
  apply stripEnds
  · intro c rest same
    cases head : p.head.dropWhile isSpace with
    | nil =>
      have blank := List.dropWhile_eq_nil_iff.mp head
      exact absurd (squashBlank blank) p.headFilled
    | cons d more =>
      have own : d = c := by
        have whole : d::(more ++ '='::(p.gap ++ v ++ [])) = c::rest := by
          rw [← same]
          simp [Place.line,Place.trimmed,head]
        exact (List.cons.inj whole).1
      have visible := List.head?_dropWhile_not isSpace p.head
      rw [head] at visible
      simpa [own] using visible
  · intro ne
    have ends : (p.trimmed.line v).getLast ne = v.getLast value.filled := by
      have parts : p.trimmed.line v = (p.trimmed.head ++ '='::p.gap) ++ v := by
        simp [Place.line,Place.trimmed]
      simp only [parts]
      exact List.getLast_append_of_ne_nil _ value.filled
    have stop : strip isSpace v ≠ [] := by rw [value.solid]; exact value.filled
    have solid := List.rdropWhile_last_not isSpace (v.dropWhile isSpace) stop
    have same : (strip isSpace v).getLast stop = v.getLast value.filled := by simp only [value.solid]
    rw [ends,← same]
    simpa [strip] using solid

theorem secretTrimmed {head : Text} (known : Secret head) : Secret (head.dropWhile isSpace) := by
  obtain ⟨key,mem,gap,rfl,blank⟩ := known
  have visible : ∀ key ∈ secretKeys, ∃ c rest, key = c::rest ∧ isSpace c = false := by
    intro key mem
    rcases List.mem_pair.mp mem with rfl | rfl
    · exact ⟨_,_,rfl,by decide⟩
    · exact ⟨_,_,rfl,by decide⟩
  obtain ⟨c,rest,same,solid⟩ := visible key mem
  have stays : (key ++ gap).dropWhile isSpace = key ++ gap := by simp [same,solid]
  rw [stays]
  exact ⟨key,mem,gap,rfl,blank⟩

theorem lineKept (p : Place) {v : Text} (value : Value v) :
    trim (p.line v) ≠ [] ∧ bracketed (trim (p.line v)) = false ∧ quickLine (trim (p.line v)) = false := by
  refine ⟨?_,?_,?_⟩
  · rw [trimLine p value]
    simp [Place.line]
  · rw [trimLine p value]
    by_contra header
    have header : bracketed (p.trimmed.line v) = true := by simpa using header
    simp only [bracketed,Bool.and_eq_true,beq_iff_eq] at header
    have filled : p.trimmed.head ≠ [] := by
      intro empty
      exact p.trimmed.headFilled (by rw [empty]; rfl)
    obtain ⟨c,rest,head⟩ := List.exists_cons_of_ne_nil filled
    have first : c = '[' := by simpa [Place.line,head] using header.1
    exact p.trimmed.headBracket (by rw [head,first]; simp)
  · by_contra quick
    have seen := quickKeySeen (by simpa using quick)
    have plain : '=' ∉ squash isSpace p.head := fun mem => p.headEquals (List.mem_of_mem_filter mem)
    obtain ⟨key,known,same⟩ := p.named
    rw [p.lineCleaned value,(cutFirst plain _).1,same] at seen
    have unknown : ∀ key ∈ secretKeys, lower key ∉ quickKeys := by decide +kernel
    exact unknown key known seen

/-! Both views of a whole file. -/

def setconfView (conf : Text) : List Text := (lines (makeWgSetconfFile conf)).map redact
def configView (conf : Text) : List Text := (lines conf).map redact

/- What the part of start.sh prints is the first view. -/
theorem printSetconfPrints (w : World) :
    ∃ t, printSetconf.exec [] w = .finished () t [] ∧
      t.output = w.output ++ [[],"== generated wg setconf file ==".toList] ++
        (lines (w.setconf.getD [])).map redact := by
  have loop : ∀ (ls : List Text) (u : World), ∃ t,
      (forEach (fun line => say (redact line)) ls).exec [] u = .finished () t [] ∧
        t.output = u.output ++ ls.map redact := by
    intro ls
    induction ls with
    | nil => exact fun u => ⟨u,rfl,by simp⟩
    | cons l rest ih =>
      intro u
      obtain ⟨t,ran,printed⟩ := ih {u with output := u.output ++ [redact l]}
      exact ⟨t,ran,by rw [printed]; simp⟩
  obtain ⟨t,ran,printed⟩ := loop (lines (w.setconf.getD []))
    {w with output := w.output ++ [[]] ++ ["== generated wg setconf file ==".toList]}
  exact ⟨t,ran,by rw [printed]; simp⟩

def Anchored (l : Text) : Prop := Secret (before '=' l)

theorem lineAnchored (p : Place) (v : Text) : Anchored (p.line v) ↔ Secret p.head := by
  unfold Anchored Place.line
  rw [(cutFirst p.headEquals _).1]

theorem configLineIff {l m : Text} (differ : Differ l m) : redact l = redact m ↔ (l ≠ m → Anchored l) := by
  cases differ with
  | same => exact iff_of_true rfl (fun ne => absurd rfl ne)
  | value p left right => rw [redactLineIff p left right,lineAnchored]

theorem setconfAlike {ls ms : List Text} (differ : List.Forall₂ Differ ls ms)
    (anchored : ∀ pair ∈ ls.zip ms, pair.1 ≠ pair.2 → Anchored pair.1) (current : Text) :
    (setconfLines current ls).map redact = (setconfLines current ms).map redact := by
  induction differ generalizing current with
  | nil => rfl
  | @cons l m ls ms first _ ih =>
    have later := ih (fun pair mem => anchored pair (List.mem_cons_of_mem _ mem))
    have own := anchored (l,m) List.mem_cons_self
    cases first with
    | same =>
      unfold setconfLines
      dsimp only
      split
      · exact later current
      split
      · rw [List.map_cons,List.map_cons,later]
      split
      · exact later current
      · rw [List.map_cons,List.map_cons,later]
    | @value p u v left right =>
      have printed : redact (trim (p.line u)) = redact (trim (p.line v)) := by
        rw [trimLine p left,trimLine p right,redactLineIff p.trimmed left right]
        intro differ
        have apart : p.line u ≠ p.line v := by
          intro same
          apply differ
          rw [← trimLine p left,← trimLine p right,same]
        exact secretTrimmed ((lineAnchored p u).mp (own apart))
      have keptLine : ∀ {x : Text} (_ : Value x) (rest : List Text),
          setconfLines current (p.line x::rest) = trim (p.line x)::setconfLines current rest := by
        intro x value rest
        obtain ⟨filled,plain,foreign⟩ := lineKept p value
        rw [setconfLines]
        simp [filled,plain,foreign]
      rw [keptLine left,keptLine right,List.map_cons,List.map_cons,printed,later]

theorem configAlike {ls ms : List Text} (differ : List.Forall₂ Differ ls ms) :
    ls.map redact = ms.map redact ↔ ∀ pair ∈ ls.zip ms, pair.1 ≠ pair.2 → Anchored pair.1 := by
  induction differ with
  | nil => simp
  | cons first _ ih =>
    rw [List.map_cons,List.map_cons,List.cons.injEq,configLineIff first,ih,List.zip_cons_cons,List.forall_mem_cons]

def keyFile (entry : Text) : Text :=
  unlines ["[Interface]".toList,entry,"[Peer]".toList,"PublicKey = p".toList]

def plainPlace : Place :=
  ⟨"PrivateKey ".toList," ".toList,[],⟨"PrivateKey".toList,by decide,by decide +kernel⟩,by decide,by decide⟩

def lowerPlace : Place :=
  ⟨"privatekey ".toList," ".toList,[],⟨"PrivateKey".toList,by decide,by decide +kernel⟩,by decide,by decide⟩

theorem letterValue {c : Char} (visible : isSpace c = false) (mark : c ≠ '#') : Value [c] :=
  ⟨by simp,by simpa using Ne.symm mark,stripSelf (by simpa using visible)⟩

theorem keyFilesDiffer (p : Place) (clean : '\n' ∉ p.line ['k'] ∧ '\n' ∉ p.line ['l']) :
    List.Forall₂ Differ (lines (keyFile (p.line ['k']))) (lines (keyFile (p.line ['l']))) := by
  have split : ∀ entry : Text, '\n' ∉ entry →
      lines (keyFile entry) = ["[Interface]".toList,entry,"[Peer]".toList,"PublicKey = p".toList] := by
    intro entry unbroken
    apply linesUnlines
    intro l mem
    simp only [List.mem_cons,List.not_mem_nil,or_false] at mem
    rcases mem with rfl | rfl | rfl | rfl
    · decide
    · exact unbroken
    · decide
    · decide
  rw [split _ clean.1,split _ clean.2]
  have entry : Differ (p.line ['k']) (p.line ['l']) :=
    .value p (letterValue (by decide) (by decide)) (letterValue (by decide) (by decide))
  exact .cons (.same _) (.cons entry (.cons (.same _) (.cons (.same _) .nil)))

end WebosWireguard.KeyRedaction
