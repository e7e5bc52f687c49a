import WebosWireguard.ConvertConfig
import WebosWireguard.SolidLines
import WebosWireguard.StartText
import WebosWireguard.WgReader

/-! An uploaded configuration read back by wg. The three line processors (convertConfig,
the filter of start.sh, wg's reader) are compared through what each keeps of a line.
The value parsers are arbitrary, so nothing is said about which values are valid. -/
namespace WebosWireguard.UploadMeaning
open TextLines SolidLines ConvertConfig StartText WgReader

def Ascii (t : Text) : Prop := ∀ c ∈ t, 0 < c.toNat ∧ c.toNat < 128

def removedKeys : List Text :=
  ["Address".toList,"DNS".toList,"MTU".toList,"Table".toList,"SaveConfig".toList,"PreUp".toList,
    "PostUp".toList,"PreDown".toList,"PostDown".toList]

def removed (l : Text) : Bool := '=' ∈ l && removedKeys.contains (strip isSpace (before '=' l))

def withoutQuickLines (t : Text) : Text := unlines ((lines t).filter (fun l => !removed l))

/-! What survives trim, line by line. -/

def solid (ls : List Text) : List Text := (ls.map trim).filter (fun l => l ≠ [])

theorem trimCons {c : Char} (blank : isSpace c = true) (l : Text) : trim (c::l) = trim l := by
  have ne : c ≠ '#' := by rintro rfl; simp [isSpace] at blank
  have split : before '#' (c::l) = c::before '#' l := by simp [before,ne]
  rw [trimEq,trimEq,split,stripCons blank]

theorem trimConcat {c : Char} (blank : isSpace c = true) (l : Text) : trim (l ++ [c]) = trim l := by
  have ne : c ≠ '#' := by rintro rfl; simp [isSpace] at blank
  rw [trimEq,trimEq]
  by_cases present : '#' ∈ l
  · rw [beforeAppendMem present]
  · have single : before '#' [c] = [c] := beforeSelf (by simpa using ne.symm)
    rw [beforeAppend present,single,stripConcat blank,beforeSelf present]

theorem trimNormaliser : Normaliser isSpace trim :=
  ⟨rfl,fun blank l => trimCons blank l,fun blank l => trimConcat blank l⟩

theorem solidCons (l : Text) (rest : List Text) :
    solid (l::rest) = (if trim l = [] then [] else [trim l]) ++ solid rest :=
  solidByCons trim l rest

/-! The filter of start.sh drops nothing from a text without its keys. -/

theorem cleanedTrim (l : Text) : cleaned (trim l) = cleaned l := by
  rw [trimEq,cleanedStrip]
  unfold cleaned
  rw [beforeSelf (beforeNotMem l)]

theorem significantSolid (ls : List Text) : significant (solid ls) = significant ls := by
  induction ls with
  | nil => rfl
  | cons l rest ih =>
    rw [solidCons,significantAppend,ih,show l::rest = [l] ++ rest from rfl,significantAppend]
    congr 1
    split
    · rename_i empty
      have gone : cleaned l = [] := by rw [← cleanedTrim,empty]; rfl
      simp [significant,gone]
    · simp [significant,cleanedTrim]

theorem significantSetconf {ls current} (foreign : ∀ l ∈ ls, quickLine (trim l) = false) :
    significant (setconfLines current ls) = significant ls := by
  induction ls generalizing current with
  | nil => rfl
  | cons raw rest ih =>
    have later : ∀ current, significant (setconfLines current rest) = significant rest :=
      fun current => ih (fun l mem => foreign l (List.mem_cons_of_mem raw mem))
    have own := foreign raw (by simp)
    have first : significant [trim raw] = significant [raw] := by
      simp [significant,cleanedTrim]
    have keep : ∀ current, significant (trim raw::setconfLines current rest) =
        significant (raw::rest) := by
      intro current
      rw [show trim raw::setconfLines current rest = [trim raw] ++ setconfLines current rest from rfl,
        significantAppend,later,first,← significantAppend]
      rfl
    unfold setconfLines
    dsimp only
    split
    · rename_i empty
      have gone : cleaned raw = [] := by rw [← cleanedTrim,empty]; rfl
      rw [later]
      simp [significant,gone]
    · split
      · exact keep _
      · simp only [own,Bool.false_eq_true,and_false,if_false]
        exact keep _

/-! One line through the converter, compared with the same line left in place. -/

theorem goSpaceAscii {c : Char} (ascii : 0 < c.toNat ∧ c.toNat < 128) : goSpace c = isSpace c := by
  have small := ascii.2
  have outside : [0x85,0xA0,0x1680,0x2028,0x2029,0x202F,0x205F,0x3000].contains c.toNat = false := by
    simp only [List.contains_eq_mem,List.mem_cons,List.not_mem_nil,or_false,decide_eq_false_iff_not]
    omega
  have below : ¬ 0x2000 ≤ c.toNat := by omega
  rw [goSpace,outside]
  simp [below]

theorem trimSpaceAscii {t : Text} (ascii : Ascii t) : trimSpace t = strip isSpace t :=
  stripCongr (fun c mem => goSpaceAscii (ascii c mem))

theorem stripDropCr (t : Text) : strip isSpace (dropCr t) = strip isSpace t := by
  obtain ⟨post,eq,blank⟩ := dropCrSplit t
  rw [← stripAppendRight blank (dropCr t),← eq]

theorem asciiOf {t u : Text} (ascii : Ascii t) (inside : ∀ c ∈ u, c ∈ t) : Ascii u :=
  fun c mem => ascii c (inside c mem)

theorem scannedAscii {raw : Text} (ascii : Ascii raw) :
    trimSpace (dropCr raw) = strip isSpace raw := by
  obtain ⟨post,eq,_⟩ := dropCrSplit raw
  have inner : Ascii (dropCr raw) := asciiOf ascii (fun c mem => by rw [eq]; simp [mem])
  rw [trimSpaceAscii inner,stripDropCr]

theorem keyAscii {raw : Text} (ascii : Ascii raw) :
    trimSpace (before '=' (strip isSpace raw)) = strip isSpace (before '=' raw) := by
  rw [trimSpaceAscii (asciiOf ascii (fun c mem => stripSubset (beforeSubset mem)))]
  exact stripBeforeStrip (by decide) raw

theorem removedIff {raw : Text} :
    removed raw = true ↔ '=' ∈ raw ∧ strip isSpace (before '=' raw) ∈ addressKey::ignored := by
  have left : ∀ k ∈ removedKeys, k ∈ addressKey::ignored := by decide
  have right : ∀ k ∈ addressKey::ignored, k ∈ removedKeys := by decide
  simp only [removed,Bool.and_eq_true,decide_eq_true_eq,List.contains_iff_mem]
  exact and_congr_right (fun _ => ⟨left _,right _⟩)

theorem allowedPlain : ∀ k ∈ allowed, '#' ∉ k ∧ '=' ∉ k ∧ (∀ c ∈ k, isSpace c = false) ∧
    quickKeys.contains (lower k) = false ∧ k ∉ addressKey::ignored := by decide

theorem keysUnbracketed : ∀ k ∈ quickKeys ++ addressKey::ignored, k.head? ≠ some '[' := by decide

theorem stripHead {p : Char → Bool} {c : Char} {rest : Text} (solid : p c = false) :
    ∃ tail, strip p (c::rest) = c::tail := by
  obtain ⟨pre,post,eq,left,right⟩ := stripSplit p (c::rest)
  cases pre with
  | cons d more =>
    have same : d = c := by simpa using (List.cons.inj eq).1.symm
    have h := left d (by simp)
    rw [same,solid] at h
    contradiction
  | nil =>
    cases h : strip p (c::rest) with
    | nil =>
      rw [h] at eq
      have h := right c (by rw [← show c::rest = post by simpa using eq]; simp)
      rw [solid] at h
      contradiction
    | cons d tail =>
      rw [h] at eq
      have same : c = d := by simpa using (List.cons.inj eq).1
      exact ⟨tail,by rw [same]⟩

theorem beforeHead {c d : Char} (ne : d ≠ c) (rest : Text) :
    before c (d::rest) = d::before c rest := by
  simp [before,ne]

/- A bracketed line has no key any of the programs knows. -/
theorem bracketedKey {line : Text} (header : bracketed line = true) :
    ∃ tail, strip isSpace (before '=' line) = '['::tail := by
  cases line with
  | nil => simp [bracketed] at header
  | cons c rest =>
    have first : c = '[' := by simpa [bracketed] using (Bool.and_eq_true_iff.mp header).1
    subst first
    rw [beforeHead (by decide)]
    exact stripHead (by decide)

theorem cleanedSetting {key : Text} (val : Text) (mem : key ∈ allowed) :
    cleaned (setting key val) = key ++ '='::cleaned val := by
  obtain ⟨noHash,_,noBlank,_,_⟩ := allowedPlain key mem
  have lead : '#' ∉ key ++ " = ".toList := by simp [noHash]
  unfold setting cleaned
  rw [beforeAppend lead]
  simp only [squash,List.filter_append]
  rw [List.filter_eq_self.mpr (by simpa using noBlank)]
  simp [isSpace]

theorem cleanedKeyed {line : Text} (present : '=' ∈ line)
    (mem : strip isSpace (before '=' line) ∈ allowed) :
    cleaned line = strip isSpace (before '=' line) ++ '='::cleaned (after '=' line) := by
  obtain ⟨noHash,_,noBlank,_,_⟩ := allowedPlain _ mem
  have clear : '#' ∉ before '=' line := by
    intro inside
    obtain ⟨pre,post,eq,left,right⟩ := stripSplit isSpace (before '=' line)
    rw [eq] at inside
    rcases List.mem_append.mp inside with h | h
    · rcases List.mem_append.mp h with h | h
      · have bad := left _ h
        simp [isSpace] at bad
      · exact noHash h
    · have bad := right _ h
      simp [isSpace] at bad
  have lead : squash isSpace (before '=' line) = strip isSpace (before '=' line) := by
    rw [← squashStrip]
    exact List.filter_eq_self.mpr (by simpa using noBlank)
  have eq := cutAt present
  have cut : cleaned line = cleaned (before '=' line ++ '='::after '=' line) := congrArg cleaned eq
  rw [cut,← lead]
  unfold cleaned
  rw [beforeAppend clear,beforeHead (by decide)]
  simp only [squash,List.filter_append]
  simp [isSpace]

theorem significantSkip {l : Text} (gone : cleaned l = []) : significant [l] = [] := by
  simp [significant,gone]

theorem skippedCleaned {raw : Text} (skip : strip isSpace raw = [] ∨ (strip isSpace raw).head? = some '#') :
    cleaned raw = [] := by
  rw [← cleanedStrip]
  cases line : strip isSpace raw with
  | nil => rfl
  | cons c rest =>
    have first : c = '#' := by simpa [line] using skip
    simp [cleaned,before,first,squash]

theorem headerStays {raw : Text} (header : bracketed (strip isSpace raw) = true) : ¬ removed raw = true := by
  obtain ⟨tail,head⟩ := bracketedKey header
  rw [removedIff,← stripBeforeStrip (by decide) raw,head]
  intro given
  exact keysUnbracketed _ (List.mem_append_right _ given.2) rfl

/- The setting is written anew, with its own spaces around the equals sign. -/
theorem settingCleaned {raw : Text} (ascii : Ascii raw) (equals : '=' ∈ strip isSpace raw)
    (known : strip isSpace (before '=' raw) ∈ allowed) :
    cleaned (setting (strip isSpace (before '=' raw)) (trimSpace (after '=' (strip isSpace raw)))) = cleaned raw := by
  have key : strip isSpace (before '=' (strip isSpace raw)) = strip isSpace (before '=' raw) :=
    stripBeforeStrip (by decide) raw
  have val : Ascii (after '=' (strip isSpace raw)) := asciiOf ascii (fun _ inside => stripSubset (afterSubset inside))
  rw [cleanedSetting _ known,trimSpaceAscii val,cleanedStrip,← cleanedStrip raw,
    cleanedKeyed equals (by rwa [key]),key]

theorem significantContribution {raw : Text} (ascii : Ascii raw) (accepted : Accepted raw) :
    significant (contribution raw) = if removed raw then [] else significant [raw] := by
  unfold Accepted at accepted
  unfold contribution
  rw [scannedAscii ascii] at accepted ⊢
  dsimp only
  split
  · rename_i skip
    rw [significantSkip (skippedCleaned skip)]
    simp [significant]
  rename_i skip
  split
  · rename_i header
    rw [if_neg (headerStays header),show [[],strip isSpace raw] = [[]] ++ [strip isSpace raw] from rfl,
      significantAppend,significantSkip rfl]
    simp only [significant,List.map_cons,List.map_nil,cleanedStrip,List.nil_append]
  rename_i plain
  obtain ⟨equals,listed⟩ := settingKind accepted skip plain
  rw [keyAscii ascii] at listed ⊢
  split
  · rename_i key
    rw [if_pos (removedIff.mpr ⟨stripSubset equals,key⟩)]
    rfl
  · rename_i key
    have stays : ¬ removed raw = true := fun gone => key (removedIff.mp gone).2
    rw [if_neg stays]
    simp only [significant,List.map_cons,List.map_nil,settingCleaned ascii equals (listed.resolve_left key)]

theorem scannedSubset {raw : Text} {c} (mem : c ∈ trimSpace (dropCr raw)) : c ∈ raw := by
  obtain ⟨post,eq,_⟩ := dropCrSplit raw
  rw [eq]
  exact List.mem_append_left _ (stripSubset mem)

theorem contributionNoBreak {raw l : Text} (clean : '\n' ∉ raw) (accepted : Accepted raw)
    (mem : l ∈ contribution raw) : '\n' ∉ l := by
  have scanned : '\n' ∉ trimSpace (dropCr raw) := fun inside => clean (scannedSubset inside)
  have shape := contributed accepted
  generalize contribution raw = out at shape mem
  cases shape with
  | nothing => simp at mem
  | header =>
    rcases List.mem_cons.mp mem with rfl | rest
    · simp
    · rw [List.mem_singleton.mp rest]
      exact scanned
  | kept =>
    rw [List.mem_singleton.mp mem]
    have key : '\n' ∉ trimSpace (before '=' (trimSpace (dropCr raw))) :=
      fun inside => scanned (beforeSubset (stripSubset inside))
    have val : '\n' ∉ trimSpace (after '=' (trimSpace (dropCr raw))) :=
      fun inside => scanned (afterSubset (stripSubset inside))
    simp [setting,key,val]

theorem bracketedForeign {line : Text} (header : bracketed line = true) :
    quickLine (trim line) = false := by
  cases line with
  | nil => simp [bracketed] at header
  | cons c rest =>
    have first : c = '[' := by simpa [bracketed] using (Bool.and_eq_true_iff.mp header).1
    subst first
    obtain ⟨tail,head⟩ : ∃ tail, trim ('['::rest) = '['::tail := by
      rw [trimEq,beforeHead (by decide)]
      exact stripHead (by decide)
    by_cases present : '=' ∈ trim ('['::rest)
    · obtain ⟨key,same⟩ : ∃ key, getKey (trim ('['::rest)) = '['::key := by
        rw [getKeyEq present,head,beforeHead (by decide)]
        exact stripHead (by decide)
      have unknown : quickKeys.contains (lower ('['::key)) = false := by
        rw [List.contains_eq_mem,decide_eq_false_iff_not]
        exact fun mem => keysUnbracketed _ (List.mem_append_left _ mem) rfl
      rw [quickLine,same,unknown,Bool.and_false]
    · simp [quickLine,present]

theorem settingForeign {key : Text} (val : Text) (mem : key ∈ allowed) :
    quickLine (trim (setting key val)) = false := by
  obtain ⟨noHash,noEquals,noBlank,foreign,_⟩ := allowedPlain key mem
  have lead : '#' ∉ key ++ " = ".toList := by simp [noHash]
  have cut : trim (setting key val) = strip isSpace (key ++ ' ' :: '=' :: ' ' :: before '#' val) := by
    rw [trimEq,setting,beforeAppend lead]
    simp
  by_cases present : '=' ∈ trim (setting key val)
  · have own : getKey (trim (setting key val)) = key := by
      have gap : '=' ∉ key ++ [' '] := by simp [noEquals]
      rw [getKeyEq present,cut,stripBeforeStrip (by decide),
        show key ++ ' ' :: '=' :: ' ' :: before '#' val = (key ++ [' ']) ++ '=' :: ' ' :: before '#' val by simp,
        (cutFirst gap _).1,stripConcat (by decide),stripSelf noBlank]
    rw [quickLine,own,foreign]
    simp
  · simp [quickLine,present]

theorem contributionForeign {raw l : Text} (accepted : Accepted raw)
    (mem : l ∈ contribution raw) : quickLine (trim l) = false := by
  have shape := contributed accepted
  generalize contribution raw = out at shape mem
  cases shape with
  | nothing => simp at mem
  | header header =>
    rcases List.mem_cons.mp mem with rfl | rest
    · rfl
    · rw [List.mem_singleton.mp rest]
      exact bracketedForeign header
  | kept _ known =>
    rw [List.mem_singleton.mp mem]
    exact settingForeign _ known

theorem significantContributions {ls : List Text} (ascii : ∀ l ∈ ls, Ascii l)
    (accepted : ∀ l ∈ ls, Accepted l) :
    significant (ls.flatMap contribution) = significant (ls.filter (fun l => !removed l)) := by
  induction ls with
  | nil => rfl
  | cons raw rest ih =>
    have later := ih (fun l mem => ascii l (List.mem_cons_of_mem raw mem))
      (fun l mem => accepted l (List.mem_cons_of_mem raw mem))
    rw [List.flatMap_cons,significantAppend,later,
      significantContribution (ascii raw (by simp)) (accepted raw (by simp))]
    cases gone : removed raw with
    | true => simp [gone]
    | false =>
      rw [List.filter_cons_of_pos (by simp [gone])]
      simp only [Bool.false_eq_true,if_false]
      rw [← significantAppend]
      rfl

/- TrimSpace takes from the ends of the text no more than the blanks wg skips. -/
structure Firm (l : Text) : Prop where
  head : ∀ c rest, l = c::rest → goSpace c = false
  last : ∀ u post, l = u ++ post → (∀ c ∈ post, goSpace c = true) → ∀ c ∈ post, isSpace c = true

theorem firmIntercalate {l next : Text} (rest : List Text) :
    List.intercalate ['\n'] (l::next::rest) = l ++ '\n'::List.intercalate ['\n'] (next::rest) := by
  simp [List.intercalate_cons_cons]

theorem firmLead {out : List Text} {pre u : Text} (firm : ∀ l ∈ out, Firm l)
    (whole : List.intercalate ['\n'] out = pre ++ u) (blank : ∀ c ∈ pre, goSpace c = true) :
    ∀ c ∈ pre, isSpace c = true := by
  cases pre with
  | nil => simp
  | cons d more =>
    have given : goSpace d = true := blank d (by simp)
    match out with
    | [] => simp at whole
    | [l] =>
      rw [List.intercalate_singleton] at whole
      rw [(firm l (by simp)).head d _ whole] at given
      contradiction
    | [] :: next :: rest =>
      rw [firmIntercalate] at whole
      obtain ⟨same,later⟩ := List.cons.inj (show '\n'::_ = d::(more ++ u) from whole)
      intro c mem
      rcases List.mem_cons.mp mem with rfl | mem
      · rw [← same]
        decide
      · exact firmLead (fun l inside => firm l (List.mem_cons_of_mem _ inside)) later
          (fun c inside => blank c (List.mem_cons_of_mem d inside)) c mem
    | (e::l) :: next :: rest =>
      rw [firmIntercalate] at whole
      have same : e = d := (List.cons.inj whole).1
      rw [← same,(firm (e::l) (by simp)).head e l rfl] at given
      contradiction

theorem firmTrail {out : List Text} {u post : Text} (firm : ∀ l ∈ out, Firm l)
    (whole : List.intercalate ['\n'] out = u ++ post) (blank : ∀ c ∈ post, goSpace c = true) :
    ∀ c ∈ post, isSpace c = true := by
  match out with
  | [] =>
    have empty : post = [] := by simpa using (List.append_eq_nil_iff.mp whole.symm).2
    simp [empty]
  | [l] =>
    rw [List.intercalate_singleton] at whole
    exact (firm l (by simp)).last u post whole blank
  | l::next::rest =>
    rw [firmIntercalate] at whole
    have later : ∀ {u post : Text}, List.intercalate ['\n'] (next::rest) = u ++ post →
        (∀ c ∈ post, goSpace c = true) → ∀ c ∈ post, isSpace c = true :=
      firmTrail (fun l inside => firm l (List.mem_cons_of_mem _ inside))
    -- the suffix starts behind the break, at it, or inside the first line
    have through : ∀ tail, post = tail ++ '\n'::List.intercalate ['\n'] (next::rest) → l = u ++ tail →
        ∀ c ∈ post, isSpace c = true := by
      intro tail parts own c mem
      rw [parts] at mem blank
      rcases List.mem_append.mp mem with mem | mem
      · exact (firm l (by simp)).last u tail own (fun c inside => blank c (by simp [inside])) c mem
      · rcases List.mem_cons.mp mem with rfl | mem
        · decide
        · exact later (u := []) (List.nil_append _).symm
            (fun c inside => blank c (List.mem_append_right _ (List.mem_cons_of_mem _ inside))) c mem
    rcases List.append_eq_append_iff.mp whole with ⟨tail,front,back⟩ | ⟨tail,front,back⟩
    · cases tail with
      | nil => exact through [] (by simpa using back.symm) (by simpa using front.symm)
      | cons d tail => exact later (List.cons.inj back).2 blank
    · exact through tail back front

theorem solidJoined {out : List Text} (clean : ∀ l ∈ out, '\n' ∉ l) (firm : ∀ l ∈ out, Firm l) :
    solid (lines (joined out)) = solid out := by
  obtain ⟨pre,post,eq,left,right⟩ := stripSplit goSpace (List.intercalate ['\n'] out)
  have lead := firmLead firm (eq.trans (List.append_assoc _ _ _)) left
  have trail := firmTrail firm eq right
  have core : solid (lines (trimSpace (List.intercalate ['\n'] out))) = solid out :=
    solidLinesCut trimNormaliser clean eq lead trail
  rw [← core]
  exact solidLinesTrail trimNormaliser (by decide) _

theorem firmLast {a b : Text} {d : Char} (stop : goSpace d = false) (behind : ∀ c ∈ b, isSpace c = true)
    (u post : Text) (whole : a ++ d::b = u ++ post) (blank : ∀ c ∈ post, goSpace c = true) :
    ∀ c ∈ post, isSpace c = true := by
  have outside : d ∉ post := by
    intro mem
    rw [blank d mem] at stop
    contradiction
  rcases List.append_eq_append_iff.mp whole with ⟨tail,_,back⟩ | ⟨tail,_,back⟩
  · cases tail with
    | nil => exact absurd (by rw [← show d::b = post from back]; simp) outside
    | cons e tail =>
      intro c mem
      apply behind
      rw [(List.cons.inj back).2]
      exact List.mem_append_right tail mem
  · exact absurd (by rw [back]; simp) outside

theorem firmHeader {l : Text} (header : bracketed l = true) : Firm l := by
  simp only [bracketed,Bool.and_eq_true,beq_iff_eq] at header
  obtain ⟨first,final⟩ := header
  constructor
  · intro c rest same
    have bracket : c = '[' := by simpa [same] using first
    rw [bracket]
    decide
  · obtain ⟨init,same⟩ := List.getLast?_eq_some_iff.mp final
    rw [same]
    exact firmLast (by decide) (by simp)

theorem allowedHead : ∀ k ∈ allowed, k.head?.any (fun c => goSpace c = false) = true := by decide

theorem firmSetting {key : Text} (v : Text) (mem : key ∈ allowed) : Firm (setting key (trimSpace v)) := by
  constructor
  · intro c rest same
    have solid := allowedHead key mem
    cases key with
    | nil => contradiction
    | cons e key =>
      have lead : e = c := (List.cons.inj same).1
      rw [← lead]
      simpa using solid
  · rcases List.eq_nil_or_concat (trimSpace v) with empty | ⟨init,d,filled⟩
    · rw [empty,show setting key [] = (key ++ [' ']) ++ '='::[' '] by simp [setting]]
      exact firmLast (by decide) (by decide)
    · have stop : goSpace d = false := by
        have ends : trimSpace v ≠ [] := by simp [filled]
        have solid := List.rdropWhile_last_not goSpace (v.dropWhile goSpace) ends
        have own : (trimSpace v).getLast ends = d := by simp [filled]
        rw [show (List.rdropWhile goSpace (v.dropWhile goSpace)).getLast ends = d from own] at solid
        simpa using solid
      rw [filled,show setting key (init.concat d) = (key ++ " = ".toList ++ init) ++ d::[] by
        simp [setting]]
      exact firmLast stop (by simp)

theorem contributionFirm {raw l : Text} (accepted : Accepted raw) (mem : l ∈ contribution raw) :
    Firm l := by
  have shape := contributed accepted
  generalize contribution raw = out at shape mem
  cases shape with
  | nothing => simp at mem
  | header header =>
    rcases List.mem_cons.mp mem with rfl | rest
    · exact ⟨by simp,fun u post whole _ => by simp [(List.append_eq_nil_iff.mp whole.symm).2]⟩
    · rw [List.mem_singleton.mp rest]
      exact firmHeader header
  | kept _ known =>
    rw [List.mem_singleton.mp mem]
    exact firmSetting _ known

section Converted
variable {t converted address : Text} (ok : convertConfig t = .ok (converted,address))
include ok

theorem convertedSolid : solid (lines converted) = solid ((lines t).flatMap contribution) := by
  obtain ⟨accepted,same⟩ := convertConfigSound ok
  rw [same]
  apply solidJoined
  · intro l mem
    obtain ⟨raw,inside,here⟩ := List.mem_flatMap.mp mem
    exact contributionNoBreak (linesNoBreak inside) (accepted raw inside) here
  · intro l mem
    obtain ⟨raw,inside,here⟩ := List.mem_flatMap.mp mem
    exact contributionFirm (accepted raw inside) here

theorem convertedSignificant :
    significant (lines converted) = significant ((lines t).flatMap contribution) := by
  rw [← significantSolid,convertedSolid ok,significantSolid]

theorem convertedForeign : ∀ l ∈ lines converted, quickLine (trim l) = false := by
  intro l mem
  by_cases empty : trim l = []
  · rw [empty]
    rfl
  · have inside : trim l ∈ solid (lines converted) := solidByMem mem empty
    rw [convertedSolid ok] at inside
    obtain ⟨u,origin,eq⟩ := solidByOrigin inside
    obtain ⟨raw,at_,here⟩ := List.mem_flatMap.mp origin
    rw [← eq]
    exact contributionForeign ((convertConfigSound ok).1 raw at_) here

end Converted

/-- wg reads the uploaded text, filtered by start.sh, as it reads the original without
its wg-quick lines: the same device and peers, or the same rejection. -/
theorem uploadKeepsMeaning {V : Values} (vp : Parsers V) {t converted address : Text}
    (ascii : Ascii t) (ok : convertConfig t = .ok (converted,address)) :
    readConfig vp (makeWgSetconfFile converted) = readConfig vp (withoutQuickLines t) := by
  have perLine : ∀ l ∈ lines t, Ascii l := fun l mem => asciiOf ascii (fun _ => linesSubset mem)
  apply readConfigCongr
  unfold cleanedLines
  calc significant (lines (makeWgSetconfFile converted))
      = significant (setconfLines [] (lines converted)) := by rw [linesMakeWgSetconfFile]
    _ = significant (lines converted) := significantSetconf (convertedForeign ok)
    _ = significant ((lines t).flatMap contribution) := convertedSignificant ok
    _ = significant ((lines t).filter (fun l => !removed l)) :=
      significantContributions perLine (convertConfigSound ok).1
    _ = significant (lines (withoutQuickLines t)) := by
      rw [withoutQuickLines,linesUnlines (fun l mem => linesNoBreak (List.mem_of_mem_filter mem))]

def rawValues : Values := ⟨Text,Text,Text,Text,Text,Text⟩
def rawParsers : Parsers rawValues :=
  ⟨some,some,some,some,some,fun value => some (value.splitOn ',',true)⟩

def commentedSample : Text := "[Peer] # =]\r\nAddress=a\nPublicKey= p= # ]".toList
def commentedConverted : Text := "[Peer] # =]\nPublicKey = p= # ]\n".toList

theorem commentedSampleKeepsMeaning :
    convertConfig commentedSample = .ok (commentedConverted,"a".toList) ∧
      readConfig rawParsers (makeWgSetconfFile commentedConverted) =
        readConfig rawParsers (withoutQuickLines commentedSample) := by
  have ok : convertConfig commentedSample = .ok (commentedConverted,"a".toList) := rfl
  exact ⟨ok,uploadKeepsMeaning rawParsers (by unfold Ascii commentedSample; decide) ok⟩

end WebosWireguard.UploadMeaning
