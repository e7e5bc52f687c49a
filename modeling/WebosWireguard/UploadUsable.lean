import WebosWireguard.AddressChoice
import WebosWireguard.AllowedLines
import WebosWireguard.ReaderGrammar

/-! Which files the uploader takes, and which of those wg can use. The converter looks at
one line at a time and compares keys exactly; wg's reader and start.sh compare them in any
case, and wg also wants the lines in sections. What the upload handler does with a refused
file is not repeated here. -/
namespace WebosWireguard.UploadUsable
open TextLines ConvertConfig WgReader UploadMeaning AllowedLines ReaderGrammar
open AddressChoice (foldPickFilled firstIPv4OrFirstFilled)
open StartText (makeWgSetconfFile trim trimEq getKey getKeyEq interfaceHeader quickLine)

/-! What wg is to read from one accepted line. -/

def lineItem (raw : Text) : Option Item :=
  let line := trimSpace (dropCr raw)
  if line = [] ∨ line.head? = some '#' then none
  else if bracketed line then some (item (cleaned line))
  else if (addressKey::ignored).contains (trimSpace (before '=' line)) then none
  else some (item (trimSpace (before '=' line) ++ '='::cleaned (trimSpace (after '=' line))))

theorem cleanedHead {line : Text} {c : Char} {rest : Text} (head : line = c::rest) (mark : c ≠ '#')
    (solid : isSpace c = false) : (cleaned line).head? = some c := by
  rw [head,cleaned,beforeHead mark]
  simp [squash,solid]

theorem significantItem {raw : Text} (accepted : Accepted raw) :
    (significant (contribution raw)).map item = (lineItem raw).toList := by
  unfold Accepted at accepted
  unfold contribution lineItem
  simp only [List.contains_iff_mem]
  split
  · rfl
  rename_i skip
  split
  · rename_i header
    have filled : cleaned (trimSpace (dropCr raw)) ≠ [] := by
      cases line : trimSpace (dropCr raw) with
      | nil => exact absurd (.inl line) skip
      | cons c rest =>
        have first : c = '[' := by
          rw [line] at header
          simpa [bracketed] using (Bool.and_eq_true_iff.mp header).1
        have head := @cleanedHead (c::rest) c rest rfl (by rw [first]; decide) (by rw [first]; decide)
        intro empty
        rw [empty] at head
        contradiction
    simp [significant,filled,show cleaned [] = [] from rfl]
  rename_i plain
  split
  · rfl
  rename_i key
  have known := (settingKind accepted skip plain).2.resolve_left key
  simp [significant,cleanedSetting _ known]

theorem convertedItems {t converted address : Text} (ok : convertConfig t = .ok (converted,address)) :
    (cleanedLines converted).map item = (lines t).filterMap lineItem := by
  have accepted := (convertConfigSound ok).1
  have each : ∀ ls : List Text, (∀ raw ∈ ls, Accepted raw) →
      (significant (ls.flatMap contribution)).map item = ls.filterMap lineItem := by
    intro ls fine
    induction ls with
    | nil => rfl
    | cons raw rest ih =>
      rw [List.flatMap_cons,significantAppend,List.map_append,significantItem (fine raw (by simp)),
        ih (fun l mem => fine l (List.mem_cons_of_mem raw mem))]
      cases here : lineItem raw <;> simp [here]
  rw [cleanedLines,convertedSignificant ok,each _ accepted]

/-- wg reads an accepted upload exactly if the lines the uploader keeps are sections of
settings, each setting in a section that admits it and every peer with its public key. -/
theorem acceptedReadableIff {V : Values} {vp : Parsers V} {t converted address : Text}
    (ok : convertConfig t = .ok (converted,address))
    (passed : ∀ i ∈ (lines t).filterMap lineItem, i.Passes vp) :
    (∃ device, readConfig vp converted = .ok device) ↔
      ∃ blocks : List Block, (lines t).filterMap lineItem = blocks.flatMap Block.items ∧
        ∀ b ∈ blocks, b.WellFormed := by
  have same := convertedItems ok
  rw [← same] at passed ⊢
  exact readConfigBlocks (fun l mem => passed (item l) (List.mem_map_of_mem mem))

def homeFile : Text :=
  "[Interface]\nAddress = 10.0.0.2/32\nPrivateKey = k\n[Peer]\nPublicKey = p\nEndpoint = h:1\n".toList
def homeConverted : Text :=
  "[Interface]\nPrivateKey = k\n\n[Peer]\nPublicKey = p\nEndpoint = h:1\n".toList
def homeBlocks : List Block :=
  [⟨false,[(.privateKey,"k".toList)]⟩,⟨true,[(.publicKey,"p".toList),(.endpoint,"h:1".toList)]⟩]

theorem rawPasses (i : Item) : i.Passes rawParsers := by
  cases i with
  | header => trivial
  | unknown => trivial
  | entry e v => cases e <;> rfl

theorem homeConverts : convertConfig homeFile = .ok (homeConverted,"10.0.0.2/32".toList) := by decide +kernel

theorem homeFileReadable :
    convertConfig homeFile = .ok (homeConverted,"10.0.0.2/32".toList) ∧
      ∃ device, readConfig rawParsers homeConverted = .ok device := by
  have items : (lines homeFile).filterMap lineItem = homeBlocks.flatMap Block.items := by decide +kernel
  have blocks := acceptedReadableIff homeConverts (fun i _ => rawPasses i)
  refine ⟨homeConverts,blocks.mpr ⟨homeBlocks,items,fun b mem => ?_⟩⟩
  rcases List.mem_cons.mp mem with rfl | mem
  · exact ⟨by unfold Block.Admits; decide,by decide⟩
  · cases List.mem_singleton.mp mem
    exact ⟨by unfold Block.Admits; decide,by decide⟩

def keylessFile : Text := "[Interface]\nAddress = 10.0.0.2/32\n[Peer]\nEndpoint = h:1\n".toList
def keylessConverted : Text := "[Interface]\n\n[Peer]\nEndpoint = h:1\n".toList

theorem keylessFileUnreadable :
    convertConfig keylessFile = .ok (keylessConverted,"10.0.0.2/32".toList) ∧
      readConfig rawParsers keylessConverted = .error .missingPublicKey := ⟨rfl,rfl⟩

/-! The lines the uploader takes from a file that wg and start.sh can use. -/

def Spelled (raw : Text) : Prop :=
  match (cleaned raw).head? with
  | none => True
  | some '[' => (strip isSpace raw).getLast? = some ']'
  | some _ => strip isSpace (before '=' raw) ∈ allowed ++ addressKey::ignored

theorem acceptedSpelled {raw : Text} (ascii : Ascii raw)
    (keyed : ∀ c rest, strip isSpace raw = c::rest → c ≠ '#' → c ≠ '[' → '=' ∈ raw) :
    Accepted raw ↔ Spelled raw := by
  have key := keyAscii ascii
  unfold Accepted Spelled
  rw [scannedAscii ascii,← cleanedStrip]
  cases line : strip isSpace raw with
  | nil => exact iff_of_true (.skipped (.inl rfl)) trivial
  | cons c rest =>
    have solid : isSpace c = false := stripHeadSolid line
    rw [line] at key
    by_cases mark : c = '#'
    · subst mark
      have empty : cleaned ('#'::rest) = [] := by simp [cleaned,before,squash]
      rw [empty]
      exact iff_of_true (.skipped (.inr rfl)) trivial
    rw [cleanedHead rfl mark solid]
    have kept : ¬ (c::rest = [] ∨ (c::rest).head? = some '#') := by simpa using mark
    by_cases bracket : c = '['
    · subst bracket
      obtain ⟨tail,own⟩ : ∃ tail, trimSpace (before '=' ('['::rest)) = '['::tail := by
        rw [beforeHead (by decide)]
        exact stripHead (by decide)
      have unknown : ∀ k ∈ allowed ++ addressKey::ignored, k.head? ≠ some '[' := by decide
      constructor
      · intro accepted
        cases accepted with
        | skipped h => exact absurd h kept
        | header h => simpa [bracketed] using h
        | dropped _ h => exact absurd (by rw [own]; rfl) (unknown _ (List.mem_append_right _ h))
        | kept _ h => exact absurd (by rw [own]; rfl) (unknown _ (List.mem_append_left _ h))
      · intro last
        exact .header (by simpa [bracketed] using last)
    · have plain : ¬ bracketed (c::rest) = true := by simp [bracketed,bracket]
      have present : '=' ∈ c::rest := line ▸ memStrip (keyed c rest line mark bracket) (by decide)
      have other : (match some c with
          | none => True
          | some '[' => (c::rest).getLast? = some ']'
          | some _ => strip isSpace (before '=' raw) ∈ allowed ++ addressKey::ignored) ↔
          strip isSpace (before '=' raw) ∈ allowed ++ addressKey::ignored := by
        split
        · contradiction
        · rename_i same
          exact absurd (Option.some.inj same) bracket
        · rfl
      rw [other,← key,List.mem_append]
      constructor
      · intro accepted
        exact (settingKind accepted kept plain).2.symm
      · intro known
        rcases known with h | h
        · exact .kept present h
        · exact .dropped present h

theorem itemHeader {line : Text} {own} (header : item line = .header own) : line.head? = some '[' := by
  have lead : ∀ name : Text, lower line = lower ('['::name) → line.head? = some '[' := by
    intro name same
    cases line with
    | nil => simp [lower] at same
    | cons c rest =>
      have first : c.toLower = '[' := (List.cons.inj same).1
      rw [lowerSame first (by decide)]
      rfl
  unfold item at header
  split at header
  · rename_i same
    exact lead "Interface]".toList same
  split at header
  · rename_i same
    exact lead "Peer]".toList same
  split at header <;> contradiction

theorem itemEquals {line : Text} (known : item line ≠ .unknown) (plain : line.head? ≠ some '[') : '=' ∈ line := by
  cases own : item line with
  | unknown => exact absurd own known
  | header peer => exact absurd (itemHeader own) plain
  | entry e v =>
    unfold item at own
    split at own
    · contradiction
    split at own
    · contradiction
    split at own
    · rename_i found
      obtain ⟨k,shape,_⟩ := entryOfSome.mp found
      rw [shape]
      simp
    · contradiction

theorem readEquals {V : Values} {vp : Parsers V} {t raw : Text} {device : Device V}
    (read : readConfig vp (makeWgSetconfFile t) = .ok device) (mem : raw ∈ lines t) {c : Char} {rest : Text}
    (line : strip isSpace raw = c::rest) (mark : c ≠ '#') (plain : c ≠ '[') : '=' ∈ raw := by
  have head : (cleaned raw).head? = some c := by
    rw [← cleanedStrip]
    exact cleanedHead line mark (stripHeadSolid line)
  by_cases quick : quickLine (trim raw) = true
  · have present : '=' ∈ trim raw := by
      simp only [quickLine,Bool.and_eq_true,decide_eq_true_eq] at quick
      exact quick.1
    rw [trimEq] at present
    exact beforeSubset (stripSubset present)
  · have filled : cleaned raw ≠ [] := by
      intro empty
      rw [empty] at head
      contradiction
    have seen := setconfKept mem filled (by simpa using quick)
    have present := itemEquals (readConfigKnown read _ seen) (by rw [head]; simpa using plain)
    exact beforeSubset (List.mem_of_mem_filter present)

/- The values a key has in the [Interface] sections, as start.sh finds them. -/
def interfaceValues (key : Text) : Text → List Text → List Text
  | _,[] => []
  | current,raw::rest =>
    let line := trim raw
    if bracketed line then interfaceValues key (lower line) rest
    else if current = interfaceHeader ∧ '=' ∈ line ∧ lower (getKey line) = key then
      StartText.getValue line::interfaceValues key current rest
    else interfaceValues key current rest

theorem interfaceValuesFrom {key current v : Text} {ls : List Text} (mem : v ∈ interfaceValues key current ls) :
    ∃ raw ∈ ls, '=' ∈ trim raw ∧ lower (getKey (trim raw)) = key ∧ v = StartText.getValue (trim raw) := by
  induction ls generalizing current with
  | nil => simp [interfaceValues] at mem
  | cons raw rest ih =>
    have later : ∀ current, v ∈ interfaceValues key current rest → ∃ raw' ∈ raw::rest,
        '=' ∈ trim raw' ∧ lower (getKey (trim raw')) = key ∧ v = StartText.getValue (trim raw') := by
      intro current inside
      obtain ⟨raw',origin,shape⟩ := ih inside
      exact ⟨raw',List.mem_cons_of_mem raw origin,shape⟩
    unfold interfaceValues at mem
    dsimp only at mem
    split at mem
    · exact later _ mem
    split at mem
    · rename_i own
      rcases List.mem_cons.mp mem with rfl | mem
      · exact ⟨raw,List.mem_cons_self,own.2.1,own.2.2,rfl⟩
      · exact later _ mem
    · exact later _ mem

/- start.sh sees of a value what stands before the comment. -/
theorem valueSeen {raw : Text} (present : '=' ∈ trim raw) :
    StartText.getValue (trim raw) = strip isSpace (before '#' (strip isSpace (after '=' raw))) := by
  have cut : '=' ∈ before '#' raw := by
    rw [trimEq] at present
    exact stripSubset present
  unfold StartText.getValue StartText.dropThroughEquals
  rw [if_pos present,trimEq,stripAfterStrip (by decide) cut,afterBefore cut,stripBeforeStrip (by decide)]

theorem keySeen {raw : Text} (present : '=' ∈ trim raw) : getKey (trim raw) = strip isSpace (before '=' raw) := by
  have cut : '=' ∈ before '#' raw := by
    rw [trimEq] at present
    exact stripSubset present
  have same : before '=' (before '#' raw) = before '=' raw := by
    by_cases marked : '#' ∈ raw
    · conv_rhs => rw [cutAt marked]
      exact (beforeAppendMem cut _).symm
    · rw [beforeSelf marked]
  rw [getKeyEq present,trimEq,stripBeforeStrip (by decide),same]

theorem addressOfKeyed {raw : Text} (ascii : Ascii raw) (accepted : Accepted raw) (present : '=' ∈ trim raw)
    (key : lower (getKey (trim raw)) = "address".toList) :
    addressOf raw = some (strip isSpace (after '=' raw)) := by
  rw [keySeen present] at key
  have equals : '=' ∈ raw := by
    rw [trimEq] at present
    exact beforeSubset (stripSubset present)
  have names : ∀ k ∈ allowed ++ addressKey::ignored, lower k = "address".toList → k = addressKey := by
    decide +kernel
  have own := keyAscii ascii
  have kept : ¬ (strip isSpace raw = [] ∨ (strip isSpace raw).head? = some '#') := by
    intro gone
    rw [trimEq] at present
    have seen : '=' ∈ cleaned raw := List.mem_filter.mpr ⟨stripSubset present,by decide⟩
    rw [skippedCleaned gone] at seen
    contradiction
  have plain : ¬ bracketed (strip isSpace raw) = true := by
    intro header
    obtain ⟨tail,lead⟩ := bracketedKey header
    rw [← stripBeforeStrip (by decide) raw,lead] at key
    exact absurd (List.cons.inj key).1 (by decide)
  unfold Accepted at accepted
  unfold addressOf
  rw [scannedAscii ascii] at accepted ⊢
  have named : strip isSpace (before '=' raw) = addressKey := by
    apply names _ ?_ key
    rw [List.mem_append,← own]
    exact (settingKind accepted kept plain).2.symm
  dsimp only
  rw [if_neg kept,if_neg plain,own,if_pos named,trimSpaceAscii,stripAfterStrip (by decide) equals]
  exact asciiOf ascii (fun c mem => stripSubset (afterSubset mem))

/-- The uploader takes a file that wg and start.sh can use exactly if its headers end
their lines and its keys are spelled as the converter lists them. -/
theorem usableAcceptedIff {V : Values} {vp : Parsers V} {t : Text} (ascii : Ascii t)
    (short : ∀ raw ∈ lines t, byteLength raw < maxTokenSize)
    (read : ∃ device, readConfig vp (makeWgSetconfFile t) = .ok device)
    (addressed : ∃ v ∈ interfaceValues "address".toList [] (lines t),
      ∃ part ∈ v.splitOn ',', strip isSpace part ≠ []) :
    (∃ result, convertConfig t = .ok result) ↔ ∀ raw ∈ lines t, Spelled raw := by
  obtain ⟨device,read⟩ := read
  have perLine : ∀ raw ∈ lines t, Ascii raw := fun raw mem => asciiOf ascii (fun _ => linesSubset mem)
  have same : ∀ raw ∈ lines t, (Accepted raw ↔ Spelled raw) := fun raw mem =>
    acceptedSpelled (perLine raw mem) (fun c rest line mark plain => readEquals read mem line mark plain)
  constructor
  · intro given raw mem
    obtain ⟨⟨converted,address⟩,ok⟩ := given
    exact (same raw mem).mp ((convertConfigSound ok).1 raw mem)
  · intro spelled
    have accepted : ∀ raw ∈ lines t, Accepted raw := fun raw mem => (same raw mem).mpr (spelled raw mem)
    have found : (lines t).foldl pick [] ≠ [] := by
      obtain ⟨v,value,parts⟩ := addressed
      obtain ⟨raw,mem,present,key,rfl⟩ := interfaceValuesFrom value
      obtain ⟨c,inside,comma,solid⟩ := partsFilled.mp parts
      rw [valueSeen present] at inside
      have here : c ∈ strip isSpace (after '=' raw) := beforeSubset (stripSubset inside)
      refine foldPickFilled.mpr (.inr ⟨raw,mem,_,addressOfKeyed (perLine raw mem) (accepted raw mem) present key,?_⟩)
      refine firstIPv4OrFirstFilled.mpr ⟨c,here,comma,?_⟩
      rw [← solid]
      exact goSpaceAscii (perLine raw mem c (afterSubset (stripSubset here)))
    exact ⟨_,convertConfigOk.mpr ⟨fun raw mem => ⟨short raw mem,accepted raw mem⟩,rfl,rfl,found⟩⟩

theorem homeFileAccepted :
    (∃ result, convertConfig homeFile = .ok result) ∧ ∀ raw ∈ lines homeFile, Spelled raw := by
  have accepted : ∃ result, convertConfig homeFile = .ok result := ⟨_,homeConverts⟩
  refine ⟨accepted,(@usableAcceptedIff _ rawParsers _ ?_ ?_ ⟨_,rfl⟩ ?_).mp accepted⟩
  · unfold Ascii homeFile
    decide +kernel
  · decide +kernel
  · exact ⟨"10.0.0.2/32".toList,by decide +kernel,"10.0.0.2/32".toList,by decide +kernel,by decide +kernel⟩

def labelledFile : Text :=
  "[Interface]\nAddress = 10.0.0.2/32\nPrivateKey = k\n[Peer] # home\nPublicKey = p\n".toList

theorem labelledFileRefused :
    Ascii labelledFile ∧ (∀ raw ∈ lines labelledFile, byteLength raw < maxTokenSize) ∧
      (∃ device, readConfig rawParsers (makeWgSetconfFile labelledFile) = .ok device) ∧
      interfaceValues "address".toList [] (lines labelledFile) = ["10.0.0.2/32".toList] ∧
      convertConfig labelledFile = .error (.unrecognisedLine "[Peer] # home".toList) := by
  refine ⟨?_,by decide +kernel,⟨_,rfl⟩,by decide +kernel,rfl⟩
  unfold Ascii labelledFile
  decide +kernel

end WebosWireguard.UploadUsable
