import WebosWireguard.TextLines

/-! The text processing of start.sh: its sed, tr and case filters over wg0.conf and
over the route lists. echo prints its operand literally, as the shells that need -e
for escapes do. `grep -qx` is a parameter; `GrepOrdinary` says what it does on a
pattern without special characters other than the dot. -/
namespace WebosWireguard.StartText
open TextLines

def dropComment (t : Text) : Text := if '#' ∈ t then (before '#' t).rdropWhile isSpace else t
def dropThroughEquals (t : Text) : Text := if '=' ∈ t then after '=' t else t
def dropFromEquals (t : Text) : Text := if '=' ∈ t then (before '=' t).rdropWhile isSpace else t

def trim (t : Text) : Text := strip isSpace (dropComment (dropCr t))
def getKey (t : Text) : Text := strip isSpace (dropFromEquals t)
def getValue (t : Text) : Text := strip isSpace (dropThroughEquals t)

def interfaceHeader : Text := "[interface]".toList

/- extract_addresses_from_conf and extract_mtu_from_conf scan alike up to the key. -/
def firstInterfaceValue (key : Text) : Text → List Text → Option Text
  | _,[] => none
  | current,raw::rest =>
    let line := trim raw
    if line = [] then firstInterfaceValue key current rest
    else if bracketed line then firstInterfaceValue key (lower line) rest
    else if current = interfaceHeader ∧ '=' ∈ line ∧ lower (getKey line) = key then
      some (getValue line)
    else firstInterfaceValue key current rest

def extractAddressesFromConf (conf : Text) : Option (List Text) :=
  (firstInterfaceValue "address".toList [] (lines conf)).map
    (fun value => (value.splitOn ',').map trim)

def extractMtuFromConf (conf : Text) : Text :=
  match firstInterfaceValue "mtu".toList [] (lines conf) with
  | some mtu => if mtu ≠ [] ∧ mtu.all Char.isDigit then mtu else "1420".toList
  | none => "1420".toList

def quickKeys : List Text :=
  ["address".toList,"dns".toList,"mtu".toList,"table".toList,"preup".toList,"postup".toList,
    "predown".toList,"postdown".toList,"saveconfig".toList]

def quickLine (line : Text) : Bool := '=' ∈ line && quickKeys.contains (lower (getKey line))

def setconfLines : Text → List Text → List Text
  | _,[] => []
  | current,raw::rest =>
    let line := trim raw
    if line = [] then setconfLines current rest
    else if bracketed line then line::setconfLines (lower line) rest
    else if current = interfaceHeader ∧ quickLine line then setconfLines current rest
    else line::setconfLines current rest

def makeWgSetconfFile (conf : Text) : Text := unlines (setconfLines [] (lines conf))

section Routes
variable (grepQx : Text → List Text → Bool)

def recordRoute (applied : List Text) (route : Text) : List Text :=
  if grepQx route applied then applied else applied ++ [route]

def defaultRoute : Text := "0.0.0.0/0".toList
def lowerHalf : Text := "0.0.0.0/1".toList
def upperHalf : Text := "128.0.0.0/1".toList

def addRoute (applied : List Text) (route : Text) : List Text :=
  if route = [] ∨ route.head? = some '#' then applied
  else if ':' ∈ route then applied
  else if route = defaultRoute then
    recordRoute grepQx (recordRoute grepQx applied lowerHalf) upperHalf
  else recordRoute grepQx applied route

/- grep -i '^[[:space:]]*AllowedIPs[[:space:]]*=' -/
def allowedIpsLine (l : Text) : Bool :=
  let body := l.dropWhile isSpace
  lower (body.take 10) == "allowedips".toList &&
    ((body.drop 10).dropWhile isSpace).head? == some '='

/- The list is split at its commas before the comment is cut off. -/
def linePieces (l : Text) : List Text :=
  ((dropThroughEquals l).splitOn ',').map (fun piece => strip isSpace (dropComment piece))

def routePieces (conf : Text) : List Text := ((lines conf).filter allowedIpsLine).flatMap linePieces

def extraPieces (extra : Option Text) : List Text := ((extra.map lines).getD []).map trim

def appliedRoutes (conf : Text) (extra : Option Text) : List Text :=
  (routePieces conf ++ extraPieces extra).foldl (addRoute grepQx) []

end Routes

/- No special character of a basic regular expression, except the dot. -/
def Ordinary (pattern : Text) : Prop :=
  pattern.head? ≠ some '-' ∧ ∀ c ∈ pattern, c ∉ ['\\','[','*','^','$','\n']

def dotMatch : Text → Text → Bool
  | [],[] => true
  | p::ps,c::cs => (p == '.' || p == c) && dotMatch ps cs
  | _,_ => false

def GrepOrdinary (grepQx : Text → List Text → Bool) : Prop :=
  ∀ pattern file, Ordinary pattern → grepQx pattern file = file.any (dotMatch pattern)

theorem stripDropComment (t : Text) :
    strip isSpace (dropComment t) = strip isSpace (before '#' t) := by
  unfold dropComment
  split
  · obtain ⟨post,eq,blank⟩ : ∃ post, before '#' t = (before '#' t).rdropWhile isSpace ++ post ∧
        ∀ c ∈ post, isSpace c = true :=
      ⟨(before '#' t).rtakeWhile isSpace,List.rdropWhile_append_rtakeWhile.symm,
        fun c mem => List.mem_rtakeWhile_imp mem⟩
    rw [← stripAppendRight blank ((before '#' t).rdropWhile isSpace),← eq]
  · rename_i absent
    rw [beforeSelf absent]

theorem trimEq (t : Text) : trim t = strip isSpace (before '#' t) := by
  unfold trim
  rw [stripDropComment]
  obtain ⟨post,eq,blank⟩ := dropCrSplit t
  by_cases present : '#' ∈ dropCr t
  · rw [← beforeAppendMem present post,← eq]
  · have clear : '#' ∉ post := by
      intro mem
      have h := blank '#' mem
      simp [isSpace] at h
    rw [beforeSelf present,← stripAppendRight blank,← beforeSelf (c := '#') (t := dropCr t ++ post),← eq]
    simp [present,clear]

theorem trimTwice (l : Text) : trim (trim l) = trim l := by
  rw [trimEq,trimEq,stripBeforeStrip (by decide),beforeSelf (beforeNotMem l)]

theorem getKeyEq {t : Text} (present : '=' ∈ t) : getKey t = strip isSpace (before '=' t) := by
  have eq : before '=' t = (before '=' t).rdropWhile isSpace ++ (before '=' t).rtakeWhile isSpace :=
    List.rdropWhile_append_rtakeWhile.symm
  unfold getKey dropFromEquals
  rw [if_pos present]
  rw [← stripAppendRight (fun c mem => List.mem_rtakeWhile_imp mem) ((before '=' t).rdropWhile isSpace),← eq]

theorem trimNoBreak {l : Text} (clean : '\n' ∉ l) : '\n' ∉ trim l := by
  rw [trimEq]
  exact fun mem => clean (beforeSubset (stripSubset mem))

theorem setconfLinesNoBreak {current ls} (clean : ∀ l ∈ ls, '\n' ∉ l) :
    ∀ l ∈ setconfLines current ls, '\n' ∉ l := by
  induction ls generalizing current with
  | nil => simp [setconfLines]
  | cons raw rest ih =>
    have later : ∀ current, ∀ l ∈ setconfLines current rest, '\n' ∉ l :=
      fun current => ih (fun l mem => clean l (List.mem_cons_of_mem raw mem))
    have first := trimNoBreak (clean raw (by simp))
    unfold setconfLines
    dsimp only
    split
    · exact later current
    · split
      · exact List.forall_mem_cons.mpr ⟨first,later _⟩
      · split
        · exact later current
        · exact List.forall_mem_cons.mpr ⟨first,later current⟩

theorem linesMakeWgSetconfFile (conf : Text) :
    lines (makeWgSetconfFile conf) = setconfLines [] (lines conf) :=
  linesUnlines (setconfLinesNoBreak (fun _ mem => linesNoBreak mem))

end WebosWireguard.StartText
