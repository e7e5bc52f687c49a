import WebosWireguard.AddressChoice

/-! convertConfig on its own output. The converted text together with one Address line is
a fixed point: the headers come back behind their blank lines, the settings with their own
spacing, and the final trim cuts the same ends. -/
namespace WebosWireguard.ConvertAgain
open TextLines SolidLines ConvertConfig UploadMeaning AddressChoice

theorem spaceBlank {c : Char} (blank : isSpace c = true) : goSpace c = true := by simp [goSpace,blank]

/- bufio's dropCr takes nothing that TrimSpace would leave. -/
theorem scannedTrim (raw : Text) : trimSpace (dropCr raw) = trimSpace raw := by
  obtain ⟨post,eq,blank⟩ := dropCrSplit raw
  conv_rhs => rw [eq]
  exact (stripAppendRight (fun c mem => spaceBlank (blank c mem)) (dropCr raw)).symm

theorem contributionTrim (raw : Text) : contribution (trimSpace raw) = contribution raw := by
  have same : trimSpace (dropCr (trimSpace raw)) = trimSpace (dropCr raw) := by
    rw [scannedTrim,scannedTrim]
    exact stripIdem raw
  unfold contribution
  rw [same]

theorem acceptedTrim {raw : Text} : Accepted raw ↔ LineKind (trimSpace raw) := by
  rw [Accepted,scannedTrim]

theorem joinedSolid {out : List Text} (clean : ∀ l ∈ out, '\n' ∉ l) :
    solidBy trimSpace (lines (joined out)) = solidBy trimSpace out := by
  have norm : Normaliser goSpace trimSpace := stripNormaliser goSpace
  obtain ⟨pre,post,eq,left,right⟩ := stripSplit goSpace (List.intercalate ['\n'] out)
  rw [← solidLinesCut norm clean eq left right]
  exact solidLinesTrail norm (by decide) _

/-! One kept line, read again. -/

theorem headerAgain {line : Text} (trimmed : trimSpace line = line) (header : bracketed line = true) :
    contribution line = [[],line] := by
  unfold contribution
  rw [scannedTrim,trimmed]
  dsimp only
  rw [if_neg,if_pos header]
  cases line with
  | nil => simp [bracketed] at header
  | cons c rest =>
    have first : c = '[' := by simpa [bracketed] using (Bool.and_eq_true_iff.mp header).1
    simp [first]

theorem keyPlain : ∀ k ∈ addressKey::allowed, '=' ∉ k ∧ trimSpace (k ++ [' ']) = k ∧
    (k.head?.any fun c => c != '[' && c != '#' && !goSpace c) = true := by decide

section Setting
variable {key : Text} (known : key ∈ addressKey::allowed) (val : Text)
include known

theorem settingCut : '=' ∈ setting key val ∧ before '=' (setting key val) = key ++ [' '] ∧
    after '=' (setting key val) = ' '::val := by
  have gap : '=' ∉ key ++ [' '] := by simp [(keyPlain key known).1]
  have cut : setting key val = (key ++ [' ']) ++ '=':: ' '::val := by simp [setting]
  rw [cut]
  exact ⟨by simp,cutFirst gap _⟩

/- TrimSpace leaves the key and the value of a setting as they are. -/
theorem settingScanned : '=' ∈ trimSpace (setting key val) ∧
    trimSpace (before '=' (trimSpace (setting key val))) = key ∧
      trimSpace (after '=' (trimSpace (setting key val))) = trimSpace val := by
  obtain ⟨present,lead,rest⟩ := settingCut known val
  have solid : goSpace '=' = false := by decide
  refine ⟨memStrip present solid,?_,?_⟩
  · unfold trimSpace
    rw [stripBeforeStrip solid,lead]
    exact (keyPlain key known).2.1
  · unfold trimSpace
    rw [stripAfterStrip solid present,rest]
    exact stripCons (by decide) val

theorem settingUnskipped : ¬ (trimSpace (setting key val) = [] ∨ (trimSpace (setting key val)).head? = some '#') ∧
    bracketed (trimSpace (setting key val)) = false := by
  have first := (keyPlain key known).2.2
  cases key with
  | nil => simp at first
  | cons c rest =>
    simp only [List.head?_cons,Option.any_some,Bool.and_eq_true,bne_iff_ne,Bool.not_eq_true'] at first
    have headed : ∃ tail, trimSpace (setting (c::rest) val) = c::tail := stripHead first.2
    obtain ⟨tail,lead⟩ := headed
    rw [lead]
    simp [bracketed,first.1.1,first.1.2]

end Setting

theorem settingAgain {key : Text} (known : key ∈ allowed) (val : Text) :
    contribution (setting key (trimSpace val)) = [setting key (trimSpace val)] ∧
      Accepted (setting key (trimSpace val)) := by
  have listed : key ∈ addressKey::allowed := List.mem_cons_of_mem _ known
  obtain ⟨present,own,value⟩ := settingScanned listed (trimSpace val)
  obtain ⟨unskipped,plain⟩ := settingUnskipped listed (trimSpace val)
  constructor
  · unfold contribution
    rw [scannedTrim]
    dsimp only
    rw [if_neg unskipped,plain,own,value,if_neg (by simp),if_neg (allowedPlain key known).2.2.2.2]
    exact congrArg (fun v => [setting key v]) (stripIdem val)
  · rw [acceptedTrim]
    exact .kept present (by rwa [own])

theorem contributionAgain {raw : Text} (accepted : Accepted raw) :
    (contribution raw).flatMap contribution = contribution raw ∧ ∀ l ∈ contribution raw, Accepted l := by
  have shape := contributed accepted
  have blank : contribution [] = [] := rfl
  generalize contribution raw = out at shape
  cases shape with
  | nothing => simp
  | header header =>
    have trimmed : trimSpace (trimSpace (dropCr raw)) = trimSpace (dropCr raw) := stripIdem _
    constructor
    · simp [blank,headerAgain trimmed header]
    · intro l mem
      rw [acceptedTrim]
      rcases List.mem_cons.mp mem with rfl | rest
      · exact .skipped (.inl rfl)
      · rw [List.mem_singleton.mp rest]
        exact .header (by rwa [trimmed])
  | kept _ known =>
    obtain ⟨same,fine⟩ := settingAgain known (after '=' (trimSpace (dropCr raw)))
    exact ⟨by simp [same],fun l mem => by rw [List.mem_singleton.mp mem]; exact fine⟩

/-! The whole output, and the Address line before it. -/

section Converted
variable {t converted address : Text} (ok : convertConfig t = .ok (converted,address))
include ok

theorem convertedSolidLines :
    solidBy trimSpace (lines converted) = solidBy trimSpace ((lines t).flatMap contribution) := by
  obtain ⟨accepted,rfl⟩ := convertConfigSound ok
  apply joinedSolid
  intro l mem
  obtain ⟨raw,inside,here⟩ := List.mem_flatMap.mp mem
  exact contributionNoBreak (linesNoBreak inside) (accepted raw inside) here

theorem convertedAccepted : ∀ l ∈ lines converted, Accepted l := by
  intro l mem
  rw [acceptedTrim]
  by_cases empty : trimSpace l = []
  · exact .skipped (.inl empty)
  · have inside := solidByMem mem empty
    rw [convertedSolidLines ok] at inside
    obtain ⟨u,origin,same⟩ := solidByOrigin inside
    obtain ⟨raw,at_,here⟩ := List.mem_flatMap.mp origin
    rw [← same,← acceptedTrim]
    exact (contributionAgain ((convertConfigSound ok).1 raw at_)).2 u here

theorem convertedContributions :
    (lines converted).flatMap contribution = (lines t).flatMap contribution := by
  have accepted := (convertConfigSound ok).1
  calc (lines converted).flatMap contribution
      = (solidBy trimSpace (lines converted)).flatMap contribution :=
        (flatMapSolid contributionTrim rfl _).symm
    _ = (solidBy trimSpace ((lines t).flatMap contribution)).flatMap contribution := by
        rw [convertedSolidLines ok]
    _ = ((lines t).flatMap contribution).flatMap contribution := flatMapSolid contributionTrim rfl _
    _ = (lines t).flatMap (fun raw => (contribution raw).flatMap contribution) := List.flatMap_assoc
    _ = (lines t).flatMap contribution :=
        List.flatMap_congr (fun raw mem => (contributionAgain (accepted raw mem)).1)

theorem addressAlone : firstIPv4OrFirst address = address := by
  obtain ⟨_,_,v,_,inside⟩ := addressPiece ok
  obtain ⟨solid,single,trimmed,_⟩ := pieceShape inside
  have one : pieces address = [address] := by
    rw [pieces,List.splitOn_eq_singleton single,filledCons,if_neg (by rwa [trimmed]),trimmed]
    rfl
  rw [firstIPv4OrFirstChosen,one]
  by_cases fit : plain address = true <;> simp [preferred,fit]

theorem addressLine : Accepted (setting addressKey address) ∧ contribution (setting addressKey address) = [] ∧
    addressOf (setting addressKey address) = some address := by
  have listed : addressKey ∈ addressKey::allowed := List.mem_cons_self
  obtain ⟨_,_,v,_,inside⟩ := addressPiece ok
  obtain ⟨present,own,value⟩ := settingScanned listed address
  obtain ⟨unskipped,plain⟩ := settingUnskipped listed address
  rw [(pieceShape inside).2.2.1] at value
  refine ⟨?_,?_,?_⟩
  · rw [acceptedTrim]
    exact .dropped present (by simp [own])
  · unfold contribution
    rw [scannedTrim]
    dsimp only
    rw [if_neg unskipped,plain,own,if_neg (by simp),if_pos List.mem_cons_self]
  · unfold addressOf
    rw [scannedTrim]
    dsimp only
    rw [if_neg unskipped,plain,own,if_neg (by simp),if_pos rfl,value]

end Converted

/-- The converted text behind a line with its address is converted to itself. -/
theorem convertedAgain {t converted address : Text} (ok : convertConfig t = .ok (converted,address))
    (short : ∀ l ∈ lines converted, byteLength l < maxTokenSize)
    (shortAddress : byteLength (setting addressKey address) < maxTokenSize) :
    convertConfig (setting addressKey address ++ '\n'::converted) = .ok (converted,address) := by
  obtain ⟨_,output,_,solid⟩ := convertConfigOk.mp ok
  obtain ⟨accepted,nothing,given⟩ := addressLine ok
  have unbroken : '\n' ∉ setting addressKey address := by
    have lead : '\n' ∉ addressKey ++ " = ".toList := by decide
    rw [setting,List.mem_append]
    exact not_or.mpr ⟨lead,addressNoBreak ok⟩
  have picked : pick [] (setting addressKey address) = address := by
    rw [pick,given]
    exact addressAlone ok
  rw [convertConfigOk,linesAppendBreak unbroken]
  refine ⟨?_,?_,?_,solid⟩
  · intro raw mem
    rcases List.mem_cons.mp mem with rfl | later
    · exact ⟨shortAddress,accepted⟩
    · exact ⟨short raw later,convertedAccepted ok raw later⟩
  · rw [List.flatMap_cons,nothing,List.nil_append,convertedContributions ok]
    exact output
  · rw [List.foldl_cons,picked,foldPickChosen,if_neg solid]

def emptyLastValue : Text := "[Peer] # ]\r\nAddress = fd00::2, ,a # b\nFwMark= ".toList

theorem emptyLastValueAgain :
    convertConfig emptyLastValue = .ok ("[Peer] # ]\nFwMark =\n".toList,"a # b".toList) ∧
      convertConfig (setting addressKey "a # b".toList ++ '\n'::"[Peer] # ]\nFwMark =\n".toList) =
        .ok ("[Peer] # ]\nFwMark =\n".toList,"a # b".toList) := by
  have ok : convertConfig emptyLastValue = .ok ("[Peer] # ]\nFwMark =\n".toList,"a # b".toList) := rfl
  exact ⟨ok,convertedAgain ok (by decide) (by decide)⟩

end WebosWireguard.ConvertAgain
