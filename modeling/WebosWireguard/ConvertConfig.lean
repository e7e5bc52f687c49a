import WebosWireguard.TextLines

/-! convertConfig of the upload server. Input is Unicode text; bytes that are not valid
UTF-8 are not modelled. bufio.Scanner refuses a line that does not fit its buffer
together with the line feed. -/
namespace WebosWireguard.ConvertConfig
open TextLines

/- unicode.IsSpace, as strings.TrimSpace uses it. -/
def goSpace (c : Char) : Bool :=
  isSpace c || [0x85,0xA0,0x1680,0x2028,0x2029,0x202F,0x205F,0x3000].contains c.toNat ||
    (0x2000 ≤ c.toNat && c.toNat ≤ 0x200A)

def trimSpace (t : Text) : Text := strip goSpace t

def maxTokenSize : Nat := 65536
def byteLength (t : Text) : Nat := (t.map Char.utf8Size).sum

def allowed : List Text :=
  ["PrivateKey".toList,"ListenPort".toList,"FwMark".toList,"PublicKey".toList,
    "PresharedKey".toList,"AllowedIPs".toList,"Endpoint".toList,"PersistentKeepalive".toList]

def addressKey : Text := "Address".toList

def ignored : List Text :=
  ["DNS".toList,"MTU".toList,"Table".toList,"SaveConfig".toList,"PostUp".toList,
    "PostDown".toList,"PreUp".toList,"PreDown".toList]

def pickAddress (first : Text) : List Text → Text
  | [] => first
  | part::rest =>
    let p := trimSpace part
    if p = [] then pickAddress first rest
    else if ':' ∈ p then pickAddress (if first = [] then p else first) rest
    else p

def firstIPv4OrFirst (s : Text) : Text := pickAddress [] (s.splitOn ',')

inductive Failure where
  | tokenTooLong
  | unrecognisedLine (line : Text)
  | unsupportedKey (key : Text)
  | addressNotFound
  deriving DecidableEq, Repr

def Failure.message : Failure → Text
  | .tokenTooLong => "bufio.Scanner: token too long".toList
  | .unrecognisedLine line => "unrecognised line: ".toList ++ line
  | .unsupportedKey key => "unsupported key: ".toList ++ key
  | .addressNotFound => "Address not found in the file".toList

def setting (key val : Text) : Text := key ++ " = ".toList ++ val

def convertLines : List Text → List Text → Text → Except Failure (List Text × Text)
  | [],out,address => .ok (out,address)
  | raw::rest,out,address =>
    if maxTokenSize ≤ byteLength raw then .error .tokenTooLong else
      let line := trimSpace (dropCr raw)
      if line = [] then convertLines rest out address
      else if line.head? = some '#' then convertLines rest out address
      else if bracketed line then convertLines rest (out ++ [[],line]) address
      else if '=' ∉ line then .error (.unrecognisedLine line)
      else
        let key := trimSpace (before '=' line)
        let val := trimSpace (after '=' line)
        if key = addressKey then
          convertLines rest out (if address = [] then firstIPv4OrFirst val else address)
        else if key ∈ ignored then convertLines rest out address
        else if key ∉ allowed then .error (.unsupportedKey key)
        else convertLines rest (out ++ [setting key val]) address

def joined (out : List Text) : Text := trimSpace (List.intercalate ['\n'] out) ++ ['\n']

def convertConfig (input : Text) : Except Failure (Text × Text) := do
  let (out,address) ← convertLines (lines input) [] []
  if address = [] then .error .addressNotFound else .ok (joined out,address)

inductive LineKind (line : Text) : Prop where
  | skipped (h : line = [] ∨ line.head? = some '#')
  | header (h : bracketed line = true)
  | dropped (present : '=' ∈ line) (h : trimSpace (before '=' line) ∈ addressKey::ignored)
  | kept (present : '=' ∈ line) (h : trimSpace (before '=' line) ∈ allowed)

def contribution (raw : Text) : List Text :=
  let line := trimSpace (dropCr raw)
  if line = [] ∨ line.head? = some '#' then []
  else if bracketed line then [[],line]
  else if trimSpace (before '=' line) ∈ addressKey::ignored then []
  else [setting (trimSpace (before '=' line)) (trimSpace (after '=' line))]

def Accepted (raw : Text) : Prop := LineKind (trimSpace (dropCr raw))

def addressOf (raw : Text) : Option Text :=
  let line := trimSpace (dropCr raw)
  if line = [] ∨ line.head? = some '#' then none
  else if bracketed line then none
  else if trimSpace (before '=' line) = addressKey then some (trimSpace (after '=' line))
  else none

def pick (address raw : Text) : Text :=
  match addressOf raw with
  | some val => if address = [] then firstIPv4OrFirst val else address
  | none => address

def Scannable (raw : Text) : Prop := byteLength raw < maxTokenSize ∧ Accepted raw

/- A line of settings has its equals sign and a key of the converter's lists. -/
theorem settingKind {line : Text} (kind : LineKind line) (unskipped : ¬ (line = [] ∨ line.head? = some '#'))
    (plain : ¬ bracketed line = true) :
    '=' ∈ line ∧ (trimSpace (before '=' line) ∈ addressKey::ignored ∨ trimSpace (before '=' line) ∈ allowed) := by
  cases kind with
  | skipped h => exact absurd h unskipped
  | header h => exact absurd h plain
  | dropped present h => exact ⟨present,.inl h⟩
  | kept present h => exact ⟨present,.inr h⟩

/- One line either goes through, with its contribution and its address, or ends the run. -/
theorem convertLinesStep (raw : Text) (rest out : List Text) (address : Text) :
    (Scannable raw ∧ convertLines (raw::rest) out address =
        convertLines rest (out ++ contribution raw) (pick address raw)) ∨
      (¬ Scannable raw ∧ ∃ failure, convertLines (raw::rest) out address = .error failure) := by
  rw [convertLines]
  unfold Scannable Accepted contribution pick addressOf
  dsimp only
  by_cases long : maxTokenSize ≤ byteLength raw
  · rw [if_pos long]
    exact .inr ⟨fun given => absurd given.1 (Nat.not_lt.mpr long),_,rfl⟩
  have short := Nat.not_le.mp long
  rw [if_neg long]
  by_cases empty : trimSpace (dropCr raw) = []
  · rw [if_pos empty,if_pos (.inl empty),if_pos (.inl empty),List.append_nil]
    exact .inl ⟨⟨short,.skipped (.inl empty)⟩,rfl⟩
  rw [if_neg empty]
  by_cases mark : (trimSpace (dropCr raw)).head? = some '#'
  · rw [if_pos mark,if_pos (.inr mark),if_pos (.inr mark),List.append_nil]
    exact .inl ⟨⟨short,.skipped (.inr mark)⟩,rfl⟩
  have unskipped : ¬ (trimSpace (dropCr raw) = [] ∨ (trimSpace (dropCr raw)).head? = some '#') :=
    not_or.mpr ⟨empty,mark⟩
  rw [if_neg mark,if_neg unskipped,if_neg unskipped]
  by_cases header : bracketed (trimSpace (dropCr raw)) = true
  · rw [if_pos header,if_pos header,if_pos header]
    exact .inl ⟨⟨short,.header header⟩,rfl⟩
  rw [if_neg header,if_neg header,if_neg header]
  by_cases present : '=' ∈ trimSpace (dropCr raw)
  · rw [if_neg (not_not.mpr present)]
    by_cases key : trimSpace (before '=' (trimSpace (dropCr raw))) = addressKey
    · have quick : trimSpace (before '=' (trimSpace (dropCr raw))) ∈ addressKey::ignored := key ▸ List.mem_cons_self
      rw [if_pos key,if_pos key,if_pos quick,List.append_nil]
      exact .inl ⟨⟨short,.dropped present quick⟩,rfl⟩
    rw [if_neg key,if_neg key]
    by_cases unread : trimSpace (before '=' (trimSpace (dropCr raw))) ∈ ignored
    · have quick := List.mem_cons_of_mem addressKey unread
      rw [if_pos unread,if_pos quick,List.append_nil]
      exact .inl ⟨⟨short,.dropped present quick⟩,rfl⟩
    have listed : trimSpace (before '=' (trimSpace (dropCr raw))) ∉ addressKey::ignored :=
      fun mem => (List.mem_cons.mp mem).elim key unread
    rw [if_neg unread,if_neg listed]
    by_cases known : trimSpace (before '=' (trimSpace (dropCr raw))) ∈ allowed
    · rw [if_neg (not_not.mpr known)]
      exact .inl ⟨⟨short,.kept present known⟩,rfl⟩
    · rw [if_pos known]
      refine .inr ⟨fun given => ?_,_,rfl⟩
      exact (settingKind given.2 unskipped header).2.elim listed known
  · rw [if_pos present]
    exact .inr ⟨fun given => present (settingKind given.2 unskipped header).1,_,rfl⟩

/- What an accepted line leaves in the output. -/
inductive Contributed (line : Text) : List Text → Prop where
  | nothing : Contributed line []
  | header (h : bracketed line = true) : Contributed line [[],line]
  | kept (present : '=' ∈ line) (known : trimSpace (before '=' line) ∈ allowed) :
      Contributed line [setting (trimSpace (before '=' line)) (trimSpace (after '=' line))]

theorem contributed {raw : Text} (accepted : Accepted raw) :
    Contributed (trimSpace (dropCr raw)) (contribution raw) := by
  unfold Accepted at accepted
  unfold contribution
  dsimp only
  split
  · exact .nothing
  rename_i skip
  split
  · rename_i header
    exact .header header
  rename_i plain
  split
  · exact .nothing
  rename_i key
  obtain ⟨present,listed⟩ := settingKind accepted skip plain
  exact .kept present (listed.resolve_left key)

theorem convertLinesOk {ls out address result final} :
    convertLines ls out address = .ok (result,final) ↔
      (∀ raw ∈ ls, Scannable raw) ∧ result = out ++ ls.flatMap contribution ∧
        final = ls.foldl pick address := by
  induction ls generalizing out address with
  | nil =>
    simp only [convertLines,Except.ok.injEq,Prod.mk.injEq,List.flatMap_nil,List.append_nil,List.foldl_nil]
    exact ⟨fun given => ⟨by simp,given.1.symm,given.2.symm⟩,fun given => ⟨given.2.1.symm,given.2.2.symm⟩⟩
  | cons raw rest ih =>
    rcases convertLinesStep raw rest out address with ⟨fine,step⟩ | ⟨bad,failure,step⟩
    · rw [step,ih]
      simp [fine]
    · rw [step]
      simp [bad]

theorem convertConfigOk {input converted address} :
    convertConfig input = .ok (converted,address) ↔
      (∀ raw ∈ lines input, Scannable raw) ∧ converted = joined ((lines input).flatMap contribution) ∧
        address = (lines input).foldl pick [] ∧ address ≠ [] := by
  unfold convertConfig
  cases ran : convertLines (lines input) [] [] with
  | error failure =>
    have stuck : ¬ ∀ raw ∈ lines input, Scannable raw := by
      intro fine
      have ok : convertLines (lines input) [] [] = .ok _ := convertLinesOk.mpr ⟨fine,rfl,rfl⟩
      rw [ran] at ok
      contradiction
    simp [bind,Except.bind,stuck]
  | ok pair =>
    obtain ⟨out,final⟩ := pair
    obtain ⟨fine,rfl,rfl⟩ := convertLinesOk.mp ran
    simp only [bind,Except.bind,List.nil_append]
    split
    · rename_i empty
      simp [empty]
    · rename_i filled
      simp only [Except.ok.injEq,Prod.mk.injEq]
      constructor
      · intro given
        obtain ⟨rfl,rfl⟩ := given
        exact ⟨fine,rfl,rfl,filled⟩
      · intro given
        exact ⟨given.2.1.symm,given.2.2.1.symm⟩

theorem convertConfigSound {input converted address}
    (ok : convertConfig input = .ok (converted,address)) :
    (∀ raw ∈ lines input, Accepted raw) ∧
      converted = joined ((lines input).flatMap contribution) := by
  obtain ⟨fine,same,_⟩ := convertConfigOk.mp ok
  exact ⟨fun raw mem => (fine raw mem).2,same⟩

end WebosWireguard.ConvertConfig
