import WebosWireguard.AllowedIps
import WebosWireguard.UploadMeaning

/-! The AllowedIPs lines of wg0.conf, as start.sh greps for them and as wg reads them from
the filtered file. Every line grep finds is one that wg reads, and both see the same text
between the equals sign and the comment; wg also takes a key with blanks inside. -/
namespace WebosWireguard.AllowedLines
open TextLines StartText WgReader AllowedIps UploadMeaning

def allowedKey : Text := "allowedips".toList

def IsKey (k : Text) : Prop := lower k = allowedKey

section Key
variable {k : Text} (key : IsKey k)
include key

theorem keySolid {c : Char} (mem : c ∈ k) : isSpace c = false := by
  by_contra blank
  have blank : isSpace c = true := by simpa using blank
  have clear : ∀ d ∈ allowedKey, isSpace d = false := by decide
  refine lowerNotMem key (lowerBlank blank) (fun inside => ?_) mem
  simp [clear c inside] at blank

theorem keyPlain : '=' ∉ k ∧ '#' ∉ k := by
  have equals : '=' ∉ allowedKey := by decide +kernel
  have mark : '#' ∉ allowedKey := by decide +kernel
  exact ⟨lowerNotMem key (by decide) equals,lowerNotMem key (by decide) mark⟩

theorem keyHead (v : Text) : (lower (k ++ '='::v)).head? = some 'a' := by
  have split : lower (k ++ '='::v) = lower k ++ lower ('='::v) := by simp [lower]
  rw [split,show lower k = allowedKey from key]
  rfl

/- The reader does not take a key without a value. -/
theorem allowedValueKeyed (v : Text) :
    allowedValue (k ++ '='::v) = if v = [] then none else some v :=
  @getValueKeyed k "AllowedIPs".toList (show lower k = allowedKey from key) v

end Key

theorem allowedValueShape {line v : Text} (found : allowedValue line = some v) :
    ∃ k, line = k ++ '='::v ∧ IsKey k := by
  obtain ⟨k,shape,key,_⟩ := @getValueShape line "AllowedIPs".toList v found
  exact ⟨k,shape,key⟩

theorem allowedIpsLineShape {raw : Text} (found : allowedIpsLine raw = true) :
    ∃ pre k post rest, raw = (pre ++ k ++ post) ++ '='::rest ∧ IsKey k ∧
      (∀ c ∈ pre, isSpace c = true) ∧ (∀ c ∈ post, isSpace c = true) := by
  simp only [allowedIpsLine,Bool.and_eq_true,beq_iff_eq] at found
  obtain ⟨key,equals⟩ := found
  obtain ⟨rest,tail⟩ := List.head?_eq_some_iff.mp equals
  refine ⟨raw.takeWhile isSpace,_,_,rest,?_,key,fun _ => List.mem_takeWhile_imp,
    fun _ => List.mem_takeWhile_imp (l := (raw.dropWhile isSpace).drop 10)⟩
  rw [List.append_assoc,List.append_assoc,← tail,List.takeWhile_append_dropWhile,
    List.take_append_drop,List.takeWhile_append_dropWhile]

theorem allowedIpsLineSeen {raw : Text} (found : allowedIpsLine raw = true) :
    ∃ k, IsKey k ∧ cleaned raw = k ++ '='::squash isSpace (before '#' (dropThroughEquals raw)) := by
  obtain ⟨pre,k,post,rest,rfl,key,left,right⟩ := allowedIpsLineShape found
  have solid : ∀ c, isSpace c = false → c ∉ k → c ∉ pre ++ k ++ post := by
    intro c visible absent mem
    simp only [List.mem_append] at mem
    rcases mem with (inPre | inKey) | inPost
    · simp [left c inPre] at visible
    · exact absent inKey
    · simp [right c inPost] at visible
  obtain ⟨equals,mark⟩ := keyPlain key
  have value : dropThroughEquals ((pre ++ k ++ post) ++ '='::rest) = rest := by
    unfold dropThroughEquals
    rw [if_pos (by simp)]
    exact (cutFirst (solid '=' (by decide) equals) rest).2
  refine ⟨k,key,?_⟩
  rw [value]
  unfold cleaned
  rw [beforeAppend (solid '#' (by decide) mark),squashAppend,squashAppend,squashAppend,squashBlank left,
    squashBlank right,squashSelf (fun c mem => keySolid key mem)]
  simp [before,squash,isSpace]

/-! The filter in between drops none of these lines. -/

theorem quickKeysSolid : ∀ q ∈ quickKeys, q ≠ allowedKey ∧ ∀ c ∈ q, isSpace c = false := by
  decide +kernel

theorem quickKeySeen {raw : Text} (quick : quickLine (trim raw) = true) :
    lower (before '=' (cleaned raw)) ∈ quickKeys := by
  simp only [quickLine,Bool.and_eq_true,decide_eq_true_eq,List.contains_iff_mem] at quick
  obtain ⟨present,known⟩ := quick
  have unmarked : '#' ∉ trim raw := by
    rw [trimEq]
    exact fun mem => beforeNotMem raw (stripSubset mem)
  have solid : ∀ c ∈ getKey (trim raw), isSpace c = false := by
    intro c mem
    by_contra blank
    have blank : isSpace c = true := by simpa using blank
    have inside : c ∈ lower (getKey (trim raw)) := lowerBlank blank ▸ List.mem_map_of_mem mem
    rw [(quickKeysSolid _ known).2 c inside] at blank
    exact Bool.false_ne_true blank
  have key : before '=' (cleaned raw) = getKey (trim raw) := by
    have line : cleaned raw = squash isSpace (trim raw) := by
      rw [← cleanedTrim,cleaned,beforeSelf unmarked]
    have cut : squash isSpace (trim raw) =
        squash isSpace (before '=' (trim raw)) ++ '='::squash isSpace (after '=' (trim raw)) := by
      conv_lhs => rw [cutAt present,squashAppend]
      rfl
    have absent : '=' ∉ squash isSpace (before '=' (trim raw)) :=
      fun mem => beforeNotMem _ (List.mem_of_mem_filter mem)
    rw [line,cut,(cutFirst absent _).1,← squashStrip,← getKeyEq present,squashSelf solid]
  rw [key]
  exact known

theorem notQuick {raw k v : Text} (line : cleaned raw = k ++ '='::v) (key : IsKey k) :
    quickLine (trim raw) = false := by
  by_contra quick
  have known := quickKeySeen (by simpa using quick)
  rw [line,(cutFirst (keyPlain key).1 v).1,show lower k = allowedKey from key] at known
  exact (quickKeysSolid _ known).1 rfl

theorem setconfLinesKept {ls : List Text} {current raw} (mem : raw ∈ ls) (filled : trim raw ≠ [])
    (foreign : quickLine (trim raw) = false) : trim raw ∈ setconfLines current ls := by
  induction ls generalizing current with
  | nil => simp at mem
  | cons first rest ih =>
    unfold setconfLines
    dsimp only
    rcases List.mem_cons.mp mem with rfl | later
    · rw [if_neg filled]
      split
      · exact List.mem_cons_self
      · simp [foreign]
    · split
      · exact ih later
      · split
        · exact List.mem_cons_of_mem _ (ih later)
        · split
          · exact ih later
          · exact List.mem_cons_of_mem _ (ih later)

theorem setconfLinesFrom {ls : List Text} {current l} (mem : l ∈ setconfLines current ls) :
    ∃ raw ∈ ls, l = trim raw := by
  induction ls generalizing current with
  | nil => simp [setconfLines] at mem
  | cons first rest ih =>
    have later : ∀ current, l ∈ setconfLines current rest → ∃ raw ∈ first::rest, l = trim raw := by
      intro current mem
      obtain ⟨raw,inside,same⟩ := ih mem
      exact ⟨raw,List.mem_cons_of_mem first inside,same⟩
    unfold setconfLines at mem
    dsimp only at mem
    split at mem
    · exact later _ mem
    · split at mem
      · rcases List.mem_cons.mp mem with rfl | mem
        · exact ⟨first,List.mem_cons_self,rfl⟩
        · exact later _ mem
      · split at mem
        · exact later _ mem
        · rcases List.mem_cons.mp mem with rfl | mem
          · exact ⟨first,List.mem_cons_self,rfl⟩
          · exact later _ mem

theorem setconfKept {conf raw : Text} (mem : raw ∈ lines conf) (filled : cleaned raw ≠ [])
    (foreign : quickLine (trim raw) = false) : cleaned raw ∈ cleanedLines (makeWgSetconfFile conf) := by
  have solid : trim raw ≠ [] := by
    intro empty
    rw [← cleanedTrim,empty] at filled
    exact filled rfl
  unfold cleanedLines significant
  rw [linesMakeWgSetconfFile,List.mem_filter,List.mem_map]
  exact ⟨⟨trim raw,setconfLinesKept mem solid foreign,cleanedTrim raw⟩,by simpa using filled⟩

theorem setconfSeen {conf raw k v : Text} (mem : raw ∈ lines conf) (line : cleaned raw = k ++ '='::v)
    (key : IsKey k) : cleaned raw ∈ cleanedLines (makeWgSetconfFile conf) :=
  setconfKept mem (by rw [line]; simp) (notQuick line key)

theorem setconfOrigin {conf l : Text} (mem : l ∈ cleanedLines (makeWgSetconfFile conf)) :
    ∃ raw ∈ lines conf, l = cleaned raw := by
  unfold cleanedLines significant at mem
  rw [linesMakeWgSetconfFile,List.mem_filter,List.mem_map] at mem
  obtain ⟨⟨line,inside,rfl⟩,_⟩ := mem
  obtain ⟨raw,origin,rfl⟩ := setconfLinesFrom inside
  exact ⟨raw,origin,cleanedTrim raw⟩

section Accepted
variable {V : Values} {vp : Parsers V} {conf : Text} {device : Device V}
  (accepted : readConfig vp (makeWgSetconfFile conf) = .ok device)
include accepted

theorem assignedLines (e : V.AllowedIp) :
    e ∈ assigned device.peers ↔ ∃ raw ∈ lines conf, e ∈ entriesOf vp (cleaned raw) := by
  rw [(readConfigAssigned accepted).1]
  constructor
  · intro given
    obtain ⟨l,mem,inside⟩ := given
    obtain ⟨raw,origin,rfl⟩ := setconfOrigin mem
    exact ⟨raw,origin,inside⟩
  · intro given
    obtain ⟨raw,mem,inside⟩ := given
    refine ⟨cleaned raw,?_,inside⟩
    cases found : allowedValue (cleaned raw) with
    | none => simp [entriesOf,found] at inside
    | some v =>
      obtain ⟨k,line,key⟩ := allowedValueShape found
      exact setconfSeen mem line key

theorem grepLineRead {raw : Text} (mem : raw ∈ lines conf) (found : allowedIpsLine raw = true) :
    ∃ result, vp.allowedips (squash isSpace (before '#' (dropThroughEquals raw))) = some result ∧
      squash isSpace (before '#' (dropThroughEquals raw)) ≠ [] ∧ entriesOf vp (cleaned raw) = result.1 := by
  obtain ⟨k,key,line⟩ := allowedIpsLineSeen found
  have seen := setconfSeen mem line key
  have head : (lower (cleaned raw)).head? = some 'a' := line ▸ keyHead key _
  obtain ⟨value,result,taken,read⟩ := (readConfigAssigned accepted).2 _ seen head
  have same := allowedValueKeyed key (squash isSpace (before '#' (dropThroughEquals raw)))
  rw [← line,taken] at same
  split at same
  · contradiction
  · rename_i filled
    cases Option.some.inj same
    exact ⟨result,read,filled,by simp [entriesOf,taken,read]⟩

end Accepted

end WebosWireguard.AllowedLines
