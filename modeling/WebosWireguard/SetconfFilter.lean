import WebosWireguard.UploadMeaning

/-! make_wg_setconf_file as a filter. The file wg reads is compared with wg0.conf itself,
less the wg-quick settings that stand under an [Interface] header. wg0.conf is any text
here, uploaded or not. -/
namespace WebosWireguard.SetconfFilter
open TextLines WgReader StartText UploadMeaning

/-! What is to be removed, told by the place of a line in the file. -/

def uncommentedLine (raw : Text) : Text := strip isSpace (before '#' raw)

def quickSetting (raw : Text) : Bool :=
  '=' ∈ before '#' raw && quickKeys.contains (lower (strip isSpace (before '=' (before '#' raw))))

def nearestHeader (above : List Text) : Option Text := (above.map uncommentedLine).reverse.find? bracketed

def removedAt (ls : List Text) (i : Nat) : Bool :=
  ls[i]?.any quickSetting &&
    (nearestHeader (ls.take i)).any (fun header => lower header == lower "[Interface]".toList)

def keptLines (ls : List Text) : List Text :=
  (List.range ls.length).filterMap (fun i => if removedAt ls i then none else ls[i]?)

def withoutQuickSettings (t : Text) : Text := unlines (keptLines (lines t))

theorem keptLinesConcat (ls : List Text) (raw : Text) :
    keptLines (ls ++ [raw]) = keptLines ls ++ if removedAt (ls ++ [raw]) ls.length then [] else [raw] := by
  have earlier : ∀ i ∈ List.range ls.length,
      (if removedAt (ls ++ [raw]) i then none else (ls ++ [raw])[i]?) = if removedAt ls i then none else ls[i]? := by
    intro i mem
    have below := List.mem_range.mp mem
    unfold removedAt
    rw [List.getElem?_append_left below,List.take_append_of_le_length (Nat.le_of_lt below)]
  unfold keptLines
  rw [List.length_append,List.length_singleton,List.range_succ,List.filterMap_append,
    List.filterMap_congr earlier]
  congr 1
  by_cases gone : removedAt (ls ++ [raw]) ls.length = true <;> simp [gone]

theorem keptLinesSubset {ls : List Text} {l : Text} (mem : l ∈ keptLines ls) : l ∈ ls := by
  obtain ⟨i,_,found⟩ := List.mem_filterMap.mp mem
  split at found
  · contradiction
  · exact List.mem_of_getElem? found

/-! The section start.sh is in, and one more line. -/

def sectionFrom (current : Text) (above : List Text) : Text := ((nearestHeader above).map lower).getD current

theorem nearestHeaderCons (l : Text) (rest : List Text) : nearestHeader (l::rest) =
    (nearestHeader rest).or (if bracketed (uncommentedLine l) then some (uncommentedLine l) else none) := by
  unfold nearestHeader
  rw [List.map_cons,List.reverse_cons,List.find?_append]
  by_cases header : bracketed (uncommentedLine l) = true <;> simp [header]

theorem sectionFromCons (current l : Text) (rest : List Text) : sectionFrom current (l::rest) =
    sectionFrom (if bracketed (uncommentedLine l) then lower (uncommentedLine l) else current) rest := by
  unfold sectionFrom
  rw [nearestHeaderCons]
  cases nearestHeader rest with
  | some header => rfl
  | none => by_cases header : bracketed (uncommentedLine l) = true <;> simp [header]

theorem setconfLinesConcat (current : Text) (ls : List Text) (raw : Text) :
    setconfLines current (ls ++ [raw]) =
      setconfLines current ls ++ setconfLines (sectionFrom current ls) [raw] := by
  induction ls generalizing current with
  | nil => rfl
  | cons l rest ih =>
    rw [sectionFromCons,List.cons_append,setconfLines,setconfLines]
    rw [show trim l = uncommentedLine l from trimEq l]
    split
    · rename_i empty
      rw [ih,empty]
      rfl
    split
    · rw [ih,List.cons_append]
    split
    · rw [ih]
    · rw [ih,List.cons_append]

theorem quickLineTrim (raw : Text) : quickLine (trim raw) = quickSetting raw := by
  have solid : isSpace '=' = false := by decide
  have equals : '=' ∈ trim raw ↔ '=' ∈ before '#' raw := by
    rw [trimEq]
    exact ⟨stripSubset,fun mem => memStrip mem solid⟩
  unfold quickLine quickSetting
  by_cases present : '=' ∈ trim raw
  · rw [getKeyEq present]
    simp only [present,equals.mp present]
    rw [trimEq,stripBeforeStrip solid]
  · simp [present,mt equals.mpr present]

theorem inInterface (above : List Text) : sectionFrom [] above = interfaceHeader ↔
    (nearestHeader above).any (fun header => lower header == lower "[Interface]".toList) = true := by
  have same : lower "[Interface]".toList = interfaceHeader := by decide
  have filled : interfaceHeader ≠ [] := by decide
  unfold sectionFrom
  rw [same]
  cases nearestHeader above with
  | none => simp [filled.symm]
  | some header => simp

theorem significantStep (ls : List Text) (raw : Text) :
    significant (setconfLines (sectionFrom [] ls) [raw]) =
      significant (if removedAt (ls ++ [raw]) ls.length then [] else [raw]) := by
  have keep : significant [trim raw] = significant [raw] := by simp [significant,cleanedTrim]
  have gone : removedAt (ls ++ [raw]) ls.length = true ↔
      sectionFrom [] ls = interfaceHeader ∧ quickLine (trim raw) = true := by
    rw [inInterface,quickLineTrim,removedAt]
    simp [and_comm]
  rw [setconfLines]
  split
  · rename_i empty
    have foreign : ¬ removedAt (ls ++ [raw]) ls.length = true := by
      rw [gone,empty]
      exact fun given => absurd given.2 (by decide)
    rw [if_neg foreign,← keep,empty]
    rfl
  split
  · rename_i header
    have foreign : ¬ removedAt (ls ++ [raw]) ls.length = true := by
      rw [gone,← trimTwice raw,bracketedForeign header]
      simp
    rw [if_neg foreign,← keep]
    rfl
  split
  · rename_i quick
    rw [if_pos (gone.mpr quick)]
    rfl
  · rename_i other
    rw [if_neg (fun given => other (gone.mp given)),← keep]
    rfl

/- By the last line: the file read so far fixes the section it stands in. -/
theorem significantFiltered (ls : List Text) : significant (setconfLines [] ls) = significant (keptLines ls) := by
  induction ls using List.reverseRecOn with
  | nil => rfl
  | append_singleton ls raw ih =>
    rw [setconfLinesConcat,keptLinesConcat,significantAppend,significantAppend,ih,significantStep]

/-- wg reads the filtered file as it reads wg0.conf without the wg-quick settings of its
[Interface] sections, with the same result or the same rejection. -/
theorem filterRemovesQuickSettings {V : Values} (vp : Parsers V) (t : Text) :
    readConfig vp (makeWgSetconfFile t) = readConfig vp (withoutQuickSettings t) := by
  apply readConfigCongr
  unfold cleanedLines
  rw [linesMakeWgSetconfFile,withoutQuickSettings,
    linesUnlines (fun l mem => linesNoBreak (keptLinesSubset mem))]
  exact significantFiltered (lines t)

example : keptLines ["MTU=1".toList,"[interface] # x".toList,"mtu =1\r".toList,"[Peer]".toList,"MTU=1".toList] =
    ["MTU=1".toList,"[interface] # x".toList,"[Peer]".toList,"MTU=1".toList] := by decide

end WebosWireguard.SetconfFilter
