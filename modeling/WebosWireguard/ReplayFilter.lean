import Mathlib.Data.Nat.Bitwise
import WebosWireguard.OutputRun

/-! The replay filter of wireguard-go, a sliding window over message counters. Block numbers
stay far below 2^64, so the arithmetic of uint64 does not wrap and is that of Nat. One
filter is used by one receiver at a time. -/
namespace WebosWireguard.ReplayFilter
open OutputRun

def blockBitLog : Nat := 6
def blockBits : Nat := 1 <<< blockBitLog
def ringBlocks : Nat := 1 <<< 7
def windowSize : Nat := (ringBlocks-1) * blockBits
def blockMask : Nat := ringBlocks-1
def bitMask : Nat := blockBits-1

abbrev Ring := Fin ringBlocks → BitVec blockBits

structure Filter where
  last : Nat
  ring : Ring

def slot (i : Nat) : Fin ringBlocks := ⟨i &&& blockMask,Nat.lt_of_le_of_lt Nat.and_le_right (by decide)⟩

def reset (f : Filter) : Filter := ⟨0,Function.update f.ring (slot 0) 0⟩

def clearBlocks (ring : Ring) (i : Nat) : Nat → Ring
  | 0 => ring
  | n+1 => clearBlocks (Function.update ring (slot i) 0) (i+1) n

def checkAndSet (f : Filter) (counter : Nat) : Bool × Filter :=
  let indexBlock := slot (counter >>> blockBitLog)
  let indexBit := counter &&& bitMask
  let old := f.ring indexBlock
  let new := old ||| (1 : BitVec blockBits) <<< indexBit
  (old != new,{f with ring := Function.update f.ring indexBlock new})

def validateCounter (f : Filter) (counter limit : Nat) : Bool × Filter :=
  if counter ≥ limit then (false,f)
  else if counter > f.last then
    let current := f.last >>> blockBitLog
    let diff := (counter >>> blockBitLog) - current
    let diff := if diff > ringBlocks then ringBlocks else diff
    checkAndSet ⟨counter,clearBlocks f.ring (current+1) diff⟩ counter
  else if f.last - counter > windowSize then (false,f)
  else checkAndSet f counter

def validate (f : Filter) (call : Nat × Nat) : Bool × Filter := validateCounter f call.1 call.2

/-! What the filter is for: a memory of every accepted counter. -/

def latest (seen : List Nat) : Nat := seen.foldr max 0

def fresh (seen : List Nat) (counter limit : Nat) : Bool :=
  counter < limit && latest seen ≤ counter + windowSize && !seen.contains counter

def remember (seen : List Nat) (call : Nat × Nat) : Bool × List Nat :=
  if fresh seen call.1 call.2 then (true,call.1::seen) else (false,seen)

theorem latestLe {seen : List Nat} {c : Nat} (mem : c ∈ seen) : c ≤ latest seen := by
  induction seen with
  | nil => simp at mem
  | cons a rest ih =>
    rcases List.mem_cons.mp mem with rfl | inside
    · exact le_max_left _ _
    · exact le_trans (ih inside) (le_max_right _ _)

theorem slotMod (i : Nat) : (slot i).val = i % 128 := Nat.and_two_pow_sub_one_eq_mod i 7

theorem slotEq {i j : Nat} : slot i = slot j ↔ i % 128 = j % 128 := by
  rw [Fin.ext_iff,slotMod,slotMod]

theorem blockOf (c : Nat) : c >>> blockBitLog = c / 64 := Nat.shiftRight_eq_div_pow c 6

theorem bitOf (c : Nat) : c &&& bitMask = c % 64 := Nat.and_two_pow_sub_one_eq_mod c 6

/- The bit that stands for a counter, wherever the window is. -/
def marked (ring : Ring) (c : Nat) : Bool := (ring (slot (c / 64))).getLsbD (c % 64)

/- The blocks of the window hold the accepted counters; the others are left over. -/
structure Tracks (f : Filter) (seen : List Nat) : Prop where
  last : f.last = latest seen
  marks : ∀ c, c / 64 ≤ f.last / 64 → f.last / 64 < c / 64 + 128 → (marked f.ring c = true ↔ c ∈ seen)

theorem clearBlocksAt (ring : Ring) (i n : Nat) (s : Fin ringBlocks) :
    clearBlocks ring i n s = if ∃ k < n, s = slot (i+k) then 0 else ring s := by
  induction n generalizing ring i with
  | zero => simp [clearBlocks]
  | succ n ih =>
    rw [clearBlocks,ih]
    by_cases later : ∃ k < n, s = slot (i+1+k)
    · obtain ⟨k,below,here⟩ := later
      rw [if_pos ⟨k,below,here⟩,if_pos ⟨k+1,by omega,by rw [here]; congr 1; omega⟩]
    · rw [if_neg later]
      by_cases first : s = slot i
      · rw [if_pos ⟨0,by omega,first⟩,first,Function.update_self]
      · rw [Function.update_of_ne first,if_neg]
        intro given
        obtain ⟨k,below,here⟩ := given
        cases k with
        | zero => exact first here
        | succ k => exact later ⟨k,by omega,by rw [here]; congr 1; omega⟩

theorem setBitAt (old : BitVec blockBits) {j k : Nat} (small : j < 64) :
    (old ||| (1 : BitVec blockBits) <<< k).getLsbD j = (old.getLsbD j || decide (j = k)) := by
  have width : j < blockBits := small
  rw [BitVec.getLsbD_or,BitVec.getLsbD_shiftLeft]
  by_cases same : j = k
  · subst same
    simp [width,show 0 < blockBits by decide]
  · by_cases before : j < k
    · simp [before,same]
    · have above : j-k ≠ 0 := by omega
      simp [same,above]

theorem setBitNew (old : BitVec blockBits) {k : Nat} (small : k < 64) :
    (old != old ||| (1 : BitVec blockBits) <<< k) = !old.getLsbD k := by
  cases bit : old.getLsbD k with
  | true =>
    have same : old ||| (1 : BitVec blockBits) <<< k = old := by
      refine BitVec.eq_of_getLsbD_eq (fun i below => ?_)
      rw [setBitAt old below]
      by_cases here : i = k
      · simp [here,bit]
      · simp [here]
    exact bne_eq_false_iff_eq.mpr same.symm
  | false =>
    have other : old ≠ old ||| (1 : BitVec blockBits) <<< k := by
      intro same
      have set := setBitAt old (k := k) small
      rw [← same,bit] at set
      simp at set
    simpa using other

/- Two counters of one window share a bit only if they are the same. -/
theorem windowApart {c d last : Nat} (low : c / 64 ≤ last / 64) (high : last / 64 < c / 64 + 128)
    (lowD : d / 64 ≤ last / 64) (highD : last / 64 < d / 64 + 128) (slots : slot (c / 64) = slot (d / 64))
    (bits : c % 64 = d % 64) : c = d := by
  have blocks := slotEq.mp slots
  omega

theorem checkedMark (f : Filter) {c counter : Nat} (low : c / 64 ≤ f.last / 64) (high : f.last / 64 < c / 64 + 128)
    (lowD : counter / 64 ≤ f.last / 64) (highD : f.last / 64 < counter / 64 + 128) :
    marked (checkAndSet f counter).2.ring c = (marked f.ring c || decide (c = counter)) := by
  have small : c % 64 < 64 := Nat.mod_lt _ (by decide)
  unfold checkAndSet marked
  dsimp only
  rw [blockOf,bitOf]
  by_cases here : slot (c / 64) = slot (counter / 64)
  · rw [here,Function.update_self,setBitAt _ small]
    by_cases bits : c % 64 = counter % 64
    · have same := windowApart low high lowD highD here bits
      simp [same]
    · have other : c ≠ counter := fun same => bits (by rw [same])
      simp [bits,other]
  · rw [Function.update_of_ne here]
    have other : c ≠ counter := fun same => here (by rw [same])
    simp [other]

theorem checkedAnswer (f : Filter) (counter : Nat) : (checkAndSet f counter).1 = !marked f.ring counter := by
  unfold checkAndSet marked
  dsimp only
  rw [blockOf,bitOf]
  exact setBitNew _ (Nat.mod_lt _ (by decide))

/- Moving the window forward clears exactly the blocks that come into it. -/
theorem clearedMark {last counter : Nat} (ring : Ring) (ahead : last < counter) {c diff : Nat}
    (low : c / 64 ≤ counter / 64) (high : counter / 64 < c / 64 + 128)
    (capped : diff = if counter / 64 - last / 64 > 128 then 128 else counter / 64 - last / 64) :
    marked (clearBlocks ring (last / 64 + 1) diff) c = (decide (c / 64 ≤ last / 64) && marked ring c) := by
  unfold marked
  rw [clearBlocksAt]
  by_cases old : c / 64 ≤ last / 64
  · rw [if_neg]
    · simp [old]
    · intro given
      obtain ⟨k,below,here⟩ := given
      have same := slotEq.mp here
      split at capped <;> omega
  · rw [if_pos]
    · simp [old]
    · by_cases far : counter / 64 - last / 64 > 128
      · rw [if_pos far] at capped
        refine ⟨(c / 64 - (last / 64 + 1)) % 128,by omega,slotEq.mpr ?_⟩
        omega
      · rw [if_neg far] at capped
        refine ⟨c / 64 - (last / 64 + 1),by omega,?_⟩
        congr 1
        omega

theorem forwardTracks {f : Filter} {seen : List Nat} (tracks : Tracks f seen) {counter diff : Nat}
    (ahead : f.last < counter)
    (capped : diff = if counter / 64 - f.last / 64 > 128 then 128 else counter / 64 - f.last / 64)
    {c : Nat} (low : c / 64 ≤ counter / 64) (high : counter / 64 < c / 64 + 128) :
    marked (clearBlocks f.ring (f.last / 64 + 1) diff) c = true ↔ c ∈ seen := by
  have blocks : f.last / 64 ≤ counter / 64 := Nat.div_le_div_right (le_of_lt ahead)
  rw [clearedMark f.ring ahead low high capped,Bool.and_eq_true,decide_eq_true_eq]
  constructor
  · intro given
    exact (tracks.marks c given.1 (by omega)).mp given.2
  · intro mem
    have bound := latestLe mem
    rw [← tracks.last] at bound
    have old : c / 64 ≤ f.last / 64 := Nat.div_le_div_right bound
    exact ⟨old,(tracks.marks c old (by omega)).mpr mem⟩

/- The check itself, in a window that tracks the counters seen. -/
theorem checkTracks {f : Filter} {seen : List Nat} {counter : Nat}
    (marks : ∀ c, c / 64 ≤ f.last / 64 → f.last / 64 < c / 64 + 128 → (marked f.ring c = true ↔ c ∈ seen))
    (low : counter / 64 ≤ f.last / 64) (high : f.last / 64 < counter / 64 + 128) :
    ((checkAndSet f counter).1 = true ↔ counter ∉ seen) ∧
      ∀ c, c / 64 ≤ f.last / 64 → f.last / 64 < c / 64 + 128 →
        (marked (checkAndSet f counter).2.ring c = true ↔ c ∈ counter::seen) := by
  refine ⟨?_,fun c lowC highC => ?_⟩
  · rw [checkedAnswer,Bool.not_eq_true',← Bool.not_eq_true,marks counter low high]
  · rw [checkedMark f lowC highC low high,Bool.or_eq_true,decide_eq_true_eq,marks c lowC highC,List.mem_cons]
    exact or_comm

/- Whatever the answer, the filter and the memory agree once the counter is in the window. -/
theorem checkAlike {f : Filter} {seen : List Nat} {counter : Nat} (lasts : f.last = max counter (latest seen))
    (marks : ∀ c, c / 64 ≤ f.last / 64 → f.last / 64 < c / 64 + 128 → (marked f.ring c = true ↔ c ∈ seen))
    (high : f.last / 64 < counter / 64 + 128) :
    (checkAndSet f counter).1 = !seen.contains counter ∧
      Tracks (checkAndSet f counter).2 (if seen.contains counter then seen else counter::seen) := by
  have low : counter / 64 ≤ f.last / 64 := Nat.div_le_div_right (by omega)
  obtain ⟨answer,next⟩ := checkTracks marks low high
  by_cases known : counter ∈ seen
  · have rejected : (checkAndSet f counter).1 = false := by
      rw [← Bool.not_eq_true,answer]
      exact not_not.mpr known
    have bound := latestLe known
    refine ⟨by simp [rejected,known],?_⟩
    rw [if_pos (by simpa using known)]
    refine ⟨by rw [show (checkAndSet f counter).2.last = f.last from rfl]; omega,fun c lowC highC => ?_⟩
    rw [next c lowC highC,List.mem_cons]
    exact or_iff_right_of_imp (fun same => same ▸ known)
  · refine ⟨by simp [answer.mpr known,known],?_⟩
    rw [if_neg (by simpa using known)]
    exact ⟨lasts,next⟩

theorem validateAlike (f : Filter) (seen : List Nat) (call : Nat × Nat) (tracks : Tracks f seen) :
    (validate f call).1 = (remember seen call).1 ∧ Tracks (validate f call).2 (remember seen call).2 := by
  obtain ⟨counter,limit⟩ := call
  have same := tracks.last
  have window : windowSize = 8128 := rfl
  by_cases past : counter ≥ limit
  · simp [validate,validateCounter,remember,fresh,past,Nat.not_lt.mpr past,tracks]
  by_cases old : f.last - counter > windowSize
  · have behind : ¬ counter > f.last := by omega
    have stale : ¬ latest seen ≤ counter + windowSize := by omega
    simp [validate,validateCounter,remember,fresh,past,behind,old,stale,tracks]
  have small : counter < limit := by omega
  have recent : latest seen ≤ counter + windowSize := by omega
  have spec : remember seen (counter,limit) =
      (!seen.contains counter,if seen.contains counter then seen else counter::seen) := by
    cases known : seen.contains counter <;> simp_all [remember,fresh]
  rw [spec]
  by_cases ahead : counter > f.last
  · have shape : validate f (counter,limit) = checkAndSet ⟨counter,clearBlocks f.ring (f.last / 64 + 1)
        (if counter / 64 - f.last / 64 > 128 then 128 else counter / 64 - f.last / 64)⟩ counter := by
      simp only [validate,validateCounter,if_neg past,if_pos ahead,blockOf]
      rfl
    rw [shape]
    exact checkAlike (by dsimp only; omega) (fun c => forwardTracks tracks ahead rfl) (by dsimp only; omega)
  · have shape : validate f (counter,limit) = checkAndSet f counter := by
      simp only [validate,validateCounter,if_neg past,if_neg ahead,if_neg old]
    rw [shape]
    exact checkAlike (by omega) tracks.marks (by omega)

theorem resetTracks (f : Filter) : Tracks (reset f) [] := by
  refine ⟨rfl,fun c low _ => ?_⟩
  have bound : c / 64 ≤ 0 / 64 := low
  have first : c / 64 = 0 := by omega
  simp [marked,reset,first]

/- However often a filter was used before, after a reset it accepts a counter if it is below
the limit, at most a window behind the largest one accepted, and was not accepted yet. -/
theorem replayFilterRemembers (f : Filter) (calls : List (Nat × Nat)) :
    outputs validate (reset f) calls = outputs remember [] calls :=
  outputsSimulated validateAlike (resetTracks f) calls

end WebosWireguard.ReplayFilter
