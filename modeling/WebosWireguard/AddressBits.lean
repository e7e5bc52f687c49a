import Mathlib.Data.Nat.Size
import Mathlib.Data.Nat.Bitwise
import WebosWireguard.SubnetTable

/-! Addresses as bit vectors whose first bit is the most significant one: how far two of
them agree, masks that keep the first bits, and the subnet a prefix stands for. -/
namespace WebosWireguard.AddressBits
open SubnetTable

variable {w : Nat} {a b c : BitVec w} {k : Nat}

def Agree (k : Nat) (a b : BitVec w) : Prop := ∀ i < k, a.getMsbD i = b.getMsbD i

def leadingZeros (x : BitVec w) : Nat := w - x.toNat.size

def keepFirst (k : Nat) (a : BitVec w) : BitVec w := a &&& BitVec.allOnes w <<< (w-k)

theorem Agree.symm (agree : Agree k a b) : Agree k b a := fun i below => (agree i below).symm

theorem Agree.trans (left : Agree k a b) (right : Agree k b c) : Agree k a c :=
  fun i below => (left i below).trans (right i below)

theorem Agree.mono {j : Nat} (agree : Agree k a b) (le : j ≤ k) : Agree j a b :=
  fun i below => agree i (lt_of_lt_of_le below le)

theorem agreeSucc : Agree (k+1) a b ↔ Agree k a b ∧ a.getMsbD k = b.getMsbD k := by
  constructor
  · intro agree
    exact ⟨agree.mono (Nat.le_succ k),agree k (Nat.lt_succ_self k)⟩
  · intro given i below
    obtain ⟨agree,bit⟩ := given
    rcases Nat.lt_succ_iff_lt_or_eq.mp below with earlier | rfl
    · exact agree i earlier
    · exact bit

theorem getMsbDTestBit {i : Nat} (below : i < w) : a.getMsbD i = a.toNat.testBit (w-1-i) := by
  rw [BitVec.getMsbD_eq_getLsbD]
  simp [below,BitVec.getLsbD]

theorem extractBit {start len i : Nat} (inside : start + len ≤ w) (below : i < len) :
    (a.extractLsb' start len).getMsbD i = a.getMsbD (w-start-len+i) := by
  rw [BitVec.getMsbD_eq_getLsbD,BitVec.getMsbD_eq_getLsbD,BitVec.getLsbD_extractLsb',
    show w-1-(w-start-len+i) = start+(len-1-i) by omega]
  simp [below,show len-1-i < len by omega,show w-start-len+i < w by omega]

theorem agreeDiv (short : k ≤ w) : Agree k a b ↔ a.toNat / 2^(w-k) = b.toNat / 2^(w-k) := by
  rw [← Nat.shiftRight_eq_div_pow,← Nat.shiftRight_eq_div_pow]
  constructor
  · intro agree
    refine Nat.eq_of_testBit_eq (fun i => ?_)
    rw [Nat.testBit_shiftRight,Nat.testBit_shiftRight]
    by_cases inside : w-k+i < w
    · have bit := agree (w-1-(w-k+i)) (by omega)
      rw [getMsbDTestBit (by omega),getMsbDTestBit (by omega)] at bit
      rwa [show w-1-(w-1-(w-k+i)) = w-k+i by omega] at bit
    · rw [Nat.testBit_lt_two_pow (lt_of_lt_of_le a.isLt (Nat.pow_le_pow_right (by decide) (by omega))),
        Nat.testBit_lt_two_pow (lt_of_lt_of_le b.isLt (Nat.pow_le_pow_right (by decide) (by omega)))]
  · intro same i below
    rw [getMsbDTestBit (by omega),getMsbDTestBit (by omega)]
    have bit := congrArg (fun x => x.testBit (w-1-i-(w-k))) same
    simp only [Nat.testBit_shiftRight] at bit
    rwa [show w-k+(w-1-i-(w-k)) = w-1-i by omega] at bit

theorem leadingZerosIff (short : k ≤ w) : k ≤ leadingZeros (a ^^^ b) ↔ Agree k a b := by
  have top : (a ^^^ b).toNat.size ≤ w := Nat.size_le.mpr (a ^^^ b).isLt
  have moved : k ≤ leadingZeros (a ^^^ b) ↔ (a ^^^ b).toNat.size ≤ w-k := by
    unfold leadingZeros
    omega
  rw [moved,Nat.size_le,agreeDiv short,BitVec.toNat_xor,← Nat.shiftRight_eq_div_pow,
    ← Nat.shiftRight_eq_div_pow,← Nat.div_eq_zero_iff_lt (Nat.two_pow_pos _),← Nat.shiftRight_eq_div_pow,
    Nat.shiftRight_xor_distrib,Nat.xor_eq_zero_iff]

theorem keepFirstBit (i : Nat) (short : k ≤ w) : (keepFirst k a).getMsbD i = (decide (i < k) && a.getMsbD i) := by
  unfold keepFirst
  rw [BitVec.getMsbD_and,BitVec.getMsbD_shiftLeft,BitVec.getMsbD_allOnes]
  by_cases inside : i < k
  · have width : i + (w-k) < w := by omega
    simp [inside,width]
  · have past : ¬ i + (w-k) < w := by omega
    simp [inside,past]

theorem keepFirstAgree (short : k ≤ w) : Agree k (keepFirst k a) a := by
  intro i below
  rw [keepFirstBit i short]
  simp [below]

theorem keepFirstDiv (short : k ≤ w) : (keepFirst k a).toNat / 2^(w-k) = a.toNat / 2^(w-k) :=
  (agreeDiv short).mp (keepFirstAgree short)

theorem keepFirstAligned (short : k ≤ w) : 2^(w-k) ∣ (keepFirst k a).toNat := by
  have low : (BitVec.allOnes w <<< (w-k)).toNat % 2^(w-k) = 0 := by
    rw [BitVec.toNat_shiftLeft,Nat.mod_mod_of_dvd _ (pow_dvd_pow 2 (by omega)),Nat.shiftLeft_eq]
    exact Nat.mul_mod_left _ _
  refine Nat.dvd_of_mod_eq_zero ?_
  rw [keepFirst,BitVec.toNat_and,Nat.and_mod_two_pow,low,Nat.and_zero]

/- A prefix is its first bits, the others being zero. -/
theorem keepFirstUnique (short : k ≤ w) : keepFirst k a = keepFirst k b ↔ Agree k a b := by
  constructor
  · intro same
    exact (keepFirstAgree short).symm.trans (same ▸ keepFirstAgree short)
  · intro agree
    refine BitVec.eq_of_getMsbD_eq (fun i _ => ?_)
    rw [keepFirstBit i short,keepFirstBit i short]
    by_cases inside : i < k
    · rw [agree i inside]
    · simp [inside]

theorem keepFirstAgain {j : Nat} (short : k ≤ w) (le : j ≤ k) : keepFirst j (keepFirst k a) = keepFirst j a :=
  (keepFirstUnique (le_trans le short)).mpr ((keepFirstAgree short).mono le)

end WebosWireguard.AddressBits
