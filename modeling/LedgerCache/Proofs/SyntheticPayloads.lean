import LedgerCache.Workload.Worker
import Mathlib.Algebra.Order.Ring.Abs
import Mathlib.Data.Int.ModEq

namespace LedgerCache

theorem Int64.toNat_toUInt64 (x : Int64) : (x.toUInt64.toNat : Int) = x.toInt % 2 ^ 64 := by
  have hword : (x.toUInt64.toNat : Int) < 2 ^ 64 := Int.ofNat_lt.2 x.toUInt64.toNat_lt
  have hbits : x.toInt = (x.toUInt64.toNat : Int).bmod (2 ^ 64) :=
    (x.toInt_toBitVec).symm.trans (BitVec.toInt_eq_toNat_bmod _)
  have hmod : x.toInt % 2 ^ 64 = (x.toUInt64.toNat : Int) % 2 ^ 64 := by
    rw [hbits]
    exact Int.bmod_emod
  rw [hmod, Int.emod_eq_of_lt (Int.natCast_nonneg _) hword]

namespace Payload

/-- The number that the payload under `k` starts at, before it wraps. -/
def origin (k : Key) : Int := 31 * k.owner.toInt + k.sequence.toInt

/-- Whatever wraps in between, the seed is the origin as far as a word can hold it. -/
theorem toNat_seed (k : Key) : ((seed k).toNat : Int) = origin k % 2 ^ 64 := by
  have hmod : (k.owner * 31 + k.sequence).toInt ≡ origin k [ZMOD 2 ^ 64] := by
    have hwrap (m : Int) : m.bmod (2 ^ 64) ≡ m [ZMOD 2 ^ 64] := Int.bmod_emod
    rw [Int64.toInt_add, Int64.toInt_mul, origin, Int.mul_comm 31]
    exact (hwrap _).trans ((hwrap _).add_right _)
  exact (Int64.toNat_toUInt64 _).trans hmod

theorem toNat_residue (word : UInt64) (i : Nat) :
    (residue word i).toNat = (word.toNat + i) % 2 ^ 64 % 251 := by
  have hword : (word + UInt64.ofNat i).toNat = (word.toNat + i) % 2 ^ 64 := by
    rw [UInt64.toNat_add, UInt64.toNat_ofNat', Nat.add_mod_mod]
  have hbase : (251 : UInt64).toNat = 251 := rfl
  rw [residue, UInt64.toNat_toUInt8, UInt64.toNat_mod, hword, hbase]
  exact Nat.mod_eq_of_lt ((Nat.mod_lt _ (by decide)).trans (by decide))

theorem getElem?_synthetic (k : Key) {n i : Nat} (hi : i < n) :
    (synthetic k n)[i]? = some (residue (seed k) i) := by
  rw [← Array.getElem?_toList, toList_synthetic, List.getElem?_map, List.getElem?_range hi,
    Option.map_some]

/-- The ids are not negative, and the `n` numbers from the origin on are words. -/
structure Unwrapped (k : Key) (n : Nat) : Prop where
  owner_nonneg : 0 ≤ k.owner
  sequence_nonneg : 0 ≤ k.sequence
  origin_le : origin k + n ≤ 2 ^ 64

section

variable {k k' : Key} {n : Nat} (hk : Unwrapped k n) (hk' : Unwrapped k' n)

include hk

theorem Unwrapped.toNat_residue {i : Nat} (hi : i < n) :
    ((residue (seed k) i).toNat : Int) = (origin k + i) % 251 := by
  have howner := Int64.le_iff_toInt_le.1 hk.owner_nonneg
  have hsequence := Int64.le_iff_toInt_le.1 hk.sequence_nonneg
  have hlt : origin k + i < 2 ^ 64 := by
    have hle := hk.origin_le
    omega
  have hnonneg : 0 ≤ origin k := by
    have hzero : (0 : Int64).toInt = 0 := rfl
    unfold origin
    omega
  -- The bound makes both wraps idle, that of the seed and that of its sum with `i`.
  have hseed : ((seed k).toNat : Int) = origin k := by
    rw [toNat_seed, Int.emod_eq_of_lt hnonneg (by omega)]
  have hword : (seed k).toNat + i < 2 ^ 64 := by omega
  rw [Payload.toNat_residue, Nat.mod_eq_of_lt hword, Int.natCast_emod, Int.natCast_add, hseed]
  rfl

include hk'

theorem Unwrapped.residue_eq_iff {i : Nat} (hi : i < n) :
    residue (seed k) i = residue (seed k') i ↔ origin k ≡ origin k' [ZMOD 251] := by
  rw [← UInt8.toNat_inj, ← Int.natCast_inj, hk.toNat_residue hi, hk'.toNat_residue hi]
  exact ⟨Int.ModEq.add_right_cancel' (i : Int), Int.ModEq.add_right (i : Int)⟩

theorem Unwrapped.getElem?_ne (hne : ¬origin k ≡ origin k' [ZMOD 251]) :
    ∀ i < n, (synthetic k n)[i]? ≠ (synthetic k' n)[i]? := by
  intro i hi
  rw [getElem?_synthetic k hi, getElem?_synthetic k' hi, ne_eq, Option.some.injEq,
    hk.residue_eq_iff hk' hi]
  exact hne

theorem Unwrapped.synthetic_eq_iff (hn : 0 < n) :
    synthetic k n = synthetic k' n ↔ origin k ≡ origin k' [ZMOD 251] := by
  constructor
  · intro heq
    by_contra hne
    exact hk.getElem?_ne hk' hne 0 hn (by rw [heq])
  · intro hmod
    rw [← Array.toList_inj, toList_synthetic, toList_synthetic]
    exact List.map_congr_left fun i hi => (hk.residue_eq_iff hk' (List.mem_range.1 hi)).2 hmod

end

/-- Payloads of one ledger start at numbers that are as far apart as their sequence ids. -/
theorem modEq_origin_iff {k k' : Key} (howner : k.owner = k'.owner) :
    origin k ≡ origin k' [ZMOD 251] ↔ 251 ∣ k.sequence.toInt - k'.sequence.toInt := by
  have hsub : origin k - origin k' = k.sequence.toInt - k'.sequence.toInt := by
    rw [origin, origin, howner]
    exact add_sub_add_left_eq_sub ..
  rw [Int.modEq_comm, Int.modEq_iff_dvd, hsub]

theorem not_modEq_origin {k k' : Key} (howner : k.owner = k'.owner)
    (hne : k.sequence ≠ k'.sequence) (hnear : |k.sequence.toInt - k'.sequence.toInt| < 251) :
    ¬origin k ≡ origin k' [ZMOD 251] := by
  rw [modEq_origin_iff howner]
  intro hdvd
  have hzero := Int.eq_zero_of_abs_lt_dvd hdvd hnear
  exact hne (Int64.toInt_inj.1 (Int.sub_eq_zero.1 hzero))

/-- As long as nothing wraps, payloads that can be made are equal if their origins are congruent
modulo 251, and else they differ in every byte. So a worker finds out if it reads back another entry
of its ledger, unless a multiple of 251 lies between their ids. A payload that is too long is not
made, whatever its key is. -/
theorem generate_tells_apart {k k' : Key} {n : Nat} (hn : 0 < n) (hk : Unwrapped k n)
    (hk' : Unwrapped k' n) :
    (n ≤ longest → ∃ bytes bytes', generate k n = .ok bytes ∧ generate k' n = .ok bytes' ∧
      bytes.size = n ∧ bytes'.size = n ∧
      (bytes = bytes' ↔ origin k ≡ origin k' [ZMOD 251]) ∧
      (¬origin k ≡ origin k' [ZMOD 251] → ∀ i < n, bytes[i]? ≠ bytes'[i]?) ∧
      (k.owner = k'.owner → k.sequence ≠ k'.sequence →
        |k.sequence.toInt - k'.sequence.toInt| < 251 → ∀ i < n, bytes[i]? ≠ bytes'[i]?) ∧
      (k.owner = k'.owner → |k.sequence.toInt - k'.sequence.toInt| = 251 → bytes = bytes') ∧
      ∀ (w : Worker) (sequence : Nat), w.key sequence = k → w.size = n →
        w.inspect sequence (some bytes') =
          if origin k ≡ origin k' [ZMOD 251] then .faithful else .corrupt) ∧
    (longest < n → generate k n = .error .payloadTooLong ∧
      generate k' n = .error .payloadTooLong) := by
  have heq := hk.synthetic_eq_iff hk' hn
  constructor
  · intro hmade
    refine ⟨_, _, generate_eq_ok k n hmade, generate_eq_ok k' n hmade, size_synthetic k n,
      size_synthetic k' n, heq, hk.getElem?_ne hk', fun howner hne hnear => ?_,
      fun howner hfar => ?_, fun w sequence hkey hsize => ?_⟩
    · exact hk.getElem?_ne hk' (not_modEq_origin howner hne hnear)
    · rw [heq, modEq_origin_iff howner, ← dvd_abs, hfar]
    · simp only [Worker.inspect, hkey, hsize, heq.symm, eq_comm]
  · intro hlong
    exact ⟨generate_eq_error k hlong, generate_eq_error k' hlong⟩

/-- The largest ids whose numbers are words, although their signed products wrap. -/
theorem generate_tells_apart_of_largest :
    let k : Key := ⟨595056260442243600, 2⟩
    let near : Key := ⟨595056260442243600, 1⟩
    let alike : Key := ⟨595056260442243349, 2⟩
    Unwrapped k 14 ∧ Unwrapped near 14 ∧ Unwrapped alike 14 ∧ origin k + 14 = 2 ^ 64 ∧
      (∃ bytes bytes', generate k 14 = .ok bytes ∧ generate near 14 = .ok bytes' ∧
        ∀ i < 14, bytes[i]? ≠ bytes'[i]?) ∧
      ∃ bytes, generate k 14 = .ok bytes ∧ generate alike 14 = .ok bytes := by
  intro k near alike
  have hk : Unwrapped k 14 := ⟨by decide, by decide, by decide⟩
  have hnear : Unwrapped near 14 := ⟨by decide, by decide, by decide⟩
  have halike : Unwrapped alike 14 := ⟨by decide, by decide, by decide⟩
  refine ⟨hk, hnear, halike, by decide, ?_, ?_⟩
  · obtain ⟨bytes, bytes', hbytes, hbytes', -, -, -, hdiffer, -⟩ :=
      (generate_tells_apart (by decide) hk hnear).1 (by decide)
    exact ⟨bytes, bytes', hbytes, hbytes', hdiffer (by decide)⟩
  · obtain ⟨bytes, bytes', hbytes, hbytes', -, -, heq, -⟩ :=
      (generate_tells_apart (by decide) hk halike).1 (by decide)
    exact ⟨bytes, hbytes, heq.2 (by decide) ▸ hbytes'⟩

/-- Two payloads of a size that no allocation has do not differ, since there are none. -/
theorem generate_fails_of_unmakeable :
    let k : Key := ⟨0, 0⟩
    let k' : Key := ⟨0, 1⟩
    let n := 9223372036854775808
    Unwrapped k n ∧ Unwrapped k' n ∧ generate k n = .error .payloadTooLong ∧
      ¬(generate k n = generate k' n ↔ origin k ≡ origin k' [ZMOD 251]) := by
  intro k k' n
  have hlong : longest < n := by decide
  refine ⟨⟨by decide, by decide, by decide⟩, ⟨by decide, by decide, by decide⟩,
    generate_eq_error k hlong, ?_⟩
  rw [generate_eq_error k hlong, generate_eq_error k' hlong, iff_true_left rfl]
  decide

end Payload

end LedgerCache
