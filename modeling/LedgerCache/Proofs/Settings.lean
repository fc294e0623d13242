import LedgerCache.Proofs.Loads
import Mathlib.Data.Nat.Digits.Defs

namespace LedgerCache

namespace Decimal

def IsDigit (b : UInt8) : Prop := 48 ≤ b.toNat ∧ b.toNat ≤ 57

instance (b : UInt8) : Decidable (IsDigit b) :=
  inferInstanceAs (Decidable (48 ≤ b.toNat ∧ b.toNat ≤ 57))

/-- What the digits stand for, the last one counting least. -/
def value (digits : List UInt8) : Nat :=
  Nat.ofDigits 10 (digits.reverse.map fun b => b.toNat - 48)

/-- The bytes are a numeral for `n`: digits, at least one, behind a plus sign or not. -/
def Denotes (bytes : List UInt8) (n : Nat) : Prop :=
  ∃ digits : List UInt8, (bytes = digits ∨ bytes = 43 :: digits) ∧ digits ≠ [] ∧
    (∀ b ∈ digits, IsDigit b) ∧ value digits = n

/-- A numeral for `n`. -/
def written (plus : Bool) (zeros n : Nat) : List UInt8 :=
  (if plus then [43] else []) ++ List.replicate zeros 48 ++
    (toString n).toList.map fun c => UInt8.ofNat c.toNat

theorem value_cons (b : UInt8) (digits : List UInt8) :
    value (b :: digits) = 10 ^ digits.length * (b.toNat - 48) + value digits := by
  rw [value, value, List.reverse_cons, List.map_append, Nat.ofDigits_append, List.length_map,
    List.length_reverse, List.map_singleton, Nat.ofDigits_singleton, Nat.add_comm]

/-- Reading stops at the first byte that is no digit, and at the first digit that makes the number
too large: those behind it only make it larger. -/
theorem extend_eq_some_iff {start n : Nat} {digits : List UInt8} (h : start < wordLimit) :
    extend start digits = some n ↔
      (∀ b ∈ digits, IsDigit b) ∧ 10 ^ digits.length * start + value digits = n ∧
        n < wordLimit := by
  induction digits generalizing start with
  | nil =>
    simp only [extend, value, Option.some.injEq]
    simp
    omega
  | cons b digits ih =>
    have hshift : 10 ^ (b :: digits).length * start + value (b :: digits) =
        10 ^ digits.length * (10 * start + (b.toNat - 48)) + value digits := by
      rw [value_cons, List.length_cons]
      ring
    have hpos : 0 < 10 ^ digits.length := Nat.pow_pos (by decide)
    rw [extend, digit, hshift, List.forall_mem_cons, IsDigit]
    by_cases hb : 48 ≤ b.toNat ∧ b.toNat ≤ 57
    · rw [if_pos hb]
      simp only [Option.bind_eq_bind, Option.bind_some]
      split_ifs with hword
      · rw [ih hword]
        simp [hb]
      · have hlarge := Nat.le_mul_of_pos_left (10 * start + (b.toNat - 48)) hpos
        constructor
        · intro hnone
          cases hnone
        · rintro ⟨-, hn, hlt⟩
          omega
    · simp [hb]

theorem IsDigit.ne_plus {b : UInt8} (h : IsDigit b) : b ≠ 43 := by
  rintro rfl
  exact absurd h.1 (by decide)

/-- The bytes without a plus sign before them. -/
def unsigned (bytes : List UInt8) : List UInt8 :=
  if bytes.head? = some 43 then bytes.tail else bytes

theorem denotes_iff (bytes : List UInt8) (n : Nat) :
    Denotes bytes n ↔
      unsigned bytes ≠ [] ∧ (∀ b ∈ unsigned bytes, IsDigit b) ∧ value (unsigned bytes) = n := by
  constructor
  · rintro ⟨digits, hbytes, hne, hdigits, hvalue⟩
    have hunsigned : unsigned bytes = digits := by
      rcases hbytes with rfl | rfl
      · obtain ⟨b, rest, rfl⟩ := List.exists_cons_of_ne_nil hne
        have hb := (hdigits b List.mem_cons_self).ne_plus
        simp [unsigned, hb]
      · rfl
    rw [hunsigned]
    exact ⟨hne, hdigits, hvalue⟩
  · intro h
    refine ⟨unsigned bytes, ?_, h⟩
    unfold unsigned
    split
    · next hplus => exact .inr (List.eq_cons_of_mem_head? hplus)
    · exact .inl rfl

instance (bytes : List UInt8) (n : Nat) : Decidable (Denotes bytes n) :=
  -- Else it might run over all bytes.
  letI : Decidable (∀ b ∈ unsigned bytes, IsDigit b) := List.decidableBAll IsDigit _
  decidable_of_iff _ (denotes_iff bytes n).symm

/-- A numeral stands for one number only. -/
theorem Denotes.unique {bytes : List UInt8} {m n : Nat} (hm : Denotes bytes m)
    (hn : Denotes bytes n) : m = n :=
  ((denotes_iff bytes m).1 hm).2.2.symm.trans ((denotes_iff bytes n).1 hn).2.2

theorem word_eq_some_iff (bytes : List UInt8) (w : UInt64) :
    word bytes = some w ↔ Denotes bytes w.toNat := by
  have hword : word bytes =
      if (unsigned bytes).isEmpty then none
      else (extend 0 (unsigned bytes)).map UInt64.ofNat := rfl
  rw [hword, denotes_iff]
  by_cases hne : unsigned bytes = []
  · simp [hne]
  rw [if_neg (by simpa using hne), Option.map_eq_some_iff]
  constructor
  · rintro ⟨n, hn, rfl⟩
    obtain ⟨hdigits, hvalue, hlt⟩ := (extend_eq_some_iff (by decide)).1 hn
    rw [UInt64.toNat_ofNat_of_lt' hlt]
    exact ⟨hne, hdigits, by simpa using hvalue⟩
  · rintro ⟨-, hdigits, hvalue⟩
    refine ⟨w.toNat, (extend_eq_some_iff (by decide)).2 ⟨hdigits, by simpa using hvalue, ?_⟩, ?_⟩
    · exact w.toNat_lt
    · exact UInt64.ofNat_toNat

/-- A sign, zeros and the number; a second sign is no digit. -/
example : Denotes [43, 48, 48, 55] 7 ∧ ¬Denotes [43, 43, 55] 7 := by decide

theorem value_replicate_append (zeros : Nat) (digits : List UInt8) :
    value (List.replicate zeros 48 ++ digits) = value digits := by
  induction zeros with
  | zero => rfl
  | succ n ih =>
    rw [List.replicate_succ, List.cons_append, value_cons, ih]
    simp

theorem isDigit_byte {c : Char} (h : c.isDigit = true) :
    IsDigit (UInt8.ofNat c.toNat) ∧ (UInt8.ofNat c.toNat).toNat = c.toNat := by
  obtain ⟨hle, hge⟩ := Char.isDigit_iff_toNat.1 h
  change 48 ≤ c.toNat at hle
  change c.toNat ≤ 57 at hge
  have hbyte : (UInt8.ofNat c.toNat).toNat = c.toNat :=
    UInt8.toNat_ofNat_of_lt' (show c.toNat < 256 by omega)
  rw [IsDigit, hbyte]
  exact ⟨⟨hle, hge⟩, rfl⟩

theorem ofDigitChars_eq {cs : List Char} (hcs : ∀ c ∈ cs, c.isDigit = true) (start : Nat) :
    Nat.ofDigitChars 10 cs start =
      10 ^ cs.length * start + value (cs.map fun c => UInt8.ofNat c.toNat) := by
  induction cs generalizing start with
  | nil => simp [value]
  | cons c cs ih =>
    obtain ⟨hc, hrest⟩ := List.forall_mem_cons.1 hcs
    have hzero : '0'.toNat = 48 := rfl
    rw [Nat.ofDigitChars_cons, ih hrest, List.map_cons, value_cons, (isDigit_byte hc).2,
      List.length_map, List.length_cons, hzero]
    ring

/-- The sign and the zeros do not count. -/
theorem denotes_written (plus : Bool) (zeros n : Nat) : Denotes (written plus zeros n) n := by
  have hchars : (toString n).toList = Nat.toDigits 10 n := by
    rw [Nat.toString_eq_ofList_toDigits, String.toList_ofList]
  have hdigits : ∀ c ∈ Nat.toDigits 10 n, c.isDigit = true :=
    fun c hc => Nat.isDigit_of_mem_toDigits (by decide) (by decide) hc
  refine ⟨List.replicate zeros 48 ++ (toString n).toList.map fun c => UInt8.ofNat c.toNat,
    ?_, ?_, ?_, ?_⟩
  · cases plus
    · exact .inl rfl
    · exact .inr rfl
  · simp [Nat.toDigits_ne_nil]
  · intro b hb
    rcases List.mem_append.1 hb with hb | hb
    · rw [List.eq_of_mem_replicate hb]
      exact ⟨by decide, by decide⟩
    · rw [hchars] at hb
      obtain ⟨c, hc, rfl⟩ := List.mem_map.1 hb
      exact (isDigit_byte (hdigits c hc)).1
  · have hvalue := ofDigitChars_eq hdigits 0
    rw [Nat.ofDigitChars_ten_toDigits, Nat.mul_zero, Nat.zero_add] at hvalue
    rw [value_replicate_append, hchars, ← hvalue]

end Decimal

namespace Config

open Decimal

/-- The settings, each with its variable. -/
def fields : List (String × (Config → UInt64)) :=
  [(capacityVariable, capacityBytes), (intervalVariable, statsInterval), (workersVariable, workers),
    (entriesVariable, entriesPerWorker), (sizeVariable, entrySize)]

theorem setting_of_denotes {env : Environment} {name : String} {bytes : List UInt8} {n : Nat}
    (henv : env name = some bytes) (hn : Denotes bytes n) (hlt : n < wordLimit)
    (default : UInt64) : (setting env name default).toNat = n := by
  have hword : (UInt64.ofNat n).toNat = n := UInt64.toNat_ofNat_of_lt' hlt
  have hread : word bytes = some (UInt64.ofNat n) :=
    (word_eq_some_iff _ _).2 (by rwa [hword])
  rw [setting, henv, Option.bind_some, hread, Option.getD_some, hword]

theorem setting_of_not_denotes {env : Environment} {name : String}
    (h : ∀ bytes n, env name = some bytes → Denotes bytes n → wordLimit ≤ n) (default : UInt64) :
    setting env name default = default := by
  have hnone : (env name).bind word = none := by
    rw [Option.bind_eq_none_iff]
    intro bytes henv
    rw [Option.eq_none_iff_forall_ne_some]
    intro w hw
    exact absurd w.toNat_lt (Nat.not_lt.2 (h bytes _ henv ((word_eq_some_iff _ _).1 hw)))
  rw [setting, hnone, Option.getD_none]

theorem ofEnvironment_setting (env : Environment) :
    ∀ x ∈ fields, x.2 (ofEnvironment env) = setting env x.1 (x.2 {}) := by
  simp [fields, ofEnvironment]

theorem ext_of_fields {c c' : Config} (h : ∀ x ∈ fields, x.2 c = x.2 c') : c = c' := by
  simp only [fields, List.forall_mem_cons] at h
  obtain ⟨hcapacity, hinterval, hworkers, hentries, hsize, -⟩ := h
  cases c
  cases c'
  simp_all

/-- Each setting is what its variable denotes, if that is a word, and else the default, whatever the
other variables are. A configuration is read back however it was written. It is accepted if no
setting that is looked at is zero, else the first that is zero is named, and one that is accepted
opens a cache of its capacity. -/
theorem ofEnvironment_reads :
    (∀ env : Environment, ∀ x ∈ fields,
      (∀ bytes n, env x.1 = some bytes → Denotes bytes n → n < wordLimit →
        (x.2 (ofEnvironment env)).toNat = n) ∧
      ((∀ bytes n, env x.1 = some bytes → Denotes bytes n → wordLimit ≤ n) →
        x.2 (ofEnvironment env) = x.2 {}) ∧
      ∀ env' : Environment, env' x.1 = env x.1 → x.2 (ofEnvironment env') = x.2 (ofEnvironment env)) ∧
    (∀ (c : Config) (env : Environment),
      (∀ x ∈ fields, ∃ plus zeros, env x.1 = some (written plus zeros (x.2 c).toNat)) →
        ofEnvironment env = c) ∧
    ∀ c : Config, (c.validate = .ok () ↔ ∀ x ∈ checkedFields, x.2 c ≠ 0) ∧
      (∀ x, checkedFields.find? (fun x => x.2 c = 0) = some x →
        c.validate = .error (.invalidSetting (x.1 ++ " must be greater than zero"))) ∧
      (c.validate = .ok () → ∃ start, Cache.create .oldestFirst c.capacityBytes = .ok start ∧
        start.cache = Cache.opened .oldestFirst c.capacityBytes) := by
  refine ⟨fun env x hx => ⟨fun bytes n henv hn hlt => ?_, fun h => ?_, fun env' henv => ?_⟩,
    fun c env henv => ext_of_fields fun x hx => ?_, fun c => ⟨?_, fun x hx => ?_, fun hvalid => ?_⟩⟩
  · rw [ofEnvironment_setting env x hx]
    exact setting_of_denotes henv hn hlt _
  · rw [ofEnvironment_setting env x hx]
    exact setting_of_not_denotes h _
  · rw [ofEnvironment_setting env x hx, ofEnvironment_setting env' x hx, setting, setting, henv]
  · obtain ⟨plus, zeros, hwritten⟩ := henv x hx
    rw [ofEnvironment_setting env x hx]
    exact UInt64.toNat_inj.1
      (setting_of_denotes hwritten (denotes_written _ _ _) (x.2 c).toNat_lt _)
  · rw [validate_eq_ok_iff]
    simp [checkedFields]
  · rw [validate_eq_find, hx]
    rfl
  · have hpos : 0 < c.capacityBytes := UInt64.pos_iff_ne_zero.2 (c.validate_eq_ok_iff.1 hvalid).1
    exact ⟨_, Cache.create_eq hpos {}, rfl⟩

/-- Zeros do not make a number too large, but the limit is; a minus sign is none of the grammar. -/
theorem ofEnvironment_reads_of_three :
    let large : List UInt8 := written false 0 wordLimit
    let env : Environment := fun name =>
      if name = capacityVariable then some (written true 30 13)
      else if name = workersVariable then some large
      else if name = sizeVariable then some [45, 49]
      else none
    let c := ofEnvironment env
    Denotes (written true 30 13) 13 ∧ Denotes large wordLimit ∧ (∀ n, ¬Denotes [45, 49] n) ∧
      c.capacityBytes.toNat = 13 ∧ c.workers = 4 ∧ c.entrySize = 1024 ∧ c.validate = .ok () ∧
      ∃ start, Cache.create .oldestFirst c.capacityBytes = .ok start := by
  intro large env c
  have hsmall : Denotes (written true 30 13) 13 := denotes_written _ _ _
  have hlarge : Denotes large wordLimit := denotes_written _ _ _
  have hminus (n : Nat) : ¬Denotes [45, 49] n := by
    rw [denotes_iff]
    intro h
    exact absurd h.2.1 (by decide)
  have hread := ofEnvironment_reads.1 env
  have hcapacity : c.capacityBytes.toNat = 13 :=
    (hread (capacityVariable, capacityBytes) (by simp [fields])).1 _ 13 rfl hsmall (by decide)
  have hworkers : c.workers = 4 :=
    (hread (workersVariable, workers) (by simp [fields])).2.1 fun bytes n henv hn => by
      cases henv
      exact (hlarge.unique hn).le
  have hsize : c.entrySize = 1024 :=
    (hread (sizeVariable, entrySize) (by simp [fields])).2.1 fun bytes n henv hn => by
      cases henv
      exact absurd hn (hminus n)
  obtain ⟨haccepts, -, hopens⟩ := ofEnvironment_reads.2.2 c
  have hvalid : c.validate = .ok () := by
    have hpos : c.capacityBytes ≠ 0 := by
      intro hzero
      rw [hzero] at hcapacity
      cases hcapacity
    have hinterval : c.statsInterval = 5 := rfl
    rw [haccepts]
    simp [checkedFields, hpos, hinterval, hworkers, hsize]
  obtain ⟨start, hstart, -⟩ := hopens hvalid
  exact ⟨hsmall, hlarge, hminus, hcapacity, hworkers, hsize, hvalid, start, hstart⟩

end Config

end LedgerCache
