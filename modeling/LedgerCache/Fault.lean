namespace LedgerCache

/-- A check of the cache that fails, a sum that is no word or a payload that cannot exist. It is no
answer to a caller: the operation stops where it stands. -/
inductive Fault where
  | additionOverflow
  /-- More bytes were charged than the budget had left. -/
  | overcommitted
  /-- More bytes were released than were charged. -/
  | overReleased
  /-- The eviction order tracks another number of keys than the index holds. -/
  | lengthsDiffer (tracked held : Nat)
  /-- A payload was asked for that is longer than any allocation. -/
  | payloadTooLong
  | sliceReversed (first last : Nat)
  /-- A slice ends behind the bytes that it is taken of. -/
  | sliceTooLong (last size : Nat)
  deriving DecidableEq, Repr

def Fault.message : Fault → String
  | .additionOverflow => "attempt to add with overflow"
  | .overcommitted => "arena overcommitted"
  | .overReleased => "arena released more than charged"
  | .lengthsDiffer tracked held =>
      s!"assertion `left == right` failed\n  left: {tracked}\n right: {held}"
  | .payloadTooLong => "capacity overflow"
  | .sliceReversed first last =>
      s!"range start must not be greater than end: {first} <= {last}"
  | .sliceTooLong last size => s!"range end out of bounds: {last} <= {size}"

/-- Machine words have 64 bits. -/
def wordLimit : Nat := 18446744073709551616

/-- Addition of quantities that are kept in one machine word. -/
def checkedAdd (a b : Nat) : Except Fault Nat :=
  if a + b < wordLimit then .ok (a + b) else .error .additionOverflow

theorem checkedAdd_eq_ok (a b : Nat) (h : a + b < wordLimit) : checkedAdd a b = .ok (a + b) := by
  simp [checkedAdd, h]

/-- Addition of machine words that must not wrap. -/
def addWords (a b : UInt64) : Except Fault UInt64 :=
  if a.toNat + b.toNat < wordLimit then .ok (a + b) else .error .additionOverflow

end LedgerCache
