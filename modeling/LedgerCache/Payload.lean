import LedgerCache.Fault
import LedgerCache.Key

namespace LedgerCache

/-- The bytes never change: a view handed to a reader stays valid whatever becomes of the entry. -/
abbrev Payload := Array UInt8

namespace Payload

/-- No allocation holds more bytes. -/
def longest : Nat := 9223372036854775807

/-- Makes a payload of `size` bytes, if one can be that long. -/
def ofSize (size : Nat) (make : Nat → Payload) : Except Fault Payload :=
  if size ≤ longest then .ok (make size) else .error .payloadTooLong

/-- The same byte `size` times. -/
def filled (byte : UInt8) (size : Nat) : Except Fault Payload :=
  ofSize size fun n => Array.replicate n byte

/-- The bytes from `first` on, up to and without `last`. -/
def slice (bytes : Payload) (first last : Nat) : Except Fault Payload :=
  if last < first then .error (.sliceReversed first last)
  else if bytes.size < last then .error (.sliceTooLong last bytes.size)
  else .ok (bytes.extract first last)

/-- The signed words wrap, and their bits are read as an unsigned word. -/
def seed (k : Key) : UInt64 := (k.owner * 31 + k.sequence).toUInt64

/-- Appends the residues modulo 251 of `n` words, which start at `word` and wrap. -/
def residues : Nat → UInt64 → Payload → Payload
  | 0, _, bytes => bytes
  | n + 1, word, bytes => residues n (word + 1) (bytes.push (word % 251).toUInt8)

/-- The payload that the workload writes under `k`: a run of residues modulo 251, which starts at
the key's seed. -/
def synthetic (k : Key) (size : Nat) : Payload :=
  residues size (seed k) (Array.emptyWithCapacity size)

/-- The byte at position `i` of a run that starts at `word`. -/
def residue (word : UInt64) (i : Nat) : UInt8 := ((word + UInt64.ofNat i) % 251).toUInt8

theorem toList_residues (n : Nat) (word : UInt64) (bytes : Payload) :
    (residues n word bytes).toList = bytes.toList ++ (List.range n).map (residue word) := by
  induction n generalizing word bytes with
  | zero => simp [residues]
  | succ n ih =>
    have hstep (i : Nat) : residue (word + 1) i = residue word (i + 1) := by
      rw [residue, residue, UInt64.ofNat_add, UInt64.add_assoc, UInt64.add_comm (UInt64.ofNat i)]
      rfl
    simp [residues, ih, List.range_succ_eq_map, Function.comp_def, hstep]
    simp [residue]

theorem toList_synthetic (k : Key) (size : Nat) :
    (synthetic k size).toList = (List.range size).map (residue (seed k)) := by
  simp [synthetic, toList_residues]

@[simp] theorem size_synthetic (k : Key) (size : Nat) : (synthetic k size).size = size := by
  simp [← Array.length_toList, toList_synthetic]

/-- The synthetic payload of a size that anybody may ask for. -/
def generate (k : Key) (size : Nat) : Except Fault Payload := ofSize size (synthetic k)

theorem generate_eq_ok (k : Key) (size : Nat) (h : size ≤ longest) :
    generate k size = .ok (synthetic k size) := by
  simp [generate, ofSize, h]

theorem generate_eq_error (k : Key) {size : Nat} (h : longest < size) :
    generate k size = .error .payloadTooLong := if_neg (Nat.not_le.2 h)

end Payload

end LedgerCache
