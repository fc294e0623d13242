import LedgerCache.Fault

namespace LedgerCache

/-- A fixed number of bytes and how many of them are charged. -/
structure Budget where
  capacity : Nat
  used : Nat := 0
  deriving DecidableEq, Repr

namespace Budget

def available (b : Budget) : Nat := b.capacity - b.used

def fits (b : Budget) (size : Nat) : Bool := size ≤ b.available

def charge (b : Budget) (size : Nat) : Except Fault Budget :=
  if b.fits size then .ok { b with used := b.used + size } else .error .overcommitted

def release (b : Budget) (size : Nat) : Except Fault Budget :=
  if size ≤ b.used then .ok { b with used := b.used - size } else .error .overReleased

def reset (b : Budget) : Budget := { b with used := 0 }

theorem charge_eq_ok (b : Budget) (size : Nat) (h : size ≤ b.available) :
    b.charge size = .ok { b with used := b.used + size } := by
  simp [charge, fits, h]

theorem release_eq_ok (b : Budget) (size : Nat) (h : size ≤ b.used) :
    b.release size = .ok { b with used := b.used - size } := by
  simp [release, h]

end Budget

end LedgerCache
