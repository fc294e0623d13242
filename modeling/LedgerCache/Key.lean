import Std.Data.TreeSet.Basic

namespace LedgerCache

/-- An entry is addressed by the ledger that owns it and by its position there. -/
structure Key where
  owner : Int64
  sequence : Int64
  deriving DecidableEq, Repr

namespace Key

instance : Ord Key := ⟨fun a b => (compare a.owner b.owner).then (compare a.sequence b.sequence)⟩

instance : Std.TransOrd Key :=
  inferInstanceAs (Std.TransCmp (compareLex (compareOn owner) (compareOn sequence)))

instance : Std.LawfulEqOrd Key where
  eq_of_compare {a b} h := by
    have hc := Ordering.then_eq_eq.1 h
    have ho : a.owner = b.owner := Std.LawfulEqOrd.eq_of_compare hc.1
    have hs : a.sequence = b.sequence := Std.LawfulEqOrd.eq_of_compare hc.2
    cases a; cases b; simp_all

/-- The written form, as in `(3, -7)`. -/
def text (k : Key) : String := s!"({k.owner}, {k.sequence})"

/-- Keys in ascending order of owner, then of sequence. -/
def sort (keys : List Key) : List Key := keys.mergeSort fun a b => (compare a b).isLE

/-- Each key once, in ascending order. -/
def distinct (keys : List Key) : List Key := (Std.TreeSet.ofList keys).toList

end Key

end LedgerCache
