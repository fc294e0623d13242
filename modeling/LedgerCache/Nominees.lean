import LedgerCache.Key

namespace LedgerCache

/-- Keys that are named one after another, each only when somebody asks for it. -/
inductive Nominees where
  | none
  | next (key : Key) (rest : Unit → Nominees)

namespace Nominees

/-- All the keys, in the order in which they are named. -/
def toList : Nominees → List Key
  | none => []
  | next k rest => k :: (rest ()).toList

@[simp] theorem toList_none : none.toList = [] := rfl

@[simp] theorem toList_next (k : Key) (rest : Unit → Nominees) :
    (next k rest).toList = k :: (rest ()).toList := rfl

def ofList : List Key → Nominees
  | [] => none
  | k :: ks => next k fun _ => ofList ks

@[simp] theorem toList_ofList (ks : List Key) : (ofList ks).toList = ks := by
  induction ks with
  | nil => rfl
  | cons k ks ih => simp [ofList, ih]

def filter (p : Key → Bool) : Nominees → Nominees
  | none => none
  | next k rest => if p k then next k fun _ => (rest ()).filter p else (rest ()).filter p

@[simp] theorem toList_filter (p : Key → Bool) (ns : Nominees) :
    (ns.filter p).toList = ns.toList.filter p := by
  induction ns with
  | none => rfl
  | next k rest ih => cases h : p k <;> simp [filter, h, ih]

def take : Nat → Nominees → Nominees
  | n + 1, next k rest => next k fun _ => (rest ()).take n
  | _, _ => none

@[simp] theorem toList_take (n : Nat) (ns : Nominees) : (ns.take n).toList = ns.toList.take n := by
  induction ns generalizing n with
  | none => simp [take]
  | next k rest ih => cases n <;> simp [take, ih]

/-- The keys of the list, then those of `rest`. -/
def before (ks : List Key) (rest : Unit → Nominees) : Nominees :=
  match ks with
  | [] => rest ()
  | k :: ks => next k fun _ => before ks rest

@[simp] theorem toList_before (ks : List Key) (rest : Unit → Nominees) :
    (before ks rest).toList = ks ++ (rest ()).toList := by
  induction ks with
  | nil => rfl
  | cons k ks ih => simp [before, ih]

def flatMap (f : Key → List Key) : Nominees → Nominees
  | none => none
  | next k rest => before (f k) fun _ => (rest ()).flatMap f

@[simp] theorem toList_flatMap (f : Key → List Key) (ns : Nominees) :
    (ns.flatMap f).toList = ns.toList.flatMap f := by
  induction ns with
  | none => rfl
  | next k rest ih => simp [flatMap, ih]

end Nominees

end LedgerCache
