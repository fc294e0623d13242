import LedgerCache.Fault
import LedgerCache.Nominees
import Std.Data.TreeMap.Lemmas

namespace LedgerCache

/-- A list that ascends is determined by its members. -/
theorem eq_of_ascending {α : Type} (stamp : α → Nat) {l l' : List α}
    (hl : l.Pairwise fun x y => stamp x < stamp y) (hl' : l'.Pairwise fun x y => stamp x < stamp y)
    (hmem : ∀ x, x ∈ l ↔ x ∈ l') : l = l' := by
  have hnodup {l : List α} (h : l.Pairwise fun x y => stamp x < stamp y) : l.Nodup :=
    h.imp fun hlt he => by simp [he] at hlt
  refine List.Perm.eq_of_pairwise ?_ hl hl'
    ((List.perm_ext_iff_of_nodup (hnodup hl) (hnodup hl')).2 hmem)
  intro x y _ _ hxy hyx
  omega

/-- Keys under the stamps that they were admitted with, the oldest first. No stamp is used twice,
not even after all keys are forgotten, and a key may stand under several. -/
structure AdmissionOrder where
  live : Std.TreeMap Nat Key := ∅
  next : Nat := 0

namespace AdmissionOrder

/-- Tracks a newly admitted key under the next stamp. Stamps are words; the last word is never
handed out, since the one after it would not exist. -/
def push (o : AdmissionOrder) (k : Key) : Except Fault (Nat × AdmissionOrder) :=
  (checkedAdd o.next 1).map fun next => (o.next, { live := o.live.insert o.next k, next })

def forget (o : AdmissionOrder) (stamp : Nat) : AdmissionOrder :=
  { o with live := o.live.erase stamp }

def clear (o : AdmissionOrder) : AdmissionOrder := { o with live := ∅ }

/-- The keys of a map by ascending stamp. -/
def listed (live : Std.TreeMap Nat Key) : List Key := live.foldr (fun _ k ks => k :: ks) []

theorem listed_eq (live : Std.TreeMap Nat Key) : listed live = live.toList.map (·.2) := by
  rw [listed, Std.TreeMap.foldr_eq_foldr_toList]
  induction live.toList with
  | nil => rfl
  | cons p ps ih => simp [ih]

/-- The tracked keys, oldest admission first. -/
def keys (o : AdmissionOrder) : List Key := listed o.live

def size (o : AdmissionOrder) : Nat := o.live.size

def isEmpty (o : AdmissionOrder) : Bool := o.size == 0

/-- Tracks the keys one after another. -/
def pushAll (o : AdmissionOrder) (ks : List Key) : Except Fault AdmissionOrder :=
  ks.foldlM (fun o k => (o.push k).map (·.2)) o

/-- The entry of a map with the least stamp; the traversal ends with it. -/
def oldest? (live : Std.TreeMap Nat Key) : Option (Nat × Key) :=
  match live.foldlM (m := Except (Nat × Key)) (fun _ stamp k => .error (stamp, k)) () with
  | .error e => some e
  | .ok _ => none

theorem oldest?_eq (live : Std.TreeMap Nat Key) : oldest? live = live.toList.head? := by
  rw [oldest?, Std.TreeMap.foldlM_eq_foldlM_toList]
  cases live.toList <;> rfl

/-- Names the keys of a map by ascending stamp: the first `n` each by its stamp, the others from a
list of them all, which is cheaper once many are asked for. -/
def named : Nat → Std.TreeMap Nat Key → Nominees
  | 0, live => .ofList (listed live)
  | n + 1, live =>
    match oldest? live with
    | none => .none
    | some (stamp, k) => .next k fun _ => named n (live.erase stamp)

/-- The tracked keys, named oldest admission first. Listing all of them takes about as long as
naming one in sixteen by its stamp. -/
def nominees (o : AdmissionOrder) : Nominees := named (o.size / 16) o.live

theorem pairwise_toList (live : Std.TreeMap Nat Key) :
    live.toList.Pairwise fun a b => a.1 < b.1 :=
  Std.TreeMap.ordered_keys_toList.imp Nat.compare_eq_lt.1

/-- Only one list has the entries of a map by ascending stamp. -/
theorem toList_eq {live : Std.TreeMap Nat Key} {l : List (Nat × Key)}
    (hl : l.Pairwise fun a b => a.1 < b.1)
    (hmem : ∀ stamp k, (stamp, k) ∈ l ↔ live[stamp]? = some k) : live.toList = l := by
  refine eq_of_ascending Prod.fst (pairwise_toList live) hl fun x => ?_
  rw [Std.TreeMap.mem_toList_iff_getElem?_eq_some, ← hmem]

theorem toList_erase (live : Std.TreeMap Nat Key) (stamp : Nat) :
    (live.erase stamp).toList = live.toList.filter fun x => x.1 ≠ stamp := by
  refine toList_eq ((pairwise_toList live).filter _) fun stamp' k => ?_
  rw [List.mem_filter, Std.TreeMap.mem_toList_iff_getElem?_eq_some, Std.TreeMap.getElem?_erase]
  by_cases h : stamp' = stamp
  · simp [h]
  · simp [h, Ne.symm h]

/-- Without its first entry a map lists the others. -/
theorem toList_erase_of_eq_cons (live : Std.TreeMap Nat Key) (stamp : Nat) (k : Key)
    (rest : List (Nat × Key)) (h : live.toList = (stamp, k) :: rest) :
    (live.erase stamp).toList = rest := by
  have hfirst := pairwise_toList live
  rw [h, List.pairwise_cons] at hfirst
  rw [toList_erase, h, List.filter_cons_of_neg (by simp), List.filter_eq_self]
  intro x hx
  exact decide_eq_true (Nat.ne_of_gt (hfirst.1 x hx))

theorem toList_named (n : Nat) (live : Std.TreeMap Nat Key) :
    (named n live).toList = listed live := by
  rw [listed_eq]
  induction n generalizing live with
  | zero => simp [named, listed_eq]
  | succ n ih =>
    rw [named, oldest?_eq]
    cases h : live.toList with
    | nil => rfl
    | cons p rest => simp [ih, toList_erase_of_eq_cons live p.1 p.2 rest h]

@[simp] theorem toList_nominees (o : AdmissionOrder) : o.nominees.toList = o.keys :=
  toList_named _ _

end AdmissionOrder

end LedgerCache
