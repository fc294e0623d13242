import Mathlib.Algebra.Order.BigOperators.Group.List
import Mathlib.Algebra.Order.Ring.Nat
import Mathlib.Data.List.Infix

namespace LedgerCache

/-- How many weights have to go, first ones first, until the rest is at most `limit`. -/
def excess (limit : Nat) : List Nat → Nat
  | [] => 0
  | w :: ws => if (w :: ws).sum ≤ limit then 0 else excess limit ws + 1

theorem lt_excess_iff (limit n : Nat) (ws : List Nat) :
    n < excess limit ws ↔ limit < (ws.drop n).sum := by
  induction ws generalizing n with
  | nil => simp [excess]
  | cons w ws ih =>
    by_cases hfit : (w :: ws).sum ≤ limit
    · have hdrop : ((w :: ws).drop n).sum ≤ (w :: ws).sum :=
        (List.drop_sublist n _).sum_le_sum (fun _ _ => Nat.zero_le _)
      rw [excess, if_pos hfit]
      omega
    · rw [excess, if_neg hfit]
      cases n with
      | zero => simpa using hfit
      | succ n => simpa using ih n

theorem excess_replicate (limit w n : Nat) (hw : 0 < w) :
    excess limit (List.replicate n w) = n - limit / w := by
  apply eq_of_forall_lt_iff
  intro m
  rw [lt_excess_iff, List.drop_replicate, List.sum_replicate_nat,
    ← Nat.div_lt_iff_lt_mul hw]
  generalize limit / w = q
  omega

section

variable {α : Type} (weight : α → Nat)

theorem find?_inits_eq_take_excess (limit need room : Nat) (l : List α)
    (h : room + (l.map weight).sum = limit + need) :
    l.inits.find? (fun e => need ≤ room + (e.map weight).sum) =
      some (l.take (excess limit (l.map weight))) := by
  induction l generalizing room with
  | nil =>
    have hneed : need ≤ room := by simp at h; omega
    simp [excess, hneed]
  | cons x xs ih =>
    rw [List.inits_cons, List.find?_cons, List.map_cons, excess, ← List.map_cons]
    by_cases hfit : ((x :: xs).map weight).sum ≤ limit
    · have hneed : need ≤ room := by omega
      rw [if_pos hfit]
      simp [hneed]
    · have hnone : ¬need ≤ room + (([] : List α).map weight).sum := by
        rw [List.map_nil, List.sum_nil]
        omega
      have hbehind (e : List α) :
          room + ((x :: e).map weight).sum = room + weight x + (e.map weight).sum := by
        rw [List.map_cons, List.sum_cons, Nat.add_assoc]
      rw [List.map_cons, List.sum_cons, ← Nat.add_assoc] at h
      have htail := ih (room + weight x) h
      simp only [← hbehind] at htail
      rw [if_neg hfit, decide_eq_false hnone, List.find?_map]
      exact congrArg (Option.map (x :: ·)) htail

theorem drop_excess_eq_filter (age : α → Nat) (limit : Nat) (l : List α)
    (hl : l.Pairwise fun x y => age x < age y) :
    l.drop (excess limit (l.map weight)) =
      l.filter fun x => ((l.filter fun y => age x ≤ age y).map weight).sum ≤ limit := by
  induction l with
  | nil => rfl
  | cons x xs ih =>
    obtain ⟨hx, hxs⟩ := List.pairwise_cons.1 hl
    have hall : (x :: xs).filter (fun y => age x ≤ age y) = x :: xs := by
      apply List.filter_eq_self.2
      intro y hy
      rcases List.mem_cons.1 hy with rfl | hy
      · simp
      · simpa using (hx y hy).le
    have htail (y : α) (hy : y ∈ xs) :
        (x :: xs).filter (fun z => age y ≤ age z) = xs.filter fun z => age y ≤ age z := by
      have hlt := hx y hy
      exact List.filter_cons_of_neg (by simpa using hlt)
    have hrest :
        xs.filter (fun y => (((x :: xs).filter fun z => age y ≤ age z).map weight).sum ≤ limit) =
          xs.filter fun y => ((xs.filter fun z => age y ≤ age z).map weight).sum ≤ limit :=
      List.filter_congr fun y hy => by rw [htail y hy]
    rw [List.map_cons, excess, ← List.map_cons, List.filter_cons, hall, hrest]
    by_cases hfit : ((x :: xs).map weight).sum ≤ limit
    · have hsum (y : α) : ((xs.filter fun z => age y ≤ age z).map weight).sum ≤ limit := by
        have hsub := ((List.filter_sublist (p := fun z => age y ≤ age z)).trans
          (List.sublist_cons_self x xs)).map weight
        exact (hsub.sum_le_sum fun _ _ => Nat.zero_le _).trans hfit
      simp only [hsum, hfit, decide_true, List.filter_true, List.drop_zero, if_true]
    · simp only [hfit, decide_false, List.drop_succ_cons, ih hxs, Bool.false_eq_true, if_false]

end

end LedgerCache
