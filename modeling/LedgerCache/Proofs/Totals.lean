import LedgerCache.Proofs.Capacities
import LedgerCache.Workload.Report
import Mathlib.Algebra.BigOperators.Group.List.Basic
import Mathlib.Data.Fin.VecNotation
import Mathlib.Data.UInt
import Mathlib.Order.WellFounded
import Mathlib.Tactic.FinCases

namespace LedgerCache

theorem addWords_eq_ok {a b : UInt64} (h : a.toNat + b.toNat < wordLimit) :
    addWords a b = .ok (a + b) := by
  rw [addWords, if_pos h]

theorem addWords_eq_error {a b : UInt64} (h : wordLimit ≤ a.toNat + b.toNat) :
    addWords a b = .error .additionOverflow := by
  rw [addWords, if_neg (Nat.not_lt.2 h)]

theorem toNat_sum_of_lt {words : List UInt64} (h : (words.map UInt64.toNat).sum < wordLimit) :
    words.sum.toNat = (words.map UInt64.toNat).sum := by
  induction words with
  | nil => rfl
  | cons word words ih =>
    rw [List.map_cons, List.sum_cons] at h
    have hrest := ih (by omega)
    rw [List.sum_cons, List.map_cons, List.sum_cons, toNat_add_of_lt (by omega), hrest]

namespace Report

instance : Add Report where
  add a b := ⟨a.puts + b.puts, a.cacheHits + b.cacheHits, a.fallbacks + b.fallbacks,
    a.corruptReads + b.corruptReads⟩

def sum (reports : List Report) : Report where
  puts := (reports.map (·.puts)).sum
  cacheHits := (reports.map (·.cacheHits)).sum
  fallbacks := (reports.map (·.fallbacks)).sum
  corruptReads := (reports.map (·.corruptReads)).sum

/-- The counts in the order in which they are added. -/
def counts (r : Report) : Fin 4 → UInt64 := ![r.puts, r.cacheHits, r.fallbacks, r.corruptReads]

theorem ext_of_counts {a b : Report} (h : ∀ field, a.counts field = b.counts field) : a = b := by
  cases a
  cases b
  exact congr (congr (congr (congrArg mk (h 0)) (h 1)) (h 2)) (h 3)

theorem counts_empty (field : Fin 4) : counts {} field = 0 := by
  fin_cases field <;> rfl

theorem counts_sum (reports : List Report) (field : Fin 4) :
    (sum reports).counts field = (reports.map fun r => r.counts field).sum := by
  fin_cases field <;> rfl

theorem counts_add (a b : Report) (field : Fin 4) :
    (a + b).counts field = a.counts field + b.counts field := by
  fin_cases field <;> rfl

/-- A merge of `other` into `total` leaves this behind: the counts before `field` are added, and the
sum at `field` is no word. -/
structure StopsAt (total other left : Report) (field : Fin 4) : Prop where
  overflows : wordLimit ≤ (total.counts field).toNat + (other.counts field).toNat
  added : ∀ f < field, (left.counts f).toNat = (total.counts f).toNat + (other.counts f).toNat
  kept : ∀ f, field ≤ f → left.counts f = total.counts f

section

variable {total other : Report}

theorem merge_of_lt
    (h : ∀ field, (total.counts field).toNat + (other.counts field).toNat < wordLimit) :
    total.merge other = (total + other, none) := by
  have hputs : addWords total.puts other.puts = _ := addWords_eq_ok (h 0)
  have hhits : addWords total.cacheHits other.cacheHits = _ := addWords_eq_ok (h 1)
  have hfallbacks : addWords total.fallbacks other.fallbacks = _ := addWords_eq_ok (h 2)
  have hcorrupt : addWords total.corruptReads other.corruptReads = _ := addWords_eq_ok (h 3)
  simp only [merge, hputs, hhits, hfallbacks, hcorrupt]
  rfl

theorem merge_of_first {field : Fin 4}
    (hfield : wordLimit ≤ (total.counts field).toNat + (other.counts field).toNat)
    (hbefore : ∀ f < field, (total.counts f).toNat + (other.counts f).toNat < wordLimit) :
    ∃ left, total.merge other = (left, some .additionOverflow) ∧ ∀ f,
      left.counts f = if f < field then total.counts f + other.counts f else total.counts f := by
  have hputs (h : 0 < field) : addWords total.puts other.puts = _ := addWords_eq_ok (hbefore 0 h)
  have hhits (h : 1 < field) : addWords total.cacheHits other.cacheHits = _ :=
    addWords_eq_ok (hbefore 1 h)
  have hfallbacks (h : 2 < field) : addWords total.fallbacks other.fallbacks = _ :=
    addWords_eq_ok (hbefore 2 h)
  have hstop := addWords_eq_error hfield
  -- A count is reached only once those before it are added, hence one case for each.
  match field with
  | 0 =>
    change addWords total.puts other.puts = _ at hstop
    exact ⟨_, by simp only [merge, hstop]; rfl, fun f => by fin_cases f <;> rfl⟩
  | 1 =>
    change addWords total.cacheHits other.cacheHits = _ at hstop
    exact ⟨_, by simp only [merge, hputs (by decide), hstop]; rfl,
      fun f => by fin_cases f <;> rfl⟩
  | 2 =>
    change addWords total.fallbacks other.fallbacks = _ at hstop
    exact ⟨_, by simp only [merge, hputs (by decide), hhits (by decide), hstop]; rfl,
      fun f => by fin_cases f <;> rfl⟩
  | 3 =>
    change addWords total.corruptReads other.corruptReads = _ at hstop
    have hall := hfallbacks (by decide)
    exact ⟨_, by simp only [merge, hputs (by decide), hhits (by decide), hall, hstop]; rfl,
      fun f => by fin_cases f <;> rfl⟩

theorem merge_of_le
    (h : ∃ field, wordLimit ≤ (total.counts field).toNat + (other.counts field).toNat) :
    ∃ left field, total.merge other = (left, some .additionOverflow) ∧
      StopsAt total other left field := by
  obtain ⟨field, hfirst⟩ := exists_minimal_of_wellFoundedLT _ h
  have hbefore (f : Fin 4) (hf : f < field) :
      (total.counts f).toNat + (other.counts f).toNat < wordLimit :=
    Nat.lt_of_not_le (hfirst.not_prop_of_lt hf)
  obtain ⟨left, hmerge, hleft⟩ := merge_of_first hfirst.prop hbefore
  refine ⟨left, field, hmerge, hfirst.prop, fun f hf => ?_, fun f hf => ?_⟩
  · rw [hleft, if_pos hf, toNat_add_of_lt (hbefore f hf)]
  · rw [hleft, if_neg (Fin.not_lt.2 hf)]

end

/-- No count exceeds `most`. -/
structure Within (most : Nat) (r : Report) : Prop where
  puts : r.puts.toNat ≤ most
  cacheHits : r.cacheHits.toNat ≤ most
  fallbacks : r.fallbacks.toNat ≤ most
  corruptReads : r.corruptReads.toNat ≤ most

theorem within_iff {most : Nat} {r : Report} :
    r.Within most ↔ ∀ field, (r.counts field).toNat ≤ most := by
  constructor
  · intro h field
    fin_cases field
    exacts [h.puts, h.cacheHits, h.fallbacks, h.corruptReads]
  · intro h
    exact ⟨h 0, h 1, h 2, h 3⟩

theorem within_empty : Within 0 {} := ⟨Nat.le_refl _, Nat.le_refl _, Nat.le_refl _, Nat.le_refl _⟩

theorem sum_perm {reports reports' : List Report} (h : reports.Perm reports') :
    sum reports = sum reports' := by
  simp only [sum, (h.map _).sum_eq]

section

variable {total other : Report} {most more : Nat} (ht : total.Within most) (ho : other.Within more)
  (hlt : most + more < wordLimit)

include ht ho

theorem Within.count_add_le (field : Fin 4) :
    (total.counts field).toNat + (other.counts field).toNat ≤ most + more :=
  Nat.add_le_add (within_iff.1 ht field) (within_iff.1 ho field)

include hlt

theorem Within.add : (total + other).Within (most + more) := by
  rw [within_iff]
  intro field
  have hle := ht.count_add_le ho field
  rw [counts_add, toNat_add_of_lt (hle.trans_lt hlt)]
  exact hle

theorem merge_eq : total.merge other = (total + other, none) :=
  merge_of_lt fun field => (ht.count_add_le ho field).trans_lt hlt

end

/-- The sum of one count, whether it is a word or not. -/
def exactSum (reports : List Report) (field : Fin 4) : Nat :=
  (reports.map fun r => (r.counts field).toNat).sum

theorem exactSum_append (reports more : List Report) (field : Fin 4) :
    exactSum (reports ++ more) field = exactSum reports field + exactSum more field := by
  simp [exactSum]

theorem exactSum_cons (r : Report) (reports : List Report) (field : Fin 4) :
    exactSum (r :: reports) field = (r.counts field).toNat + exactSum reports field := rfl

theorem exactSum_perm {reports reports' : List Report} (h : reports.Perm reports')
    (field : Fin 4) : exactSum reports field = exactSum reports' field :=
  (h.map _).sum_eq

/-- The counts of `total` are the sums of those of `reports`. -/
def Totals (total : Report) (reports : List Report) : Prop :=
  ∀ field, (total.counts field).toNat = exactSum reports field

/-- All sums are words. -/
def Fits (reports : List Report) : Prop := ∀ field, exactSum reports field < wordLimit

namespace Totals

variable {total other : Report} {reports more : List Report}

theorem nil : Totals {} [] := fun field => by
  rw [counts_empty]
  rfl

theorem single (r : Report) : r.Totals [r] := fun _ => rfl

theorem fits (h : total.Totals reports) : Fits reports := fun field =>
  (h field).symm.trans_lt (total.counts field).toNat_lt

theorem unique (h : total.Totals reports) (h' : other.Totals reports) : total = other :=
  ext_of_counts fun field => UInt64.toNat_inj.1 ((h field).trans (h' field).symm)

/-- Two totals can be merged exactly if the sums of all that they add up are words. -/
theorem merge_cases (h : total.Totals reports) (h' : other.Totals more) :
    (total.merge other = (total + other, none) ∧ (total + other).Totals (reports ++ more)) ∨
      (¬Fits (reports ++ more) ∧ ∃ left field,
        total.merge other = (left, some .additionOverflow) ∧ StopsAt total other left field) := by
  have hsum (field : Fin 4) : exactSum (reports ++ more) field =
      (total.counts field).toNat + (other.counts field).toNat := by
    rw [exactSum_append, h field, h' field]
  by_cases hfits : Fits (reports ++ more)
  · have hlt (field : Fin 4) :
        (total.counts field).toNat + (other.counts field).toNat < wordLimit :=
      hsum field ▸ hfits field
    refine .inl ⟨merge_of_lt hlt, fun field => ?_⟩
    rw [counts_add, toNat_add_of_lt (hlt field), hsum]
  · refine .inr ⟨hfits, merge_of_le ?_⟩
    obtain ⟨field, hfield⟩ := not_forall.1 hfits
    exact ⟨field, hsum field ▸ Nat.not_lt.1 hfield⟩

end Totals

theorem Fits.of_append_left {reports more : List Report} (h : Fits (reports ++ more)) :
    Fits reports := fun field =>
  (Nat.le_add_right _ _).trans_lt (exactSum_append reports more field ▸ h field)

theorem Fits.of_append_right {reports more : List Report} (h : Fits (reports ++ more)) :
    Fits more := fun field =>
  (Nat.le_add_left _ _).trans_lt (exactSum_append reports more field ▸ h field)

theorem Fits.totals_sum {reports : List Report} (h : Fits reports) :
    (sum reports).Totals reports := by
  intro field
  have hsum : exactSum reports field =
      ((reports.map fun r => r.counts field).map UInt64.toNat).sum := by
    rw [List.map_map]
    rfl
  rw [counts_sum, hsum, toNat_sum_of_lt (hsum ▸ h field)]

/-- The sums are words if there are few reports with small counts. -/
theorem fits_of_within {reports : List Report} {most : Nat} (h : ∀ r ∈ reports, r.Within most)
    (hlt : reports.length * most < wordLimit) : Fits reports := by
  intro field
  have hle : exactSum reports field ≤ (reports.map fun r => (r.counts field).toNat).length • most :=
    List.sum_le_card_nsmul _ _ fun n hn => by
      obtain ⟨r, hr, rfl⟩ := List.mem_map.1 hn
      exact within_iff.1 (h r hr) field
  rw [List.length_map] at hle
  exact hle.trans_lt hlt

theorem Fits.perm {reports reports' : List Report} (h : Fits reports) (hp : reports.Perm reports') :
    Fits reports' := fun field => exactSum_perm hp field ▸ h field

/-- The merges of `reports` stop at one of them, behind others whose total they leave as it was but
for the counts that this one has added. -/
def BreaksOff (reports : List Report) (left : Report) : Prop :=
  ∃ before r behind total field, reports = before ++ r :: behind ∧
    mergeAll {} before = (total, none) ∧ total.Totals before ∧ StopsAt total r left field

theorem BreaksOff.not_fits {reports : List Report} {left : Report} (h : BreaksOff reports left) :
    ¬Fits reports := by
  obtain ⟨before, r, behind, total, field, rfl, -, htotal, hstop⟩ := h
  intro hfits
  have hlt := hfits field
  have hover := hstop.overflows
  rw [exactSum_append, exactSum_cons, ← htotal field] at hlt
  omega

theorem mergeAll_append (total : Report) (reports more : List Report) :
    total.mergeAll (reports ++ more) =
      match total.mergeAll reports with
      | (total, none) => total.mergeAll more
      | (total, some f) => (total, some f) := by
  induction reports generalizing total with
  | nil => rfl
  | cons r reports ih =>
    rw [List.cons_append, mergeAll, mergeAll]
    rcases total.merge r with ⟨next, _ | f⟩
    · exact ih next
    · rfl

theorem mergeAll_singleton (total r : Report) : total.mergeAll [r] = total.merge r := by
  rw [mergeAll]
  rcases total.merge r with ⟨next, _ | f⟩ <;> rfl

theorem mergeAll_cases (reports : List Report) :
    (∃ total, mergeAll {} reports = (total, none) ∧ total.Totals reports) ∨
      ∃ left, mergeAll {} reports = (left, some .additionOverflow) ∧ BreaksOff reports left := by
  -- From the back: the last report meets the total of all others, or the merges stopped before it.
  induction reports using List.reverseRecOn with
  | nil => exact .inl ⟨{}, rfl, .nil⟩
  | append_singleton reports r ih =>
    rw [mergeAll_append]
    rcases ih with ⟨total, hmerge, htotal⟩ | ⟨left, hmerge, before, r', behind, hbreaks⟩
    · simp only [hmerge, mergeAll_singleton]
      rcases htotal.merge_cases (.single r) with ⟨hnext, hsum⟩ | ⟨-, left, field, hnext, hstop⟩
      · exact .inl ⟨_, hnext, hsum⟩
      · exact .inr ⟨left, hnext, reports, r, [], total, field, rfl, hmerge, htotal, hstop⟩
    · obtain ⟨total, field, hreports, hrest⟩ := hbreaks
      simp only [hmerge]
      refine .inr ⟨left, rfl, before, r', behind ++ [r], total, field, ?_, hrest⟩
      rw [hreports, List.append_assoc, List.cons_append]

theorem mergeAll_of_fits {reports : List Report} (h : Fits reports) :
    mergeAll {} reports = (sum reports, none) := by
  rcases mergeAll_cases reports with ⟨total, hmerge, htotal⟩ | ⟨left, -, hbreaks⟩
  · rw [hmerge, htotal.unique h.totals_sum]
  · exact absurd h hbreaks.not_fits

/-- Partial totals of some reports that are merged later, and so on. -/
inductive Grouping where
  | nothing
  | single (r : Report)
  /-- The total of `other` is merged into that of `total`. -/
  | merged (total other : Grouping)

namespace Grouping

def reports : Grouping → List Report
  | nothing => []
  | single r => [r]
  | merged total other => total.reports ++ other.reports

def total : Grouping → Report × Option Fault
  | nothing => ({}, none)
  | single r => (r, none)
  | merged total other =>
    match total.total, other.total with
    | (sum, none), (more, none) => sum.merge more
    | (sum, some f), _ => (sum, some f)
    | (sum, none), (_, some f) => (sum, some f)

theorem total_cases (g : Grouping) :
    (∃ sum, g.total = (sum, none) ∧ sum.Totals g.reports) ∨
      ¬Fits g.reports ∧ ∃ left, g.total = (left, some .additionOverflow) := by
  induction g with
  | nothing => exact .inl ⟨{}, rfl, .nil⟩
  | single r => exact .inl ⟨r, rfl, .single r⟩
  | merged total other ih ih' =>
    rw [reports, Grouping.total]
    rcases ih with ⟨sum, htotal, hsum⟩ | ⟨hfits, left, htotal⟩
    · rcases ih' with ⟨more, hother, hmore⟩ | ⟨hfits, left, hother⟩
      · simp only [htotal, hother]
        rcases hsum.merge_cases hmore with ⟨hmerge, hnext⟩ | ⟨hfits, left, -, hmerge, -⟩
        · exact .inl ⟨_, hmerge, hnext⟩
        · exact .inr ⟨hfits, left, hmerge⟩
      · simp only [htotal, hother]
        exact .inr ⟨fun h => hfits h.of_append_right, sum, rfl⟩
    · simp only [htotal]
      exact .inr ⟨fun h => hfits h.of_append_left, left, rfl⟩

theorem total_of_fits {g : Grouping} (h : Fits g.reports) : g.total = (sum g.reports, none) := by
  rcases g.total_cases with ⟨total, hmerge, htotal⟩ | ⟨hnot, -⟩
  · rw [hmerge, htotal.unique h.totals_sum]
  · exact absurd h hnot

end Grouping

/-- Reports whose exact sums are words come to one total, which has these sums, in whatever order
they are merged and however they are grouped; others come to none, in no order and no grouping. A
merge adds all counts, or those before the first that overflows. -/
theorem total_of_any_order (reports : List Report) :
    (Fits reports → (sum reports).Totals reports ∧
      (∀ order : List Report, order.Perm reports → mergeAll {} order = (sum reports, none)) ∧
      ∀ g : Grouping, g.reports.Perm reports → g.total = (sum reports, none)) ∧
    ((∃ field, wordLimit ≤ exactSum reports field) →
      (∀ order : List Report, order.Perm reports → ∃ left,
        mergeAll {} order = (left, some .additionOverflow) ∧ BreaksOff order left) ∧
      ∀ g : Grouping, g.reports.Perm reports → g.total.2 = some .additionOverflow) ∧
    ∀ total other : Report,
      (∃ sum, total.merge other = (sum, none) ∧ ∀ field,
        (sum.counts field).toNat = (total.counts field).toNat + (other.counts field).toNat) ∨
      ∃ left field, total.merge other = (left, some .additionOverflow) ∧
        StopsAt total other left field := by
  refine ⟨fun hfits => ⟨hfits.totals_sum, fun order hperm => ?_, fun g hperm => ?_⟩,
    fun ⟨field, hover⟩ => ?_, fun total other => ?_⟩
  · rw [mergeAll_of_fits (hfits.perm hperm.symm), sum_perm hperm]
  · rw [Grouping.total_of_fits (hfits.perm hperm.symm), sum_perm hperm]
  · have hnot {order : List Report} (hperm : order.Perm reports) : ¬Fits order := fun hfits =>
      Nat.not_lt.2 hover (hfits.perm hperm field)
    refine ⟨fun order hperm => ?_, fun g hperm => ?_⟩
    · rcases mergeAll_cases order with ⟨total, -, htotal⟩ | hbreaks
      · exact absurd htotal.fits (hnot hperm)
      · exact hbreaks
    · rcases g.total_cases with ⟨sum, -, hsum⟩ | ⟨-, left, hleft⟩
      · exact absurd hsum.fits (hnot hperm)
      · rw [hleft]
  · rcases (Totals.single total).merge_cases (.single other) with ⟨hmerge, hsum⟩ | ⟨-, hstop⟩
    · exact .inl ⟨_, hmerge, hsum⟩
    · exact .inr hstop

/-- The third counts of two reports overflow; one that has none of these fits beside either. -/
theorem total_of_any_order_of_three :
    let large : Report := ⟨1, 2, 18446744073709551615, 5⟩
    let small : Report := ⟨1, 2, 1, 5⟩
    let light : Report := ⟨1, 2, 0, 5⟩
    Fits [large, light] ∧ (∃ field, wordLimit ≤ exactSum [large, small] field) ∧
      mergeAll {} [light, large] = mergeAll {} [large, light] ∧
      (Grouping.merged (.single light) (.merged .nothing (.single large))).total =
        mergeAll {} [large, light] ∧
      (∃ left, mergeAll {} [small, large] = (left, some .additionOverflow) ∧
        BreaksOff [small, large] left) ∧
      ∃ left field, large.merge small = (left, some .additionOverflow) ∧
        StopsAt large small left field := by
  intro large small light
  have hfits : Fits [large, light] := by
    intro field
    fin_cases field <;> decide
  have hover : ∃ field, wordLimit ≤ exactSum [large, small] field := ⟨2, by decide⟩
  obtain ⟨-, horders, hgroupings⟩ := (total_of_any_order [large, light]).1 hfits
  obtain ⟨hstops, -⟩ := (total_of_any_order [large, small]).2.1 hover
  have hmerged := hgroupings (.merged (.single light) (.merged .nothing (.single large)))
    (List.Perm.swap ..)
  refine ⟨hfits, hover, ?_, ?_, hstops _ (.swap ..), ?_⟩
  · rw [horders _ (.swap ..), horders _ .rfl]
  · rw [hmerged, horders _ .rfl]
  · rcases (total_of_any_order []).2.2 large small with ⟨sum, hmerge, -⟩ | hstop
    · cases hmerge
    · exact hstop

end Report

end LedgerCache
