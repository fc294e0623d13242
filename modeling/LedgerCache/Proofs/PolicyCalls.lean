import LedgerCache.Proofs.Conservation

namespace LedgerCache

open Std

namespace PolicyCall

/-- The admissions whose stamp is not forgotten behind them. -/
def standing : List PolicyCall → List (Key × Nat)
  | [] => []
  | .admitted k stamp :: calls =>
    if .forgotten stamp ∈ calls then standing calls else (k, stamp) :: standing calls
  | _ :: calls => standing calls

/-- What is forgotten was handed out before, and not forgotten before. -/
def Proper (calls : List PolicyCall) : Prop :=
  ∀ before stamp behind, calls = before ++ .forgotten stamp :: behind →
    (∃ k, .admitted k stamp ∈ before) ∧ .forgotten stamp ∉ before

theorem standing_append (calls more : List PolicyCall) :
    standing (calls ++ more) =
      (standing calls).filter (fun x => .forgotten x.2 ∉ more) ++ standing more := by
  induction calls with
  | nil => rfl
  | cons call calls ih =>
    cases call with
    | forgotten stamp => simpa [standing] using ih
    | cleared => simpa [standing] using ih
    | admitted k stamp =>
      rw [List.cons_append, standing, standing, ih]
      by_cases hcalls : .forgotten stamp ∈ calls
      · simp [hcalls]
      · by_cases hmore : .forgotten stamp ∈ more <;> simp [hcalls, hmore]

theorem Proper.concat {calls : List PolicyCall} (h : Proper calls) {call : PolicyCall}
    (hcall : ∀ stamp, call = .forgotten stamp →
      (∃ k, .admitted k stamp ∈ calls) ∧ .forgotten stamp ∉ calls) :
    Proper (calls ++ [call]) := by
  intro before stamp behind heq
  rcases List.eq_nil_or_concat behind with rfl | ⟨behind, last, rfl⟩
  · obtain ⟨rfl, hlast⟩ := List.append_inj' heq rfl
    exact hcall stamp (List.singleton_inj.1 hlast)
  · -- The stamp is forgotten before the new call, among the old ones.
    rw [List.concat_eq_append, ← List.cons_append, ← List.append_assoc] at heq
    exact h before stamp behind (List.append_inj' heq rfl).1

end PolicyCall

namespace Move

variable {nominate : Nomination}

/-- The victims of a put in the order of its plan, each where it is named first. -/
def planned (m : Move nominate) : List Key :=
  match m.op, m.before.resident with
  | .put key payload, some r =>
    match r.plan nominate key payload.size with
    | .ok (some victims) => victims.eraseDups
    | _ => []
  | _, _ => []

/-- What the policy is to be told of a move: of a put that succeeded, first that the entry it
replaced is gone, then that those it evicted are, then that the new one came; of a close that
succeeded, that nothing is left; and nothing else. -/
def owed (m : Move nominate) : List PolicyCall :=
  match m.op, m.step.result, m.before.resident with
  | .put key _, .ok _, some r =>
    (r.index[key]?.toList.map fun e => .forgotten e.stamp) ++
      (m.planned.filterMap fun k => r.index[k]?.map fun e => .forgotten e.stamp) ++
        [.admitted key r.order.next]
  | .close, .ok _, _ => [.cleared]
  | _, _, _ => []

/-- The policy is told what it is to be told, and those planned are those evicted. -/
structure Tells (m : Move nominate) : Prop where
  calls : m.step.calls = m.owed
  planned : m.step.result.isOk → (m.evicted.map (·.1)).Perm m.planned

end Move

namespace Resident

/-- A key under which nothing is resident may as well not be named. -/
theorem leaving_filter (r : Resident) {k : Key} (hk : r.index[k]? = none) (ks : List Key) :
    r.leaving (ks.filter fun k' => !k' == k) = r.leaving ks := by
  induction ks generalizing r with
  | nil => rfl
  | cons k' ks ih =>
    by_cases he : k' = k
    · subst he
      simp [leaving, hk, without_of_none hk, ih r hk]
    · have hk' : (r.without k').index[k]? = none := by
        rw [index_without, hk, ite_self]
      simp [leaving, he, ih _ hk']

/-- The entries leave in the order in which they are named first. -/
theorem leaving_eq_filterMap (r : Resident) (ks : List Key) :
    r.leaving ks = ks.eraseDups.filterMap fun k => r.index[k]?.map fun e => (k, e) := by
  match ks with
  | [] => rfl
  | k :: ks =>
    have hgone : (r.without k).index[k]? = none := by rw [index_without, if_pos rfl]
    have hrest : (ks.filter fun k' => !k' == k).eraseDups.filterMap
          (fun k' => (r.without k).index[k']?.map fun e => (k', e)) =
        (ks.filter fun k' => !k' == k).eraseDups.filterMap
          fun k' => r.index[k']?.map fun e => (k', e) := by
      apply List.filterMap_congr
      intro k' hk'
      rw [List.mem_eraseDups, List.mem_filter] at hk'
      have hne : k' ≠ k := by simpa using hk'.2
      rw [index_without, if_neg hne]
    rw [leaving, ← leaving_filter _ hgone, leaving_eq_filterMap, hrest, List.eraseDups_cons,
      List.filterMap_cons]
    cases r.index[k]? <;> rfl
termination_by ks.length
decreasing_by
  have hle := List.length_filter_le (fun k' => !k' == k) ks
  simp only [List.length_cons]
  omega

/-- All victims of a plan are resident, so each of them leaves where it is named first. -/
theorem keys_leaving_of_chosen {r : Resident} {nominate : Nomination} {key : Key} {size : Nat}
    {ks : List Key} (h : r.chosen nominate key size = some ks) :
    ((r.without key).leaving ks).map (·.1) = ks.eraseDups := by
  obtain ⟨n, -, hks, -⟩ := chosen_eq_some h
  rw [leaving_eq_filterMap, List.map_filterMap]
  have hname (k : Key) (hk : k ∈ ks.eraseDups) :
      ((r.without key).index[k]?.map fun e => (k, e)).map (·.1) = some k := by
    rw [List.mem_eraseDups, hks] at hk
    obtain ⟨hne, hmem⟩ := mem_candidates (List.mem_of_mem_take hk)
    obtain ⟨e, he⟩ := Option.isSome_iff_exists.1 (TreeMap.mem_iff_isSome_getElem?.1 hmem)
    rw [index_without, if_neg hne, he]
    rfl
  rw [List.filterMap_congr hname, List.filterMap_some]

/-- The entries that leave hold, before anything is removed, what they hold when they leave. -/
theorem leaving_of_chosen {r : Resident} {nominate : Nomination} {key : Key} {size : Nat}
    {ks : List Key} (h : r.chosen nominate key size = some ks) :
    (r.without key).leaving ks =
      ks.eraseDups.filterMap fun k => r.index[k]?.map fun e => (k, e) := by
  obtain ⟨n, -, hks, -⟩ := chosen_eq_some h
  rw [leaving_eq_filterMap]
  apply List.filterMap_congr
  intro k hk
  rw [List.mem_eraseDups, hks] at hk
  rw [index_without, if_neg (mem_candidates (List.mem_of_mem_take hk)).1]

theorem Sound.stamp_eq_iff {r : Resident} (hs : r.Sound) {k k' : Key} {e e' : Entry}
    (he : r.index[k]? = some e) (he' : r.index[k']? = some e') : e.stamp = e'.stamp ↔ k = k' := by
  have hk := (hs.tracked e.stamp k).2 ⟨e, he, rfl⟩
  have hk' := (hs.tracked e'.stamp k').2 ⟨e', he', rfl⟩
  constructor
  · intro hstamp
    rw [hstamp, hk'] at hk
    exact (Option.some.inj hk).symm
  · rintro rfl
    rw [he] at he'
    rw [Option.some.inj he']

end Resident

namespace PolicyCall

/-- The calls tell of all that is resident in `r` and of how it came, and of nothing else. -/
structure Describes (calls : List PolicyCall) (r : Resident) : Prop where
  proper : Proper calls
  standing : standing calls = r.entries.map fun x => (x.1, x.2.stamp)
  held : ∀ x ∈ r.entries, .admitted x.1 x.2.stamp ∈ calls ∧ .forgotten x.2.stamp ∉ calls
  past : ∀ k stamp, .admitted k stamp ∈ calls → stamp < r.order.next

namespace Describes

variable {calls : List PolicyCall} {r : Resident}

theorem start (capacity : Nat) (order : AdmissionOrder) :
    Describes [.cleared] (.empty capacity order) where
  proper := by
    intro before stamp behind heq
    cases before with
    | nil => simp at heq
    | cons call before => simp at heq
  standing := by simp [PolicyCall.standing, Resident.entries, Resident.empty, AdmissionOrder.clear]
  held := by simp [Resident.entries, Resident.empty, AdmissionOrder.clear]
  past := by simp

/-- One entry leaves, and its stamp is handed back. -/
theorem forget (h : Describes calls r) (hs : r.Sound) {key : Key} {e : Entry}
    (he : r.index[key]? = some e) :
    Describes (calls ++ [.forgotten e.stamp]) (r.without key) := by
  have hentries := hs.entries_without key
  have hstamp (x : Key × Entry) (hx : x ∈ r.entries) : x.2.stamp = e.stamp ↔ x.1 = key :=
    hs.stamp_eq_iff ((hs.mem_entries x.1 x.2).1 hx) he
  have hheld := h.held _ ((hs.mem_entries key e).2 he)
  constructor
  case proper =>
    apply h.proper.concat
    intro stamp hcall
    cases hcall
    exact ⟨⟨key, hheld.1⟩, hheld.2⟩
  case standing =>
    rw [standing_append, h.standing, hentries, List.filter_map]
    simp only [PolicyCall.standing, List.append_nil]
    refine congrArg (List.map _) (List.filter_congr fun x hx => ?_)
    simp [hstamp x hx]
  case held =>
    intro x hx
    rw [hentries, List.mem_filter] at hx
    obtain ⟨hx, hne⟩ := hx
    obtain ⟨hadmitted, hkept⟩ := h.held x hx
    have hother : x.2.stamp ≠ e.stamp := by simpa [hstamp x hx] using hne
    simp [hadmitted, hkept, hother]
  case past =>
    intro k stamp hcall
    rw [r.next_without]
    apply h.past k stamp
    simpa using hcall

theorem forgets (h : Describes calls r) (hs : r.Sound) (ks : List Key) :
    Describes (calls ++ (Resident.forgets (r.leaving ks)).toList) (r.withoutAll ks) := by
  induction ks generalizing calls r with
  | nil => simpa [Resident.leaving, Resident.forgets, Resident.withoutAll] using h
  | cons k ks ih =>
    cases he : r.index[k]? with
    | none =>
      rw [Resident.withoutAll_cons, Resident.leaving, he, Resident.without_of_none he]
      exact ih h hs
    | some e =>
      have htail := ih (h.forget hs he) (hs.without k)
      rw [Resident.withoutAll_cons, Resident.leaving, he]
      simpa [Resident.forgets] using htail

/-- A new entry comes, and gets a stamp that no call has named. -/
theorem admission (h : Describes calls r) (hs : r.Sound) {key : Key} {payload : Payload}
    (hkey : r.index[key]? = none) (hstored : (r.stored key payload).Sound) :
    Describes (calls ++ [.admitted key r.order.next]) (r.stored key payload) := by
  have hentries := hs.entries_stored hkey hstored
  -- What is forgotten was handed out before, and what was handed out is behind the next stamp.
  have hnew : .forgotten r.order.next ∉ calls := by
    intro hmem
    obtain ⟨before, behind, hsplit⟩ := List.append_of_mem hmem
    obtain ⟨⟨k, hk⟩, -⟩ := h.proper before _ behind hsplit
    have hlt := h.past k r.order.next (by simp [hsplit, hk])
    exact Nat.lt_irrefl _ hlt
  constructor
  case proper =>
    apply h.proper.concat
    intro stamp hcall
    cases hcall
  case standing =>
    rw [standing_append, h.standing, hentries]
    simp [PolicyCall.standing]
  case held =>
    intro x hx
    rw [hentries, List.mem_append, List.mem_singleton] at hx
    rcases hx with hx | rfl
    · obtain ⟨hadmitted, hkept⟩ := h.held x hx
      simp [hadmitted, hkept]
    · simp [hnew]
  case past =>
    intro k stamp hcall
    rw [List.mem_append, List.mem_singleton] at hcall
    rcases hcall with hcall | hcall
    · exact (h.past k stamp hcall).trans (Nat.lt_succ_self _)
    · cases hcall
      exact Nat.lt_succ_self _

end Describes

end PolicyCall

namespace Cache

variable {nominate : Nomination}

/-- The calls so far are proper, and while the cache is open they describe what it holds. -/
structure Told (c : Cache nominate) (calls : List PolicyCall) : Prop where
  proper : PolicyCall.Proper calls
  describes : ∀ r, c.resident = some r → PolicyCall.Describes calls r

theorem Told.of_resident {c c' : Cache nominate} {calls : List PolicyCall} (h : c.Told calls)
    (hr : c'.resident = c.resident) : c'.Told calls :=
  ⟨h.proper, fun r hr' => h.describes r (hr ▸ hr')⟩

theorem Holds.told_admission {c : Cache nominate} {r : Resident} {key : Key} {payload : Payload}
    {victims : List Key} {calls : List PolicyCall} (hr : c.Holds r)
    (h : PolicyCall.Describes calls r) (hv : c.objection key payload.size = none)
    (hfits : payload.size ≤ (r.cleared key victims).budget.available) :
    PolicyCall.Describes (calls ++ (c.admission r key payload victims).calls)
      ((r.cleared key victims).stored key payload) := by
  have hsound := (hr.admission_holds hv hfits).sound
  have hcleared : PolicyCall.Describes _ (r.cleared key victims) :=
    (h.forgets hr.sound [key]).forgets (hr.sound.without key) victims
  have hadmitted := hcleared.admission (hr.sound.cleared key victims)
    (r.index_cleared_self key victims) hsound
  rw [r.next_cleared] at hadmitted
  simpa [admission, Resident.withoutAll] using hadmitted

/-- The calls of an admission, read off what was resident before it. -/
theorem calls_admission (c : Cache nominate) {r : Resident} {key : Key} {size : Nat}
    {victims : List Key} (hc : r.chosen nominate key size = some victims) (payload : Payload) :
    (c.admission r key payload victims).calls =
      (r.index[key]?.toList.map fun e => .forgotten e.stamp) ++
        (victims.eraseDups.filterMap fun k => r.index[k]?.map fun e => .forgotten e.stamp) ++
          [.admitted key r.order.next] := by
  have hleaving := Resident.leaving_of_chosen hc
  have hreplaced : (r.leaving [key]).map (fun x => PolicyCall.forgotten x.2.stamp) =
      r.index[key]?.toList.map fun e => .forgotten e.stamp := by
    cases he : r.index[key]? <;> simp [Resident.leaving, he]
  simp [admission, Resident.forgets, hleaving, hreplaced, List.map_filterMap, Function.comp_def]

theorem Sound.told {c : Cache nominate} (hs : c.Sound) {op : Operation}
    (hclean : (c.perform op).Clean) {calls : List PolicyCall} (h : c.Told calls) :
    (c.perform op).cache.Told (calls ++ (c.perform op).calls) := by
  cases hs.performed hclean with
  | read hop =>
    have hsilent := c.silent_perform hop
    rw [hsilent.calls, List.append_nil]
    exact h.of_resident hsilent.keeps.resident
  | barred _ _ _ hstep =>
    rw [hstep, List.append_nil]
    exact h
  | rejected _ _ hstep =>
    rw [hstep, reject, List.append_nil]
    exact h.of_resident rfl
  | stored hr hv _ hfits _ _ hstep =>
    have hdescribes := hr.told_admission (h.describes _ hr.resident) hv hfits
    rw [hstep]
    refine ⟨hdescribes.proper, fun r' hr' => ?_⟩
    cases hr'
    exact hdescribes
  | closed _ hstep =>
    rw [hstep]
    refine ⟨?_, fun r' hr' => ?_⟩
    · apply h.proper.concat
      intro stamp hcall
      cases hcall
    · cases hr'

theorem Sound.told_after {c : Cache nominate} (hs : c.Sound) {ops : List Operation}
    (hclean : ∀ s ∈ c.run ops, s.Clean) {calls : List PolicyCall} (h : c.Told calls) :
    (c.after ops).Told (calls ++ (c.run ops).flatMap (·.calls)) := by
  induction ops generalizing c calls with
  | nil => simpa [run, Cache.after] using h
  | cons op ops ih =>
    rw [run, List.forall_mem_cons] at hclean
    rw [run, List.flatMap_cons, ← List.append_assoc]
    exact ih (hs.perform hclean.1).1 hclean.2 (hs.told hclean.1 h)

theorem Sound.tells {c : Cache nominate} (hs : c.Sound) {op : Operation}
    (hclean : (c.perform op).Clean) : (⟨c, op⟩ : Move nominate).Tells := by
  cases hs.performed hclean with
  | read hop =>
    have hcalls := (c.silent_perform hop).calls
    cases op with
    | put => cases hop
    | close => cases hop
    | _ => exact ⟨hcalls, fun _ => .nil⟩
  | barred hop hr _ hstep =>
    constructor
    case calls =>
      rw [Move.step, hstep]
      cases op <;> simp [Move.owed, Move.step, hstep]
    case planned => simp [Move.step, hstep, Except.isOk, Except.toBool]
  | rejected _ _ hstep =>
    constructor
    case calls => simp [Move.owed, Move.step, hstep, reject]
    case planned => simp [Move.step, hstep, reject, Except.isOk, Except.toBool]
  | @stored r key payload victims h hv hc hfits hadmits hnext hstep =>
    have hplan := h.plan_of_admits hv hc hadmits
    have hplanned : (⟨c, .put key payload⟩ : Move nominate).planned = victims.eraseDups := by
      simp only [Move.planned, h.resident, hplan]
    constructor
    case calls =>
      simp only [Move.owed, Move.result_of_admission hstep, h.resident, hplanned]
      rw [Move.step, hstep]
      exact c.calls_admission hc payload
    case planned =>
      intro _
      rw [hplanned, ← Resident.keys_leaving_of_chosen hc]
      exact (Move.evicted_of_admission hstep h.resident).map _
  | closed _ hstep =>
    constructor
    case calls => simp [Move.owed, Move.step, hstep]
    case planned => exact fun _ => .nil

/-- Whatever the policy nominates, a run in which nothing fails tells it exactly what the moves owe
it: each stamp that is forgotten was handed out before and is forgotten once, and while the cache is
open the admissions that stand are what is resident. -/
theorem run_tells (nominate : Nomination) (capacity : UInt64) (order : AdmissionOrder)
    (ops : List Operation) (hc : 0 < capacity) :
    ∃ start, create nominate capacity order = .ok start ∧ start.calls = [.cleared] ∧
      ((∀ s ∈ start.cache.run ops, s.Clean) →
        let calls := start.calls ++ (start.cache.run ops).flatMap (·.calls)
        (∀ m ∈ start.cache.moves ops, m.Tells) ∧ PolicyCall.Proper calls ∧
          ∀ r, (start.cache.after ops).resident = some r →
            (PolicyCall.standing calls).Perm (r.index.toList.map fun x => (x.1, x.2.stamp))) := by
  refine ⟨_, create_eq hc order, rfl, fun hclean => ?_⟩
  intro calls
  have hs : (opened nominate capacity order).Sound := sound_opened capacity order
  have hstart : (opened nominate capacity order).Told [.cleared] := by
    have hempty := PolicyCall.Describes.start capacity.toNat order
    refine ⟨hempty.proper, fun r hr => ?_⟩
    cases hr
    exact hempty
  have htold := hs.told_after hclean hstart
  refine ⟨fun m hm => ?_, htold.proper, fun r hr => ?_⟩
  · obtain ⟨hbefore, hstep⟩ := hs.moves hclean m hm
    exact hbefore.tells hstep
  · have hsound := ((hs.after hclean).holds hr).sound
    have hdescribes := htold.describes r hr
    rw [hdescribes.standing]
    exact hsound.perm.map _

/-- The policy names the oldest entry twice before the next; both leave, each is told once. -/
theorem run_tells_of_repeated :
    let ops : List Operation := [.put ⟨1, 0⟩ #[7], .put ⟨2, 0⟩ #[8, 8, 8], .get ⟨1, 0⟩,
      .put ⟨3, 0⟩ #[1, 2, 3, 4], .put ⟨-1, 0⟩ #[6], .put ⟨3, 0⟩ #[5], .put ⟨1, 0⟩ #[9, 9]]
    let c := opened .twice 4 { next := 5 }
    let calls := .cleared :: (c.run ops).flatMap (·.calls)
    (0 : UInt64) < 4 ∧ (∀ s ∈ c.run ops, s.Clean) ∧
      calls = [.cleared, .admitted ⟨1, 0⟩ 5, .admitted ⟨2, 0⟩ 6, .forgotten 5, .forgotten 6,
        .admitted ⟨3, 0⟩ 7, .forgotten 7, .admitted ⟨3, 0⟩ 8, .admitted ⟨1, 0⟩ 9] ∧
      (∀ m ∈ c.moves ops, m.Tells) ∧ PolicyCall.Proper calls ∧
        ∃ r, (c.after ops).resident = some r ∧
          (PolicyCall.standing calls).Perm (r.index.toList.map fun x => (x.1, x.2.stamp)) := by
  intro ops c calls
  have hclean : ∀ s ∈ c.run ops, s.Clean := by decide +kernel
  have hopen : (c.after ops).resident.isSome := by decide +kernel
  obtain ⟨r, hr⟩ := Option.isSome_iff_exists.1 hopen
  obtain ⟨start, hstart, -, hrun⟩ := run_tells .twice 4 { next := 5 } ops (by decide)
  rw [create_eq (by decide)] at hstart
  cases hstart
  obtain ⟨htells, hproper, hstanding⟩ := hrun hclean
  exact ⟨by decide, hclean, by decide +kernel, htells, hproper, r, hr, hstanding r hr⟩

end Cache

end LedgerCache
