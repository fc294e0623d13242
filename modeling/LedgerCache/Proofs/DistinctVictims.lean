import LedgerCache.Proofs.Runs

namespace LedgerCache

open Std

namespace Resident

/-- Of the candidates that could go first, `ks` are as few as make room for `size` bytes. -/
structure Fewest (r : Resident) (nominate : Nomination) (key : Key) (size : Nat)
    (ks : List Key) : Prop where
  front : ks <+: r.candidates nominate key
  enough : size ≤ r.room key ks
  least : ∀ ks', ks' <+: r.candidates nominate key → size ≤ r.room key ks' →
    ks.length ≤ ks'.length

/-- `r'` is `r` with the payload as the newest entry under `key`, and without those under `ks`. -/
structure Admitted (r r' : Resident) (key : Key) (payload : Payload) (ks : List Key) : Prop where
  entries : ∀ k, r'.index[k]? =
    if k = key then some ⟨payload, r.order.next⟩ else if k ∈ ks then none else r.index[k]?
  used : r'.budget.used + r.sizeAt key + r.bytesAt ks = r.budget.used + payload.size
  next : r'.order.next = r.order.next + 1
  sound : r'.Sound

variable {r : Resident} {key : Key} {payload : Payload} {ks : List Key} {nominate : Nomination}

theorem fewest_of_chosen {size : Nat} (h : r.chosen nominate key size = some ks) :
    r.Fewest nominate key size ks := by
  obtain ⟨n, -, rfl, henough, hfirst⟩ := chosen_eq_some h
  refine ⟨List.take_prefix _ _, henough, fun ks' hks' hsize => ?_⟩
  by_contra hlt
  rw [List.length_take] at hlt
  have hshort := hfirst ks'.length (by omega)
  rw [← List.prefix_iff_eq_take.1 hks'] at hshort
  rw [room] at hsize
  omega

theorem Fewest.eq_nil {size : Nat} (h : r.Fewest nominate key size ks)
    (hsize : size ≤ r.budget.available + r.sizeAt key) : ks = [] := by
  have hle := h.least [] List.nil_prefix (by rwa [room, bytesAt, List.map_nil, List.sum_nil])
  exact List.eq_nil_of_length_eq_zero (Nat.le_zero.1 hle)

end Resident

namespace Cache

variable {nominate : Nomination}

theorem Holds.admitted {c : Cache nominate} {r : Resident} (h : c.Holds r) {key : Key}
    {payload : Payload} {victims : List Key} (hv : c.objection key payload.size = none)
    (hc : r.chosen nominate key payload.size = some victims) (hn : victims.Nodup)
    (hfits : payload.size ≤ (r.cleared key victims).budget.available) :
    r.Admitted ((r.cleared key victims).stored key payload) key payload victims := by
  have hnext := r.next_cleared key victims
  constructor
  case entries =>
    intro k
    rw [Resident.index_stored, Resident.index_cleared, hnext]
    split_ifs <;> tauto
  case used =>
    have hused := h.sound.used_cleared key victims
    rw [Resident.sum_leaving_of_nodup hc hn] at hused
    rw [Resident.used_stored]
    omega
  case next => exact congrArg Nat.succ hnext
  case sound => exact (h.admission_holds hv hfits).sound

/-- Whatever stamp an operation hands out is behind the one that comes next. -/
theorem Sound.stamp_lt {c : Cache nominate} (hs : c.Sound) {op : Operation}
    (hclean : (c.perform op).Clean) {k : Key} {stamp : Nat}
    (hcall : PolicyCall.admitted k stamp ∈ (c.perform op).calls) :
    ∃ r, (c.perform op).cache.Holds r ∧ stamp < r.order.next := by
  cases hs.performed hclean with
  | read hop =>
    rw [(c.silent_perform hop).calls] at hcall
    cases hcall
  | barred _ _ _ hstep =>
    rw [hstep] at hcall
    cases hcall
  | rejected _ _ hstep =>
    rw [hstep] at hcall
    cases hcall
  | @stored r key payload victims h hv _ hfits _ _ hstep =>
    rw [hstep] at hcall ⊢
    refine ⟨_, h.admission_holds hv hfits, ?_⟩
    have hnew : k = key ∧ stamp = r.order.next := by
      simpa [admission, Resident.forgets] using hcall
    rw [hnew.2, Resident.stored, r.next_cleared]
    exact Nat.lt_succ_self _
  | closed _ hstep =>
    rw [hstep] at hcall
    simp at hcall

theorem Sound.next_le {c : Cache nominate} (hs : c.Sound) {op : Operation}
    (hclean : (c.perform op).Clean) {r r' : Resident} (hr : c.resident = some r)
    (hr' : (c.perform op).cache.resident = some r') : r.order.next ≤ r'.order.next := by
  rcases hs.perform_cases hclean with hkeeps | ⟨r₀, r₁, h, -, hholds, hnext, -⟩ | hclosed
  · rw [hkeeps.resident, hr] at hr'
    cases hr'
    exact Nat.le_refl _
  · rw [h.eq_of_resident hr, hholds.eq_of_resident hr', hnext]
    exact Nat.le_succ _
  · rw [hclosed] at hr'
    cases hr'

namespace Ready

variable {capacity : UInt64} {c : Cache nominate} {ops : List Operation}

theorem next_le_after (h : Ready capacity c ops) (hn : nominate.NamesOnce) {r r' : Resident}
    (hr : c.resident = some r) (hr' : (c.after ops).resident = some r') :
    r.order.next ≤ r'.order.next := by
  induction ops generalizing c r with
  | nil =>
    rw [Cache.after, List.foldl_nil, hr] at hr'
    cases hr'
    exact Nat.le_refl _
  | cons op ops ih =>
    have hclean := h.sound.clean_perform hn h.bounded
    have hnext := h.perform hclean
    obtain ⟨r₁, h₁⟩ := hnext.sound.open_of_after hr'
    have hstep := h.sound.next_le hclean hr h₁.resident
    exact hstep.trans (ih hnext h₁.resident hr')

/-- All stamps that a run has handed out are behind the one that comes next. -/
theorem stamps_lt (h : Ready capacity c ops) (hn : nominate.NamesOnce) {r : Resident}
    (hr : (c.after ops).resident = some r) {s : Step nominate Reply} (hs : s ∈ c.run ops)
    {k : Key} {stamp : Nat} (hcall : PolicyCall.admitted k stamp ∈ s.calls) :
    stamp < r.order.next := by
  induction ops generalizing c with
  | nil => cases hs
  | cons op ops ih =>
    have hclean := h.sound.clean_perform hn h.bounded
    have hnext := h.perform hclean
    rcases List.mem_cons.1 hs with rfl | hs
    · obtain ⟨r₁, h₁, hlt⟩ := h.sound.stamp_lt hclean hcall
      exact hlt.trans_le (hnext.next_le_after hn h₁.resident hr)
    · exact ih hnext hr hs

end Ready

/-- Under a policy that names no tracked key twice, a put of bytes that would fit into the empty
cache finds too little room and is only counted, or lets as few of the nominees go as it needs. -/
theorem run_put_outcome (nominate : Nomination) (capacity : UInt64) (order : AdmissionOrder)
    (ops : List Operation) (key : Key) (payload : Payload) (hc : 0 < capacity)
    (hn : nominate.NamesOnce) (howner : 0 ≤ key.owner) (hsize : 0 < payload.size)
    (hle : payload.size ≤ capacity.toNat) :
    ∃ start, create nominate capacity order = .ok start ∧
      (order.next + start.cache.admissions (ops ++ [.put key payload]) < wordLimit →
        ∀ r, (start.cache.after ops).resident = some r →
          (r.room key (r.candidates nominate key) < payload.size →
            ((start.cache.after ops).put key payload).result =
                .error (.refused (.noRoom payload.size (capacity.toNat - r.budget.used))) ∧
              ((start.cache.after ops).put key payload).cache.resident = some r ∧
              ((start.cache.after ops).put key payload).cache.counters =
                { (start.cache.after ops).counters with
                  rejections := (start.cache.after ops).counters.rejections + 1 }) ∧
          (payload.size ≤ r.room key (r.candidates nominate key) →
            ((start.cache.after ops).put key payload).result = .ok () ∧
              ∃ victims r', r.Fewest nominate key payload.size victims ∧
                (payload.size ≤ capacity.toNat - r.budget.used + r.sizeAt key → victims = []) ∧
                ((start.cache.after ops).put key payload).cache.resident = some r' ∧
                r.Admitted r' key payload victims ∧
                ((start.cache.after ops).put key payload).cache.counters =
                  { (start.cache.after ops).counters with
                    evictions := (start.cache.after ops).counters.evictions +
                      UInt64.ofNat victims.length }) ∧
          ((start.cache.after ops).put key payload).cache.Sound ∧
          ∀ s ∈ start.cache.run ops, ∀ k stamp,
            PolicyCall.admitted k stamp ∈ s.calls → stamp < r.order.next) := by
  refine ⟨_, create_eq hc order, fun hbound r hr => ?_⟩
  have hready := ready_opened_over nominate capacity order (ops ++ [.put key payload]) hbound
  have hlast := hready.after hn
  have h := hlast.sound.holds hr
  have hcapacity : r.budget.capacity = capacity.toNat := by rw [h.capacity, hlast.capacity]
  have hv := (h.objection_eq_none_iff key payload.size).2 ⟨howner, hsize, by rwa [hcapacity]⟩
  have hclean := hlast.sound.clean_perform hn hlast.bounded
  refine ⟨fun hshort => ?_, fun hroom => ?_, (hlast.sound.perform hclean).1,
    fun s hs k stamp hcall => hready.of_append.stamps_lt hn hr hs hcall⟩
  · have hput := h.put_of_chosen_none hv (Resident.chosen_eq_none_iff.2 hshort)
    rw [hput, Budget.available, hcapacity]
    exact ⟨rfl, h.resident, rfl⟩
  · rcases h.put_cases_of_namesOnce hn hv (hlast.bounded.admits hr) with
      ⟨hnone, -⟩ | ⟨victims, hchosen, hnodup, hfits, -, hput⟩
    · have hshort := Resident.chosen_eq_none_iff.1 hnone
      omega
    · have hfewest := Resident.fewest_of_chosen hchosen
      rw [hput]
      refine ⟨rfl, victims, _, hfewest, fun hfree => hfewest.eq_nil ?_, rfl,
        h.admitted hv hchosen hnodup hfits, rfl⟩
      rwa [Budget.available, hcapacity]

/-- A stranger is named twice; the oldest entry leaves, since the replaced bytes are not enough. -/
theorem run_put_outcome_of_strangers :
    let ops : List Operation := [.put ⟨1, 0⟩ #[7], .put ⟨2, 0⟩ #[8, 8], .put ⟨3, 0⟩ #[9, 9, 9]]
    let c := (opened .amongStrangers 6).after ops
    (0 : UInt64) < 6 ∧ Nomination.amongStrangers.NamesOnce ∧
      (opened .amongStrangers 6).admissions (ops ++ [.put ⟨2, 0⟩ #[5, 5, 5]]) = 4 ∧
      (c.put ⟨2, 0⟩ #[5, 5, 5]).events = [.evicted ⟨1, 0⟩ 1] ∧
      ∃ r ∈ c.resident, 3 ≤ r.room ⟨2, 0⟩ (r.candidates .amongStrangers ⟨2, 0⟩) ∧
        ∃ victims r', r.Fewest .amongStrangers ⟨2, 0⟩ 3 victims ∧
          (c.put ⟨2, 0⟩ #[5, 5, 5]).cache.resident = some r' ∧
          r.Admitted r' ⟨2, 0⟩ #[5, 5, 5] victims ∧
          c.counters.evictions = 0 ∧ (c.put ⟨2, 0⟩ #[5, 5, 5]).cache.counters = { evictions := 1 } ∧
          UInt64.ofNat victims.length = 1 := by
  intro ops c
  have hn : (opened .amongStrangers 6).admissions (ops ++ [.put ⟨2, 0⟩ #[5, 5, 5]]) = 4 := by
    decide +kernel
  have hroom : ∃ r ∈ c.resident, 3 ≤ r.room ⟨2, 0⟩ (r.candidates .amongStrangers ⟨2, 0⟩) := by
    decide +kernel
  have hbefore : c.counters.evictions = 0 := by decide +kernel
  have hafter : (c.put ⟨2, 0⟩ #[5, 5, 5]).cache.counters = { evictions := 1 } := by decide +kernel
  obtain ⟨r, hr, hroom⟩ := hroom
  obtain ⟨start, hstart, hrun⟩ := run_put_outcome .amongStrangers 6 {} ops ⟨2, 0⟩ #[5, 5, 5]
    (by decide) Nomination.namesOnce_amongStrangers (by decide) (by decide) (by decide)
  rw [create_eq (by decide)] at hstart
  cases hstart
  obtain ⟨-, hstored, -⟩ := hrun (hn ▸ by decide) r hr
  obtain ⟨-, victims, r', hfewest, -, hr', hadmitted, hcounters⟩ := hstored hroom
  have hcount := congrArg Counters.evictions (hcounters.symm.trans hafter)
  rw [hbefore, UInt64.zero_add] at hcount
  exact ⟨by decide, Nomination.namesOnce_amongStrangers, hn, by decide +kernel, r, hr, hroom,
    victims, r', hfewest, hr', hadmitted, hbefore, hafter, hcount⟩

end Cache

end LedgerCache
