import LedgerCache.Proofs.Steps

namespace LedgerCache

open Std

/-- The operations that may change what is resident. -/
def Operation.changes : Operation → Bool
  | .put .. => true
  | .close => true
  | _ => false

namespace Step

variable {nominate : Nomination} {α β : Type}

/-- No internal check fails and no sum overflows. -/
def Clean (s : Step nominate α) : Prop := ∀ f, s.result ≠ .error (.fault f)

instance (s : Step nominate α) : Decidable s.Clean :=
  match h : s.result with
  | .error (.fault f) => .isFalse fun hs => hs f h
  | .error (.refused e) => .isTrue fun f => by simp [h]
  | .ok a => .isTrue fun f => by simp [h]

/-- All but the counters of the cache stays. -/
def Keeps (c : Cache nominate) (s : Step nominate α) : Prop :=
  s.cache = { c with counters := s.cache.counters }

/-- The cache is kept, and nothing is emitted. -/
structure Silent (c : Cache nominate) (s : Step nominate α) : Prop where
  keeps : s.Keeps c
  events : s.events = []
  calls : s.calls = []
  clean : s.Clean

theorem Clean.map {s : Step nominate α} (h : s.Clean) (f : α → β) : (s.map f).Clean := by
  intro fault
  cases hs : s.result with
  | ok a => simp [Step.map, hs, Except.map]
  | error e =>
    have he := h fault
    rw [hs] at he
    simpa [Step.map, hs, Except.map] using he

theorem clean_of_map {s : Step nominate α} {f : α → β} (h : (s.map f).Clean) : s.Clean := by
  intro fault hs
  exact h fault (by simp [Step.map, hs, Except.map])

theorem Silent.map {c : Cache nominate} {s : Step nominate α} (h : s.Silent c) (f : α → β) :
    (s.map f).Silent c :=
  ⟨h.keeps, h.events, h.calls, h.clean.map f⟩

end Step

namespace Cache

variable {nominate : Nomination} {α : Type}

/-- How many puts of the run get as far as an admission. -/
def admissions (c : Cache nominate) : List Operation → Nat
  | [] => 0
  | op :: ops => (c.admits op).toNat + (c.perform op).cache.admissions ops

theorem admissions_append (c : Cache nominate) (ops more : List Operation) :
    c.admissions (ops ++ more) = c.admissions ops + (c.after ops).admissions more := by
  induction ops generalizing c with
  | nil => exact (Nat.zero_add _).symm
  | cons op ops ih =>
    rw [List.cons_append, admissions, admissions, ih, Nat.add_assoc]
    rfl

/-- There are stamps for all admissions of the run. -/
def Bounded (c : Cache nominate) (ops : List Operation) : Prop :=
  ∀ r, c.resident = some r → r.order.next + c.admissions ops < wordLimit

theorem silent_refuseClosed (c : Cache nominate) :
    (c.refuseClosed : Step nominate α).Silent c :=
  ⟨rfl, rfl, rfl, fun _ => by simp [refuseClosed]⟩

theorem silent_query (c : Cache nominate) (f : Resident → α) : (c.query f).Silent c := by
  unfold query
  split
  · exact c.silent_refuseClosed
  · exact ⟨rfl, rfl, rfl, fun _ => by simp⟩

theorem silent_get (c : Cache nominate) (key : Key) : (c.get key).Silent c := by
  unfold get
  split
  · exact c.silent_refuseClosed
  · split <;> exact ⟨rfl, rfl, rfl, fun _ => by simp⟩

theorem silent_perform (c : Cache nominate) {op : Operation} (hop : op.changes = false) :
    (c.perform op).Silent c := by
  cases op with
  | put => cases hop
  | close => cases hop
  | get k => exact (c.silent_get k).map _
  | has k => exact (c.silent_query _).map _
  | count => exact (c.silent_query _).map _
  | size => exact (c.silent_query _).map _
  | stats => exact (c.silent_query _).map _
  | capacity => exact ⟨rfl, rfl, rfl, fun _ => by simp [perform]⟩
  | isClosed => exact ⟨rfl, rfl, rfl, fun _ => by simp [perform]⟩

theorem perform_of_closed {c : Cache nominate} (hr : c.resident = none) (hc : c.closed = true)
    {op : Operation} (hop : op.changes = true) :
    c.perform op = ⟨.error (.refused .closed), c, [], []⟩ := by
  cases op with
  | put key payload =>
    rw [perform, put_of_closed hc]
    rfl
  | close =>
    rw [perform, close, hr]
    rfl
  | _ => cases hop

/-- A closed cache stays as it is. -/
theorem silent_of_closed {c : Cache nominate} (hr : c.resident = none) (hc : c.closed = true)
    (op : Operation) : (c.perform op).Silent c := by
  cases hop : op.changes with
  | false => exact c.silent_perform hop
  | true =>
    rw [perform_of_closed hr hc hop]
    exact ⟨rfl, rfl, rfl, fun _ => by simp⟩

end Cache

namespace Step.Keeps

variable {nominate : Nomination} {α : Type} {c : Cache nominate} {s : Step nominate α}

theorem holds (h : s.Keeps c) {r : Resident} (hr : c.Holds r) : s.cache.Holds r := by
  rw [Step.Keeps] at h
  rw [h]
  exact ⟨hr.resident, hr.not_closed, hr.sound, hr.capacity⟩

theorem sound (h : s.Keeps c) (hs : c.Sound) : s.cache.Sound := by
  rcases hs with hs | ⟨r, hr⟩
  · rw [Step.Keeps] at h
    rw [h]
    exact .inl hs
  · exact .inr ⟨r, h.holds hr⟩

theorem resident (h : s.Keeps c) : s.cache.resident = c.resident := by
  rw [Step.Keeps] at h
  rw [h]

theorem capacity (h : s.Keeps c) : s.cache.capacity = c.capacity := by
  rw [Step.Keeps] at h
  rw [h]

theorem closed (h : s.Keeps c) : s.cache.closed = c.closed := by
  rw [Step.Keeps] at h
  rw [h]

end Step.Keeps

namespace Cache

variable {nominate : Nomination}

/-- What the steps of a run have in common, if each step leaves what the rest of the run needs. -/
theorem forall_run {P : Cache nominate → List Operation → Prop} {Q : Step nominate Reply → Prop}
    (hstep : ∀ c op ops, P c (op :: ops) → Q (c.perform op) ∧ P (c.perform op).cache ops)
    {c : Cache nominate} {ops : List Operation} (h : P c ops) :
    (∀ s ∈ c.run ops, Q s) ∧ P (c.after ops) [] := by
  induction ops generalizing c with
  | nil => exact ⟨by simp [run], h⟩
  | cons op ops ih =>
    obtain ⟨hq, hp⟩ := hstep c op ops h
    obtain ⟨hrest, hafter⟩ := ih hp
    refine ⟨fun s hs => ?_, hafter⟩
    rcases List.mem_cons.1 hs with rfl | hs
    · exact hq
    · exact hrest s hs

theorem Bounded.admits {c : Cache nominate} {r : Resident} {op : Operation} {ops : List Operation}
    (hb : c.Bounded (op :: ops)) (hr : c.resident = some r) (ha : c.admits op = true) :
    r.order.next + 1 < wordLimit := by
  have hlt := hb r hr
  rw [admissions, ha] at hlt
  simp at hlt
  omega

/-- What an operation that does not fail does to a sound cache: it reads, or it is refused since the
cache is closed, or it is rejected, which is counted and reported, or it stores a payload, or it
closes the cache. -/
inductive Performed (c : Cache nominate) : Operation → Prop where
  | read {op : Operation} (hop : op.changes = false) : c.Performed op
  | barred {op : Operation} (hop : op.changes = true) (hr : c.resident = none)
      (hc : c.closed = true)
      (hstep : c.perform op = ⟨.error (.refused .closed), c, [], []⟩) : c.Performed op
  | rejected {r : Resident} {key : Key} {payload : Payload} {e : Error} (h : c.Holds r)
      (he : e ≠ .closed) (hstep : c.perform (.put key payload) = c.reject key e) :
      c.Performed (.put key payload)
  | stored {r : Resident} {key : Key} {payload : Payload} {victims : List Key} (h : c.Holds r)
      (hv : c.objection key payload.size = none)
      (hc : r.chosen nominate key payload.size = some victims)
      (hfits : payload.size ≤ (r.cleared key victims).budget.available)
      (hadmits : c.admits (.put key payload)) (hnext : r.order.next + 1 < wordLimit)
      (hstep : c.perform (.put key payload) =
        (c.admission r key payload victims).map fun _ => .done) : c.Performed (.put key payload)
  | closed {r : Resident} (h : c.Holds r)
      (hstep : c.perform .close =
        { result := .ok .done, cache := { c with closed := true, resident := none }
          events := [.cacheClosed r.index.size r.budget.used], calls := [.cleared] }) :
      c.Performed .close

theorem Sound.performed {c : Cache nominate} (hs : c.Sound) {op : Operation}
    (hclean : (c.perform op).Clean) : c.Performed op := by
  by_cases hop : op.changes = false
  · exact .read hop
  rcases hs with ⟨hr, hc⟩ | ⟨r, h⟩
  · have hchanges := Bool.eq_true_of_not_eq_false hop
    exact .barred hchanges hr hc (perform_of_closed hr hc hchanges)
  cases op with
  | put key payload =>
    cases hv : c.objection key payload.size with
    | some e =>
      refine .rejected h (objection_ne_closed h.not_closed hv) ?_
      rw [Cache.perform, put_of_objection h.not_closed hv]
      rfl
    | none =>
      rcases h.put_cases hv with
        ⟨-, hput⟩ | ⟨victims, hc, ⟨hfits, hadmits, hnext, hput⟩ | ⟨-, f, hput⟩⟩
      · refine .rejected (e := .noRoom payload.size r.budget.available) h (by simp) ?_
        rw [Cache.perform, hput]
        rfl
      · exact .stored h hv hc hfits hadmits hnext (by rw [Cache.perform, hput])
      · exact absurd hput (Step.clean_of_map hclean f)
  | close =>
    refine .closed h ?_
    rw [Cache.perform, h.close_eq]
    rfl
  | _ => exact absurd rfl hop

/-- An operation that does not fail keeps what is resident, admits one entry or closes the cache. -/
theorem Sound.perform_cases {c : Cache nominate} (hs : c.Sound) {op : Operation}
    (hclean : (c.perform op).Clean) :
    (c.perform op).Keeps c ∨
    (∃ r r', c.Holds r ∧ c.admits op = true ∧ (c.perform op).cache.Holds r' ∧
      r'.order.next = r.order.next + 1 ∧ (c.perform op).cache.capacity = c.capacity) ∨
    (c.perform op).cache = { c with closed := true, resident := none } := by
  cases hs.performed hclean with
  | read hop => exact .inl (c.silent_perform hop).keeps
  | barred _ hr hc _ => exact .inl (silent_of_closed hr hc op).keeps
  | rejected _ _ hstep =>
    rw [hstep]
    exact .inl rfl
  | @stored r key payload victims h hv _ hfits hadmits _ hstep =>
    refine .inr (.inl ⟨r, (r.cleared key victims).stored key payload, h, hadmits, ?_, ?_, ?_⟩)
    · rw [hstep]
      exact h.admission_holds hv hfits
    · simp [Resident.stored, r.next_cleared]
    · rw [hstep]
      rfl
  | closed _ hstep =>
    rw [hstep]
    exact .inr (.inr rfl)

/-- An operation that does not fail keeps the cache sound, whatever its policy nominates. -/
theorem Sound.perform {c : Cache nominate} (hs : c.Sound) {op : Operation}
    (hclean : (c.perform op).Clean) :
    (c.perform op).cache.Sound ∧ (c.perform op).cache.capacity = c.capacity := by
  rcases hs.perform_cases hclean with hkeeps | ⟨-, r', -, -, hholds, -, hcapacity⟩ | hclosed
  · exact ⟨hkeeps.sound hs, hkeeps.capacity⟩
  · exact ⟨.inr ⟨r', hholds⟩, hcapacity⟩
  · rw [hclosed]
    exact ⟨.inl ⟨rfl, rfl⟩, rfl⟩

/-- First in, first out, a cache stays sound even if a put finds no stamp left. -/
theorem Sound.perform_oldestFirst {c : Cache .oldestFirst} (hs : c.Sound) (op : Operation) :
    (c.perform op).cache.Sound := by
  rcases hs with ⟨hr, hc⟩ | ⟨r, h⟩
  · exact (silent_of_closed hr hc op).keeps.sound (.inl ⟨hr, hc⟩)
  by_cases hop : op.changes = false
  · exact (c.silent_perform hop).keeps.sound (.inr ⟨r, h⟩)
  cases op with
  | put key payload =>
    rw [Cache.perform, Step.cache_map]
    cases hv : c.objection key payload.size with
    | some e =>
      rw [put_of_objection h.not_closed hv]
      exact .inr ⟨r, h.resident, h.not_closed, h.sound, h.capacity⟩
    | none =>
      by_cases hnext : r.order.next + 1 < wordLimit
      · obtain ⟨hfits, -, hput⟩ := h.put_oldestFirst hv hnext
        rw [hput]
        exact .inr ⟨_, h.admission_holds hv hfits⟩
      · have hchosen := h.sound.chosen_oldestFirst key payload.size
          ((h.objection_eq_none_iff _ _).1 hv).2.2
        rw [h.put_of_last hv hchosen (h.admits_oldestFirst hv) hnext]
        exact .inr ⟨_, rfl, h.not_closed, h.sound.cleared _ _,
          (r.capacity_cleared _ _).trans h.capacity⟩
  | close =>
    rw [Cache.perform, Step.cache_map, h.close_eq]
    exact .inl ⟨rfl, rfl⟩
  | _ => exact absurd rfl hop

theorem Sound.after_oldestFirst {c : Cache .oldestFirst} (hs : c.Sound) (ops : List Operation) :
    (c.after ops).Sound := by
  induction ops generalizing c with
  | nil => exact hs
  | cons op ops ih => exact ih (hs.perform_oldestFirst op)

theorem Bounded.perform {c : Cache nominate} {op : Operation} {ops : List Operation}
    (hb : c.Bounded (op :: ops)) (hs : c.Sound) (hclean : (c.perform op).Clean) :
    (c.perform op).cache.Bounded ops := by
  intro r'' hr''
  rcases hs.perform_cases hclean with hkeeps | ⟨r, r', h, hadmits, hholds, hnext, -⟩ | hclosed
  · have hlt := hb r'' (hkeeps.resident ▸ hr'')
    rw [admissions] at hlt
    omega
  · have hlt := hb r h.resident
    rw [admissions, hadmits, Bool.toNat_true] at hlt
    rw [hholds.eq_of_resident hr'', hnext]
    omega
  · rw [hclosed] at hr''
    cases hr''

/-- A run in which nothing fails leaves a sound cache. -/
theorem Sound.after {c : Cache nominate} (hs : c.Sound) {ops : List Operation}
    (hclean : ∀ s ∈ c.run ops, s.Clean) : (c.after ops).Sound := by
  induction ops generalizing c with
  | nil => exact hs
  | cons op ops ih =>
    rw [run, List.forall_mem_cons] at hclean
    exact ih (hs.perform hclean.1).1 hclean.2

theorem resident_after_of_closed {c : Cache nominate} (hr : c.resident = none)
    (hc : c.closed = true) (ops : List Operation) : (c.after ops).resident = none := by
  induction ops generalizing c with
  | nil => exact hr
  | cons op ops ih =>
    have hkeeps := (silent_of_closed hr hc op).keeps
    exact ih (hkeeps.resident.trans hr) (hkeeps.closed.trans hc)

/-- A cache that is open in the end was open before. -/
theorem Sound.open_of_after {c : Cache nominate} (hs : c.Sound) {ops : List Operation} {r : Resident}
    (hr : (c.after ops).resident = some r) : ∃ r', c.Holds r' := by
  rcases hs with ⟨hnone, hclosed⟩ | hopen
  · rw [resident_after_of_closed hnone hclosed] at hr
    cases hr
  · exact hopen

/-- Under a policy that names no tracked key twice, nothing fails. -/
theorem Sound.clean_perform {c : Cache nominate} (hs : c.Sound) (hn : nominate.NamesOnce)
    {op : Operation} {ops : List Operation} (hb : c.Bounded (op :: ops)) :
    (c.perform op).Clean := by
  rcases hs with ⟨hr, hc⟩ | ⟨r, h⟩
  · exact (silent_of_closed hr hc op).clean
  by_cases hop : op.changes = false
  · exact (c.silent_perform hop).clean
  cases op with
  | put key payload =>
    apply Step.Clean.map
    intro f
    cases hv : c.objection key payload.size with
    | some e => simp [put_of_objection h.not_closed hv, reject]
    | none =>
      rcases h.put_cases_of_namesOnce hn hv (hb.admits h.resident) with
        ⟨-, hput⟩ | ⟨victims, -, -, -, -, hput⟩
      · simp [hput, reject]
      · simp [hput, admission]
  | close =>
    apply Step.Clean.map
    intro f
    simp [h.close_eq]
  | _ => exact absurd rfl hop

/-- What a run needs to stay sound: its start is sound and there are stamps for its admissions. -/
structure Ready (capacity : UInt64) (c : Cache nominate) (ops : List Operation) : Prop where
  sound : c.Sound
  bounded : c.Bounded ops
  capacity : c.capacity = capacity

theorem Ready.perform {capacity : UInt64} {c : Cache nominate} {op : Operation}
    {ops : List Operation} (h : Ready capacity c (op :: ops)) (hclean : (c.perform op).Clean) :
    Ready capacity (c.perform op).cache ops := by
  obtain ⟨hsound, hcapacity⟩ := h.sound.perform hclean
  exact ⟨hsound, h.bounded.perform h.sound hclean, hcapacity.trans h.capacity⟩

theorem Ready.run {capacity : UInt64} {c : Cache nominate} {ops : List Operation}
    (h : Ready capacity c ops) (hn : nominate.NamesOnce) :
    (∀ s ∈ c.run ops, (s.Clean ∧ s.cache.Sound ∧ s.cache.capacity = capacity)) ∧
      Ready capacity (c.after ops) [] := by
  refine forall_run (fun c op ops h => ?_) h
  have hclean := h.sound.clean_perform hn h.bounded
  have hnext := h.perform hclean
  exact ⟨⟨hclean, hnext.sound, hnext.capacity⟩, hnext⟩

theorem Ready.run_oldestFirst {capacity : UInt64} {c : Cache .oldestFirst} {ops : List Operation}
    (h : Ready capacity c ops) :
    (∀ s ∈ c.run ops, (s.Clean ∧ s.cache.Sound ∧ s.cache.capacity = capacity)) ∧
      Ready capacity (c.after ops) [] :=
  h.run Nomination.namesOnce_oldestFirst

theorem Ready.of_append {capacity : UInt64} {c : Cache nominate} {ops more : List Operation}
    (h : Ready capacity c (ops ++ more)) : Ready capacity c ops where
  sound := h.sound
  bounded := by
    intro r hr
    have hlt := h.bounded r hr
    rw [admissions_append] at hlt
    omega
  capacity := h.capacity

/-- What a longer run needs, the rest of it still has after the first part. -/
theorem Ready.after {capacity : UInt64} {c : Cache nominate} {ops more : List Operation}
    (h : Ready capacity c (ops ++ more)) (hn : nominate.NamesOnce) :
    Ready capacity (c.after ops) more := by
  induction ops generalizing c with
  | nil => exact h
  | cons op ops ih => exact ih (h.perform (h.sound.clean_perform hn h.bounded))

/-- A new cache over a policy whose stamps go on from those of `order`. -/
def opened (nominate : Nomination) (capacity : UInt64) (order : AdmissionOrder := {}) :
    Cache nominate :=
  { capacity, resident := some (.empty capacity.toNat order) }

theorem create_eq {capacity : UInt64} (hc : 0 < capacity) (order : AdmissionOrder) :
    create nominate capacity order =
      .ok { result := .ok (), cache := opened nominate capacity order
            events := [.cacheCreated capacity], calls := [.cleared] } := by
  have hne : capacity ≠ 0 := by
    rintro rfl
    exact absurd hc (by decide)
  rw [create, if_neg hne]
  rfl

theorem cache_of_create {capacity : UInt64} {order : AdmissionOrder} {start : Step nominate Unit}
    (h : create nominate capacity order = .ok start) :
    start.cache = opened nominate capacity order := by
  rw [create] at h
  split at h
  · cases h
  · cases h
    rfl

theorem sound_opened (capacity : UInt64) (order : AdmissionOrder) :
    (opened nominate capacity order).Sound :=
  .inr ⟨_, rfl, rfl, Resident.sound_empty _ _, rfl⟩

theorem ready_opened_over (nominate : Nomination) (capacity : UInt64) (order : AdmissionOrder)
    (ops : List Operation)
    (hn : order.next + (opened nominate capacity order).admissions ops < wordLimit) :
    Ready capacity (opened nominate capacity order) ops where
  sound := sound_opened capacity order
  bounded := by
    intro r hr
    cases hr
    exact hn
  capacity := rfl

theorem ready_opened (capacity : UInt64) (ops : List Operation)
    (hn : (opened nominate capacity).admissions ops < wordLimit) :
    Ready capacity (opened nominate capacity) ops :=
  ready_opened_over nominate capacity {} ops (by rwa [Nat.zero_add])

/-- Whatever is called in whatever order on a new cache, it is always open and sound or closed in
both ways, and no check of its own ever fails. -/
theorem run_sound (capacity : UInt64) (ops : List Operation) (hc : 0 < capacity) :
    ∃ start, create .oldestFirst capacity = .ok start ∧ start.cache.Sound ∧
      (start.cache.admissions ops < wordLimit →
        ∀ s ∈ start.cache.run ops, s.Clean ∧ s.cache.Sound ∧ s.cache.capacity = capacity ∧
          ∀ r, s.cache.resident = some r →
            r.order.size = r.index.size ∧ (r.index.size = 0 ↔ r.budget.used = 0)) := by
  refine ⟨_, create_eq hc {}, sound_opened capacity {}, fun hn s hs => ?_⟩
  have hready := ready_opened capacity ops hn
  obtain ⟨hclean, hsound, hcapacity⟩ := hready.run_oldestFirst.1 s hs
  refine ⟨hclean, hsound, hcapacity, fun r hr => ?_⟩
  rcases hsound with ⟨hnone, -⟩ | ⟨r', h⟩
  · rw [hnone] at hr
    cases hr
  · rw [h.eq_of_resident hr]
    exact ⟨h.sound.size_order, h.sound.size_index_eq_zero_iff⟩

/-- With replacement, eviction, a read and a put behind the close. -/
theorem run_sound_of_eight :
    let ops : List Operation := [.put ⟨1, 0⟩ #[7], .put ⟨1, 1⟩ #[8, 8], .put ⟨1, 0⟩ #[9, 9],
      .put ⟨2, -5⟩ #[1, 2, 3], .get ⟨1, 0⟩, .put ⟨-1, 0⟩ #[4], .close, .put ⟨1, 0⟩ #[7]]
    (0 : UInt64) < 4 ∧ (opened .oldestFirst 4).admissions ops = 4 ∧
      ∀ s ∈ (opened .oldestFirst 4).run ops, s.Clean ∧ s.cache.Sound := by
  intro ops
  have hn : (opened .oldestFirst 4).admissions ops = 4 := by decide +kernel
  obtain ⟨start, hstart, -, hrun⟩ := run_sound 4 ops (by decide)
  rw [create_eq (by decide)] at hstart
  cases hstart
  exact ⟨by decide, hn, fun s hs => ⟨(hrun (hn ▸ by decide) s hs).1, (hrun (hn ▸ by decide) s hs).2.1⟩⟩

end Cache

end LedgerCache
