import LedgerCache.Proofs.EqualSizes

namespace LedgerCache

/-- The lists are worked off from their fronts, in any order, one element at a time. -/
inductive Interleaving {α : Type} : List (List α) → List α → Prop
  | done {threads : List (List α)} (h : ∀ thread ∈ threads, thread = []) : Interleaving threads []
  | next {before behind : List (List α)} {thread : List α} {a : α} {l : List α}
      (h : Interleaving (before ++ thread :: behind) l) :
      Interleaving (before ++ (a :: thread) :: behind) (a :: l)

namespace Interleaving

variable {α : Type} {threads : List (List α)} {l : List α}

theorem perm (h : Interleaving threads l) : l.Perm threads.flatten := by
  induction h with
  | done hempty => rw [List.flatten_eq_nil_iff.2 hempty]
  | @next before behind thread a l _ ih =>
    have hmiddle : (before.flatten ++ a :: (thread ++ behind.flatten)).Perm
        (a :: (before.flatten ++ (thread ++ behind.flatten))) := List.perm_middle
    have hfront := ih.cons a
    simp only [List.flatten_append, List.flatten_cons, List.cons_append] at hfront ⊢
    exact hfront.trans hmiddle.symm

/-- Working off one list after another is one way to do it. -/
theorem flatten (threads : List (List α)) : Interleaving threads threads.flatten := by
  have hbehind (finished rest : List (List α)) (hfinished : ∀ thread ∈ finished, thread = []) :
      Interleaving (finished ++ rest) rest.flatten := by
    induction rest generalizing finished with
    | nil => exact .done (by simpa using hfinished)
    | cons thread rest ih =>
      induction thread with
      | nil =>
        have hnext := ih (finished ++ [[]]) (by simpa [or_imp, forall_and] using hfinished)
        simpa using hnext
      | cons a thread ihthread => exact .next ihthread
  simpa using hbehind [] threads (by simp)

end Interleaving

namespace History

/-- The operations that make the puts. -/
def writes (puts : History) : List Operation := puts.map fun x => .put x.1 x.2

end History

/-- Whether a put of this payload under this key is one that an open cache accepts. -/
def storable (capacity : UInt64) (x : Key × Payload) : Bool :=
  0 ≤ x.1.owner ∧ 0 < x.2.size ∧ x.2.size ≤ capacity.toNat

namespace Cache

/-- The cache `c`, which had taken the puts in `h`, becomes `c'` by the steps that try the `puts`. -/
structure Takes (size : Nat) (c c' : Cache .oldestFirst) (h puts : History)
    (steps : List (Step .oldestFirst Reply)) : Prop where
  clean : ∀ s ∈ steps, s.Clean
  answers : steps.map (·.result.isOk) = puts.map (storable c.capacity)
  capacity : c'.capacity = c.capacity
  counters : c'.counters =
    { c.counters with
      evictions := c'.counters.evictions
      rejections :=
        c.counters.rejections + UInt64.ofNat (puts.countP fun x => !storable c.capacity x) }
  uniform : ∃ r, c'.Uniform size r (h ++ puts.filter (storable c.capacity))

namespace Takes

variable {size : Nat} {c c' c'' : Cache .oldestFirst} {h puts more : History}
  {steps steps' : List (Step .oldestFirst Reply)}

theorem refl {r : Resident} (hu : c.Uniform size r h) : c.Takes size c h [] [] where
  clean := by simp
  answers := rfl
  capacity := rfl
  counters := by simp
  uniform := ⟨r, by simpa using hu⟩

theorem trans (ht : c.Takes size c' h puts steps)
    (ht' : c'.Takes size c'' (h ++ puts.filter (storable c.capacity)) more steps') :
    c.Takes size c'' h (puts ++ more) (steps ++ steps') := by
  have hcapacity := ht.capacity
  have hanswers := ht'.answers
  have hcounters := ht'.counters
  have huniform := ht'.uniform
  rw [hcapacity] at hanswers hcounters huniform
  constructor
  case clean =>
    intro s hs
    rcases List.mem_append.1 hs with hs | hs
    · exact ht.clean s hs
    · exact ht'.clean s hs
  case answers => rw [List.map_append, List.map_append, ht.answers, hanswers]
  case capacity => exact ht'.capacity.trans hcapacity
  case counters =>
    rw [hcounters, ht.counters, List.countP_append, UInt64.ofNat_add, UInt64.add_assoc]
  case uniform => simpa [List.filter_append, List.append_assoc] using huniform

end Takes

namespace Uniform

variable {size : Nat} {c : Cache .oldestFirst} {r : Resident} {h : History} {key : Key}
  {payload : Payload}

theorem takes_refused (hu : c.Uniform size r h) {e : Error}
    (hv : c.objection key payload.size = some e) :
    c.Takes size (c.perform (.put key payload)).cache h [(key, payload)]
      [c.perform (.put key payload)] := by
  have hiff := hu.records.holds.objection_eq_none_iff key payload.size
  rw [hu.records.holds.capacity, hv] at hiff
  have hrefused : storable c.capacity (key, payload) = false :=
    decide_eq_false (hiff.not.1 (by simp))
  rw [perform, put_of_objection hu.records.holds.not_closed hv]
  constructor
  case clean => simp [Step.Clean, reject, Step.map, Except.map]
  case answers => simp [hrefused, reject, Step.map, Except.map, Except.isOk, Except.toBool]
  case capacity => rfl
  case counters => simp [hrefused, reject, Counters.reject]
  case uniform =>
    refine ⟨r, ?_⟩
    rw [List.filter_cons_of_neg (by simp [hrefused]), List.filter_nil, List.append_nil]
    exact hu.of_keeps rfl rfl

theorem takes_stored (hu : c.Uniform size r h) (hv : c.objection key payload.size = none)
    (hpayload : payload.size = size) (hlt : h.length + 1 < wordLimit) :
    c.Takes size (c.perform (.put key payload)).cache h [(key, payload)]
      [c.perform (.put key payload)] := by
  have hiff := hu.records.holds.objection_eq_none_iff key payload.size
  rw [hu.records.holds.capacity] at hiff
  have haccepted : storable c.capacity (key, payload) = true := decide_eq_true (hiff.1 hv)
  obtain ⟨r', hput, hnext⟩ := hu.store hv hpayload hlt
  rw [perform, hput]
  constructor
  case clean => simp [Step.Clean, Cache.admission, Step.map, Except.map]
  case answers =>
    simp [haccepted, Cache.admission, Step.map, Except.map, Except.isOk, Except.toBool]
  case capacity => rfl
  case counters => simp [haccepted, Cache.admission, Counters.evict]
  case uniform =>
    refine ⟨r', ?_⟩
    rw [List.filter_cons_of_pos haccepted, List.filter_nil]
    exact hnext

theorem takes (hu : c.Uniform size r h) {puts : History} (hsizes : ∀ x ∈ puts, x.2.size = size)
    (hlt : h.length + puts.length < wordLimit) :
    c.Takes size (c.after puts.writes) h puts (c.run puts.writes) := by
  induction puts generalizing c r h with
  | nil => exact .refl hu
  | cons x puts ih =>
    obtain ⟨hx, hrest⟩ := List.forall_mem_cons.1 hsizes
    rw [List.length_cons] at hlt
    have hfirst : c.Takes size (c.perform (.put x.1 x.2)).cache h [x]
        [c.perform (.put x.1 x.2)] := by
      cases hv : c.objection x.1 x.2.size with
      | some e => exact hu.takes_refused hv
      | none => exact hu.takes_stored hv hx (by omega)
    obtain ⟨r', hnext⟩ := hfirst.uniform
    refine hfirst.trans (ih hnext hrest ?_)
    have hle := List.length_filter_le (storable c.capacity) [x]
    rw [List.length_append]
    rw [List.length_singleton] at hle
    omega

end Uniform

/-- A new cache after puts of one size. -/
theorem takes_opened (capacity : UInt64) {size : Nat} {puts : History}
    (hsizes : ∀ x ∈ puts, x.2.size = size) (hn : puts.length < wordLimit) :
    let c := (opened .oldestFirst capacity).after puts.writes
    let steps := (opened .oldestFirst capacity).run puts.writes
    (∀ s ∈ steps, s.Clean) ∧ steps.map (·.result.isOk) = puts.map (storable capacity) ∧
      c.capacity = capacity ∧
      c.counters =
        { evictions := c.counters.evictions
          rejections := UInt64.ofNat (puts.countP fun x => !storable capacity x) } ∧
      ∃ r, c.Uniform size r (puts.filter (storable capacity)) := by
  have ht := (uniform_opened capacity size).takes hsizes (by simpa using hn)
  refine ⟨ht.clean, ht.answers, ht.capacity, ?_, ht.uniform⟩
  rw [ht.counters]
  simp [opened]

/-- As many puts fail as steps do. -/
theorem countP_steps {steps : List (Step .oldestFirst Reply)} {puts : History} {capacity : UInt64}
    (h : steps.map (·.result.isOk) = puts.map (storable capacity)) :
    (puts.countP fun x => !storable capacity x) = steps.countP fun s => !s.result.isOk := by
  have hcount := congrArg (List.countP (!·)) h
  rw [List.countP_map, List.countP_map] at hcount
  exact hcount.symm

/-- However the puts of several writers are interleaved, if their payloads have one size then the
puts with a valid key and a fitting size are accepted, and the cache ends with an entry for each
key or full. It evicts as many entries as came too many, provided that no key was put again, and
none if there is room for all keys; the order of the puts then does not show in the statistics. -/
theorem run_equal_sizes (capacity : UInt64) (size : Nat) (threads : List History) (puts : History)
    (hc : 0 < capacity) (hsizes : ∀ thread ∈ threads, ∀ x ∈ thread, x.2.size = size)
    (hputs : Interleaving threads puts) (hn : puts.length < wordLimit) :
    ∃ start, create .oldestFirst capacity = .ok start ∧
      (∀ s ∈ start.cache.run puts.writes, s.Clean) ∧
      (start.cache.run puts.writes).map (·.result.isOk) =
        (puts.map fun x => decide (0 ≤ x.1.owner ∧ 0 < size ∧ size ≤ capacity.toNat)) ∧
      ∃ s, (start.cache.after puts.writes).stats.result = .ok s ∧
        s.rejections.toNat = (start.cache.run puts.writes).countP (!·.result.isOk) ∧
        let accepted : History := puts.filter (storable capacity)
        s.totalEntries.toNat = min accepted.keys.card (capacity.toNat / size) ∧
        s.usedBytes.toNat = size * s.totalEntries.toNat ∧
        ((accepted.map (·.1)).Nodup →
          s.evictions.toNat = accepted.length - s.totalEntries.toNat) ∧
        (accepted.keys.card * size ≤ capacity.toNat →
          s.evictions = 0 ∧
            ∀ x ∈ accepted, ((start.cache.after puts.writes).has x.1).result = .ok true) ∧
        ((accepted.map (·.1)).Nodup ∨ accepted.keys.card * size ≤ capacity.toNat →
          (start.cache.after (History.writes threads.flatten)).stats.result = .ok s) := by
  have hperm := hputs.perm
  have hsize (l : History) (hl : l.Perm threads.flatten) : ∀ x ∈ l, x.2.size = size := by
    intro x hx
    obtain ⟨thread, hthread, hmem⟩ := List.mem_flatten.1 (hl.mem_iff.1 hx)
    exact hsizes thread hthread x hmem
  obtain ⟨hclean, hanswers, hcapacity, hcounters, r, hu⟩ :=
    takes_opened capacity (hsize puts hperm) hn
  obtain ⟨-, -, hcapacity', hcounters', r', hu'⟩ :=
    takes_opened capacity (hsize _ (.refl _)) (by rwa [← hperm.length_eq])
  have hfits : (History.keys (puts.filter (storable capacity))).card * size ≤ capacity.toNat →
      (History.keys (puts.filter (storable capacity))).card ≤ capacity.toNat / size := by
    intro hle
    rcases Nat.eq_zero_or_pos size with rfl | hpos
    · have hnone : puts.filter (storable capacity) = [] :=
        List.filter_eq_nil_iff.2 fun x hx => by simp [storable, hsize puts hperm x hx]
      simp [hnone, History.keys]
    · exact (Nat.le_div_iff_mul_le hpos).2 hle
  have hword := hu.toNat_size
  have hentries := hu.entries
  rw [hcapacity] at hentries
  refine ⟨_, create_eq hc {}, hclean, ?_, _, hu.stats_eq, ?_, ?_, ?_, ?_, ?_, ?_⟩
  · rw [hanswers]
    exact List.map_congr_left fun x hx => by rw [storable, hsize puts hperm x hx]
  · have hle := List.countP_le_length (p := fun x => !storable capacity x) (l := puts)
    rw [Counters.snapshot, hcounters, ← countP_steps hanswers]
    exact UInt64.toNat_ofNat_of_lt' (hle.trans_lt hn)
  · rw [Counters.snapshot, hword, hentries]
  · rw [Counters.snapshot, hword, hu.toNat_used]
  · intro hnodup
    have hall := hu.evictions_of_nodup hnodup
    rw [Counters.snapshot, hword]
    exact Nat.eq_sub_of_add_eq hall
  · intro hroom
    obtain ⟨hzero, hmem⟩ := hu.kept (by rw [hcapacity]; exact hfits hroom)
    refine ⟨UInt64.toNat_inj.1 hzero, fun x hx => ?_⟩
    have hk := hmem x.1 ((History.mem_keys _ _).2 (List.mem_map_of_mem hx))
    rw [has, query, hu.records.holds.resident]
    simpa using hk
  · intro hfree
    refine (hu.stats_perm hu' (hperm.filter _) (hcapacity'.trans hcapacity.symm) ?_ ?_).trans
      hu.stats_eq
    · rw [hcounters, hcounters', hperm.countP_eq]
    · rw [hcapacity]
      exact hfree.imp_right hfits

/-- Two writers, of which one has a negative owner once; of three keys two fit. -/
theorem run_equal_sizes_of_two_writers :
    let threads : List History := [[(⟨1, 0⟩, #[7, 7]), (⟨1, 1⟩, #[8, 8])],
      [(⟨-1, 0⟩, #[9, 9]), (⟨2, 0⟩, #[1, 2])]]
    let puts : History := [(⟨1, 0⟩, #[7, 7]), (⟨-1, 0⟩, #[9, 9]), (⟨2, 0⟩, #[1, 2]),
      (⟨1, 1⟩, #[8, 8])]
    (0 : UInt64) < 5 ∧ (∀ thread ∈ threads, ∀ x ∈ thread, x.2.size = 2) ∧
      Interleaving threads puts ∧ puts.length < wordLimit ∧
      ∃ s, ((opened .oldestFirst 5).after puts.writes).stats.result = .ok s ∧
        s.totalEntries.toNat = 2 ∧ s.evictions.toNat = 1 ∧ s.rejections.toNat = 1 ∧
        ((opened .oldestFirst 5).after (History.writes threads.flatten)).stats.result = .ok s := by
  intro threads puts
  have hsizes : ∀ thread ∈ threads, ∀ x ∈ thread, x.2.size = 2 := by decide +kernel
  have hputs : Interleaving threads puts :=
    @Interleaving.next _ [] [_] _ _ _ <| @Interleaving.next _ [_] [] _ _ _ <|
      @Interleaving.next _ [_] [] _ _ _ <| @Interleaving.next _ [] [_] _ _ _ <|
        .done (by decide)
  have hkeys : (History.keys (puts.filter (storable 5))).card = 3 := by decide +kernel
  have hnodup : ((puts.filter (storable 5)).map (·.1)).Nodup := by decide +kernel
  have hfailures : ((opened .oldestFirst 5).run puts.writes).countP (!·.result.isOk) = 1 := by
    decide +kernel
  obtain ⟨start, hstart, -, -, s, hs, hrejections, hentries, -, hevictions, -, hsequential⟩ :=
    run_equal_sizes 5 2 threads puts (by decide) hsizes hputs (by decide)
  rw [create_eq (by decide)] at hstart
  cases hstart
  rw [hkeys] at hentries
  have hthree : (puts.filter (storable 5)).length = 3 := by decide +kernel
  have hcount := hevictions hnodup
  rw [hthree, hentries] at hcount
  exact ⟨by decide, hsizes, hputs, by decide, s, hs, hentries, hcount, hrejections.trans hfailures,
    hsequential (.inl hnodup)⟩

end Cache

end LedgerCache
