import LedgerCache.Proofs.Loads

namespace LedgerCache

namespace Config

variable {c : Config} {owner : Nat}

/-- The run of the worker of one owner, behind those of all owners before it. -/
def workerRun (c : Config) (opened : Cache .oldestFirst) (owner : Nat) : Turn .oldestFirst :=
  let entries := signedCount c.entriesPerWorker
  let before := Work.workers entries c.entrySize.toNat owner 0 { cache := opened }
  (Worker.start (Int64.ofNat owner) entries c.entrySize.toNat).run before.cache

/-- A worker with nothing to write reports at once. -/
theorem result_workerRun_of_idle (h : signedCount c.entriesPerWorker = 0)
    (opened : Cache .oldestFirst) (owner : Nat) :
    (c.workerRun opened owner).worker.result = some (.ok {}) := by
  rw [workerRun, h]
  rfl

theorem result_workerRun_of_unmakeable (h : 0 < signedCount c.entriesPerWorker)
    (hsize : Payload.longest < c.entrySize.toNat) (opened : Cache .oldestFirst) (owner : Nat) :
    (c.workerRun opened owner).worker.result = some (.error (.fault .payloadTooLong)) :=
  (Worker.run_unmakeable h hsize).1

theorem result_workerRun_of_oversized (h : 0 < signedCount c.entriesPerWorker)
    (hmade : c.entrySize.toNat ≤ Payload.longest)
    (hsize : c.capacityBytes.toNat < c.entrySize.toNat) :
    (c.workerRun (.opened .oldestFirst c.capacityBytes) 0).worker.result =
      some (.error (.refused (.oversizedPayload c.entrySize.toNat c.capacityBytes.toNat))) :=
  (Worker.run_oversized rfl (by decide) h hmade hsize).1

/-- If an entry can be made and fits, each worker in turn writes all its entries. -/
theorem result_workerRun_of_fitting (hsize : 0 < c.entrySize.toNat)
    (hmade : c.entrySize.toNat ≤ Payload.longest)
    (hfits : c.entrySize.toNat ≤ c.capacityBytes.toNat) (howner : owner < 2 ^ 63)
    (hputs : (owner + 1) * signedCount c.entriesPerWorker < wordLimit) :
    ∃ report,
      (c.workerRun (.opened .oldestFirst c.capacityBytes) owner).worker.result =
        some (.ok report) ∧
      report.puts.toNat = signedCount c.entriesPerWorker := by
  have hentries := signedCount_lt c.entriesPerWorker
  rw [Nat.succ_mul] at hputs
  have hbefore := (Work.Filled.start c.capacityBytes (signedCount c.entriesPerWorker)
    c.entrySize.toNat).workers hsize hfits hmade owner (by omega) hentries
      (by rw [Nat.zero_add]; omega)
  rw [Nat.zero_add] at hbefore
  obtain ⟨r, h, hu, -, -, -, hadmissible⟩ :=
    hbefore.admissible hsize hfits hmade howner hentries hputs
  obtain ⟨-, hresult, hcount, -⟩ := Worker.run_alone hu hadmissible
  exact ⟨_, hresult, hcount⟩

/-- The driver ends without a failure if it has nothing to do or can do it. -/
theorem load_succeeds_iff (hvalid : c.validate = .ok ())
    (hputs : signedCount c.workers * signedCount c.entriesPerWorker < wordLimit) :
    ∃ load, c.load = .ok load ∧
      (load.failure = none ↔
        signedCount c.workers * signedCount c.entriesPerWorker = 0 ∨
          c.entrySize.toNat ≤ Payload.longest ∧
            c.entrySize.toNat ≤ c.capacityBytes.toNat) := by
  obtain ⟨hcapacity, -, -, hsize⟩ := c.validate_eq_ok_iff.1 hvalid
  have hsize : 0 < c.entrySize.toNat := UInt64.lt_iff_toNat_lt.1 (UInt64.pos_iff_ne_zero.2 hsize)
  rcases Nat.eq_zero_or_pos (signedCount c.workers * signedCount c.entriesPerWorker) with
    hzero | hpos
  · obtain ⟨load, hload, -, hfailure, -⟩ := load_of_empty hcapacity (work_idle hzero)
    exact ⟨load, hload, iff_of_true hfailure (.inl hzero)⟩
  rcases Nat.lt_or_ge Payload.longest c.entrySize.toNat with hlong | hmade
  · obtain ⟨load, hload, -, hfailure, -⟩ := load_of_empty hcapacity (work_unmakeable hpos hlong)
    refine ⟨load, hload, iff_of_false (by simp [hfailure]) ?_⟩
    omega
  rcases Nat.lt_or_ge c.capacityBytes.toNat c.entrySize.toNat with hover | hfits
  · obtain ⟨load, hload, -, hfailure, -⟩ :=
      load_of_empty hcapacity (work_oversized hpos hmade hover)
    refine ⟨load, hload, iff_of_false (by simp [hfailure]) ?_⟩
    omega
  · obtain ⟨load, s, hload, -, -, -, hfailure, -⟩ :=
      load_of_filled hcapacity (work_filled hsize hputs hmade hfits)
    exact ⟨load, hload, iff_of_true hfailure (.inr ⟨hmade, hfits⟩)⟩

/-- The settings with which the workers can write all that they are asked for. -/
def Runnable (c : Config) : Prop :=
  c.entriesPerWorker = 0 ∨
    c.entriesPerWorker.toNat < 2 ^ 63 ∧ c.entrySize.toNat ≤ Payload.longest ∧
      c.entrySize.toNat ≤ c.capacityBytes.toNat

instance (c : Config) : Decidable c.Runnable :=
  inferInstanceAs (Decidable (_ ∨ _))

/-- A first worker that has written all that was asked for shows that it can be done. -/
theorem runnable_of_workerRun {report : Report}
    (hresult : (c.workerRun (.opened .oldestFirst c.capacityBytes) 0).worker.result =
      some (.ok report))
    (hall : report.puts = c.entriesPerWorker) : c.Runnable := by
  rcases eq_or_ne c.entriesPerWorker 0 with hzero | hne
  · exact .inl hzero
  rcases Nat.lt_or_ge c.entriesPerWorker.toNat (2 ^ 63) with hlt | hge
  · have hentries : 0 < signedCount c.entriesPerWorker := by
      rw [signedCount_of_lt hlt]
      exact UInt64.lt_iff_toNat_lt.1 (UInt64.pos_iff_ne_zero.2 hne)
    have hmade : c.entrySize.toNat ≤ Payload.longest := by
      rw [← Nat.not_lt]
      intro hlong
      rw [result_workerRun_of_unmakeable hentries hlong] at hresult
      cases hresult
    have hfits : c.entrySize.toNat ≤ c.capacityBytes.toNat := by
      rw [← Nat.not_lt]
      intro hover
      rw [result_workerRun_of_oversized hentries hmade hover] at hresult
      cases hresult
    exact .inr ⟨hlt, hmade, hfits⟩
  · rw [result_workerRun_of_idle (signedCount_of_le hge)] at hresult
    cases hresult
    exact absurd hall.symm hne

theorem Runnable.workerRun (h : c.Runnable) (hsize : 0 < c.entrySize.toNat)
    (howner : owner < 2 ^ 63) (hputs : (owner + 1) * c.entriesPerWorker.toNat < wordLimit) :
    ∃ report,
      (c.workerRun (.opened .oldestFirst c.capacityBytes) owner).worker.result =
        some (.ok report) ∧
      report.puts = c.entriesPerWorker := by
  rcases h with hzero | ⟨hlt, hmade, hfits⟩
  · refine ⟨_, result_workerRun_of_idle ?_ _ _, hzero.symm⟩
    rw [hzero]
    rfl
  · have hentries := signedCount_of_lt hlt
    obtain ⟨report, hresult, hcount⟩ :=
      result_workerRun_of_fitting hsize hmade hfits howner (by rwa [hentries])
    rw [hentries] at hcount
    exact ⟨report, hresult, UInt64.toNat_inj.1 hcount⟩

/-- Every worker of an accepted configuration, each in its turn, writes all its entries exactly if
they can be counted, made and held. The driver ends without a failure then, and also where a count
that is no signed word stands for no workers or no entries. -/
theorem accepted_iff_runnable (c : Config) (hvalid : c.validate = .ok ())
    (hputs : c.workers.toNat * c.entriesPerWorker.toNat < wordLimit) :
    ∃ opened load, Cache.create .oldestFirst c.capacityBytes = .ok opened ∧ c.load = .ok load ∧
      ((∀ owner < c.workers.toNat, owner < 2 ^ 63 →
          ∃ report, (c.workerRun opened.cache owner).worker.result = some (.ok report) ∧
            report.puts = c.entriesPerWorker) ↔ c.Runnable) ∧
      (load.failure = none ↔
        2 ^ 63 ≤ c.workers.toNat ∨ 2 ^ 63 ≤ c.entriesPerWorker.toNat ∨ c.Runnable) := by
  obtain ⟨hcapacity, -, hworkers, hsize⟩ := c.validate_eq_ok_iff.1 hvalid
  have hcapacity : 0 < c.capacityBytes := UInt64.pos_iff_ne_zero.2 hcapacity
  have hsize : 0 < c.entrySize.toNat := UInt64.lt_iff_toNat_lt.1 (UInt64.pos_iff_ne_zero.2 hsize)
  have hworkers : 0 < c.workers.toNat :=
    UInt64.lt_iff_toNat_lt.1 (UInt64.pos_iff_ne_zero.2 hworkers)
  obtain ⟨load, hload, hsucceeds⟩ := load_succeeds_iff hvalid
    ((Nat.mul_le_mul (signedCount_le _) (signedCount_le _)).trans_lt hputs)
  refine ⟨_, load, Cache.create_eq hcapacity {}, hload, ⟨fun hall => ?_, fun hrunnable => ?_⟩, ?_⟩
  · obtain ⟨report, hresult, hreport⟩ := hall 0 hworkers (by decide)
    exact runnable_of_workerRun hresult hreport
  · intro owner hlt howner
    exact hrunnable.workerRun hsize howner ((Nat.mul_le_mul_right _ hlt).trans_lt hputs)
  · rw [hsucceeds]
    have hzero : c.entriesPerWorker = 0 ↔ c.entriesPerWorker.toNat = 0 := UInt64.toNat_inj.symm
    rw [Runnable, hzero, Nat.mul_eq_zero, signedCount, signedCount]
    split <;> split <;> omega

/-- Two workers of three entries each, which fit one at a time. -/
theorem accepted_iff_runnable_of_two :
    let c : Config :=
      { capacityBytes := 5, statsInterval := 1, workers := 2, entriesPerWorker := 3, entrySize := 5 }
    c.validate = .ok () ∧ 2 * 3 < wordLimit ∧ c.Runnable ∧
      ∃ opened load, Cache.create .oldestFirst 5 = .ok opened ∧ c.load = .ok load ∧
        (∃ report, (c.workerRun opened.cache 1).worker.result = some (.ok report) ∧
          report.puts = 3) ∧
        load.failure = none := by
  intro c
  have hrunnable : c.Runnable := by decide
  obtain ⟨opened, load, hopened, hload, hworkers, hfailure⟩ :=
    accepted_iff_runnable c rfl (by decide)
  exact ⟨rfl, by decide, hrunnable, opened, load, hopened, hload,
    hworkers.2 hrunnable 1 (by decide) (by decide), hfailure.2 (.inr (.inr hrunnable))⟩

/-- An entry of two bytes is accepted with room for one byte, and its worker is refused. -/
theorem accepted_fails_of_oversized :
    let c : Config :=
      { capacityBytes := 1, statsInterval := 5, workers := 1, entriesPerWorker := 1, entrySize := 2 }
    c.validate = .ok () ∧ c.workers.toNat * c.entriesPerWorker.toNat < wordLimit ∧
      ∃ opened load, Cache.create .oldestFirst c.capacityBytes = .ok opened ∧
        (c.workerRun opened.cache 0).worker.result =
          some (.error (.refused (.oversizedPayload 2 1))) ∧
        c.load = .ok load ∧ load.failure = some (.refused (.oversizedPayload 2 1)) := by
  intro c
  obtain ⟨load, hload, -, hfailure, -⟩ :=
    load_of_empty (c := c) (by decide)
      (work_oversized (by decide) (by decide) (by decide))
  exact ⟨rfl, by decide, _, load, Cache.create_eq (by decide) {},
    result_workerRun_of_oversized (c := c) (by decide) (by decide) (by decide), hload, hfailure⟩

end Config

end LedgerCache
