import LedgerCache.Proofs.Emissions
import LedgerCache.Proofs.Fates
import LedgerCache.Proofs.Supervision
import LedgerCache.Proofs.Wordings
import LedgerCache.Session

namespace LedgerCache

/-- Says that the cache is closed. -/
def Record.closes (r : Record) : Bool :=
  r.level = .info ∧ r.source = .store ∧ r.message = "read cache closed"

theorem Event.closes_record (e : Event) : e.record.closes = e.closes := by
  cases e <;> simp [Event.record, Record.closes, Event.closes]

namespace Program

/-- The exit code and standard error tell of the failure. -/
def Tells (words : Wording) (e : Exit) : Option Failure → Prop
  | none => e.code = 0 ∧ e.stderr = ""
  | some f =>
    e.code = 1 ∧ e.stderr = "Error: " ++ words.failure ("workload failed" :: causes f) ++ "\n"

/-- These are the final statistics that are shown, with all figures and behind the one record that
says that the cache is closed. -/
def Shown (words : Wording) (stats : Stats) (records : List Record) : Prop :=
  let figures := [("hits", stats.hits), ("misses", stats.misses), ("evictions", stats.evictions),
    ("rejections", stats.rejections), ("total_entries", stats.totalEntries),
    ("used_bytes", stats.usedBytes), ("capacity_bytes", stats.capacityBytes)]
  let text := "Final cache stats: " ++ words.figures figures
  (∃ front behind, records = front ++ ⟨.info, .driver, text, []⟩ :: behind ∧
    front.countP Record.closes = 1 ∧ behind.countP Record.closes = 0) ∧
  ∀ x ∈ figures, Contains text s!"\"{x.1}\":{x.2}"

theorem contains_figures {words : Wording} (hwords : words.Faithful) (s : Stats) :
    ∀ x ∈ s.figures,
      Contains ("Final cache stats: " ++ words.figures s.figures) s!"\"{x.1}\":{x.2}" := by
  intro x hx
  have hnames : (s.figures.map (·.1)).all Wording.isName = true := by
    simp only [Stats.figures, List.map_cons, List.map_nil]
    decide +kernel
  rw [List.all_map, List.all_eq_true] at hnames
  exact (hwords.figures _ hnames x hx).prepend _

/-- A filter that lets the final statistics through shows them as they are. -/
theorem Shown.logged {words : Wording} {stats : Stats} {e : Exit} (h : Shown words stats e.records)
    {rank : Nat} (hrank : Level.info.rank ≤ rank) : Shown words stats (e.logged rank).records := by
  have hcloses (records : List Record) :
      (records.filter (·.level.rank ≤ rank)).countP Record.closes =
        records.countP Record.closes := by
    rw [List.countP_filter]
    refine List.countP_congr fun r _ => ?_
    simp only [Record.closes, Bool.and_eq_true, decide_eq_true_eq, and_iff_left_iff_imp]
    rintro ⟨hlevel, -⟩
    rwa [hlevel]
  obtain ⟨⟨front, behind, hrecords, hfront, hbehind⟩, hfigures⟩ := h
  refine ⟨⟨front.filter (·.level.rank ≤ rank), behind.filter (·.level.rank ≤ rank), ?_, ?_, ?_⟩,
    hfigures⟩
  · rw [Exit.logged, hrecords, List.filter_append, List.filter_cons_of_pos (by simpa using hrank)]
  · rw [hcloses, hfront]
  · rw [hcloses, hbehind]

end Program

namespace Session

variable {s : Session} {most workers : Nat} {fate : Option Failure}

/-- How often it was said that the cache is closed. -/
def closings (s : Session) : Nat := s.events.countP Event.closes

theorem countP_closes_eq_zero {events : List Event} (h : ∀ e ∈ events, e.closes = false) :
    events.countP Event.closes = 0 :=
  List.countP_eq_zero.2 fun e he => by simp [h e he]

theorem countP_closes_of_reporter (ts : List Timed) (h : ∀ t ∈ ts, t.ofReporter) :
    (ts.map Timed.event).countP Event.closes = 0 := by
  refine countP_closes_eq_zero fun e he => ?_
  obtain ⟨t, ht, rfl⟩ := List.mem_map.1 he
  exact Timed.not_closes_of_ofReporter (h t ht)

theorem act_of_exited {e : Exit} (h : s.stage = .exited e) (a : Action) : s.act a = s := by
  simp only [act, h]

theorem act_eq (hrunning : ∀ e, s.stage ≠ .exited e) (a : Action) :
    s.act a =
      match a with
      | .turn place => s.turn place
      | .pass span => s.pass span
      | .join place => s.join place
      | .proceed => s.proceed := by
  cases hstage : s.stage with
  | exited e => exact absurd hstage (hrunning e)
  | _ => cases a <;> simp only [act, hstage]

theorem run_of_exited {e : Exit} (h : s.stage = .exited e) (acts : List Action) :
    s.run acts = s := by
  induction acts with
  | nil => rfl
  | cons a acts ih =>
    show (s.act a).run acts = s
    rw [act_of_exited h, ih]

theorem exit?_eq_some {e : Exit} : s.exit? = some e ↔ s.stage = .exited e := by
  rw [exit?]
  cases s.stage <;> simp

/-- A turn belongs to the crew. -/
theorem turn_eq (s : Session) (place : Nat) :
    (s.turn place).crew = s.crew.act (.turn place) ∧ (s.turn place).stage = s.stage ∧
      (s.turn place).config = s.config ∧ (s.turn place).closings = s.closings := by
  cases hw : s.crew.workers[place]? with
  | none =>
    rw [turn, Crew.act, hw]
    exact ⟨rfl, rfl, rfl, rfl⟩
  | some w =>
    have hnone := countP_closes_eq_zero fun e he =>
      w.not_closes_step s.crew.cache e (Array.mem_toList_iff.1 he)
    rw [turn, hw]
    refine ⟨rfl, rfl, rfl, ?_⟩
    rw [closings, List.countP_append, hnone]
    rfl

/-- While the time passes only the reporter does anything. -/
theorem pass_eq (s : Session) (span : Nat) :
    (s.pass span).crew = s.crew ∧ (s.pass span).stage = s.stage ∧
      (s.pass span).config = s.config ∧ (s.pass span).closings = s.closings := by
  have hcache : (s.supervised.sleep span).1.cache = s.crew.cache := s.reporter.cache_pass _ _ _
  have hnone := countP_closes_of_reporter (s.supervised.sleep span).2 fun t ht =>
    s.reporter.ofReporter_pass _ _ _ t (Array.mem_toList_iff.1 ht)
  refine ⟨?_, rfl, rfl, ?_⟩
  · show ({ s.crew with cache := (s.supervised.sleep span).1.cache } : Crew .oldestFirst) = s.crew
    rw [hcache]
  · rw [closings, pass, List.countP_append, hnone]
    rfl

/-- The cache has been closed, once. -/
structure Shut (s : Session) : Prop where
  resident : s.crew.cache.resident = none
  closed : s.crew.cache.closed = true
  once : s.closings = 1

theorem Shut.turn (h : s.Shut) (place : Nat) : (s.turn place).Shut := by
  obtain ⟨hcrew, -, -, hclosings⟩ := s.turn_eq place
  have hcache : (s.turn place).crew.cache = s.crew.cache := by
    rw [hcrew]
    rcases s.crew.cache_turn place with heq | ⟨w, -, heq⟩
    · exact heq
    · exact heq.trans (w.cache_step_of_closed h.resident h.closed)
  exact ⟨hcache ▸ h.resident, hcache ▸ h.closed, hclosings.trans h.once⟩

theorem Shut.pass (h : s.Shut) (span : Nat) : (s.pass span).Shut := by
  obtain ⟨hcrew, -, -, hclosings⟩ := s.pass_eq span
  exact ⟨hcrew ▸ h.resident, hcrew ▸ h.closed, hclosings.trans h.once⟩

/-- The cache is open, and all workers end so. -/
structure Busy (most : Nat) (fate : Option Failure) (s : Session) : Prop where
  ends : s.crew.EndsIn most fate
  unclosed : s.closings = 0

/-- Being busy is no matter of how far the driver is. -/
theorem Busy.at_stage (h : s.Busy most fate) (stage : Stage) : { s with stage }.Busy most fate :=
  ⟨h.ends, h.unclosed⟩

theorem Busy.turn (h : s.Busy most fate) (place : Nat) : (s.turn place).Busy most fate := by
  obtain ⟨hcrew, -, -, hclosings⟩ := s.turn_eq place
  exact ⟨hcrew ▸ h.ends.turn place, hclosings.trans h.unclosed⟩

theorem Busy.pass (h : s.Busy most fate) (span : Nat) : (s.pass span).Busy most fate := by
  obtain ⟨hcrew, -, -, hclosings⟩ := s.pass_eq span
  exact ⟨hcrew ▸ h.ends, hclosings.trans h.unclosed⟩

/-- What is known while the driver waits: the reports so far can be added up, and a failure that
comes from all workers cannot be missed. -/
def Pending (most workers : Nat) (fate : Option Failure) (waiting : List Nat) (total : Report) :
    Prop :=
  match fate with
  | none => ∃ joined, joined + waiting.length = workers ∧ total.Within (joined * most)
  | some _ => waiting ≠ []

/-- In a run of these actions the driver has taken the statistics when the work was over, with the
cache still open. -/
def Taken (s : Session) (acts : List Action) (stats : Stats) : Prop :=
  ∃ before behind, acts = before ++ .proceed :: behind ∧
    (∃ total failure, (s.run before).stage = .collected total failure) ∧
    (s.run before).crew.cache.closed = false ∧
    (s.run before).crew.cache.stats.result = .ok stats

theorem Taken.append {acts : List Action} {stats : Stats} (h : s.Taken acts stats)
    (more : List Action) : s.Taken (acts ++ more) stats := by
  obtain ⟨before, behind, rfl, htaken⟩ := h
  exact ⟨before, behind ++ more, by rw [List.append_assoc, List.cons_append], htaken⟩

/-- The exit shows what has become of the session, with statistics that were taken. -/
def Concludes (s : Session) (fate : Option Failure) (taken : Stats → Prop) (e : Exit) : Prop :=
  ∃ load stats reports, e = Program.finish s.words s.config load ∧
    load.shutdown = .ok (stats, reports) ∧ taken stats ∧ load.failure = fate ∧
    load.events = s.events

/-- Where the driver is, the session is as it has to be. -/
def OnCourse (most workers : Nat) (fate : Option Failure) (taken : Stats → Prop) (s : Session) :
    Prop :=
  match s.stage with
  | .collecting waiting total => s.Busy most fate ∧ Pending most workers fate waiting total
  | .collected _ failure => s.Busy most fate ∧ failure = fate
  | .closing _ failure stats => s.Busy most fate ∧ failure = fate ∧ taken stats
  | .joining _ failure stats => s.Shut ∧ failure = fate ∧ taken stats
  | .exited e => s.Shut ∧ s.Concludes fate taken e

namespace OnCourse

variable {taken : Stats → Prop}

theorem mono (h : s.OnCourse most workers fate taken) {taken' : Stats → Prop}
    (himp : ∀ stats, taken stats → taken' stats) : s.OnCourse most workers fate taken' := by
  rw [OnCourse] at h ⊢
  split at h
  case h_1 => exact h
  case h_2 => exact h
  case h_3 => exact ⟨h.1, h.2.1, himp _ h.2.2⟩
  case h_4 => exact ⟨h.1, h.2.1, himp _ h.2.2⟩
  case h_5 =>
    obtain ⟨hshut, load, stats, reports, hexit, hshutdown, htaken, hload⟩ := h
    exact ⟨hshut, load, stats, reports, hexit, hshutdown, himp _ htaken, hload⟩

/-- What happens beside the driver leaves it on course. -/
theorem of_stage {s' : Session} (h : s.OnCourse most workers fate taken)
    (hstage : s'.stage = s.stage) (hrunning : ∀ e, s.stage ≠ .exited e)
    (hbusy : s.Busy most fate → s'.Busy most fate) (hshut : s.Shut → s'.Shut) :
    s'.OnCourse most workers fate taken := by
  rw [OnCourse] at h ⊢
  rw [hstage]
  split at h
  case h_1 => exact ⟨hbusy h.1, h.2⟩
  case h_2 => exact ⟨hbusy h.1, h.2⟩
  case h_3 => exact ⟨hbusy h.1, h.2⟩
  case h_4 => exact ⟨hshut h.1, h.2⟩
  case h_5 e he => exact absurd he (hrunning e)

/-- A report is added to the others; a failure is the one that all workers have. -/
theorem join (h : s.OnCourse most workers fate taken)
    (hroom : fate = none → workers * most < wordLimit) (place : Nat) :
    (s.join place).OnCourse most workers fate taken := by
  rw [Session.join]
  split
  case h_2 => exact h
  case h_1 waiting total result hstage hresult =>
    split
    case isFalse => exact h
    case isTrue hmem =>
      rw [OnCourse, hstage] at h
      obtain ⟨hbusy, hpending⟩ := h
      obtain ⟨w, hw, hresult⟩ := Option.bind_eq_some_iff.1 hresult
      have hends := hbusy.ends.ends (List.mem_of_getElem? hw) hresult
      cases fate with
      | some f =>
        cases hends
        exact ⟨hbusy.at_stage _, rfl⟩
      | none =>
        obtain ⟨report, rfl, hreport⟩ := hends
        obtain ⟨joined, hjoined, htotal⟩ := hpending
        have hlength := List.length_pos_of_mem hmem
        have hle : (joined + 1) * most ≤ workers * most := Nat.mul_le_mul_right _ (by omega)
        rw [Nat.succ_mul] at hle
        have hlt := hle.trans_lt (hroom rfl)
        have hstage' : Stage.join waiting total place (.ok report) =
            .collecting (waiting.erase place) (total + report) := by
          rw [Stage.join, Report.merge_eq htotal hreport hlt]
        rw [hstage']
        refine ⟨hbusy.at_stage _, joined + 1, ?_, ?_⟩
        · rw [List.length_erase_of_mem hmem]
          omega
        · rw [Nat.succ_mul]
          exact htotal.add hreport hlt

theorem proceed (h : s.OnCourse most workers fate taken)
    (htaken : ∀ total failure stats, s.stage = .collected total failure →
      s.crew.cache.closed = false → s.crew.cache.stats.result = .ok stats → taken stats) :
    s.proceed.OnCourse most workers fate taken := by
  rw [Session.proceed]
  split
  case h_1 total hstage =>
    rw [OnCourse, hstage] at h
    obtain ⟨hbusy, hpending⟩ := h
    cases fate with
    | some f => exact absurd rfl hpending
    | none => exact ⟨hbusy.at_stage _, rfl⟩
  case h_2 total failure hstage =>
    rw [OnCourse, hstage] at h
    obtain ⟨hbusy, hfailure⟩ := h
    obtain ⟨r, hr⟩ := hbusy.ends.holds
    obtain ⟨stats, hstats⟩ := Cache.taken_stats hr.resident
    simp only [hstats, Cache.cache_stats]
    exact ⟨hbusy.at_stage _, hfailure, htaken total failure stats hstage hr.not_closed hstats⟩
  case h_3 total failure stats hstage =>
    rw [OnCourse, hstage] at h
    obtain ⟨hbusy, hfailure⟩ := h
    obtain ⟨r, hr⟩ := hbusy.ends.holds
    simp only [hr.close_eq]
    refine ⟨⟨rfl, rfl, ?_⟩, hfailure⟩
    have hnone : s.events.countP Event.closes = 0 := hbusy.unclosed
    rw [closings, List.countP_append, hnone]
    rfl
  case h_4 total failure stats hstage =>
    rw [OnCourse, hstage] at h
    obtain ⟨hshut, hfailure, htaken⟩ := h
    let last := s.reporter.join s.crew.cache s.clock
    have hjoin : (last.events.toList.map Timed.event).countP Event.closes = 0 :=
      countP_closes_of_reporter _ fun t ht =>
        s.reporter.ofReporter_join _ _ t (Array.mem_toList_iff.1 ht)
    have hlost : (if last.task.value.isNone then [Event.reporterLost] else []).countP
        Event.closes = 0 := by
      split <;> rfl
    simp only [Task.cache_join, conclude]
    refine ⟨⟨hshut.resident, hshut.closed, ?_⟩, _, _, _, rfl, rfl, htaken, hfailure, rfl⟩
    rw [closings, List.countP_append, List.countP_append, hjoin, hlost]
    exact hshut.once
  case h_5 => exact h

theorem act (h : s.OnCourse most workers fate taken)
    (hroom : fate = none → workers * most < wordLimit) (a : Action)
    (htaken : ∀ total failure stats, a = .proceed → s.stage = .collected total failure →
      s.crew.cache.closed = false → s.crew.cache.stats.result = .ok stats → taken stats) :
    (s.act a).OnCourse most workers fate taken := by
  by_cases hexited : ∃ e, s.stage = .exited e
  · obtain ⟨e, he⟩ := hexited
    rwa [act_of_exited he]
  · have hrunning : ∀ e, s.stage ≠ .exited e := fun e he => hexited ⟨e, he⟩
    rw [act_eq hrunning]
    cases a with
    | turn place =>
      exact h.of_stage (s.turn_eq place).2.1 hrunning (fun h => h.turn place) fun h => h.turn place
    | pass span =>
      exact h.of_stage (s.pass_eq span).2.1 hrunning (fun h => h.pass span) fun h => h.pass span
    | join place => exact h.join hroom place
    | proceed => exact h.proceed fun total failure stats => htaken total failure stats rfl

/-- The run is on course, and what statistics it has were taken in it. -/
theorem run (h : s.OnCourse most workers fate (s.Taken []))
    (hroom : fate = none → workers * most < wordLimit) (acts : List Action) :
    (s.run acts).OnCourse most workers fate (s.Taken acts) := by
  induction acts using List.reverseRecOn with
  | nil => exact h
  | append_singleton acts a ih =>
    rw [run_append]
    refine (ih.mono fun stats htaken => htaken.append [a]).act hroom a ?_
    rintro total failure stats rfl hstage hopen hstats
    exact ⟨acts, [], rfl, ⟨total, failure, hstage⟩, hopen, hstats⟩

end OnCourse

/-- The session of a configuration starts on course. -/
theorem onCourse_start (words : Wording) {c : Config} (hc : c.Countable)
    (hvalid : c.validate = .ok ()) {opened : Step .oldestFirst Unit}
    (hopened : Cache.create .oldestFirst c.capacityBytes = .ok opened) (taken : Stats → Prop) :
    (Session.start words c opened).OnCourse (signedCount c.entriesPerWorker)
      (signedCount c.workers) c.fate taken := by
  obtain ⟨hcapacity, -⟩ := c.validate_eq_ok_iff.1 hvalid
  rw [Cache.create_eq (UInt64.pos_iff_ne_zero.2 hcapacity) {}] at hopened
  cases hopened
  refine ⟨⟨c.endsIn_fate hc hvalid, rfl⟩, ?_⟩
  cases hfate : c.fate with
  | none => exact ⟨0, by rw [List.length_range, Nat.zero_add], by simpa using Report.within_empty⟩
  | some f =>
    have hne : ¬signedCount c.workers * signedCount c.entriesPerWorker = 0 := fun hzero => by
      rw [Config.fate, if_pos (.inl hzero)] at hfate
      cases hfate
    show List.range (signedCount c.workers) ≠ []
    rw [Ne, List.range_eq_nil]
    exact fun hzero => hne (by rw [hzero, Nat.zero_mul])

/-- The wording is given once and for all. -/
theorem words_act (s : Session) (a : Action) : (s.act a).words = s.words := by
  by_cases hexited : ∃ e, s.stage = .exited e
  · obtain ⟨e, he⟩ := hexited
    rw [act_of_exited he]
  rw [act_eq fun e he => hexited ⟨e, he⟩]
  cases a with
  | turn place =>
    dsimp only [turn]
    split <;> rfl
  | pass span => rfl
  | join place =>
    dsimp only [Session.join]
    split
    · split <;> rfl
    · rfl
  | proceed =>
    dsimp only [Session.proceed]
    split
    case h_2 => split <;> rfl
    case h_3 => split <;> rfl
    all_goals rfl

theorem words_run (s : Session) (acts : List Action) : (s.run acts).words = s.words := by
  induction acts generalizing s with
  | nil => rfl
  | cons a acts ih => exact (ih (s.act a)).trans (s.words_act a)

theorem Concludes.exit {taken : Stats → Prop} {e : Exit} (h : s.Concludes fate taken e)
    (hshut : s.Shut) (hwords : s.words.Faithful) :
    Program.Tells s.words e fate ∧
      ∃ stats, taken stats ∧ Program.Shown s.words stats e.records := by
  obtain ⟨load, stats, reports, rfl, hshutdown, htaken, rfl, hevents⟩ := h
  have hfigures := Program.contains_figures hwords stats
  have hcount : (load.events.map Event.record).countP Record.closes = 1 := by
    rw [hevents, List.countP_map, ← hshut.once]
    exact List.countP_congr fun e _ => by simp [Event.closes_record]
  have hfront (more : List Record) (hmore : more.countP Record.closes = 0) :
      ([Program.starting, Program.configured s.config] ++ load.events.map Event.record ++
        more).countP Record.closes = 1 := by
    rw [List.countP_append, List.countP_append, hcount, hmore]
    rfl
  cases hfailure : load.failure with
  | none =>
    simp only [Program.finish, Program.conclude, hshutdown, hfailure]
    refine ⟨⟨rfl, rfl⟩, stats, htaken,
      ⟨_, [Program.note "Read cache load driver shutdown complete"], ?_,
        hfront [Program.completed s.words load.total reports] rfl, rfl⟩, hfigures⟩
    rw [List.append_assoc, List.append_assoc]
    rfl
  | some f =>
    simp only [Program.finish, Program.conclude, hshutdown, hfailure]
    refine ⟨⟨rfl, rfl⟩, stats, htaken, ⟨_, [], rfl, ?_, rfl⟩, hfigures⟩
    simpa using hfront [] rfl

end Session

end LedgerCache
