import LedgerCache.Proofs.Completion

namespace LedgerCache

theorem Work.collect_frame {nominate : Nomination} (w : Work nominate) (t : Turn nominate) :
    (w.collect t).cache = t.cache ∧ (w.collect t).events = w.events ++ t.events := by
  rw [collect]
  split <;> exact ⟨rfl, rfl⟩

namespace Session

variable {s : Session} {place : Nat}

/-- The session when the worker at this place has come so far. -/
def withTurn (s : Session) (place : Nat) (t : Turn .oldestFirst) : Session :=
  { s with
    crew := ⟨s.crew.workers.set place t.worker, t.cache⟩
    events := s.events ++ t.events.toList }

theorem withTurn_self {w : Worker} (hw : s.crew.workers[place]? = some w) :
    s.withTurn place { worker := w, cache := s.crew.cache } = s := by
  obtain ⟨hlt, rfl⟩ := List.getElem?_eq_some_iff.1 hw
  rw [withTurn, List.set_getElem_self]
  simp

theorem withTurn_next (hplace : place < s.crew.workers.length)
    (hrunning : ∀ e, s.stage ≠ .exited e) (t : Turn .oldestFirst) :
    (s.withTurn place t).act (.turn place) = s.withTurn place t.next := by
  have hget : (s.withTurn place t).crew.workers[place]? = some t.worker :=
    List.getElem?_set_self hplace
  have hrunning' : ∀ e, (s.withTurn place t).stage ≠ .exited e := hrunning
  rw [act_eq hrunning']
  simp only [turn, Crew.act, hget]
  simp [withTurn, Turn.next]

/-- A worker may make its calls without being interrupted. -/
theorem run_steps (hplace : place < s.crew.workers.length)
    (hrunning : ∀ e, s.stage ≠ .exited e) (n : Nat) (t : Turn .oldestFirst) :
    ∃ acts, (s.withTurn place t).run acts = s.withTurn place (t.steps n) := by
  induction n generalizing t with
  | zero => exact ⟨[], rfl⟩
  | succ n ih =>
    rw [Turn.steps]
    split
    · exact ⟨[], rfl⟩
    · obtain ⟨acts, hacts⟩ := ih t.next
      refine ⟨.turn place :: acts, ?_⟩
      rw [← hacts, ← withTurn_next hplace hrunning]
      rfl

theorem run_worker {w : Worker} (hw : s.crew.workers[place]? = some w)
    (hrunning : ∀ e, s.stage ≠ .exited e) :
    ∃ acts, s.run acts = s.withTurn place (w.run s.crew.cache) := by
  have hplace := (List.getElem?_eq_some_iff.1 hw).1
  obtain ⟨acts, hacts⟩ := run_steps hplace hrunning w.stepBound
    { worker := w, cache := s.crew.cache }
  rw [withTurn_self hw] at hacts
  exact ⟨acts, hacts⟩

/-- The session has done this work since it was `s₀`. -/
structure Follows (s₀ : Session) (w : Work .oldestFirst) (s : Session) : Prop where
  cache : s.crew.cache = w.cache
  events : s.events = s₀.events ++ w.events.toList
  words : s.words = s₀.words
  config : s.config = s₀.config
  reporter : s.reporter = s₀.reporter
  clock : s.clock = s₀.clock

/-- Where the driver is behind this work. -/
def stageOf (waiting : List Nat) (w : Work .oldestFirst) : Stage :=
  match w.failure with
  | none => .collecting waiting w.total
  | some f => .collected w.total (some f)

/-- The driver and the work take the result of a worker in the same way. -/
theorem join_eq_stageOf {w : Work .oldestFirst} {t : Turn .oldestFirst} {owner n : Nat}
    {result : Except Failure Report} (hresult : t.worker.result = some result) :
    Stage.join (List.range' owner (n + 1)) w.total owner result =
      stageOf (List.range' (owner + 1) n) (w.collect t) := by
  cases result with
  | error f => simp only [Work.collect, hresult, stageOf, Stage.join]
  | ok report =>
    rcases hmerge : w.total.merge report with ⟨total, _ | f⟩
    · simp only [Work.collect, hresult, stageOf, Stage.join, hmerge, Option.map_none]
      rw [List.range'_succ, List.erase_cons_head]
    · simp only [Work.collect, hresult, stageOf, Stage.join, hmerge, Option.map_some]

namespace Follows

variable {s₀ : Session} {w : Work .oldestFirst} {entries size n owner : Nat}

/-- One worker makes all its calls and is joined. -/
theorem collect (h : Follows s₀ w s)
    (hstage : s.stage = .collecting (List.range' owner (n + 1)) w.total)
    (hworker : s.crew.workers[owner]? = some (.start (Int64.ofNat owner) entries size)) :
    let w' := w.collect ((Worker.start (Int64.ofNat owner) entries size).run w.cache)
    ∃ acts, Follows s₀ w' (s.run acts) ∧
      (s.run acts).stage = stageOf (List.range' (owner + 1) n) w' ∧
      ∀ p, p ≠ owner → (s.run acts).crew.workers[p]? = s.crew.workers[p]? := by
  intro w'
  obtain ⟨acts, hacts⟩ := run_worker hworker (by simp [hstage])
  rw [h.cache] at hacts
  set t := (Worker.start (Int64.ofNat owner) entries size).run w.cache
  obtain ⟨result, hresult⟩ : ∃ result, t.worker.result = some result :=
    Option.isSome_iff_exists.1 (Turn.done_steps (Worker.remaining_start _ _ _).le)
  have hlt := (List.getElem?_eq_some_iff.1 hworker).1
  have hget : (s.withTurn owner t).crew.workers[owner]?.bind Worker.result = some result := by
    show (s.crew.workers.set owner t.worker)[owner]?.bind Worker.result = _
    rw [List.getElem?_set_self hlt]
    exact hresult
  have hstage' : (s.withTurn owner t).stage = .collecting (List.range' owner (n + 1)) w.total :=
    hstage
  have hjoin : s.run (acts ++ [.join owner]) =
      { s.withTurn owner t with
        stage := .join (List.range' owner (n + 1)) w.total owner result } := by
    rw [run_append, hacts]
    show (s.withTurn owner t).act (.join owner) = _
    rw [act_join, join, hstage', hget]
    simp
  refine ⟨acts ++ [.join owner], ?_, ?_, fun p hp => ?_⟩
  · rw [hjoin]
    refine ⟨(w.collect_frame t).1.symm, ?_, h.words, h.config, h.reporter, h.clock⟩
    show s.events ++ t.events.toList = s₀.events ++ (w.collect t).events.toList
    rw [(w.collect_frame t).2, h.events, Array.toList_append, List.append_assoc]
  · rw [hjoin]
    exact join_eq_stageOf hresult
  · rw [hjoin]
    exact List.getElem?_set_ne (Ne.symm hp)

/-- The workers run one after the other, and each is joined before the next one starts. -/
theorem workers (h : Follows s₀ w s) (hfailure : w.failure = none)
    (hstage : s.stage = .collecting (List.range' owner n) w.total)
    (hworkers : ∀ p, owner ≤ p → p < owner + n →
      s.crew.workers[p]? = some (.start (Int64.ofNat p) entries size)) :
    ∃ acts, Follows s₀ (Work.workers entries size n owner w) (s.run acts) ∧
      (s.run acts).stage =
        .collected (Work.workers entries size n owner w).total
          (Work.workers entries size n owner w).failure := by
  induction n generalizing owner w s with
  | zero =>
    refine ⟨[.proceed], ?_⟩
    have hproceed : s.run [.proceed] = { s with stage := .collected w.total none } := by
      show s.act .proceed = _
      rw [act_proceed, proceed, hstage]
      rfl
    rw [hproceed, Work.workers, hfailure]
    exact ⟨⟨h.cache, h.events, h.words, h.config, h.reporter, h.clock⟩, rfl⟩
  | succ n ih =>
    obtain ⟨acts, hnext, hstage', hothers⟩ :=
      h.collect hstage (hworkers owner (Nat.le_refl _) (by omega))
    rw [Work.workers]
    set w' := w.collect ((Worker.start (Int64.ofNat owner) entries size).run w.cache)
    cases hfailure' : w'.failure with
    | some f =>
      refine ⟨acts, ?_⟩
      rw [Option.isSome_some, if_pos rfl, hfailure', hstage', stageOf, hfailure']
      exact ⟨hnext, rfl⟩
    | none =>
      have hcollecting : (s.run acts).stage = .collecting (List.range' (owner + 1) n) w'.total := by
        rw [hstage', stageOf, hfailure']
      obtain ⟨more, hlast⟩ := ih hnext hfailure' hcollecting fun p hle hlt => by
        rw [hothers p (by omega)]
        exact hworkers p (by omega) (by omega)
      refine ⟨acts ++ more, ?_⟩
      rw [run_append, if_neg (by simp)]
      exact hlast

end Follows

/-- Behind the work the driver shuts down and exits. -/
theorem run_shutdown {total : Report} {failure : Option Failure}
    (hstage : s.stage = .collected total failure) :
    let shutdown := s.supervised.closeAndJoin
    (s.run [.proceed, .proceed, .proceed]).exit? =
      some (Program.finish s.words s.config
        { total, failure, shutdown := shutdown.result, closed := shutdown.final.cache.closed
          events := s.events ++ shutdown.events.map Timed.event }) := by
  intro shutdown
  show (((s.act .proceed).act .proceed).act .proceed).exit? = _
  cases hstats : s.crew.cache.stats.result with
  | error f =>
    have hfirst : s.act .proceed = s.conclude total failure (.error f) := by
      rw [act_proceed, proceed, hstage]
      simp only [hstats, Cache.cache_stats]
      rfl
    have hshutdown : shutdown = ⟨.error f, s.supervised, [], []⟩ :=
      s.supervised.closeAndJoin_of_closed hstats
    rw [hfirst, act_of_exited rfl, act_of_exited rfl, hshutdown, List.map_nil, List.append_nil]
    rfl
  | ok stats =>
    have hfirst : s.act .proceed = { s with stage := .closing total failure stats } := by
      rw [act_proceed, proceed, hstage]
      simp only [hstats, Cache.cache_stats]
    have hevents (events : List Event) :
        (events.map (Timed.mk s.clock)).map Timed.event = events := by
      simp [Function.comp_def]
    rw [hfirst]
    cases hclose : s.crew.cache.close.result with
    | error f =>
      have hsecond : ({ s with stage := .closing total failure stats } : Session).act .proceed =
          ({ s with
            crew := { s.crew with cache := s.crew.cache.close.cache }
            events := s.events ++ s.crew.cache.close.events } : Session).conclude total failure
              (.error f) := by
        rw [act_proceed]
        simp only [proceed, hclose]
        rfl
      rw [hsecond, act_of_exited rfl]
      simp only [shutdown, Supervised.closeAndJoin, supervised, hstats, Cache.cache_stats, hclose,
        hevents]
      rfl
    | ok _ =>
      have hlost (p : Prop) [Decidable p] :
          (if p then [Timed.mk s.clock .reporterLost] else []).map Timed.event =
            if p then [.reporterLost] else [] := by
        split <;> rfl
      simp only [act_proceed, proceed, hclose, conclude, exit?]
      simp only [shutdown, Supervised.closeAndJoin, supervised, hstats, Cache.cache_stats, hclose,
        List.map_append, hevents, hlost, List.append_assoc]

/-- A session of a configuration may run as the load does. -/
theorem start_run (words : Wording) (c : Config) {opened : Step .oldestFirst Unit}
    (hopened : Cache.create .oldestFirst c.capacityBytes = .ok opened) :
    ∃ acts load, c.load = .ok load ∧
      ((start words c opened).run acts).exit? = some (Program.finish words c load) := by
  let s₀ := start words c opened
  have hfollows : Follows s₀ { cache := opened.cache } s₀ :=
    ⟨rfl, (List.append_nil _).symm, rfl, rfl, rfl, rfl⟩
  have hcollecting : s₀.stage = .collecting (List.range' 0 (signedCount c.workers)) {} :=
    congrArg (Stage.collecting · {}) List.range_eq_range'
  obtain ⟨acts, hdone, hstage⟩ := hfollows.workers rfl hcollecting fun p _ hlt => by
    rw [Nat.zero_add] at hlt
    show ((List.range _).map _)[p]? = _
    rw [List.getElem?_map, List.getElem?_range hlt]
    rfl
  set work := Work.workers (signedCount c.entriesPerWorker) c.entrySize.toNat
    (signedCount c.workers) 0 { cache := opened.cache } with hwork
  have hsupervised : (s₀.run acts).supervised =
      { cache := work.cache, task := { job := .report (1000 * c.statsInterval.toNat) } } := by
    rw [supervised, hdone.cache, hdone.reporter, hdone.clock]
    rfl
  have hexit := run_shutdown hstage
  rw [← run_append, hdone.words, hdone.config, hdone.events, hsupervised] at hexit
  refine ⟨_, _, ?_, hexit⟩
  rw [Config.load, hopened, hwork]
  rfl

end Session

namespace Program

/-- The program that lets one worker run after the other has one of the outcomes. -/
theorem exists_outcome_eq_full (words : Wording) (env : Environment) :
    ∃ acts, outcome words env acts = some (full words env) := by
  rw [full]
  set c := Config.ofEnvironment env with hc
  cases hvalid : c.validate with
  | error e =>
    refine ⟨[], ?_⟩
    rw [outcome, launch, ← hc, hvalid]
  | ok _ =>
    cases hopened : Cache.create .oldestFirst c.capacityBytes with
    | error e =>
      refine ⟨[], ?_⟩
      have hload : c.load = .error e := by
        rw [Config.load, hopened]
        rfl
      rw [outcome, launch, ← hc, hvalid, hload]
      simp only [hopened]
    | ok opened =>
      obtain ⟨acts, load, hload, hexit⟩ := Session.start_run words c hopened
      refine ⟨acts, ?_⟩
      rw [outcome, launch, ← hc, hvalid, hload]
      simp only [hopened]
      exact hexit

/-- What it logs is what its filter lets through of that. -/
theorem exists_outcome_logged_eq_run (words : Wording) (env : Environment) :
    ∃ acts e, outcome words env acts = some e ∧
      e.logged (Verbosity.ofEnvironment env) = run env words := by
  obtain ⟨acts, hfull⟩ := exists_outcome_eq_full words env
  exact ⟨acts, _, hfull, rfl⟩

/-- A filter that names a level, for all or for this program, lets through what is up to it. -/
theorem run_of_level (words : Wording) {env : Environment} (l : Level) {filter : String}
    (hfilter : filter = l.name.toLower ∨ filter = "read_cache=" ++ l.name.toLower)
    (henv : env Verbosity.filterVariable = some filter.toUTF8.toList) :
    run env words = (full words env).logged l.rank := by
  have hrank : Verbosity.ofEnvironment env = l.rank := by
    rw [Verbosity.ofEnvironment, henv]
    rcases hfilter with rfl | rfl <;> cases l <;> decide +kernel
  rw [run, hrank]

/-- The filter decides on nothing but the records, and a wider one only adds some. -/
theorem run_filter (words : Wording) {env env' : Environment}
    (henv : ∀ name, name ≠ Verbosity.filterVariable → env' name = env name)
    (hrank : Verbosity.ofEnvironment env ≤ Verbosity.ofEnvironment env') :
    (run env words).code = (run env' words).code ∧
      (run env words).stderr = (run env' words).stderr ∧
      (run env words).records =
        (run env' words).records.filter (·.level.rank ≤ Verbosity.ofEnvironment env) := by
  have hsetting (name : String) (default : UInt64) (h : name ≠ Verbosity.filterVariable) :
      Config.setting env' name default = Config.setting env name default := by
    rw [Config.setting, Config.setting, henv name h]
  have hconfig : Config.ofEnvironment env' = Config.ofEnvironment env := by
    simp (disch := decide) only [Config.ofEnvironment, hsetting]
  have hfull : full words env' = full words env := by rw [full, full, hconfig]
  rw [run, run, hfull]
  refine ⟨rfl, rfl, ?_⟩
  rw [Exit.logged, Exit.logged, List.filter_filter]
  refine List.filter_congr fun r _ => ?_
  rw [Bool.eq_iff_iff, Bool.and_eq_true, decide_eq_true_iff, decide_eq_true_iff]
  exact ⟨fun hle => ⟨hle, hle.trans hrank⟩, And.left⟩

end Program

namespace Config

variable {c : Config}

/-- The workers have nothing to do, or their payloads fit. -/
def Succeeds (c : Config) : Prop :=
  2 ^ 63 ≤ c.workers.toNat ∨ c.entriesPerWorker = 0 ∨ 2 ^ 63 ≤ c.entriesPerWorker.toNat ∨
    c.entrySize.toNat ≤ c.capacityBytes.toNat

instance (c : Config) : Decidable c.Succeeds := inferInstanceAs (Decidable (_ ∨ _))

theorem fate_eq (hvalid : c.validate = .ok ()) :
    c.fate = if c.Succeeds then none
      else some (.refused (.oversizedPayload c.entrySize.toNat c.capacityBytes.toNat)) := by
  obtain ⟨-, -, hworkers, -⟩ := c.validate_eq_ok_iff.1 hvalid
  have hworkers : c.workers.toNat ≠ 0 := fun hzero => hworkers (UInt64.toNat_inj.1 hzero)
  have hentries : c.entriesPerWorker = 0 ↔ c.entriesPerWorker.toNat = 0 := UInt64.toNat_inj.symm
  have hsucceeds : c.Succeeds ↔
      signedCount c.workers * signedCount c.entriesPerWorker = 0 ∨
        c.entrySize.toNat ≤ c.capacityBytes.toNat := by
    rw [Succeeds, hentries, Nat.mul_eq_zero, signedCount, signedCount]
    split <;> split <;> omega
  simp only [fate, hsucceeds]

/-- If no worker fails, the reports of all of them can be added up. -/
theorem Countable.room (hc : c.Countable) (hfate : c.fate = none) :
    signedCount c.workers * signedCount c.entriesPerWorker < wordLimit := by
  rw [fate] at hfate
  split at hfate
  · next h =>
    rcases h with hzero | hfits
    · rw [hzero]
      decide
    · exact hc.admissions hfits
  · cases hfate

end Config

theorem oneLine_zero {x : String × (Config → UInt64)} (hx : x ∈ Config.checkedFields) :
    OneLine ("Invalid configuration: " ++ x.1 ++ " must be greater than zero") := by
  have hnames : ∀ name ∈ Config.checkedFields.map (·.1), OneLine name := by decide +kernel
  rw [oneLine_append, oneLine_append]
  exact ⟨⟨by decide +kernel, hnames _ (List.mem_map_of_mem hx)⟩, by decide +kernel⟩

theorem oneLine_oversized (size capacity : Nat) :
    OneLine ("Oversized payload: " ++ toString size ++ " bytes exceeds cache capacity of " ++
      toString capacity ++ " bytes") := by
  simp only [oneLine_append, oneLine_number, and_true]
  decide +kernel

namespace Program

variable {words : Wording} {env : Environment} {c : Config}

/-- The exit is a failure, and standard error gives what was being done and the cause. -/
structure Blames (words : Wording) (e : Exit) (context cause : String) : Prop where
  code : e.code = 1
  stderr : e.stderr = "Error: " ++ words.failure [context, cause] ++ "\n"
  context : Contains e.stderr context
  cause : Contains e.stderr cause

theorem Blames.of_faithful (hwords : words.Faithful) {e : Exit} {context cause : String}
    (hcontext : OneLine context) (hcause : OneLine cause) (hcode : e.code = 1)
    (hstderr : e.stderr = "Error: " ++ words.failure [context, cause] ++ "\n") :
    Blames words e context cause := by
  have hshown (message : String) (h : message ∈ [context, cause]) :
      Contains e.stderr message := by
    rw [hstderr]
    exact ((hwords.failure _ (by simp [hcontext, hcause]) _ h).prepend _).append _
  exact ⟨hcode, hstderr, hshown _ (by simp), hshown _ (by simp)⟩

theorem outcome_of_refused (words : Wording) (hc : Config.ofEnvironment env = c) {e : Error}
    (hvalid : c.validate = .error e) (acts : List Session.Action) :
    outcome words env acts = some (refuse words e) := by
  rw [outcome, launch, hc, hvalid]

theorem launch_of_valid (words : Wording) (hc : Config.ofEnvironment env = c)
    (hvalid : c.validate = .ok ()) :
    ∃ opened, Cache.create .oldestFirst c.capacityBytes = .ok opened ∧
      launch words env = .ok (.start words c opened) := by
  obtain ⟨hcapacity, -⟩ := c.validate_eq_ok_iff.1 hvalid
  have hcreate : Cache.create .oldestFirst c.capacityBytes = .ok _ :=
    Cache.create_eq (UInt64.pos_iff_ne_zero.2 hcapacity) {}
  refine ⟨_, hcreate, ?_⟩
  rw [launch, hc, hvalid]
  simp only [hcreate]

/-- The session has closed its cache once, and shows the statistics that were taken before. -/
def Concluded (words : Wording) (env : Environment) (acts : List Session.Action) (e : Exit) :
    Prop :=
  ∃ s stats, launch words env = .ok s ∧ (s.run acts).crew.cache.closed = true ∧
    s.Taken acts stats ∧ Shown words stats e.records ∧
    ∀ rank, Level.info.rank ≤ rank → Shown words stats (e.logged rank).records

/-- An exit tells how the workers end, and shows the last statistics of a closed cache. -/
theorem exit_of_valid (hwords : words.Faithful) (hc : Config.ofEnvironment env = c)
    (hvalid : c.validate = .ok ()) (hcount : c.Countable) {acts : List Session.Action} {e : Exit}
    (h : outcome words env acts = some e) :
    Tells words e c.fate ∧ Concluded words env acts e := by
  obtain ⟨opened, hopened, hlaunch⟩ := launch_of_valid words hc hvalid
  rw [outcome, hlaunch] at h
  have hcourse := (Session.onCourse_start words hcount hvalid hopened _).run hcount.room acts
  rw [Session.OnCourse, Session.exit?_eq_some.1 h] at hcourse
  obtain ⟨hshut, hconcludes⟩ := hcourse
  have hkept := (Session.start words c opened).words_run acts
  obtain ⟨htells, stats, htaken, hshown⟩ := hconcludes.exit hshut (hkept ▸ hwords)
  rw [hkept] at htells hshown
  exact ⟨htells, _, stats, hlaunch, hshut.closed, htaken, hshown, fun _ => hshown.logged⟩

/-- With enough turns, joins and steps of the driver there is an exit. -/
theorem outcome_isSome (hc : Config.ofEnvironment env = c) {turns joins ends : List Session.Action}
    (hturns : ∀ place < signedCount c.workers,
      2 * signedCount c.entriesPerWorker ≤ turns.count (.turn place))
    (hjoins : ∀ place < signedCount c.workers, .join place ∈ joins)
    (hends : 4 ≤ ends.count .proceed) :
    (outcome words env (turns ++ joins ++ ends)).isSome := by
  cases hvalid : c.validate with
  | error e =>
    rw [outcome_of_refused words hc hvalid]
    rfl
  | ok _ =>
    obtain ⟨opened, -, hlaunch⟩ := launch_of_valid words hc hvalid
    have hlength : (Session.start words c opened).crew.workers.length = signedCount c.workers := by
      simp [Session.start, Crew.start]
    have hwaiting :
        (Session.start words c opened).stage.waiting = List.range (signedCount c.workers) := rfl
    rw [outcome, hlaunch]
    apply Session.exits
    case hnodup => exact hwaiting ▸ List.nodup_range
    case hplaces =>
      rw [hwaiting, hlength]
      exact fun place => List.mem_range.1
    case hturns =>
      intro place w hw
      have hplace := (List.getElem?_eq_some_iff.1 hw).1
      obtain ⟨owner, -, rfl⟩ := List.mem_map.1 (List.mem_of_getElem? hw)
      rw [Worker.remaining_start]
      exact hturns place (hlength ▸ hplace)
    case hjoins =>
      rw [hwaiting]
      exact fun place hplace => hjoins place (List.mem_range.1 hplace)
    case hends => exact hends

/-- In whatever order the workers take their turns and get done, however the time passes and
whenever the driver goes on, it exits with the code and the message that follow from the settings.
If these are accepted, the cache is closed once, and the statistics that were taken before are shown
behind that. It comes to its exit if the workers get enough turns, then each is joined, and then the
driver takes four steps. -/
theorem outcome_of_schedule (words : Wording) (hwords : words.Faithful) (env : Environment)
    (c : Config) (hc : Config.ofEnvironment env = c)
    (hmade : 0 < signedCount c.workers * signedCount c.entriesPerWorker →
      c.entrySize.toNat ≤ Payload.longest)
    (hputs : c.entrySize.toNat ≤ c.capacityBytes.toNat →
      signedCount c.workers * signedCount c.entriesPerWorker < wordLimit) :
    (∀ acts e, outcome words env acts = some e →
      (e.code = 0 ↔ c.validate = .ok () ∧ c.Succeeds) ∧ (e.code = 0 → e.stderr = "") ∧
      (∀ x, Config.checkedFields.find? (fun x => x.2 c = 0) = some x →
        Blames words e "invalid configuration"
          ("Invalid configuration: " ++ x.1 ++ " must be greater than zero")) ∧
      (Config.checkedFields.find? (fun x => x.2 c = 0) = none → ¬c.Succeeds →
        Blames words e "workload failed"
          ("Oversized payload: " ++ toString c.entrySize.toNat ++
            " bytes exceeds cache capacity of " ++ toString c.capacityBytes.toNat ++ " bytes")) ∧
      (c.validate = .ok () → Concluded words env acts e)) ∧
    ∀ turns joins ends : List Session.Action,
      (∀ place < signedCount c.workers,
        2 * signedCount c.entriesPerWorker ≤ turns.count (.turn place)) →
      (∀ place < signedCount c.workers, .join place ∈ joins) → 4 ≤ ends.count .proceed →
        (outcome words env (turns ++ joins ++ ends)).isSome := by
  refine ⟨fun acts e he => ?_, fun turns joins ends => outcome_isSome hc⟩
  have hvalidate := c.validate_eq_find
  cases hfirst : Config.checkedFields.find? fun x => x.2 c = 0 with
  | some x =>
    have hinvalid : c.validate = .error (Config.mustBePositive x.1) := by rw [hvalidate, hfirst]
    have hrefused := outcome_of_refused words hc hinvalid acts
    rw [he, Option.some.injEq] at hrefused
    have hblames : Blames words e "invalid configuration"
        ("Invalid configuration: " ++ x.1 ++ " must be greater than zero") := by
      subst hrefused
      have hchecked := List.mem_of_find?_eq_some hfirst
      exact .of_faithful hwords (by decide +kernel) (oneLine_zero hchecked) rfl rfl
    have hcode : e.code ≠ 0 := by simp [hblames.code]
    have hnot : c.validate ≠ .ok () := by simp [hinvalid]
    exact ⟨iff_of_false hcode fun h => hnot h.1, fun h => absurd h hcode,
      fun y hy => Option.some.inj hy ▸ hblames, nofun, fun h => absurd h hnot⟩
  | none =>
    have hvalid : c.validate = .ok () := by rw [hvalidate, hfirst]
    obtain ⟨htells, hconcluded⟩ := exit_of_valid hwords hc hvalid ⟨hmade, hputs⟩ he
    rw [Config.fate_eq hvalid] at htells
    by_cases hsucceeds : c.Succeeds
    · rw [if_pos hsucceeds] at htells
      exact ⟨iff_of_true htells.1 ⟨hvalid, hsucceeds⟩, fun _ => htells.2, nofun,
        fun _ hfails => absurd hsucceeds hfails, fun _ => hconcluded⟩
    · rw [if_neg hsucceeds] at htells
      have hcode : e.code ≠ 0 := by simp [htells.1]
      have hblames : Blames words e "workload failed" _ :=
        .of_faithful hwords (by decide +kernel) (oneLine_oversized _ _) htells.1 htells.2
      exact ⟨iff_of_false hcode fun h => hsucceeds h.2, fun h => absurd h hcode, nofun,
        fun _ _ => hblames, fun _ => hconcluded⟩

/-- Two workers whose payloads fit, and two whose payloads do not, where the second worker is joined
first; and a setting that is zero. -/
theorem outcome_of_schedule_of_two :
    let fits : Environment := fun _ => some [50]
    let exceeds : Environment := fun name =>
      if name = Config.capacityVariable then some [49] else some [50]
    let idle : Environment := fun name =>
      if name = Config.workersVariable then some [48] else some [50]
    let turns : List Session.Action :=
      (List.range 4).flatMap fun _ => [.turn 0, .pass 3000, .turn 1]
    let joins : List Session.Action := [.join 1, .join 0]
    let ends : List Session.Action := List.replicate 4 .proceed
    Wording.plain.Faithful ∧
      (∃ e, outcome .plain fits (turns ++ joins ++ ends) = some e ∧ e.code = 0 ∧ e.stderr = "" ∧
        Concluded .plain fits (turns ++ joins ++ ends) e) ∧
      (∃ e, outcome .plain exceeds (turns ++ joins ++ ends) = some e ∧ e.code = 1 ∧
        e.stderr = "Error: workload failed\n\nCaused by:\n    Oversized payload: " ++
          "2 bytes exceeds cache capacity of 1 bytes\n" ∧
        Concluded .plain exceeds (turns ++ joins ++ ends) e) ∧
      ∃ e, outcome .plain idle [] = some e ∧ e.code = 1 ∧
        e.stderr = "Error: invalid configuration\n\nCaused by:\n    Invalid configuration: " ++
          "WORKLOAD_WORKERS must be greater than zero\n" := by
  intro fits exceeds idle turns joins ends
  have hturns : ∀ place < 2, 4 ≤ turns.count (.turn place) := by decide
  have hjoins : ∀ place < 2, .join place ∈ joins := by decide
  have hends : 4 ≤ ends.count .proceed := by decide
  refine ⟨Wording.faithful_plain, ?_, ?_, ?_⟩
  · obtain ⟨hall, hexits⟩ := outcome_of_schedule .plain Wording.faithful_plain fits
      { capacityBytes := 2, statsInterval := 2, workers := 2, entriesPerWorker := 2, entrySize := 2 }
      (by decide +kernel) (by decide) (by decide)
    obtain ⟨e, he⟩ := Option.isSome_iff_exists.1 (hexits turns joins ends hturns hjoins hends)
    obtain ⟨hcode, hsilent, -, -, hconcluded⟩ := hall _ e he
    have hzero : e.code = 0 := hcode.2 ⟨rfl, by decide⟩
    exact ⟨e, he, hzero, hsilent hzero, hconcluded rfl⟩
  · obtain ⟨hall, hexits⟩ := outcome_of_schedule .plain Wording.faithful_plain exceeds
      { capacityBytes := 1, statsInterval := 2, workers := 2, entriesPerWorker := 2, entrySize := 2 }
      (by decide +kernel) (by decide) (by decide)
    obtain ⟨e, he⟩ := Option.isSome_iff_exists.1 (hexits turns joins ends hturns hjoins hends)
    obtain ⟨-, -, -, hfails, hconcluded⟩ := hall _ e he
    have hblames := hfails (by decide) (by decide)
    exact ⟨e, he, hblames.code, hblames.stderr.trans (by decide +kernel), hconcluded rfl⟩
  · obtain ⟨hall, -⟩ := outcome_of_schedule .plain Wording.faithful_plain idle
      { capacityBytes := 2, statsInterval := 2, workers := 0, entriesPerWorker := 2, entrySize := 2 }
      (by decide +kernel) (by decide) (by decide)
    have hexit : (outcome .plain idle []).isSome := by decide +kernel
    obtain ⟨e, he⟩ := Option.isSome_iff_exists.1 hexit
    obtain ⟨-, -, hzero, -⟩ := hall _ e he
    have hblames := hzero (Config.workersVariable, Config.workers) rfl
    exact ⟨e, he, hblames.code, hblames.stderr.trans (by decide +kernel)⟩

end Program

end LedgerCache
