import LedgerCache.Proofs.Sessions

namespace LedgerCache

namespace Session

variable {s : Session}

theorem crew_join (s : Session) (place : Nat) : (s.join place).crew = s.crew := by
  rw [join]
  split
  · split <;> rfl
  · rfl

theorem crew_proceed (s : Session) :
    s.proceed.crew = s.crew ∨ s.proceed.crew = s.crew.act .close := by
  rw [proceed]
  split
  case h_1 => exact .inl rfl
  case h_2 =>
    left
    dsimp only
    rw [Cache.cache_stats]
    split <;> rfl
  case h_3 =>
    right
    dsimp only
    split <;> rfl
  case h_4 =>
    left
    dsimp only [conclude]
    rw [Task.cache_join]
  case h_5 => exact .inl rfl

/-- What becomes of the crew are turns and closes, and each turn of a session that goes on is a turn
of the crew. -/
theorem crew_act (hrunning : ∀ e, s.stage ≠ .exited e) (a : Action) :
    ∃ acts : List Act, (s.act a).crew = s.crew.run acts ∧
      ∀ place, acts.count (.turn place) = [a].count (.turn place) := by
  rw [act_eq hrunning]
  cases a with
  | turn place =>
    exact ⟨[.turn place], (s.turn_eq place).1, fun p => by simp [List.count_cons]⟩
  | pass span => exact ⟨[], (s.pass_eq span).1, fun p => by simp⟩
  | join place => exact ⟨[], s.crew_join place, fun p => by simp⟩
  | proceed =>
    rcases s.crew_proceed with heq | heq
    · exact ⟨[], heq, fun p => by simp⟩
    · exact ⟨[.close], heq, fun p => by simp⟩

theorem crew_run (acts : List Action) (hrunning : ∀ e, (s.run acts).stage ≠ .exited e) :
    ∃ crewActs : List Act, (s.run acts).crew = s.crew.run crewActs ∧
      ∀ place, crewActs.count (.turn place) = acts.count (.turn place) := by
  induction acts generalizing s with
  | nil => exact ⟨[], rfl, fun _ => rfl⟩
  | cons a acts ih =>
    have hnow (e : Exit) (he : s.stage = .exited e) : False :=
      hrunning e (by rwa [run_of_exited he])
    obtain ⟨first, hfirst, hcount⟩ := crew_act hnow a
    obtain ⟨rest, hrest, hcounts⟩ := ih (s := s.act a) hrunning
    refine ⟨first ++ rest, ?_, fun place => ?_⟩
    · rw [Crew.run_append, ← hfirst]
      exact hrest
    · rw [List.count_append, hcount, hcounts, ← List.count_append]
      rfl

end Session

namespace Stage

/-- The places of the workers that are still to be joined. -/
def waiting : Stage → List Nat
  | .collecting waiting _ => waiting
  | _ => []

/-- How many steps the driver has left when it waits for no worker. -/
def stepsLeft : Stage → Nat
  | .collecting .. => 4
  | .collected .. => 3
  | .closing .. => 2
  | .joining .. => 1
  | .exited _ => 0

theorem stepsLeft_le (t : Stage) : t.stepsLeft ≤ 4 := by
  cases t <;> simp [stepsLeft]

/-- Joining a worker leaves the others to be joined. -/
theorem join_cases (waiting : List Nat) (total : Report) (place : Nat)
    (result : Except Failure Report) :
    (∃ more, join waiting total place result = .collecting (waiting.erase place) more) ∨
      ∃ more failure, join waiting total place result = .collected more failure := by
  cases result with
  | error f => exact .inr ⟨total, some f, rfl⟩
  | ok report =>
    rcases hmerge : total.merge report with ⟨more, _ | f⟩
    · exact .inl ⟨more, by simp only [join, hmerge]⟩
    · exact .inr ⟨more, some (.fault f), by simp only [join, hmerge]⟩

end Stage

namespace Session

variable {s : Session}

theorem exit?_isSome_iff : s.exit?.isSome ↔ s.stage.stepsLeft = 0 := by
  rw [exit?]
  cases s.stage <;> simp [Stage.stepsLeft]

/-- A step that asks nobody new to be joined and does not lead back. -/
structure Onward (before after : Stage) : Prop where
  waiting : after.waiting.Sublist before.waiting
  stepsLeft : after.stepsLeft ≤ before.stepsLeft

theorem Onward.refl (t : Stage) : Onward t t := ⟨List.Sublist.refl _, Nat.le_refl _⟩

theorem Onward.trans {t t' t'' : Stage} (h : Onward t t') (h' : Onward t' t'') : Onward t t'' :=
  ⟨h'.waiting.trans h.waiting, h'.stepsLeft.trans h.stepsLeft⟩

theorem onward_join (s : Session) (place : Nat) : Onward s.stage (s.join place).stage := by
  rw [join]
  split
  case h_1 waiting total result hstage _ =>
    split
    · rw [hstage]
      show Onward (.collecting waiting total) (.join waiting total place result)
      rcases Stage.join_cases waiting total place result with ⟨more, h⟩ | ⟨more, failure, h⟩
      · rw [h]
        exact ⟨List.erase_sublist, Nat.le_refl _⟩
      · rw [h]
        exact ⟨List.nil_sublist _, by simp [Stage.stepsLeft]⟩
    · exact .refl _
  case h_2 => exact .refl _

/-- The driver waits, or it takes one of its last steps. -/
theorem proceed_cases (s : Session) :
    s.stage.waiting ≠ [] ∧ s.proceed.stage = s.stage ∨
      s.stage.waiting = [] ∧ s.proceed.stage.waiting = [] ∧
        s.proceed.stage.stepsLeft ≤ s.stage.stepsLeft - 1 := by
  rw [proceed]
  cases hstage : s.stage with
  | collecting waiting total =>
    cases waiting with
    | nil => exact .inr ⟨rfl, rfl, by simp [Stage.stepsLeft]⟩
    | cons place places => exact .inl ⟨by simp [Stage.waiting], hstage⟩
  | collected total failure =>
    right
    dsimp only
    split
    · exact ⟨rfl, rfl, Nat.zero_le _⟩
    · exact ⟨rfl, rfl, by simp [Stage.stepsLeft]⟩
  | closing total failure stats =>
    right
    dsimp only
    split
    · exact ⟨rfl, rfl, Nat.zero_le _⟩
    · exact ⟨rfl, rfl, by simp [Stage.stepsLeft]⟩
  | joining total failure stats => exact .inr ⟨rfl, rfl, Nat.zero_le _⟩
  | exited e => exact .inr ⟨rfl, by rw [hstage]; rfl, by rw [hstage]; exact Nat.zero_le _⟩

theorem onward_proceed (s : Session) : Onward s.stage s.proceed.stage := by
  rcases s.proceed_cases with ⟨-, h⟩ | ⟨-, hnone, hleft⟩
  · rw [h]
    exact .refl _
  · exact ⟨hnone ▸ List.nil_sublist _, hleft.trans (Nat.sub_le _ _)⟩

theorem act_join (s : Session) (place : Nat) : s.act (.join place) = s.join place := by
  cases hstage : s.stage <;> simp only [act, join, hstage]

theorem act_proceed (s : Session) : s.act .proceed = s.proceed := by
  cases hstage : s.stage <;> simp only [act, proceed, hstage]

theorem onward_act (s : Session) (a : Action) : Onward s.stage (s.act a).stage := by
  by_cases hexited : ∃ e, s.stage = .exited e
  · obtain ⟨e, he⟩ := hexited
    rw [act_of_exited he]
    exact .refl _
  · rw [act_eq fun e he => hexited ⟨e, he⟩]
    cases a with
    | turn place => exact (s.turn_eq place).2.1 ▸ .refl _
    | pass span => exact (s.pass_eq span).2.1 ▸ .refl _
    | join place => exact s.onward_join place
    | proceed => exact s.onward_proceed

theorem onward_run (s : Session) (acts : List Action) : Onward s.stage (s.run acts).stage := by
  induction acts generalizing s with
  | nil => exact .refl _
  | cons a acts ih => exact (s.onward_act a).trans (ih (s.act a))

/-- Once all workers are joined, so many steps of the driver bring it to its exit. -/
theorem stepsLeft_run (hnone : s.stage.waiting = []) (acts : List Action) :
    (s.run acts).stage.stepsLeft ≤ s.stage.stepsLeft - acts.count .proceed := by
  induction acts generalizing s with
  | nil => exact Nat.le_refl _
  | cons a acts ih =>
    have honward := s.onward_act a
    have hnext := ih (s := s.act a) (List.sublist_nil.1 (hnone ▸ honward.waiting))
    have hleft := honward.stepsLeft
    rw [List.count_cons, beq_eq_decide]
    by_cases ha : a = .proceed
    · subst ha
      rcases s.proceed_cases with ⟨hne, -⟩ | ⟨-, -, hstep⟩
      · exact absurd hnone hne
      · rw [← act_proceed] at hstep
        refine hnext.trans ?_
        simp only [decide_true, if_true]
        omega
    · refine hnext.trans ?_
      simp only [ha, decide_false, Bool.false_eq_true, if_false]
      omega

/-- A worker that is done is joined at once. -/
theorem not_mem_waiting_join (hdone : s.crew.Finished) {place : Nat}
    (hplace : place < s.crew.workers.length) (hnodup : s.stage.waiting.Nodup) :
    place ∉ (s.act (.join place)).stage.waiting := by
  obtain ⟨result, hresult⟩ := Option.isSome_iff_exists.1 (hdone _ (List.getElem_mem hplace))
  have hget : s.crew.workers[place]?.bind Worker.result = some result := by
    rw [List.getElem?_eq_getElem hplace]
    exact hresult
  rw [act_join, join, hget]
  cases hstage : s.stage with
  | collecting waiting total =>
    rw [hstage] at hnodup
    dsimp only
    split
    · show place ∉ (Stage.join waiting total place result).waiting
      rcases Stage.join_cases waiting total place result with ⟨more, h⟩ | ⟨more, failure, h⟩
      · rw [h]
        exact hnodup.not_mem_erase
      · rw [h]
        exact List.not_mem_nil
    · next hout =>
      rw [hstage]
      exact hout
  | _ =>
    rw [hstage]
    exact List.not_mem_nil

/-- The crew stays finished, and no worker is lost. -/
theorem finished_run (hdone : s.crew.Finished) (acts : List Action)
    (hrunning : ∀ e, (s.run acts).stage ≠ .exited e) :
    (s.run acts).crew.Finished ∧
      (s.run acts).crew.workers.length = s.crew.workers.length := by
  obtain ⟨crewActs, hcrew, -⟩ := crew_run acts hrunning
  rw [hcrew]
  refine ⟨s.crew.finished_run fun place w hw => ?_, s.crew.length_run crewActs⟩
  rw [w.remaining_eq_zero_iff.2 (hdone w (List.mem_of_getElem? hw))]
  exact Nat.zero_le _

/-- Once all workers are done, a join of each leaves nobody to be joined. -/
theorem waiting_run (hdone : s.crew.Finished) (hnodup : s.stage.waiting.Nodup)
    (hplaces : ∀ place ∈ s.stage.waiting, place < s.crew.workers.length) {acts : List Action}
    (hjoins : ∀ place ∈ s.stage.waiting, .join place ∈ acts) :
    (s.run acts).stage.waiting = [] := by
  rw [List.eq_nil_iff_forall_not_mem]
  intro place hwaits
  have hmem := (s.onward_run acts).waiting.mem hwaits
  obtain ⟨before, behind, rfl⟩ := List.append_of_mem (hjoins place hmem)
  have hrunning : ∀ e, (s.run before).stage ≠ .exited e := by
    intro e he
    rw [run_append, run_of_exited he, he] at hwaits
    cases hwaits
  obtain ⟨hdone', hlength⟩ := finished_run hdone before hrunning
  have hnodup' := hnodup.sublist (s.onward_run before).waiting
  refine not_mem_waiting_join hdone' (hlength ▸ hplaces place hmem) hnodup' ?_
  rw [run_append] at hwaits
  exact (((s.run before).act (.join place)).onward_run behind).waiting.mem hwaits

/-- With turns for all calls that the workers may make, then a join of each worker that the driver
waits for, then four steps of the driver, the session comes to its exit, whatever else happens. -/
theorem exits {turns joins ends : List Action} (hnodup : s.stage.waiting.Nodup)
    (hplaces : ∀ place ∈ s.stage.waiting, place < s.crew.workers.length)
    (hturns : ∀ place w, s.crew.workers[place]? = some w →
      w.remaining ≤ turns.count (.turn place))
    (hjoins : ∀ place ∈ s.stage.waiting, .join place ∈ joins)
    (hends : 4 ≤ ends.count .proceed) : (s.run (turns ++ joins ++ ends)).exit?.isSome := by
  rw [exit?_isSome_iff, run_append, run_append, ← Nat.le_zero]
  by_cases hexited : ∃ e, (s.run turns).stage = .exited e
  · obtain ⟨e, he⟩ := hexited
    rw [run_of_exited he, run_of_exited he, he]
    exact Nat.le_refl _
  obtain ⟨crewActs, hcrew, hcount⟩ := crew_run turns fun e he => hexited ⟨e, he⟩
  have hdone : (s.run turns).crew.Finished := by
    rw [hcrew]
    refine s.crew.finished_run fun place w hw => ?_
    rw [hcount]
    exact hturns place w hw
  have honward := s.onward_run turns
  have hlength : (s.run turns).crew.workers.length = s.crew.workers.length := by
    rw [hcrew, Crew.length_run]
  have hnone : ((s.run turns).run joins).stage.waiting = [] := by
    refine waiting_run hdone (hnodup.sublist honward.waiting) (fun place hplace => ?_)
      fun place hplace => hjoins place (honward.waiting.mem hplace)
    rw [hlength]
    exact hplaces place (honward.waiting.mem hplace)
  have hleft := stepsLeft_run hnone ends
  have hfour := ((s.run turns).run joins).stage.stepsLeft_le
  omega

end Session

end LedgerCache
