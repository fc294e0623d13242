import LedgerCache.Operation
import LedgerCache.Reporter

namespace LedgerCache

namespace Supervised

/-- What the owner does next. -/
inductive Action where
  | sleep (span : Nat)
  | abort
  | perform (op : Operation)
  deriving DecidableEq, Repr

/-- What comes of an action. -/
structure Effect (nominate : Nomination) where
  after : Supervised nominate
  /-- The step of the cache, if the action is an operation. -/
  step : Option (Step nominate Reply) := none
  events : List Timed := []

variable {nominate : Nomination}

def act (s : Supervised nominate) : Action → Effect nominate
  | .sleep span =>
    let (after, events) := s.sleep span
    { after, events }
  | .abort => { after := s.abort }
  | .perform op =>
    let t := s.cache.perform op
    { after := { s with cache := t.cache }, step := some t,
      events := t.events.map (Timed.mk s.clock) }

/-- The effects of a run, one for each action. -/
def run (s : Supervised nominate) : List Action → List (Effect nominate)
  | [] => []
  | a :: acts =>
    let e := s.act a
    e :: e.after.run acts

/-- The supervised cache after a run. -/
def after (s : Supervised nominate) (acts : List Action) : Supervised nominate :=
  acts.foldl (fun s a => (s.act a).after) s

/-- What is emitted in a run. -/
def emitted (s : Supervised nominate) (acts : List Action) : List Timed :=
  (s.run acts).flatMap (·.events)

/-- What is emitted in a run and in the shutdown behind it. -/
def log (s : Supervised nominate) (acts : List Action) : List Timed :=
  s.emitted acts ++ (s.after acts).closeAndJoin.events

namespace Action

/-- The operations among the actions. -/
def operations : List Action → List Operation
  | [] => []
  | .perform op :: acts => op :: operations acts
  | _ :: acts => operations acts

/-- How much time passes. -/
def duration : List Action → Nat
  | [] => 0
  | .sleep span :: acts => span + duration acts
  | _ :: acts => duration acts

/-- The operations before the sleep in which so much time has passed, or all of them if it never
has. -/
def operationsBefore (time : Nat) : List Action → List Operation
  | [] => []
  | .sleep span :: acts => if time ≤ span then [] else operationsBefore (time - span) acts
  | .abort :: acts => operationsBefore time acts
  | .perform op :: acts => op :: operationsBefore time acts

end Action

theorem after_append (s : Supervised nominate) (acts more : List Action) :
    s.after (acts ++ more) = (s.after acts).after more := List.foldl_append

theorem emitted_cons (s : Supervised nominate) (a : Action) (acts : List Action) :
    s.emitted (a :: acts) = (s.act a).events ++ (s.act a).after.emitted acts := rfl

theorem emitted_append (s : Supervised nominate) (acts more : List Action) :
    s.emitted (acts ++ more) = s.emitted acts ++ (s.after acts).emitted more := by
  induction acts generalizing s with
  | nil => rfl
  | cons a acts ih =>
    rw [List.cons_append, emitted_cons, emitted_cons, ih, List.append_assoc]
    rfl

end Supervised

end LedgerCache
