import LedgerCache.Clients
import LedgerCache.Proofs.Runs

namespace LedgerCache

namespace Cache

variable {nominate : Nomination} {c : Cache nominate} {key : Key} {payload : Payload} {size : Nat}

/-- A cache whose flag says that it is closed has nothing left. -/
def Coherent (c : Cache nominate) : Prop := c.closed = true → c.resident = none

theorem check_resident (c : Cache nominate) (held : Option Resident) (key : Key) (size : Nat) :
    check ({ c with resident := held } : Cache nominate) key size =
      ⟨(c.check key size).result, { (c.check key size).cache with resident := held },
        (c.check key size).events, (c.check key size).calls⟩ := by
  have hsame : objection ({ c with resident := held } : Cache nominate) key size =
      c.objection key size := rfl
  rw [check, check, hsame]
  cases hv : c.objection key size with
  | none => rfl
  | some e => cases e <;> rfl

/-- The check looks at no more than the flag and the capacity, and may count a rejection. -/
theorem check_cache (c : Cache nominate) (key : Key) (size : Nat) :
    (c.check key size).cache = { c with counters := (c.check key size).cache.counters } := by
  rw [check]
  cases hv : c.objection key size with
  | none => rfl
  | some e => cases e <;> rfl

theorem fits_of_check {u : Unit} (h : (c.check key size).result = .ok u) :
    (c.check key size).cache = c ∧ 0 ≤ key.owner ∧ 0 < size ∧ size ≤ c.capacity.toNat := by
  rw [check] at h ⊢
  cases hv : c.objection key size with
  | some e => cases e <;> simp [hv, refuseClosed, reject] at h
  | none =>
    refine ⟨rfl, ?_⟩
    rw [objection] at hv
    split_ifs at hv with hclosed howner hsize hcapacity
    exact ⟨Int64.not_lt.1 howner, Nat.pos_of_ne_zero hsize, Nat.not_lt.1 hcapacity⟩

theorem put_of_check_error {f : Failure} (h : (c.check key payload.size).result = .error f) :
    c.put key payload = c.check key payload.size := by
  rw [put, Step.andThen, h]
  show { c.check key payload.size with result := .error f } = _
  rw [← h]

/-- A put that once passed its check is as good as one that is checked again. -/
theorem put_of_fits (hc : c.Coherent) (howner : 0 ≤ key.owner) (hsize : 0 < payload.size)
    (hcapacity : payload.size ≤ c.capacity.toNat) : c.put key payload = c.accept key payload := by
  cases hclosed : c.closed with
  | true => rw [put_of_closed hclosed, accept, hc hclosed]
  | false =>
    apply put_of_no_objection
    rw [objection, if_neg (by simp [hclosed]), if_neg (Int64.not_lt.2 howner), if_neg hsize.ne',
      if_neg (Nat.not_lt.2 hcapacity)]

theorem accept_cache (c : Cache nominate) (key : Key) (payload : Payload) :
    (c.accept key payload).cache.capacity = c.capacity ∧
      (c.accept key payload).cache.closed = c.closed ∧
      (c.resident = none → (c.accept key payload).cache.resident = none) := by
  cases hr : c.resident with
  | none => simp [accept, hr, refuseClosed]
  | some r =>
    simp only [accept, hr]
    split
    · simp
    · simp [reject]
    · split <;> simp

theorem put_cache (c : Cache nominate) (key : Key) (payload : Payload) :
    (c.put key payload).cache.capacity = c.capacity ∧
      (c.put key payload).cache.closed = c.closed ∧
      (c.resident = none → (c.put key payload).cache.resident = none) := by
  cases hresult : (c.check key payload.size).result with
  | error f =>
    rw [put_of_check_error hresult, check_cache]
    exact ⟨rfl, rfl, id⟩
  | ok u =>
    rw [put, Step.andThen, hresult]
    show (((c.check key payload.size).cache.accept key payload).cache.capacity = _) ∧ _
    rw [(fits_of_check hresult).1]
    exact c.accept_cache key payload

theorem finishClose_cache (c : Cache nominate) (r : Resident) :
    (c.finishClose r).cache = { c with closed := true } := by
  rw [finishClose]
  split <;> rfl

theorem close_giveBack (c : Cache nominate) (r : Resident) (hr : c.resident = none) :
    close ({ c with resident := some r } : Cache nominate) = c.finishClose r := by
  show finishClose ({ c with resident := none } : Cache nominate) r = _
  rw [← hr]

theorem perform_cache (c : Cache nominate) (op : Operation) :
    (c.perform op).cache.capacity = c.capacity ∧ (c.Coherent → (c.perform op).cache.Coherent) := by
  by_cases hop : op.changes = false
  · have hkeeps := (c.silent_perform hop).keeps
    rw [Step.Keeps] at hkeeps
    rw [hkeeps]
    exact ⟨rfl, id⟩
  cases op with
  | put key payload =>
    obtain ⟨hcapacity, hclosed, hresident⟩ := c.put_cache key payload
    refine ⟨hcapacity, fun hc h => hresident (hc ?_)⟩
    rw [← hclosed]
    exact h
  | close =>
    rw [perform, Step.cache_map, close]
    split
    · exact ⟨rfl, id⟩
    · rw [finishClose_cache]
      exact ⟨rfl, fun _ _ => rfl⟩
  | _ => exact absurd rfl hop

theorem after_cache (c : Cache nominate) (ops : List Operation) :
    (c.after ops).capacity = c.capacity ∧ (c.Coherent → (c.after ops).Coherent) := by
  induction ops generalizing c with
  | nil => exact ⟨rfl, id⟩
  | cons op ops ih =>
    obtain ⟨hcapacity, hcoherent⟩ := c.perform_cache op
    obtain ⟨hcapacity', hcoherent'⟩ := ih (c.perform op).cache
    exact ⟨hcapacity'.trans hcapacity, fun hc => hcoherent' (hcoherent hc)⟩

theorem run_append (c : Cache nominate) (ops more : List Operation) :
    c.run (ops ++ more) = c.run ops ++ (c.after ops).run more := by
  induction ops generalizing c with
  | nil => rfl
  | cons op ops ih =>
    rw [List.cons_append, run, run, ih, List.cons_append]
    rfl

/-- The cache with the resident set that a close has taken. -/
def giveBack (c : Cache nominate) : Option (Nat × Resident) → Cache nominate
  | none => c
  | some (_, r) => { c with resident := some r }

end Cache

namespace Clients

variable {nominate : Nomination}

/-- The cache without the close that is under way. -/
def settled (s : Clients nominate) : Cache nominate := s.cache.giveBack s.lock

/-- The calls that have returned answered as in a run of `c` that makes them one after another, and
the cache is what that run leaves. -/
structure Linearizes (c : Cache nominate) (programs : List (List Operation)) (s : Clients nominate) :
    Prop where
  outcomes : s.log.map (·.outcome) = (c.run s.operations).map Step.outcome
  settled : c.after s.operations = s.settled
  taken : ∀ holder r, s.lock = some (holder, r) →
    s.cache.resident = none ∧ s.cache.closed = false
  checked : ∀ client ∈ s.clients, ∀ key payload, client.checked = some (key, payload) →
    0 ≤ key.owner ∧ 0 < payload.size ∧ payload.size ≤ c.capacity.toNat
  ordered : ∀ place, s.operationsOf place ++ s.pendingOf place = (programs[place]?).getD []

namespace Linearizes

variable {c : Cache nominate} {programs : List (List Operation)} {s s' : Clients nominate}
  {place : Nat} {client client' : Client} {op : Operation} {t : Step nominate Reply}

theorem start (c : Cache nominate) (programs : List (List Operation)) :
    Linearizes c programs (.start c programs) where
  outcomes := rfl
  settled := rfl
  taken := by
    intro holder r h
    cases h
  checked := by
    intro client hclient key payload h
    obtain ⟨todo, -, rfl⟩ := List.mem_map.1 hclient
    cases h
  ordered := by
    intro place
    cases h : programs[place]? <;> simp [Clients.start, operationsOf, pendingOf, h, Client.calls]

theorem capacity (hs : Linearizes c programs s) : s.cache.capacity = c.capacity := by
  have hcapacity := (c.after_cache s.operations).1
  rw [hs.settled, Clients.settled] at hcapacity
  cases hlock : s.lock <;> simpa [hlock, Cache.giveBack] using hcapacity

theorem coherent (hs : Linearizes c programs s) (hc : c.Coherent) : s.cache.Coherent := by
  have hcoherent := (c.after_cache s.operations).2 hc
  rw [hs.settled, Clients.settled] at hcoherent
  cases hlock : s.lock with
  | none => simpa [hlock, Cache.giveBack] using hcoherent
  | some holder =>
    intro _
    exact (hs.taken holder.1 holder.2 hlock).1

/-- What a client does that passes its turn on with `done` behind it, or with nothing. -/
theorem pendingOf_eq (done : List Operation) (hclient : s.clients[place]? = some client)
    (hset : s'.clients = s.clients.set place client')
    (hlock : ∀ p, p ≠ place → s'.lock.any (·.1 = p) = s.lock.any (·.1 = p))
    (hcalls : (if s.lock.any (·.1 = place) then [.close] else []) ++ client.calls =
      done ++ ((if s'.lock.any (·.1 = place) then [.close] else []) ++ client'.calls)) (p : Nat) :
    s.pendingOf p = (if p = place then done else []) ++ s'.pendingOf p := by
  have hlt := (List.getElem?_eq_some_iff.1 hclient).1
  rw [pendingOf, pendingOf, hset]
  by_cases hp : p = place
  · subst hp
    rw [if_pos rfl, hclient, List.getElem?_set_self hlt]
    exact hcalls
  · rw [if_neg hp, List.getElem?_set_ne (Ne.symm hp), hlock p hp, List.nil_append]

/-- A step with which no call returns. -/
theorem begins (hs : Linearizes c programs s) (hclient : s.clients[place]? = some client)
    (hset : s'.clients = s.clients.set place client') (hlog : s'.log = s.log)
    (hlock : ∀ p, p ≠ place → s'.lock.any (·.1 = p) = s.lock.any (·.1 = p))
    (hcalls : (if s.lock.any (·.1 = place) then [.close] else []) ++ client.calls =
      (if s'.lock.any (·.1 = place) then [.close] else []) ++ client'.calls)
    (hsettled : s'.settled = s.settled)
    (htaken : ∀ holder r, s'.lock = some (holder, r) →
      s'.cache.resident = none ∧ s'.cache.closed = false)
    (hchecked : ∀ key payload, client'.checked = some (key, payload) →
      0 ≤ key.owner ∧ 0 < payload.size ∧ payload.size ≤ c.capacity.toNat) :
    Linearizes c programs s' where
  outcomes := by
    rw [operations, hlog]
    exact hs.outcomes
  settled := by
    rw [operations, hlog, hsettled]
    exact hs.settled
  taken := htaken
  checked := by
    intro other hother
    rw [hset] at hother
    rcases List.mem_or_eq_of_mem_set hother with hother | rfl
    · exact hs.checked other hother
    · exact hchecked
  ordered := by
    intro p
    have hpending := pendingOf_eq [] hclient hset hlock hcalls p
    rw [ite_self, List.nil_append] at hpending
    rw [operationsOf, hlog, ← hpending]
    exact hs.ordered p

/-- A step with which a call returns that would have answered the same in one step. -/
theorem answers (hs : Linearizes c programs s) (hclient : s.clients[place]? = some client)
    (hset : s'.clients = s.clients.set place client')
    (hlog : s'.log = s.log ++ [⟨place, op, t.outcome⟩])
    (hlock : ∀ p, p ≠ place → s'.lock.any (·.1 = p) = s.lock.any (·.1 = p))
    (hcalls : (if s.lock.any (·.1 = place) then [.close] else []) ++ client.calls =
      op :: ((if s'.lock.any (·.1 = place) then [.close] else []) ++ client'.calls))
    (hstep : (s.settled.perform op).outcome = t.outcome ∧
      (s.settled.perform op).cache = s'.settled)
    (htaken : ∀ holder r, s'.lock = some (holder, r) →
      s'.cache.resident = none ∧ s'.cache.closed = false)
    (hchecked : client'.checked = none ∨ client' = client) :
    Linearizes c programs s' where
  outcomes := by
    rw [operations, hlog, List.map_append, List.map_append, Cache.run_append, List.map_append]
    show _ = (c.run s.operations).map _ ++ ((c.after s.operations).run [op]).map _
    rw [← hs.outcomes, hs.settled]
    exact congrArg (_ ++ [·]) hstep.1.symm
  settled := by
    rw [operations, hlog, List.map_append, Cache.after_append]
    show (c.after s.operations).after [op] = _
    rw [hs.settled]
    exact hstep.2
  taken := htaken
  checked := by
    intro other hother key payload hput
    rw [hset] at hother
    rcases List.mem_or_eq_of_mem_set hother with hother | rfl
    · exact hs.checked other hother key payload hput
    · rcases hchecked with hnone | rfl
      · rw [hnone] at hput
        cases hput
      · exact hs.checked _ (List.mem_of_getElem? hclient) key payload hput
  ordered := by
    intro p
    have hpending := pendingOf_eq [op] hclient hset hlock hcalls p
    have hdone : s'.operationsOf p = s.operationsOf p ++ if p = place then [op] else [] := by
      rw [operationsOf, hlog]
      by_cases hp : p = place <;> simp [operationsOf, hp, eq_comm]
    rw [hdone, List.append_assoc, ← hpending]
    exact hs.ordered p

/-- A step of a client that does not hold the lock, with which a call returns. -/
theorem answer (hs : Linearizes c programs s) {todo : List Operation}
    (hclient : s.clients[place]? = some client) (hheld : s.lock.any (·.1 = place) = false)
    (hcalls : client.calls = op :: todo)
    (hstep : (s.settled.perform op).outcome = t.outcome ∧
      (s.settled.perform op).cache = t.cache.giveBack s.lock)
    (htaken : s.lock ≠ none → t.cache.resident = s.cache.resident ∧ t.cache.closed = s.cache.closed) :
    Linearizes c programs (s.answer place { todo } op t) := by
  refine hs.answers hclient rfl rfl (fun _ _ => rfl) ?_ hstep ?_ (.inl rfl)
  · rw [hcalls]
    show (if s.lock.any (·.1 = place) then [.close] else []) ++ _ =
      op :: ((if s.lock.any (·.1 = place) then [.close] else []) ++ _)
    rw [hheld]
    rfl
  · intro holder r hlock
    obtain ⟨hresident, hclosed⟩ := htaken (by rw [show s.lock = _ from hlock]; simp)
    show t.cache.resident = none ∧ t.cache.closed = false
    rw [hresident, hclosed]
    exact hs.taken holder r hlock

/-- A put that fails its check answers as if it had been made in one step, though a close may be
under way. -/
theorem check_error (hs : Linearizes c programs s) {key : Key} {payload : Payload}
    {todo : List Operation} {f : Failure} (hclient : s.clients[place]? = some client)
    (hheld : s.lock.any (·.1 = place) = false)
    (hcalls : client.calls = .put key payload :: todo)
    (hcheck : (s.cache.check key payload.size).result = .error f) :
    Linearizes c programs (s.answer place { todo } (.put key payload)
      ((s.cache.check key payload.size).map fun _ => .done)) := by
  have hput : s.settled.put key payload =
      ⟨(s.cache.check key payload.size).result,
        (s.cache.check key payload.size).cache.giveBack s.lock,
        (s.cache.check key payload.size).events, (s.cache.check key payload.size).calls⟩ := by
    rw [Clients.settled]
    cases hlock : s.lock with
    | none => exact Cache.put_of_check_error hcheck
    | some holder =>
      have hsame := s.cache.check_resident (some holder.2) key payload.size
      have hcheck' : (Cache.check (s.cache.giveBack (some holder)) key payload.size).result =
          .error f := by
        rw [Cache.giveBack, hsame]
        exact hcheck
      rw [Cache.put_of_check_error hcheck', Cache.giveBack, hsame]
      rfl
  apply hs.answer hclient hheld hcalls
  · rw [Cache.perform, hput]
    exact ⟨rfl, rfl⟩
  · intro _
    rw [Step.cache_map, Cache.check_cache]
    exact ⟨rfl, rfl⟩

/-- An operation of one step. -/
theorem perform (hs : Linearizes c programs s) {todo : List Operation}
    (hclient : s.clients[place]? = some client) (hheld : s.lock.any (·.1 = place) = false)
    (hcalls : client.calls = op :: todo) (hfree : s.lock = none ∨ op.locks = false)
    (hop : op.changes = false ∨ s.lock = none) :
    Linearizes c programs (s.answer place { todo } op (s.cache.perform op)) := by
  apply hs.answer hclient hheld hcalls
  · rw [Clients.settled]
    cases hlock : s.lock with
    | none => exact ⟨rfl, rfl⟩
    | some holder =>
      rw [hlock] at hfree hop
      cases op with
      | capacity => exact ⟨rfl, rfl⟩
      | isClosed => exact ⟨rfl, rfl⟩
      | put => simp [Operation.changes] at hop
      | _ => simp [Operation.locks] at hfree
  · intro hlock
    have hkeeps := (s.cache.silent_perform (hop.resolve_right hlock)).keeps
    rw [hkeeps]
    exact ⟨rfl, rfl⟩

theorem accept (hs : Linearizes c programs s) (hc : c.Coherent) {key : Key} {payload : Payload}
    (hclient : s.clients[place]? = some client) (hfree : s.lock = none)
    (hput : client.checked = some (key, payload)) :
    Linearizes c programs (s.answer place { todo := client.todo } (.put key payload)
      ((s.cache.accept key payload).map fun _ => .done)) := by
  obtain ⟨howner, hsize, hcapacity⟩ :=
    hs.checked client (List.mem_of_getElem? hclient) key payload hput
  rw [← hs.capacity] at hcapacity
  have haccept := Cache.put_of_fits (hs.coherent hc) howner hsize hcapacity
  apply hs.answer hclient
  · rw [hfree]
    rfl
  · rw [Client.calls, hput]
    rfl
  · rw [Clients.settled, hfree, Cache.giveBack, Cache.perform, haccept]
    exact ⟨rfl, rfl⟩
  · intro hlock
    exact absurd hfree hlock

theorem check_ok (hs : Linearizes c programs s) {key : Key} {payload : Payload}
    {todo : List Operation} {u : Unit} (hclient : s.clients[place]? = some client)
    (hcalls : client.calls = .put key payload :: todo)
    (hcheck : (s.cache.check key payload.size).result = .ok u) :
    Linearizes c programs { s with
      clients := s.clients.set place { checked := some (key, payload), todo }
      cache := (s.cache.check key payload.size).cache } := by
  obtain ⟨hcache, hfits⟩ := Cache.fits_of_check hcheck
  rw [hcache]
  refine hs.begins hclient rfl rfl (fun _ _ => rfl) ?_ rfl hs.taken ?_
  · rw [hcalls]
    rfl
  · intro key' payload' h
    cases h
    rw [← hs.capacity]
    exact hfits

theorem take (hs : Linearizes c programs s) {todo : List Operation} {r : Resident}
    (hc : c.Coherent) (hclient : s.clients[place]? = some client) (hfree : s.lock = none)
    (hcalls : client.calls = .close :: todo) (hr : s.cache.resident = some r) :
    Linearizes c programs { s with
      clients := s.clients.set place { todo }
      cache := { s.cache with resident := none }
      lock := some (place, r) } := by
  refine hs.begins hclient rfl rfl ?_ ?_ ?_ ?_ ?_
  · intro p hp
    simp [hfree, hp.symm]
  · rw [hfree, hcalls]
    simp [Client.calls]
  · rw [Clients.settled, Clients.settled, hfree, Cache.giveBack, Cache.giveBack, ← hr]
  · intro holder r' _
    refine ⟨rfl, ?_⟩
    cases hclosed : s.cache.closed with
    | false => rfl
    | true =>
      rw [hs.coherent hc hclosed] at hr
      cases hr
  · intro key payload h
    cases h

theorem proceed (hs : Linearizes c programs s) (hc : c.Coherent)
    (hclient : s.clients[place]? = some client) (hheld : s.lock.any (·.1 = place) = false)
    (hfree : s.lock = none ∨ client.waits = false) :
    Linearizes c programs (s.proceed place client) := by
  obtain ⟨checked, todo⟩ := client
  unfold Clients.proceed
  cases checked with
  | some x =>
    apply hs.accept hc hclient (hfree.resolve_right (by simp [Client.waits])) rfl
  | none =>
    cases todo with
    | nil => exact hs
    | cons op todo =>
      cases op with
      | put key payload =>
        dsimp only
        split
        · next hcheck => exact hs.check_ok hclient rfl hcheck
        · next hcheck => exact hs.check_error hclient hheld rfl hcheck
      | close =>
        have hfree := hfree.resolve_right (by simp [Client.waits, Operation.locks])
        dsimp only
        split
        · next hr =>
          have hclose : s.cache.perform .close = s.cache.refuseClosed := by
            rw [Cache.perform, Cache.close, hr]
            rfl
          rw [← hclose]
          exact hs.perform hclient hheld rfl (.inl hfree) (.inr hfree)
        · next r hr => exact hs.take hc hclient hfree rfl hr
      | _ => exact hs.perform hclient hheld rfl hfree (.inl rfl)

theorem turn (hs : Linearizes c programs s) (hc : c.Coherent) (place : Nat) :
    Linearizes c programs (s.turn place) := by
  unfold Clients.turn
  split
  · exact hs
  · next client hclient =>
    split
    · next hfree => exact hs.proceed hc hclient (by rw [hfree]; rfl) (.inl hfree)
    · next holder r hlock =>
      by_cases hholder : holder = place
      · rw [if_pos hholder]
        subst hholder
        refine hs.answers hclient rfl rfl ?_ ?_ ?_ ?_ (.inr rfl)
        · intro p hp
          simp [hlock, hp.symm]
        · simp [hlock]
        · have hclose := s.cache.close_giveBack r (hs.taken _ r hlock).1
          rw [Clients.settled, hlock, Cache.giveBack, Cache.perform, hclose]
          exact ⟨rfl, rfl⟩
        · intro holder' r' h
          cases h
      · rw [if_neg hholder]
        have hheld : s.lock.any (·.1 = place) = false := by simp [hlock, hholder]
        by_cases hwaits : client.waits
        · rw [if_pos hwaits]
          exact hs
        · rw [if_neg hwaits]
          exact hs.proceed hc hclient hheld (.inr (by simpa using hwaits))

theorem run (hs : Linearizes c programs s) (hc : c.Coherent) (schedule : List Nat) :
    Linearizes c programs (s.run schedule) := by
  induction schedule generalizing s with
  | nil => exact hs
  | cons place schedule ih => exact ih (hs.turn hc place)

end Linearizes

/-- Whatever steps of other clients come between the steps of a put or of a close, all calls answer
as in a run of one call after another, in the order in which they returned, and the cache is what
that run leaves; a close that is under way has taken the resident set and done nothing else. Each
client's calls return in its own order. A put that is admitted after a close though it was checked
before is refused, and nothing else comes of it. -/
theorem run_linearizes (capacity : UInt64) (hc : 0 < capacity)
    (programs : List (List Operation)) (schedule : List Nat) :
    ∃ opened, Cache.create nominate capacity = .ok opened ∧
      let s := (Clients.start opened.cache programs).run schedule
      s.log.map (·.outcome) = (opened.cache.run s.operations).map Step.outcome ∧
      (opened.cache.after s.operations).counters = s.cache.counters ∧
      (s.lock = none → opened.cache.after s.operations = s.cache) ∧
      (∀ holder r, s.lock = some (holder, r) →
        opened.cache.after s.operations = { s.cache with resident := some r } ∧
          s.cache.resident = none ∧ s.cache.closed = false) ∧
      (∀ place, s.operationsOf place ++ s.pendingOf place = (programs[place]?).getD []) ∧
      ∀ place client key payload, s.clients[place]? = some client →
        client.checked = some (key, payload) → s.cache.closed = true →
        (s.turn place).cache = s.cache ∧
          (s.turn place).log =
            s.log ++ [⟨place, .put key payload, ⟨.error (.refused .closed), [], []⟩⟩] := by
  refine ⟨_, Cache.create_eq hc {}, ?_⟩
  intro s
  have hcoherent : (Cache.opened nominate capacity).Coherent := fun h => by cases h
  have hs : Linearizes (Cache.opened nominate capacity) programs s :=
    (Linearizes.start _ programs).run hcoherent schedule
  refine ⟨hs.outcomes, ?_, fun hlock => ?_, fun holder r hlock => ?_, hs.ordered, ?_⟩
  · rw [hs.settled, settled]
    cases s.lock <;> rfl
  · rw [hs.settled, settled, hlock]
    rfl
  · rw [hs.settled, settled, hlock]
    exact ⟨rfl, hs.taken holder r hlock⟩
  · intro place client key payload hclient hput hclosed
    have hlock : s.lock = none := by
      apply Option.eq_none_iff_forall_not_mem.2
      rintro ⟨holder, r⟩ hlock
      rw [(hs.taken holder r hlock).2] at hclosed
      cases hclosed
    have hresident := hs.coherent hcoherent hclosed
    have haccept : s.cache.accept key payload = s.cache.refuseClosed := by
      rw [Cache.accept, hresident]
    have hturn : s.turn place = s.answer place { todo := client.todo } (.put key payload)
        ((s.cache.accept key payload).map fun _ => .done) := by
      simp only [turn, hclient, hlock, proceed, hput]
    rw [hturn, haccept]
    exact ⟨rfl, rfl⟩

/-- Client 0 has its put checked before the close of client 1 and admitted after it; between the two
steps of the close client 2 is refused another put and still finds the flag unset. -/
theorem run_linearizes_of_three :
    let programs : List (List Operation) := [[.put ⟨1, 0⟩ #[7], .get ⟨1, 0⟩], [.close],
      [.put ⟨-1, 0⟩ #[8], .isClosed]]
    let s := (start (Cache.opened .oldestFirst 4) programs).run [0, 1, 2, 0, 2, 1]
    (0 : UInt64) < 4 ∧ s.operations = [.put ⟨-1, 0⟩ #[8], .isClosed, .close] ∧
      s.cache.closed = true ∧
      s.log.map (·.outcome) =
        ((Cache.opened .oldestFirst 4).run s.operations).map Step.outcome ∧
      (s.turn 0).cache = s.cache ∧
      (s.turn 0).log =
        s.log ++ [⟨0, .put ⟨1, 0⟩ #[7], ⟨.error (.refused .closed), [], []⟩⟩] := by
  intro programs s
  obtain ⟨opened, hopened, houtcomes, -, -, -, -, hlate⟩ :=
    @run_linearizes .oldestFirst 4 (by decide) programs [0, 1, 2, 0, 2, 1]
  have hcache : opened.cache = Cache.opened .oldestFirst 4 := by
    rw [Cache.create_eq (by decide)] at hopened
    cases hopened
    rfl
  rw [hcache] at houtcomes hlate
  have hrefused := hlate 0 ⟨some (⟨1, 0⟩, #[7]), [.get ⟨1, 0⟩]⟩ ⟨1, 0⟩ #[7] (by decide +kernel) rfl
    (by decide +kernel)
  exact ⟨by decide, by decide +kernel, by decide +kernel, houtcomes, hrefused⟩

end Clients

end LedgerCache
