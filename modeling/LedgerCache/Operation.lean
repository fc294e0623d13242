import LedgerCache.Cache

namespace LedgerCache

inductive Operation where
  | put (key : Key) (payload : Payload)
  | get (key : Key)
  | has (key : Key)
  | count
  | size
  | stats
  | capacity
  | isClosed
  | close
  deriving DecidableEq, Repr

inductive Reply where
  | done
  | view (payload : Option Payload)
  | flag (b : Bool)
  | number (n : Nat)
  | stats (s : Stats)
  deriving DecidableEq, Repr

namespace Cache

variable {nominate : Nomination}

def perform (c : Cache nominate) : Operation → Step nominate Reply
  | .put k payload => (c.put k payload).map fun _ => .done
  | .get k => (c.get k).map .view
  | .has k => (c.has k).map .flag
  | .count => c.count.map .number
  | .size => c.size.map .number
  | .stats => c.stats.map .stats
  | .capacity => ⟨.ok (.number c.capacity.toNat), c, [], []⟩
  | .isClosed => ⟨.ok (.flag c.closed), c, [], []⟩
  | .close => c.close.map fun _ => .done

/-- The steps of a run, one for each operation. -/
def run (c : Cache nominate) : List Operation → List (Step nominate Reply)
  | [] => []
  | op :: ops =>
    let s := c.perform op
    s :: s.cache.run ops

/-- The cache after a run. -/
def after (c : Cache nominate) (ops : List Operation) : Cache nominate :=
  ops.foldl (fun c op => (c.perform op).cache) c

@[simp] theorem length_run (c : Cache nominate) (ops : List Operation) :
    (c.run ops).length = ops.length := by
  induction ops generalizing c with
  | nil => rfl
  | cons op ops ih => simp [run, ih]

theorem after_append (c : Cache nominate) (ops more : List Operation) :
    c.after (ops ++ more) = (c.after ops).after more := by
  simp [after, List.foldl_append]

end Cache

end LedgerCache
