import LedgerCache.Fault
import LedgerCache.Key

namespace LedgerCache

/-- An answer to the caller: what was asked for and why it cannot be done. -/
inductive Error where
  | negativeOwner (key : Key)
  | emptyPayload
  /-- The payload would not fit even into an empty cache. -/
  | oversizedPayload (size capacity : Nat)
  /-- The eviction policy gives up too little; `available` is what was free. -/
  | noRoom (size available : Nat)
  | closed
  | invalidCapacity (bytes : Nat)
  | invalidSetting (text : String)
  deriving DecidableEq, Repr

def Error.message : Error → String
  | .negativeOwner k =>
      s!"Invalid key: owner id {k.owner} (sequence id {k.sequence}) must not be negative"
  | .emptyPayload => "Invalid payload: entry payload must not be empty"
  | .oversizedPayload size capacity =>
      s!"Oversized payload: {size} bytes exceeds cache capacity of {capacity} bytes"
  | .noRoom size available =>
      s!"Cache full: {size} bytes requested, {available} bytes available"
  | .closed => "Cache is closed"
  | .invalidCapacity bytes => s!"Invalid capacity: {bytes} bytes"
  | .invalidSetting text => s!"Invalid configuration: {text}"

/-- Any way in which an operation ends without its result. -/
inductive Failure where
  | refused (e : Error)
  | fault (f : Fault)
  deriving DecidableEq, Repr

def Failure.message : Failure → String
  | .refused e => e.message
  | .fault f => f.message

end LedgerCache
