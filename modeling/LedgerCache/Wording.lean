import LedgerCache.Counters
import LedgerCache.Workload.Report

namespace LedgerCache

/-- The texts that the program leaves to its libraries. -/
structure Wording where
  /-- Of a failure, from the message of what was being done and those of the causes. -/
  failure : List String → String
  /-- Of figures with their names. -/
  figures : List (String × UInt64) → String

def Contains (text part : String) : Prop := part.toList <:+: text.toList

def OneLine (text : String) : Prop := '\n' ∉ text.toList

instance (text : String) : Decidable (OneLine text) := inferInstanceAs (Decidable (¬_))

namespace Wording

def isName (name : String) : Bool := name.toList.all fun c => c.isAlphanum || c == '_'

/-- What the program relies on. Lines behind the first one of a message may be indented, and what is
no name may be escaped. -/
structure Faithful (words : Wording) : Prop where
  failure : ∀ chain, (∀ message ∈ chain, OneLine message) →
    ∀ message ∈ chain, Contains (words.failure chain) message
  figures : ∀ figures : List (String × UInt64),
    (∀ x ∈ figures, isName x.1) →
      ∀ x ∈ figures, Contains (words.figures figures) s!"\"{x.1}\":{x.2}"

/-- One line for each cause; several are numbered. -/
def causeLines : List String → List String
  | [cause] => ["\n    " ++ cause]
  | causes => causes.mapIdx fun i cause => s!"\n    {i}: {cause}"

/-- Failures as a report with indented causes, and figures as one object without blanks. -/
def plain : Wording where
  failure
    | [] => ""
    | [context] => context
    | context :: causes => context ++ "\n\nCaused by:" ++ String.join (causeLines causes)
  figures xs := "\x7b" ++ ",".intercalate (xs.map fun x => s!"\"{x.1}\":{x.2}") ++ "\x7d"

end Wording

def Stats.json (s : Stats) : String := Wording.plain.figures s.figures

def Report.json (r : Report) : String := Wording.plain.figures r.figures

end LedgerCache
