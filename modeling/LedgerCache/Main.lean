import LedgerCache.Program

namespace LedgerCache

def readEnvironment : IO Environment := do
  let names := [Config.capacityVariable, Config.intervalVariable, Config.workersVariable,
    Config.entriesVariable, Config.sizeVariable, Verbosity.filterVariable]
  let settings ← names.filterMapM fun name => do
    return (← IO.getEnv name).map fun value => (name, value.toUTF8.toList)
  return fun name => settings.lookup name

/-- Prints what the program logs and returns its exit code. -/
def runProgram : IO UInt32 := do
  let started ← IO.monoMsNow
  let outcome := Program.run (← readEnvironment)
  let records := outcome.records
  let elapsed := (← IO.monoMsNow) - started
  for r in records do
    IO.println s!"{r.level.name} {r.source.name}: {r.text (toString elapsed)}"
  IO.eprint outcome.stderr
  return outcome.code.toUInt32

end LedgerCache

def main : IO UInt32 := LedgerCache.runProgram
