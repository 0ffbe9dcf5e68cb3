/-
The program. It keeps a ledger in a file of its directory, and a command reads the file,
changes the table and writes it again.
-/
import StreamLedger.CommandLine.Execution
import StreamLedger.Digest.Blake3
import Std.Time.DateTime.Timestamp

namespace StreamLedger.CommandLine

/-- The file of the ledger in a directory. -/
def ledgerFile (directory : String) : String := directory ++ "/ledger.table"

/-- The form of a table in its file. -/
def entriesFormat : Format (List Table.Entry) := (Format.bytes.pair Format.bytes).list

/-- The ledger of a directory, which is empty if there is none; none if it cannot be read. -/
def load (directory : String) : IO (Option Table) := do
  try
    let content ← IO.FS.readBinFile (ledgerFile directory)
    match entriesFormat.decode content.data.toList with
    | .ok entries => return some (Table.empty.insertAll entries)
    | .error _ => return none
  catch
    | .noFileOrDirectory _ _ _ => return some Table.empty
    | _ => return none

def save (directory : String) (table : Table) : IO Unit := do
  IO.FS.createDirAll directory
  IO.FS.writeBinFile (ledgerFile directory) ⟨(entriesFormat.encode table.entries).toArray⟩

/-- The milliseconds since the beginning of 1970. -/
def wallClock : IO Int := do
  return (← Std.Time.Timestamp.now).toMillisecondsSinceUnixEpoch.toInt

/-- Carries out a command on the ledger of its directory. -/
def perform (invocation : Invocation) : IO Outcome := do
  match ← load invocation.directory with
  | none => return .failure (.unreadable invocation.directory)
  | some table =>
    let (outcome, table) := invocation.execute Blake3.digest (← wallClock) 0 table
    save invocation.directory table
    return outcome

/-- Runs a round after each period, until the process is interrupted. -/
partial def finalizeForever (invocation : Invocation) (period : Nat) : IO Unit := do
  IO.sleep period.toUInt32
  let _ ← perform { invocation with command := .finalize }
  finalizeForever invocation period

def finish (outcome : Outcome) : IO UInt32 := do
  outcome.output.forM IO.println
  outcome.errors.forM IO.eprintln
  return outcome.exitCode.toUInt32

end StreamLedger.CommandLine

open StreamLedger.CommandLine in
def main (words : List String) : IO UInt32 := do
  match invocation? words with
  | .error rejection => finish rejection.outcome
  | .ok none => finish (.success greeting)
  | .ok (some invocation) =>
    match invocation.command with
    | .run period _ =>
      (runStarted invocation.directory period).forM IO.println
      (← IO.getStdout).flush
      finalizeForever invocation period
      return 0
    | _ => finish (← perform invocation)
