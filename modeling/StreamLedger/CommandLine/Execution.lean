/-
How commands are carried out on a stored ledger. Each command opens the ledger anew, with an
empty cache before it, and leaves the table it changed. What can be said against the words
themselves is said before the ledger is opened.
-/
import StreamLedger.CommandLine.Invocation
import StreamLedger.CommandLine.Report
import StreamLedger.Ledger.Keyed
import StreamLedger.Ledger.Proving
import StreamLedger.Registry.Horizon

namespace StreamLedger.CommandLine

/-- What a command printed and how it ended. -/
structure Outcome where
  exitCode : Nat
  output : List String
  errors : List String

def Outcome.success (output : List String) : Outcome := ⟨0, output, []⟩

def Outcome.failure (failure : Failure) : Outcome := ⟨1, [], ["Error: " ++ failure.message]⟩

/-- What is printed for a command line that is not carried out. -/
def Rejection.outcome : Rejection → Outcome
  | .misused => ⟨2, [], ["error: invalid arguments"]⟩
  | .explain => ⟨0, usage, []⟩

/-- How long, in milliseconds, the statuses of a command other than `run` stay cached. -/
def commandTtl : Nat := 60000

/-- The registry that a command works with. -/
def openRegistry (table : Table) (maxExponent ttl : Nat) (now : Int) : Registry KeyedLedger :=
  Registry.start ⟨table⟩ maxExponent Registry.defaultCapacity ttl [] now

/-- The payload in hexadecimal digits, after any number of `0x`. -/
def parsePayload (text : String) : Except Failure Bytes :=
  (Hex.decodeBytes (Hex.dropMarks (utf8 text))).mapError .payload

def parseTransaction (text : String) : Except Failure Digest :=
  (Digest.parse text).mapError (.transaction text)

/-- The last time of the clock that cached statuses live by. It counts the seconds in 63 bits, here
since the beginning of 1970 like every other time. -/
def horizon : Int := Int.ofNat (1000 * Nat.pow 2 63 - 1)

/-- Runs rounds until `count` blocks are finalized, or a round finalizes none or breaks off. -/
def finalizeBlocks (H : DigestFunction) : (count : Nat) → Registry KeyedLedger →
    Except (Cache.Overrun horizon) Unit × Registry KeyedLedger
  | 0, registry => (.ok (), registry)
  | count + 1, registry =>
    match registry.roundWithin horizon H with
    | (.ok (.ok (some _)), registry) => finalizeBlocks H count registry
    | (.ok _, registry) => (.ok (), registry)
    | (.error overrun, registry) => (.error overrun, registry)

/-- Carries out a command at a time. `run` is interrupted after `interruptAfter` blocks. The
table is the ledger's, before and after. -/
def Invocation.execute (H : DigestFunction) (invocation : Invocation) (now : Int)
    (interruptAfter : Nat) (table : Table) : Outcome × Table :=
  let registry (ttl : Nat) := openRegistry table invocation.maxExponent ttl now
  let report {α : Type} (result : Except Failure α) (lines : α → List String) : Outcome × Table :=
    match result with
    | .ok value => (.success (lines value), table)
    | .error failure => (.failure failure, table)
  match invocation.command with
  | .run period ttl =>
    let started := runStarted invocation.directory period
    match finalizeBlocks H interruptAfter (registry (1000 * ttl)) with
    | (.ok (), registry) => (.success (started ++ runStopped), registry.ledger.table)
    | (.error _, registry) =>
      ({ Outcome.failure .brokenOff with output := started }, registry.ledger.table)
  | .finalize =>
    match (registry commandTtl).round H with
    | (.ok finalized, registry) => (.success (roundLines finalized), registry.ledger.table)
    | (.error error, registry) => (.failure (.round error), registry.ledger.table)
  | .submit stream index payload =>
    match parsePayload payload with
    | .error failure => (.failure failure, table)
    | .ok payload =>
      let transaction := Transaction.ofPayload H stream index payload
      match ((registry commandTtl).markPending transaction.digest).submit transaction with
      | (.ok (), registry) => (.success (storedLines transaction), registry.ledger.table)
      | (.error error, registry) => (.failure (.ledger error), registry.ledger.table)
  | .status text =>
    report (parseTransaction text) fun transaction =>
      statusLines transaction ((registry commandTtl).status transaction).1
  | .stream id =>
    report ((Ledger.stream (KeyedLedger.mk table) id).mapError .ledger) (streamLines id)
  | .prove text json =>
    let proof : Except Failure InclusionProof := do
      let transaction ← parseTransaction text
      match ← (Ledger.prove H (KeyedLedger.mk table) transaction).mapError .ledger with
      | some proof => return proof
      | none => throw .unproven
    report proof fun proof => if json then (proofJson proof).lines else proofLines H proof
  | .blocks skip take transactions json =>
    let entries := (Ledger.page (KeyedLedger.mk table) skip take transactions).mapError .ledger
    report entries fun entries =>
      if json then (Json.array (entries.map (entryJson H))).lines else blocksLines H entries

/-! ### Directories -/

/-- Where one part of a path leads from a directory. A directory is the list of the names on the
way to it, the last first; a part `..` leads out of the last, but not out of the root. -/
def follow (directory : List String) (part : String) : List String :=
  if part = "" ∨ part = "." then directory
  else if part = ".." then
    match directory with
    | [] => [".."]
    | "/" :: _ => directory
    | ".." :: _ => ".." :: directory
    | _ :: outer => outer
  else part :: directory

/-- The directory that a path leads to. Paths that name one directory lead to the same. -/
def destination (path : String) : List String :=
  (path.splitOn "/").foldl follow (if path.startsWith "/" then ["/"] else [])

/-- Stored ledgers by their directories; of two for one directory the first counts. -/
abbrev Workspace := List (List String × Table)

def Workspace.table (workspace : Workspace) (directory : String) : Table :=
  (workspace.lookup (destination directory)).getD Table.empty

def Workspace.put (workspace : Workspace) (directory : String) (table : Table) : Workspace :=
  (destination directory, table) :: workspace

/-- Carries out a command line in a workspace. -/
def runIn (H : DigestFunction) (workspace : Workspace) (words : List String) (now : Int)
    (interruptAfter : Nat) : Outcome × Workspace :=
  match invocation? words with
  | .error rejection => (rejection.outcome, workspace)
  | .ok none => (.success greeting, workspace)
  | .ok (some invocation) =>
    let table := workspace.table invocation.directory
    let (outcome, table) := invocation.execute H now interruptAfter table
    (outcome, workspace.put invocation.directory table)

end StreamLedger.CommandLine
