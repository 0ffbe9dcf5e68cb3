/-
What a command line asks for.
-/
import StreamLedger.BlockSize
import StreamLedger.CommandLine.Words
import StreamLedger.Registry.Service
import StreamLedger.Stream

namespace StreamLedger.CommandLine

inductive Command where
  /-- Runs rounds until interrupted; the period is in milliseconds, the lifetime of cached
  statuses in seconds. -/
  | run (period ttl : Nat)
  /-- Runs one round. -/
  | finalize
  | submit (stream : StreamId) (index : UInt64) (payload : String)
  | status (transaction : String)
  | stream (id : StreamId)
  | prove (transaction : String) (json : Bool)
  | blocks (skip take : Nat) (transactions json : Bool)

/-- A command and the stored ledger it is about. -/
structure Invocation where
  /-- The directory of the ledger. -/
  directory : String
  maxExponent : Nat
  command : Command

/-- The bound of eight-byte numbers. -/
def bound64 : Nat := UInt64.size

def number64? (text : String) : Option Nat := naturalBelow? bound64 text

def number32? (text : String) : Option Nat := integerBelow? UInt32.size text

/-- A switch without a value. -/
def flag (name : String) : Switch := ⟨name, none, none⟩

/-- A switch whose value has to be readable by `read`. -/
def setting {α : Type} (name : String) (read : String → Option α) : Switch :=
  ⟨name, none, some fun text => (read text).isSome⟩

/-- The switches every command has. -/
def storeSwitches : List Switch := [
  ⟨"data-dir", some 'd', some fun text => text != ""⟩,
  setting "max-block-exponent" number32?]

/-- A command with switches of its own and no operands. -/
def plain (switches : List Switch) : Signature :=
  ⟨storeSwitches ++ switches, 0, fun _ => true⟩

/-- A command with one operand, which has to be readable by `read`. -/
def unary {α : Type} (read : String → Option α) (switches : List Switch) : Signature :=
  ⟨storeSwitches ++ switches, 1, fun text => (read text).isSome⟩

def defaultDirectory : String := "./data"

/-- The default lifetime of cached statuses, in seconds. -/
def defaultTtlSeconds : Nat := 3600

/-- The value of a switch, or a default if it was not given. -/
def valueOr {α : Type} (reading : Reading) (name : String) (read : String → Option α)
    (default : α) : α :=
  ((reading.value? name).bind read).getD default

/-- Completes a command with the switches every command has; a command that lacks something
it needs is misused. -/
def invoke (reading : Reading) : Option Command → Except Rejection Invocation
  | none => .error .misused
  | some command =>
    .ok ⟨valueOr reading "data-dir" some defaultDirectory,
      valueOr reading "max-block-exponent" number32? defaultMaxExponent, command⟩

/-- Reads the words of a command by its signature and makes a command of them. -/
def interpret (signature : Signature) (words : List String) (command : Reading → Option Command) :
    Except Rejection Invocation :=
  match signature.read words with
  | .ok reading => invoke reading (command reading)
  | .error rejection => .error rejection

def operand? (reading : Reading) : Option String := reading.operands.head?

/-- The command with a name. -/
def named (name : String) (words : List String) : Except Rejection Invocation :=
  match name with
  | "run" =>
    let period? (text : String) := (number64? text).filter (1 ≤ ·)
    interpret (plain [setting "interval-ms" period?, setting "cache-ttl-secs" number64?]) words
      fun reading => some (.run (valueOr reading "interval-ms" period? defaultPeriod)
        (valueOr reading "cache-ttl-secs" number64? defaultTtlSeconds))
  | "finalize" => interpret (plain []) words fun _ => some .finalize
  | "submit" =>
    interpret (plain [setting "stream" StreamId.parse?, setting "index" number64?,
        setting "payload" some]) words
      fun reading => do
        let stream ← (reading.value? "stream").bind StreamId.parse?
        let index ← (reading.value? "index").bind number64?
        let payload ← reading.value? "payload"
        return .submit stream (UInt64.ofNat index) payload
  | "status" => interpret (unary some []) words fun reading => (operand? reading).map .status
  | "stream" =>
    interpret (unary StreamId.parse? []) words
      fun reading => ((operand? reading).bind StreamId.parse?).map .stream
  | "prove" =>
    interpret (unary some [flag "json"]) words
      fun reading => (operand? reading).map fun text => .prove text (reading.has "json")
  | "blocks" =>
    interpret (plain [setting "skip" number64?, setting "take" number64?, flag "transactions",
        flag "json"]) words
      fun reading => some (.blocks (valueOr reading "skip" number64? 0)
        (valueOr reading "take" number64? 10) (reading.has "transactions") (reading.has "json"))
  | _ => .error .misused

/-- The names of the commands. -/
def commandNames : List String :=
  ["run", "finalize", "submit", "status", "stream", "prove", "blocks"]

/-- Whether `help` can explain what is named after it: at most one command. -/
def canExplain : List String → Bool
  | [] => true
  | [name] => name == "help" || commandNames.contains name
  | _ => false

/-- What the words after the program's name ask for; none if they ask for nothing. -/
def invocation? : List String → Except Rejection (Option Invocation)
  | [] | ["--"] => .ok none
  | "help" :: names => .error (if canExplain names then .explain else .misused)
  | name :: rest =>
    match Word.of name with
    | .operand => (named name rest).map some
    | .long "help" none | .short 'h' _ => .error .explain
    | .stop | .long _ _ | .short _ _ => .error .misused

end StreamLedger.CommandLine
