/-
What the commands print, and the texts of their errors. An error names every cause down to
the first, although a cause already quotes the one under it.
-/
import StreamLedger.InclusionProof
import StreamLedger.Registry
import StreamLedger.Text.Json

namespace StreamLedger

/-! ### Causes -/

/-- The texts of an error and of the causes under it. -/
def StoreError.causes (error : StoreError) : List String :=
  error.message :: match error with
    | .undecodable cause => [cause.message]
    | .malformedKey _ => []

def LedgerError.causes (error : LedgerError) : List String :=
  error.message :: match error with
    | .merkle cause => [cause.message]
    | .store cause => cause.causes
    | _ => []

def RoundError.causes (error : RoundError) : List String :=
  error.message :: match error with
    | .ledger cause => cause.causes
    | .publish cause => [cause.message]

namespace CommandLine

/-- Why a command failed. -/
inductive Failure where
  | payload (error : HexError)
  | transaction (text : String) (error : HexError)
  | ledger (error : LedgerError)
  | round (error : RoundError)
  /-- A round broke off, and no more of them began. -/
  | brokenOff
  /-- There is no proof. -/
  | unproven
  /-- The stored ledger in a directory cannot be read. -/
  | unreadable (directory : String)

def Failure.message : Failure → String
  | .payload error => "Invalid payload hex: " ++ error.message
  | .transaction text error => "Invalid hash: " ++ text ++ ": " ++ error.message
  | .ledger error => ": ".intercalate error.causes
  | .round error => ": ".intercalate error.causes
  | .brokenOff => "Finalizer task panicked"
  | .unproven => "No proof available: transaction unknown or not finalized yet"
  | .unreadable directory => "Failed to open registry data at " ++ directory

/-- The beginning of a digest, as listings show it. -/
def abbreviated (digest : Digest) : String := Hex.encode (digest.bytes.take 8)

/-! ### Text -/

def greeting : List String := [
  "fedreg - Federated transaction registry",
  "Run 'fedreg --help' for usage information."]

def usage : List String := [
  "Federated transaction registry",
  "",
  "Usage: fedreg [COMMAND]",
  "",
  "Commands:",
  "  run       Run the block finalizer until interrupted",
  "  finalize  Run a single finalization step",
  "  submit    Store a transaction",
  "  status    Show the status of a transaction",
  "  stream    List the transactions of a stream",
  "  prove     Print the Merkle proof of a finalized transaction",
  "  blocks    List blocks"]

def runStarted (directory : String) (period : Nat) : List String := [
  "Starting block finalizer...",
  s!"  Data dir: {directory}",
  s!"  Interval: {period} ms",
  ""]

def runStopped : List String := ["✓  Finalizer stopped"]

def roundLines : Option Finalized → List String
  | some finalized => [
      "✓  Block finalized",
      s!"    Hash: {finalized.block.hex}",
      s!"    Txs:  {finalized.transactions}"]
  | none => ["No transactions waiting."]

def storedLines (transaction : Transaction) : List String := [
  "✓  Transaction stored",
  s!"    Hash:   {transaction.digest.hex}",
  s!"    Stream: {transaction.stream.text}",
  s!"    Index:  {transaction.index}"]

def statusLines (transaction : Digest) (record : StatusRecord) : List String :=
  s!"{transaction.hex}  {record.status.name}" ::
    match record.message with
    | some message => ["    " ++ message]
    | none => []

/-- The lines of a listing, or `nothing` if there are none. -/
def orElse (nothing : String) : List String → List String
  | [] => [nothing]
  | lines => lines

def streamLines (id : StreamId) (transactions : List Transaction) : List String :=
  let line (transaction : Transaction) : String :=
    let digest := abbreviated transaction.digest
    s!"  #{transaction.index} {digest} ({transaction.payload.length} bytes)"
  ["", s!"Stream {id.text}:", ""] ++ orElse "  (empty)" (transactions.map line) ++ [""]

def proofLines (H : DigestFunction) (proof : InclusionProof) : List String :=
  let root := match proof.root H with
    | some root => [s!"  Root:        {root.hex}"]
    | none => []
  let path := proof.path.zipIdx.map fun (digest, place) => s!"  {place + 1}. {digest.hex}"
  ["", "Merkle Proof:", "",
    s!"  Transaction: {proof.transaction.hex}",
    s!"  Block:       {proof.block.hex}",
    s!"  Leaf index:  {proof.index}"] ++ root ++ [""] ++ path ++ [""]

def entryLines (H : DigestFunction) (entry : BlockEntry) : List String :=
  let block := entry.block
  let name := abbreviated (block.digest H)
  let state := if block.isFinalized then "finalized" else "pending"
  let line (transaction : Transaction) : String :=
    let digest := abbreviated transaction.digest
    s!"      {digest} stream {transaction.stream.text} #{transaction.index}"
  s!"  #{entry.height} {name} (txs {block.first}..={block.last}, {block.size}) {state}" ::
    entry.transactions.map line

def blocksLines (H : DigestFunction) (entries : List BlockEntry) : List String :=
  ["", "Blocks:", ""] ++ orElse "  (none)" (entries.flatMap (entryLines H)) ++ [""]

/-! ### JSON -/

/-- A digest as JSON. -/
def digestJson (digest : Digest) : Json := .string digest.hex

def proofJson (proof : InclusionProof) : Json := .object [
  ("block_hash", digestJson proof.block),
  ("hashes", .array (proof.path.map digestJson)),
  ("leaf_index", .number proof.index.toNat),
  ("payload", .string (Hex.encode proof.payload)),
  ("transaction_hash", digestJson proof.transaction)]

def publicationJson : Option Publication → Json
  | none => .null
  | some (.logEntry header) => .object [
      ("block_header_hash", digestJson header),
      ("type", .string "log")]
  | some (.external transaction block) => .object [
      ("block_hash", .string (Hex.encode block)),
      ("transaction_id", .string (Hex.encode transaction)),
      ("type", .string "external")]

def transactionJson (transaction : Transaction) : Json := .object [
  ("stream_id", .string transaction.stream.text),
  ("stream_index", .number transaction.index.toNat),
  ("transaction_hash", digestJson transaction.digest)]

def entryJson (H : DigestFunction) (entry : BlockEntry) : Json :=
  let block := entry.block
  .object [
    ("created_at", .number block.header.createdAt.toInt),
    ("from_transaction", .number block.first.toNat),
    ("hash", digestJson (block.digest H)),
    ("height", .number entry.height),
    ("merkle_root_hash", digestJson block.header.merkleRoot),
    ("previous_header_hash", digestJson block.header.previousHeader),
    ("previous_publication_hash", digestJson block.header.previousPublication),
    ("publication", publicationJson block.publication),
    ("to_transaction", .number block.last.toNat),
    ("transactions", .array (entry.transactions.map transactionJson))]

end CommandLine

end StreamLedger
