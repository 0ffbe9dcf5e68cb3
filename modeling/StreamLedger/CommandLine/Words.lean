/-
The words of a command line, read against what a command takes. A switch that takes a value
finds it in the same word, after an equals sign, or in the next word, which must not look
like a switch itself. A word `--` ends the switches. No switch is given twice.
-/

namespace StreamLedger.CommandLine

/-- A switch of a command. -/
structure Switch where
  /-- The name, which comes after two hyphens. -/
  name : String
  /-- The letter, which comes after one hyphen, if there is one. -/
  letter : Option Char
  /-- Which values the switch takes; none if it takes no value. -/
  accepts : Option (String → Bool)

/-- What a command takes: switches, and other words up to a number. -/
structure Signature where
  switches : List Switch
  operands : Nat
  /-- Which words it takes as operands. -/
  accepts : String → Bool

/-- Why a command line is not carried out. -/
inductive Rejection where
  /-- It is not understood. -/
  | misused
  /-- It asks for an explanation instead. -/
  | explain
deriving DecidableEq

/-- What was read so far. -/
structure Reading where
  /-- The switches with their values, which are empty where a switch takes none. -/
  settings : List (String × String)
  operands : List String

namespace Reading

def empty : Reading := ⟨[], []⟩

def value? (reading : Reading) (name : String) : Option String := reading.settings.lookup name

def has (reading : Reading) (name : String) : Bool := (reading.value? name).isSome

/-- Adds a switch, if it is the first of its name and the value is one it takes. -/
def addSetting (reading : Reading) (switch : Switch) (value : String) :
    Except Rejection Reading :=
  if reading.has switch.name then .error .misused
  else if (switch.accepts.map fun accepts => accepts value).getD true then
    .ok { reading with settings := reading.settings ++ [(switch.name, value)] }
  else .error .misused

/-- Adds an operand, if there is room for it. -/
def addOperand (reading : Reading) (signature : Signature) (word : String) :
    Except Rejection Reading :=
  if reading.operands.length < signature.operands ∧ signature.accepts word then
    .ok { reading with operands := reading.operands ++ [word] }
  else .error .misused

end Reading

/-- What a word is before the end of the switches. -/
inductive Word where
  /-- The word `--`. -/
  | stop
  /-- A name after two hyphens, and what follows an equals sign. -/
  | long (name : String) (value : Option String)
  /-- A letter after one hyphen, and what follows it but for one equals sign. -/
  | short (letter : Char) (value : Option String)
  | operand

/-- Parts a word at its first equals sign. -/
def splitValue (text : List Char) : String × Option String :=
  match text.span (· != '=') with
  | (name, _ :: value) => (String.ofList name, some (String.ofList value))
  | (name, []) => (String.ofList name, none)

def Word.of (word : String) : Word :=
  match word.toList with
  | ['-', '-'] => .stop
  | '-' :: '-' :: rest => let (name, value) := splitValue rest; .long name value
  | ['-', letter] => .short letter none
  | '-' :: letter :: '=' :: rest => .short letter (some (String.ofList rest))
  | '-' :: letter :: rest => .short letter (some (String.ofList rest))
  | _ => .operand

namespace Signature

/-- A switch that is recognized, with the value in its own word; or `explain`. -/
def recognize (signature : Signature) : Word → Except Rejection (Option (Switch × Option String))
  | .long "help" none => .error .explain
  | .long name value =>
    match signature.switches.find? fun switch => switch.name == name with
    | some switch => .ok (some (switch, value))
    | none => .error .misused
  | .short 'h' _ => .error .explain
  | .short letter value =>
    match signature.switches.find? fun switch => switch.letter == some letter with
    | some switch => .ok (some (switch, value))
    | none => .error .misused
  | .stop | .operand => .ok none

/-- Reads the words after `--`. -/
def readOperands (signature : Signature) : List String → Reading → Except Rejection Reading
  | [], reading => .ok reading
  | word :: rest, reading =>
    match reading.addOperand signature word with
    | .ok reading => signature.readOperands rest reading
    | .error rejection => .error rejection

/-- Reads words. `waiting` is a switch whose value is to come with the next word. -/
def readWords (signature : Signature) :
    List String → (waiting : Option Switch) → Reading → Except Rejection Reading
  | [], none, reading => .ok reading
  | [], some _, _ => .error .misused
  | word :: rest, some switch, reading =>
    match Word.of word with
    | .operand =>
      match reading.addSetting switch word with
      | .ok reading => signature.readWords rest none reading
      | .error rejection => .error rejection
    | .stop | .long _ _ | .short _ _ => .error .misused
  | word :: rest, none, reading =>
    match Word.of word with
    | .stop => signature.readOperands rest reading
    | other =>
      match signature.recognize other with
      | .error rejection => .error rejection
      | .ok none =>
        match reading.addOperand signature word with
        | .ok reading => signature.readWords rest none reading
        | .error rejection => .error rejection
      | .ok (some (switch, value)) =>
        match switch.accepts, value with
        | none, some _ => .error .misused
        | some _, none => signature.readWords rest (some switch) reading
        | _, value =>
          match reading.addSetting switch (value.getD "") with
          | .ok reading => signature.readWords rest none reading
          | .error rejection => .error rejection

def read (signature : Signature) (words : List String) : Except Rejection Reading :=
  signature.readWords words none Reading.empty

end Signature

/-! ### Numbers -/

/-- The number that decimal digits stand for; none if there is no digit or another character. -/
def digitsValue? (text : List Char) : Option Nat :=
  if text ≠ [] ∧ text.all fun c => '0' ≤ c && c ≤ '9' then
    some (text.foldl (fun value c => 10 * value + (c.toNat - 48)) 0)
  else none

/-- A number below `bound`, which may have a plus sign and leading zeros. -/
def naturalBelow? (bound : Nat) (text : String) : Option Nat :=
  let digits := match text.toList with
    | '+' :: rest => rest
    | digits => digits
  (digitsValue? digits).filter (· < bound)

/-- A number below `bound`, which may have either sign; with a minus sign it has to be zero. -/
def integerBelow? (bound : Nat) (text : String) : Option Nat :=
  match text.toList with
  | '-' :: rest => (digitsValue? rest).filter (· == 0)
  | _ => naturalBelow? bound text

end StreamLedger.CommandLine
