/-
The status of a transaction: how far it has come. Statuses are ordered, and a transaction
only moves up. A record adds a message, for people, to a status; it is kept as the byte of
the status followed by the UTF-8 bytes of the message.
-/
import StreamLedger.Wire

namespace StreamLedger

inductive Status where
  | unknown
  | pending
  | failed
  | committed
  | finalized
deriving DecidableEq, Inhabited

namespace Status

/-- The place in the order, from 0. -/
def rank : Status → Fin 5
  | .unknown => 0
  | .pending => 1
  | .failed => 2
  | .committed => 3
  | .finalized => 4

def ofRank : Fin 5 → Status
  | 0 => .unknown
  | 1 => .pending
  | 2 => .failed
  | 3 => .committed
  | 4 => .finalized

@[simp]
theorem ofRank_rank (status : Status) : ofRank status.rank = status := by cases status <;> rfl

@[simp]
theorem rank_ofRank (rank : Fin 5) : (ofRank rank).rank = rank := by
  revert rank
  decide

instance : LE Status := ⟨fun a b => a.rank ≤ b.rank⟩

instance : LT Status := ⟨fun a b => a.rank < b.rank⟩

instance (a b : Status) : Decidable (a ≤ b) := inferInstanceAs (Decidable (a.rank ≤ b.rank))

instance (a b : Status) : Decidable (a < b) := inferInstanceAs (Decidable (a.rank < b.rank))

instance : Ord Status := ⟨fun a b => compare a.rank.val b.rank.val⟩

def name : Status → String
  | .unknown => "unknown"
  | .pending => "pending"
  | .failed => "failed"
  | .committed => "committed"
  | .finalized => "finalized"

def toByte (status : Status) : UInt8 := UInt8.ofNat status.rank.val

def ofByte? (byte : UInt8) : Option Status :=
  if h : byte.toNat < 5 then some (ofRank ⟨byte.toNat, h⟩) else none

def format : Format Status := (Format.kind 5).transport ofRank rank

end Status

/-- Why bytes are no status record. -/
inductive RecordError where
  | empty
  | unknownStatus (byte : UInt8)
  | invalidMessage
deriving DecidableEq

def RecordError.message : RecordError → String
  | .empty => "empty status record"
  | .unknownStatus byte => s!"unknown status byte {byte}"
  | .invalidMessage => "status message is not valid utf-8"

/-- A status and what is to be said about it. -/
structure StatusRecord where
  status : Status
  message : Option String
deriving DecidableEq

namespace StatusRecord

/-- A status about which nothing is said. -/
def bare (status : Status) : StatusRecord := ⟨status, none⟩

def encode (record : StatusRecord) : Bytes :=
  record.status.toByte :: utf8 (record.message.getD "")

/-- The record in these bytes. An empty message is no message. -/
def decode : Bytes → Except RecordError StatusRecord
  | [] => .error .empty
  | byte :: rest =>
    match Status.ofByte? byte with
    | none => .error (.unknownStatus byte)
    | some status =>
      if rest = [] then .ok ⟨status, none⟩
      else
        match ofUtf8? rest with
        | some message => .ok ⟨status, some message⟩
        | none => .error .invalidMessage

/-- The form a record has as a stored value of its own. -/
def format : Format StatusRecord :=
  (Status.format.pair Format.text.optional).transport
    (fun (status, message) => ⟨status, message⟩)
    (fun record => (record.status, record.message))

end StatusRecord

end StreamLedger
