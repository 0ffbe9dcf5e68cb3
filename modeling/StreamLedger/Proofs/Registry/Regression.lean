/-
This file finds out when a reported status goes back. An update is held against the live record
only, while a query answers for the ledger when no record is live. So an update lowers what is
reported exactly when nothing is live, the update stays for some time, and the ledger is ahead of
it. Submitting a transaction never lowers what is reported: a refusal is noted for a transaction
that the ledger does not know, and a commitment is higher than anything said before it.
-/
import StreamLedger.Ledger.Keyed
import StreamLedger.Proofs.Ledger.Sound
import StreamLedger.Proofs.Registry.Events

namespace StreamLedger

/-! ### Ledgers that refuse duplicates -/

/-- A ledger that takes a transaction did not know it before. -/
class Ledger.RefusesDuplicates (L : Type) [Ledger L] : Prop where
  unknown_of_store : ∀ {ledger changed : L} {transaction : Transaction},
    Ledger.store ledger transaction = .ok changed →
      Ledger.status ledger transaction.digest = .ok .unknown

instance : Ledger.RefusesDuplicates IndexedLedger where
  unknown_of_store {ledger changed transaction} stored := by
    obtain ⟨_, fresh, _⟩ := IndexedLedger.of_store_eq_ok stored
    simp only [Ledger.status, IndexedLedger.status, fresh]

instance : Ledger.RefusesDuplicates KeyedLedger where
  unknown_of_store {ledger changed transaction} stored := by
    have absent : ledger.table.get? (Key.transactionDigest transaction.digest) = none := by
      simp only [Ledger.store, KeyedLedger.store, bind, Except.bind] at stored
      split at stored
      · cases stored
      · split at stored
        · cases stored
        · split at stored
          · cases stored
          · rename_i fresh
            simpa [Table.contains] using fresh
    simp only [Ledger.status, KeyedLedger.status, KeyedLedger.read, Table.read, absent]
    rfl

namespace Registry

variable {L : Type} [Ledger L] {H : DigestFunction} {registry : Registry L} {name : Digest}
  {record : StatusRecord}

namespace Tidy

/-! ### What is reported after an update -/

theorem status_tryStatus_of_lt (tidy : Tidy registry) {current : StatusRecord}
    (found : registry.peek name = some current) (lower : record.status < current.status) :
    ((registry.tryStatus name record).status name).1 = current := by
  rw [tidy.tryStatus_of_lt found lower, (tidy.looked name).status_fst]
  have same : peek { registry with cache := registry.cache.looked registry.now name } name =
      some current := (Cache.Site.peek_looked name).trans found
  rw [same, Option.getD_some]

theorem status_tryStatus_of_not_lt (tidy : Tidy registry)
    (allowed : ∀ current, registry.peek name = some current → ¬ record.status < current.status) :
    ((registry.tryStatus name record).status name).1 =
      if 0 < registry.cache.ttl then record.kept else .bare (registry.ledgerStatus name) := by
  rw [tidy.tryStatus_of_not_lt allowed, (tidy.stamped name record).status_fst]
  have written :
      peek { registry with cache := registry.cache.stamped registry.now name record } name =
        if 0 < registry.cache.ttl then some record.kept else none :=
    Cache.Site.peek_stamped tidy.room name record
  rw [written]
  split <;> rfl

/-- What was live is not lowered. -/
theorem tryStatus_keeps (tidy : Tidy registry) {current : StatusRecord}
    (found : registry.peek name = some current) :
    ¬ ((registry.tryStatus name record).status name).1.status < current.status := by
  by_cases lower : record.status < current.status
  · rw [tidy.status_tryStatus_of_lt found lower]
    exact Status.lt_irrefl _
  · have allowed : ∀ other, registry.peek name = some other → ¬ record.status < other.status := by
      intro other live
      rw [found] at live
      exact Option.some.inj live ▸ lower
    rw [tidy.status_tryStatus_of_not_lt allowed, if_pos (tidy.ttl_pos found)]
    exact lower

/-- An update lowers what is reported exactly when nothing is live for the transaction, the
update stays, and the ledger is ahead of it. -/
theorem tryStatus_lowers_iff (tidy : Tidy registry) :
    ((registry.tryStatus name record).status name).1.status < (registry.status name).1.status ↔
      0 < registry.cache.ttl ∧ (registry.cache.store.get registry.now name.bytes).1 = none ∧
        record.status < registry.ledgerStatus name := by
  rw [tidy.get_eq_none_iff]
  cases found : registry.peek name with
  | none =>
    have allowed : ∀ current, registry.peek name = some current →
        ¬ record.status < current.status := by
      intro current live
      rw [found] at live
      cases live
    rw [tidy.status_tryStatus_of_not_lt allowed, tidy.status_fst, found, Option.getD_none]
    by_cases lives : 0 < registry.cache.ttl
    · simp [lives, StatusRecord.bare]
    · simp [lives, Status.lt_irrefl]
  | some current =>
    rw [tidy.status_of_some found]
    simp only [reduceCtorEq, false_and, and_false, iff_false]
    exact tidy.tryStatus_keeps found

/-- Submitting a transaction does not lower what is reported of it. -/
theorem submit_not_lowers [Ledger.RefusesDuplicates L] (tidy : Tidy registry)
    (transaction : Transaction) :
    ¬ ((registry.submit transaction).2.status transaction.digest).1.status <
      (registry.status transaction.digest).1.status := by
  unfold Registry.submit accept
  split
  · rename_i ledger stored
    rw [conclude_singleton]
    have after : Tidy { registry with ledger } := tidy.later tidy.idle rfl (Int.le_refl _)
    have unknown : registry.ledgerStatus transaction.digest = .unknown := by
      simp only [ledgerStatus, Ledger.RefusesDuplicates.unknown_of_store stored]
    rw [tidy.status_fst, unknown]
    cases found : registry.peek transaction.digest with
    | none => exact Status.not_lt.mpr (Status.unknown_le _)
    | some current =>
      dsimp only
      exact after.tryStatus_keeps found
  · split
    · rename_i unknown
      rw [conclude_singleton, tidy.tryStatus_lowers_iff, unknown]
      rintro ⟨_, _, lower⟩
      exact absurd (Status.unknown_le _) (Status.not_le.mpr lower)
    · exact Status.lt_irrefl _

end Tidy

/-- After any history that started with an empty cache, an update lowers what is reported of a
transaction exactly when no record of it is live, records live for some time, and the update is
behind the ledger. Submitting the transaction never does. -/
theorem status_lowered_iff [Ledger.RefusesDuplicates L] (H : DigestFunction) (ledger : L)
    (maxExponent capacity ttl : Nat) (log : List Log.Answer) (now : Int) (room : 0 < capacity)
    (events : List Event) :
    let registry := (start ledger maxExponent capacity ttl log now).runEvents H events
    (∀ name record,
      ((registry.setStatus name record).2.status name).1.status < (registry.status name).1.status ↔
        0 < registry.cache.ttl ∧ (registry.cache.store.get registry.now name.bytes).1 = none ∧
          record.status < registry.ledgerStatus name) ∧
    (∀ name,
      ((registry.markPending name).status name).1.status < (registry.status name).1.status ↔
        0 < registry.cache.ttl ∧ (registry.cache.store.get registry.now name.bytes).1 = none ∧
          .pending < registry.ledgerStatus name) ∧
    ∀ transaction : Transaction,
      ¬ ((registry.submit transaction).2.status transaction.digest).1.status <
        (registry.status transaction.digest).1.status := by
  intro registry
  have tidy : Tidy registry :=
    (tidy_start ledger maxExponent capacity ttl log now room).runEvents events
  refine ⟨fun name record => ?_, fun name => ?_, tidy.submit_not_lowers⟩
  · rw [show (registry.setStatus name record).2 = registry.tryStatus name record from rfl]
    exact tidy.tryStatus_lowers_iff
  · rw [markPending]
    exact tidy.tryStatus_lowers_iff

/-- A transaction that was finalized, and whose record has expired since. -/
def afterExpiry : Registry IndexedLedger :=
  (start IndexedLedger.empty 0 1 1000 [] 0).runEvents (fun _ => Digest.zero)
    [.submit ⟨Digest.zero, .zero 16, 0, [1]⟩, .round, .advance 1000]

theorem status_lowered_after_expiry :
    ((afterExpiry.markPending Digest.zero).status Digest.zero).1.status <
      (afterExpiry.status Digest.zero).1.status :=
  ((status_lowered_iff (fun _ => Digest.zero) IndexedLedger.empty 0 1 1000 [] 0 (by decide)
    [.submit ⟨Digest.zero, .zero 16, 0, [1]⟩, .round, .advance 1000]).2.1 Digest.zero).mpr
    (by decide +kernel)

/-- Marking it as pending then takes back that it is finalized. -/
theorem markPending_lowers_finalized :
    (afterExpiry.status Digest.zero).1 = .bare .finalized ∧
      ((afterExpiry.markPending Digest.zero).status Digest.zero).1 = .bare .pending := by
  decide +kernel

end Registry

end StreamLedger
