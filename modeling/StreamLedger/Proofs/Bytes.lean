/-
This file relates the order of byte strings to the order of the numbers they stand for. Byte
strings of one length compare as the numbers they write with the most significant byte first,
a common beginning does not count, and the byte strings that begin with a given one stand
together in the order: whatever lies between two of them begins with it too.
-/
import Mathlib.Algebra.Group.Nat.Defs
import StreamLedger.Bytes

namespace StreamLedger

theorem Octets.bytes_of_ofBytes? {size : Nat} {bytes : Bytes} {octets : Octets size}
    (whole : ofBytes? size bytes = some octets) : octets.bytes = bytes := by
  unfold ofBytes? at whole
  split at whole
  · cases whole
    rfl
  · cases whole

/-! ### Numbers with the least significant byte first -/

/-- Reading back what was written gives the number, up to the digits that were dropped. -/
theorem ofLittleEndian_littleEndian (width value : Nat) :
    ofLittleEndian (littleEndian width value) = value % 256 ^ width := by
  induction width generalizing value with
  | zero => simp [littleEndian, ofLittleEndian, Nat.mod_one]
  | succ width inductionHypothesis =>
    have step : 256 ^ (width + 1) = 256 * 256 ^ width := Nat.pow_succ'
    rw [step, Nat.mod_mul, littleEndian, ofLittleEndian, inductionHypothesis]
    simp

/-- Writing what was read gives the digits back. -/
theorem littleEndian_ofLittleEndian (bytes : Bytes) :
    littleEndian bytes.length (ofLittleEndian bytes) = bytes := by
  induction bytes with
  | nil => rfl
  | cons byte rest inductionHypothesis =>
    have digit := byte.toNat_lt
    have low : UInt8.ofNat (byte.toNat + 256 * ofLittleEndian rest) = byte := by
      rw [← UInt8.toNat_inj, UInt8.toNat_ofNat']
      omega
    have high : (byte.toNat + 256 * ofLittleEndian rest) / 256 = ofLittleEndian rest := by omega
    rw [List.length_cons, littleEndian, ofLittleEndian, low, high, inductionHypothesis]

theorem ofLittleEndian_append (low high : Bytes) :
    ofLittleEndian (low ++ high) = ofLittleEndian low + 256 ^ low.length * ofLittleEndian high := by
  induction low with
  | nil => simp [ofLittleEndian]
  | cons byte rest inductionHypothesis =>
    rw [List.cons_append, ofLittleEndian, ofLittleEndian, inductionHypothesis, List.length_cons,
      Nat.pow_succ', Nat.mul_add, Nat.mul_assoc, Nat.add_assoc]

/-! ### Numbers with the most significant byte first -/

theorem ofBigEndian_cons (byte : UInt8) (rest : Bytes) :
    ofBigEndian (byte :: rest) = ofBigEndian rest + 256 ^ rest.length * byte.toNat := by
  unfold ofBigEndian
  rw [List.reverse_cons, ofLittleEndian_append, List.length_reverse]
  rfl

theorem ofBigEndian_lt (bytes : Bytes) : ofBigEndian bytes < 256 ^ bytes.length := by
  induction bytes with
  | nil => decide
  | cons byte rest inductionHypothesis =>
    have digit : 256 ^ rest.length * byte.toNat ≤ 256 ^ rest.length * 255 :=
      Nat.mul_le_mul_left _ (Nat.le_of_lt_succ byte.toNat_lt)
    rw [ofBigEndian_cons, List.length_cons, Nat.pow_succ]
    omega

theorem ofLittleEndian_lt (bytes : Bytes) : ofLittleEndian bytes < 256 ^ bytes.length := by
  have bound := ofBigEndian_lt bytes.reverse
  rwa [ofBigEndian, List.reverse_reverse, List.length_reverse] at bound

theorem ofBigEndian_bigEndian (width value : Nat) :
    ofBigEndian (bigEndian width value) = value % 256 ^ width := by
  unfold ofBigEndian bigEndian
  rw [List.reverse_reverse, ofLittleEndian_littleEndian]

theorem lt_iff_ofBigEndian_lt {a b : Bytes} (same : a.length = b.length) :
    a < b ↔ ofBigEndian a < ofBigEndian b := by
  induction a generalizing b with
  | nil =>
    obtain rfl := List.length_eq_zero_iff.mp same.symm
    exact ⟨fun below => absurd below (List.lt_irrefl _),
      fun below => absurd below (Nat.lt_irrefl _)⟩
  | cons first rest inductionHypothesis =>
    cases b with
    | nil => cases same
    | cons second others =>
      have sameRest : rest.length = others.length := Nat.succ.inj same
      have restLt := ofBigEndian_lt rest
      have othersLt := ofBigEndian_lt others
      rw [List.cons_lt_cons_iff, inductionHypothesis sameRest, ofBigEndian_cons, ofBigEndian_cons]
      rw [sameRest] at restLt ⊢
      -- The first bytes decide unless they are equal: a difference outweighs what comes after.
      rcases Nat.lt_trichotomy first.toNat second.toNat with below | equal | above
      · have weight :
            256 ^ others.length * (first.toNat + 1) ≤ 256 ^ others.length * second.toNat :=
          Nat.mul_le_mul_left _ below
        rw [Nat.mul_add] at weight
        exact ⟨fun _ => by omega, fun _ => Or.inl (UInt8.lt_iff_toNat_lt.mpr below)⟩
      · obtain rfl : first = second := UInt8.toNat_inj.mp equal
        simp only [UInt8.lt_irrefl, true_and, false_or, Nat.add_lt_add_iff_right]
      · have weight :
            256 ^ others.length * (second.toNat + 1) ≤ 256 ^ others.length * first.toNat :=
          Nat.mul_le_mul_left _ above
        rw [Nat.mul_add] at weight
        refine ⟨fun below => ?_, fun below => ?_⟩
        · rcases below with below | ⟨rfl, _⟩
          · exact absurd (UInt8.lt_iff_toNat_lt.mp below) (Nat.lt_asymm above)
          · exact absurd above (Nat.lt_irrefl _)
        · omega

theorem bigEndian_lt_iff {width a b : Nat} (aFits : a < 256 ^ width) (bFits : b < 256 ^ width) :
    bigEndian width a < bigEndian width b ↔ a < b := by
  rw [lt_iff_ofBigEndian_lt (by simp), ofBigEndian_bigEndian, ofBigEndian_bigEndian,
    Nat.mod_eq_of_lt aFits, Nat.mod_eq_of_lt bFits]

/-! ### Words -/

/-- Four bytes are enough for a word of 32 bits. -/
theorem word32_mod (value : UInt32) : value.toNat % 256 ^ 4 = value.toNat :=
  Nat.mod_eq_of_lt (Nat.lt_of_lt_of_eq value.toNat_lt (by decide))

/-- Eight bytes are enough for a word of 64 bits. -/
theorem word64_mod (value : UInt64) : value.toNat % 256 ^ 8 = value.toNat :=
  Nat.mod_eq_of_lt (Nat.lt_of_lt_of_eq value.toNat_lt (by decide))

/-! ### Byte strings with a common beginning -/

theorem append_lt_append_iff (stem a b : Bytes) : stem ++ a < stem ++ b ↔ a < b := by
  induction stem with
  | nil => rfl
  | cons byte rest inductionHypothesis =>
    rw [List.cons_append, List.cons_append, List.cons_lt_cons_self, inductionHypothesis]

/-- What lies between two byte strings that begin with `stem` begins with it too. -/
theorem isPrefix_of_le_of_le {stem low key high : Bytes} (lowUnder : stem <+: low)
    (highUnder : stem <+: high) (above : low ≤ key) (below : key ≤ high) : stem <+: key := by
  induction stem generalizing low key high with
  | nil => exact List.nil_prefix
  | cons byte rest inductionHypothesis =>
    obtain ⟨lowRest, rfl⟩ := lowUnder
    obtain ⟨highRest, rfl⟩ := highUnder
    cases key with
    | nil => exact absurd (List.le_nil.mp above) (by simp)
    | cons first others =>
      rw [List.cons_append] at above below
      have notBelow := fun less => above (List.cons_lt_cons_iff.mpr less)
      have notAbove := fun less => below (List.cons_lt_cons_iff.mpr less)
      obtain rfl : first = byte := by
        refine UInt8.le_antisymm ?_ ?_
        · exact UInt8.not_lt.mp fun less => notAbove (Or.inl less)
        · exact UInt8.not_lt.mp fun less => notBelow (Or.inl less)
      refine List.cons_prefix_cons.mpr ⟨rfl, ?_⟩
      refine inductionHypothesis (List.prefix_append _ lowRest) (List.prefix_append _ highRest)
          ?_ ?_
      · exact fun less => notBelow (Or.inr ⟨rfl, less⟩)
      · exact fun less => notAbove (Or.inr ⟨rfl, less⟩)

end StreamLedger
