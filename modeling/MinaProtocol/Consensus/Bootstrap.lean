import MinaProtocol.Consensus.Chain

/-!
# Consensus.Bootstrap

When a candidate is so far ahead that the node bootstraps: `should_bootstrap` of
`proof_of_stake.ml`. The lengths are subtracted as 32-bit words, after the choice between the
two states; in the long range a chosen candidate may be the shorter one.
-/

namespace MinaProtocol.Consensus

/-- The constants with `k` and `delta`. -/
structure DelayConstants extends Constants where
  k : UInt32
  delta : UInt32

/-- `Hooks.should_bootstrap_len`. -/
def shouldBootstrapLen (constants : DelayConstants) (existing candidate : UInt32) : Bool :=
  candidate - existing > 2 * constants.k + (constants.delta + 1)

/-- `Hooks.should_bootstrap`. -/
def shouldBootstrap (hashes : Hashes) (constants : DelayConstants) (existing candidate : WithHash) : Option Bool := do
  match ← select hashes constants.toConstants existing candidate with
  | .keep => some false
  | .take =>
    some (shouldBootstrapLen constants existing.data.blockchainLength candidate.data.blockchainLength)

variable {hashes : Hashes} {constants : DelayConstants} {existing candidate : WithHash}

/-- `2k + delta + 1`. -/
def bootstrapBound (constants : DelayConstants) : Nat :=
  2 * constants.k.toNat + constants.delta.toNat + 1

theorem shouldBootstrapLen_iff (hbound : bootstrapBound constants < 2 ^ 32) {existing candidate : UInt32} :
    shouldBootstrapLen constants existing candidate = true
      ↔ bootstrapBound constants < (candidate - existing).toNat := by
  have hword : (2 * constants.k + (constants.delta + 1)).toNat = bootstrapBound constants := by
    unfold bootstrapBound at *
    rw [UInt32.toNat_add, UInt32.toNat_mul, UInt32.toNat_add, UInt32.toNat_one, show (2 : UInt32).toNat = 2 from rfl]
    omega
  unfold shouldBootstrapLen
  rw [decide_eq_true_eq, gt_iff_lt, UInt32.lt_iff_toNat_lt, hword]

theorem shouldBootstrap_eq_true : shouldBootstrap hashes constants existing candidate = some true
      ↔ select hashes constants.toConstants existing candidate = some .take
        ∧ shouldBootstrapLen constants existing.data.blockchainLength
          candidate.data.blockchainLength = true := by
  unfold shouldBootstrap
  cases select hashes constants.toConstants existing candidate with
  | none => simp
  | some status => cases status <;> simp

/-- **The bootstrap decision** is right if and only if the candidate is not taken, is not shorter,
or is so much shorter that the difference of the lengths wraps to a small number. -/
theorem should_bootstrap_iff (hashes : Hashes) (constants : DelayConstants)
    (hbound : bootstrapBound constants < 2 ^ 32) (existing candidate : WithHash) :
    (shouldBootstrap hashes constants existing candidate = some true
        ↔ select hashes constants.toConstants existing candidate = some .take
          ∧ existing.data.blockchainLength.toNat + bootstrapBound constants < candidate.data.blockchainLength.toNat)
      ↔ (select hashes constants.toConstants existing candidate = some .take →
        existing.data.blockchainLength ≤ candidate.data.blockchainLength
          ∨ 2 ^ 32 + candidate.data.blockchainLength.toNat
            ≤ existing.data.blockchainLength.toNat + bootstrapBound constants) := by
  rw [shouldBootstrap_eq_true]
  by_cases htake : select hashes constants.toConstants existing candidate = some .take
  · have he := existing.data.blockchainLength.toNat_lt
    have hc := candidate.data.blockchainLength.toNat_lt
    simp only [htake, true_and, true_imp_iff, shouldBootstrapLen_iff hbound, UInt32.toNat_sub, UInt32.le_iff_toNat_le]
    omega
  · simp [htake]

/-- Small constants with `k = 10` and no delay. -/
def smallDelay : DelayConstants := { smallConstants with k := 10, delta := 0 }

/-- A state of slot 0 with a length, a density and a lock checkpoint. -/
def denseState (blockchainLength minWindowDensity : UInt32) (lockCheckpoint : Nat) : WithHash :=
  let s := negativeOne smallConstants smallGenesis
  ⟨lockCheckpoint, { s with
    blockchainLength, minWindowDensity, stakingEpochData := { s.stakingEpochData with lockCheckpoint } }⟩

/-- A candidate that is 22 blocks ahead is bootstrapped from, and one that is 21 ahead is not. -/
theorem should_bootstrap_beyond_bound :
    shouldBootstrap smallHashes smallDelay (denseState 1 1 0) (denseState 23 2 1) = some true
      ∧ shouldBootstrap smallHashes smallDelay (denseState 1 1 0) (denseState 22 2 1) ≠ some true := by
  have hbound : bootstrapBound smallDelay < 2 ^ 32 := by decide
  refine ⟨?_, fun h => ?_⟩
  · exact (should_bootstrap_iff smallHashes smallDelay hbound (denseState 1 1 0) (denseState 23 2 1)).2
      (fun _ => .inl (by decide)) |>.2 (by decide)
  · have := (should_bootstrap_iff smallHashes smallDelay hbound (denseState 1 1 0) (denseState 22 2 1)).2
      (fun _ => .inl (by decide)) |>.1 h
    exact absurd this (by decide)

/-- A candidate of the long range that is denser and one block shorter is taken, and the
difference of the lengths wraps to `2 ^ 32 - 1`. -/
theorem should_bootstrap_to_shorter : bootstrapBound smallDelay < 2 ^ 32
      ∧ select smallHashes smallDelay.toConstants (denseState 2 1 0) (denseState 1 2 1) = some .take
      ∧ shouldBootstrap smallHashes smallDelay (denseState 2 1 0) (denseState 1 2 1) = some true := by
  decide

end MinaProtocol.Consensus
