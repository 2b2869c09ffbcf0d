import P2Pool.Util

/-! Merkle branches and roots of `internal/work`: the sibling path sent to miners, the root a miner
folds from it, and the full bottom-up tree checked before a block is submitted. The double hash is
any function on byte strings here; Bitcoin's odd-level rule doubles the last hash. -/
namespace P2Pool.Merkle
open Util Hex

inductive MerkleError where
  | invalidTxHash (index : Nat) (err : HexError)
  | invalidBranchHash (err : HexError)
  deriving DecidableEq, Repr

section
variable (doubleSHA256 : Bytes → Bytes)

/- The pairing loop of `ComputeMerkleBranches` over `remaining`. -/
def pairLevel : List Bytes → List Bytes
  | [] => []
  | [left] => [doubleSHA256 (left ++ left)]
  | left :: right :: rest => doubleSHA256 (left ++ right) :: pairLevel rest

theorem pairLevelLength : ∀ hashes : List Bytes,
    (pairLevel doubleSHA256 hashes).length = (hashes.length + 1) / 2
  | [] => rfl
  | [_] => by simp [pairLevel]
  | _ :: _ :: rest => by simp [pairLevel, pairLevelLength rest]; omega

def branchesLoop : List Bytes → List String
  | [] => []
  | [h] => [encodeToString h]
  | h :: h' :: rest => encodeToString h :: branchesLoop (pairLevel doubleSHA256 (h' :: rest))
termination_by hashes => hashes.length
decreasing_by simp [pairLevelLength]; omega

def decodeHashes : Nat → List String → Except MerkleError (List Bytes)
  | _, [] => .ok []
  | i, h :: rest =>
    match decodeString h with
    | .error e => .error (.invalidTxHash i e)
    | .ok b => (decodeHashes (i + 1) rest).map (b :: ·)

def computeMerkleBranches (txHashes : List String) : Except MerkleError (List String) :=
  if txHashes = [] then .ok [] else (decodeHashes 0 txHashes).map (branchesLoop doubleSHA256)

def computeMerkleRoot (coinbaseHash : Bytes) (branches : List String) : Except MerkleError Bytes :=
  branches.foldlM (fun current branch =>
    match decodeString branch with
    | .error e => .error (.invalidBranchHash e)
    | .ok branchBytes => .ok (doubleSHA256 (current ++ branchBytes))) coinbaseHash

/- The pairing loop of `ComputeFullMerkleRoot`, over a level already made even. -/
def pairAdjacent : List Bytes → List Bytes
  | a :: b :: rest => doubleSHA256 (a ++ b) :: pairAdjacent rest
  | _ => []

def fullLevel (hashes : List Bytes) : List Bytes :=
  pairAdjacent doubleSHA256
    (if hashes.length % 2 ≠ 0 then hashes ++ [hashes.getD (hashes.length - 1) []] else hashes)

theorem fullLevelEq (hashes : List Bytes) : fullLevel doubleSHA256 hashes = pairLevel doubleSHA256 hashes := by
  unfold fullLevel
  induction hashes using pairLevel.induct doubleSHA256 with
  | case1 => rfl
  | case2 h => simp [pairAdjacent, pairLevel]
  | case3 a b rest ih =>
    rcases Nat.mod_two_eq_zero_or_one rest.length with he | ho
    · have : (a :: b :: rest).length % 2 = 0 := by simp; omega
      simp only [this, he, ne_eq, not_true_eq_false, if_false] at ih ⊢
      simp [pairAdjacent, pairLevel, ih]
    · have : (a :: b :: rest).length % 2 = 1 := by simp; omega
      obtain ⟨k, hk⟩ : ∃ k, rest.length = k + 1 := ⟨rest.length - 1, by omega⟩
      simp only [this, ho, ne_eq, one_ne_zero, not_false_eq_true, if_true] at ih ⊢
      simp [hk] at ih
      simp [pairAdjacent, pairLevel, ih, hk]

def fullRootLoop : List Bytes → Bytes
  | [] => []
  | [h] => h
  | a :: b :: rest => fullRootLoop (fullLevel doubleSHA256 (a :: b :: rest))
termination_by hashes => hashes.length
decreasing_by simp_wf; rw [fullLevelEq, pairLevelLength]; simp; omega

def computeFullMerkleRoot (txids : List Bytes) : Bytes :=
  if txids = [] then [] else fullRootLoop doubleSHA256 txids

theorem computeMerkleRootCons (current h : Bytes) (rest : List String) :
    computeMerkleRoot doubleSHA256 current (encodeToString h :: rest) =
      computeMerkleRoot doubleSHA256 (doubleSHA256 (current ++ h)) rest := by
  simp [computeMerkleRoot, List.foldlM, decodeStringEncode]
  rfl

/- Folding the branch list from any leaf `c` gives the root of the full tree over `c :: hashes`:
each branch is the sibling of the path node, and the rest of the level pairs up as in the tree. -/
theorem branchesReachFullRoot (hashes : List Bytes) (c : Bytes) :
    computeMerkleRoot doubleSHA256 c (branchesLoop doubleSHA256 hashes) =
      .ok (fullRootLoop doubleSHA256 (c :: hashes)) := by
  induction hashes using branchesLoop.induct doubleSHA256 generalizing c with
  | case1 => simp [branchesLoop, fullRootLoop, computeMerkleRoot]; rfl
  | case2 h =>
    rw [branchesLoop, computeMerkleRootCons, fullRootLoop, fullLevelEq]
    simp [pairLevel, fullRootLoop, computeMerkleRoot]; rfl
  | case3 h h' rest ih =>
    rw [branchesLoop, computeMerkleRootCons, ih, fullRootLoop, fullLevelEq, pairLevel]

theorem decodeHashesEncoded (i : Nat) (ts : List Bytes) :
    decodeHashes i (ts.map encodeToString) = .ok ts := by
  induction ts generalizing i with
  | nil => rfl
  | cons t ts ih => simp [decodeHashes, decodeStringEncode, ih]; rfl

theorem computeMerkleBranchesEncoded (ts : List Bytes) :
    computeMerkleBranches doubleSHA256 (ts.map encodeToString) = .ok (branchesLoop doubleSHA256 ts) := by
  unfold computeMerkleBranches
  split_ifs with h
  · rw [List.map_eq_nil_iff.mp h, branchesLoop]
  · rw [decodeHashesEncoded]; rfl

theorem computeFullMerkleRootCons (c : Bytes) (ts : List Bytes) :
    computeFullMerkleRoot doubleSHA256 (c :: ts) = fullRootLoop doubleSHA256 (c :: ts) := rfl

theorem merkleBranchesAgreeWithFullTree (cb : Bytes) (ts : List Bytes) :
    ∃ branches, computeMerkleBranches doubleSHA256 (ts.map encodeToString) = .ok branches ∧
      computeMerkleRoot doubleSHA256 cb branches = .ok (computeFullMerkleRoot doubleSHA256 (cb :: ts)) :=
  ⟨_, computeMerkleBranchesEncoded doubleSHA256 ts, branchesReachFullRoot doubleSHA256 ts cb⟩

end

end P2Pool.Merkle
