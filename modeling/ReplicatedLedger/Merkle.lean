import ReplicatedLedger.Digest

/-! # Merkle trees

A sequence of leaves is reduced level by level: neighbours are hashed in pairs, and an odd last node moves
up as it is. The last node standing is the root; no leaves have no root. A proof lists the siblings on the
way from a leaf to the root, with the side on which the leaf's own node stands; levels where that node
moved up alone contribute nothing. -/

namespace ReplicatedLedger.Merkle

/-- The level above. -/
def nextLevel : List Digest → List Digest
  | a :: b :: r => Digest.ofPair a b :: nextLevel r
  | r => r

theorem length_nextLevel : ∀ l : List Digest, (nextLevel l).length = (l.length + 1) / 2
  | [] => rfl
  | [_] => by simp [nextLevel]
  | _ :: _ :: r => by simp [nextLevel, length_nextLevel r]; omega

/-- The root over the leaves. -/
def root? (leaves : List Digest) : Option Digest :=
  match leaves with
  | [] => none
  | [x] => some x
  | x :: y :: r => root? (nextLevel (x :: y :: r))
termination_by leaves.length
decreasing_by simp [length_nextLevel]; omega

/-- The siblings on the way up from the leaf at index `i`, each with whether the own node is the left
one. -/
def path (leaves : List Digest) (i : Nat) : List (Digest × Bool) :=
  if leaves.length ≤ 1 then []
  else
    let isLeft := i % 2 == 0
    let above := path (nextLevel leaves) (i / 2)
    match leaves[if isLeft then i + 1 else i - 1]? with
    | some s => (s, isLeft) :: above
    | none => above
termination_by leaves.length
decreasing_by simp [length_nextLevel]; omega

/-- A claim that a leaf belongs to a tree. -/
structure Proof where
  leaf : Digest
  siblings : List Digest
  /-- Whether the own node is the left one, per sibling. -/
  pathBits : List Bool
  deriving DecidableEq

namespace Proof

/-- The proof for the leaf at index `i`. -/
def ofIndex (leaves : List Digest) (i : Nat) (leaf : Digest) : Proof :=
  let p := path leaves i
  ⟨leaf, p.map Prod.fst, p.map Prod.snd⟩

/-- The node above `node` and a sibling. -/
def climb (node : Digest) (step : Digest × Bool) : Digest :=
  if step.2 then Digest.ofPair node step.1 else Digest.ofPair step.1 node

/-- Whether the proof leads to the root: as many siblings as sides, and hashing up from the leaf ends
there. -/
def verify (p : Proof) (root : Digest) : Bool :=
  p.siblings.length == p.pathBits.length &&
    (p.siblings.zip p.pathBits).foldl climb p.leaf == root

end Proof

/-- The proof for a leaf, if it is one. -/
def prove? (leaves : List Digest) (leaf : Digest) : Option Proof :=
  (leaves.idxOf? leaf).map fun i => .ofIndex leaves i leaf

end ReplicatedLedger.Merkle
