import Chomsky.Codec.NormalGrammar
import Chomsky.Forest
import Chomsky.Tree

/-!
The stored forms of forests and trees. A tree is read with a bound on its depth, for which the
count of bytes is always enough: each level takes some.
-/

namespace Chomsky.Format

def pointer (w : Width) : Format Pointer where
  write
    | .terminal t => writeNat 4 0 ++ (index w).write t
    | .split after l r =>
      writeNat 4 1 ++ writeNat 8 after ++ (index w).write l ++ (index w).write r
  read bs := do
    let (kind, rest) ← readNat 4 bs
    match kind with
    | 0 => do
      let (t, rest) ← (index w).read rest
      pure (.terminal t, rest)
    | 1 => do
      let (after, rest) ← readNat 8 rest
      let (l, rest) ← (index w).read rest
      let (r, rest) ← (index w).read rest
      pure (.split after l r, rest)
    | _ => none

def forest (w : Width) : Format Forest :=
  let cells := (table (index w) (pointer w).list).list
  ((nat 8).pair (cells.pair (index w).list)).map
    (fun (len, cells, roots) => ⟨len, cells.toArray, roots⟩)
    fun f => (f.len, f.cells.toList, f.roots)

mutual
def writeTree (w : Width) : Tree → List UInt8
  | .leaf s p => writeNat 4 0 ++ (index w).write s ++ writeNat 8 p
  | .node s ts => writeNat 4 1 ++ (index w).write s ++ writeNat 8 ts.length ++ writeTrees w ts

def writeTrees (w : Width) : List Tree → List UInt8
  | [] => []
  | t :: ts => writeTree w t ++ writeTrees w ts
end

def readTree (w : Width) : Nat → List UInt8 → Option (Tree × List UInt8)
  | 0, _ => none
  | depth + 1, bs => do
    let (kind, rest) ← readNat 4 bs
    match kind with
    | 0 => do
      let (s, rest) ← (index w).read rest
      let (p, rest) ← readNat 8 rest
      pure (.leaf s p, rest)
    | 1 => do
      let (s, rest) ← (index w).read rest
      let (n, rest) ← readNat 8 rest
      let (ts, rest) ← readMany (readTree w depth) n rest
      pure (.node s ts, rest)
    | _ => none

def tree (w : Width) : Format Tree where
  write := writeTree w
  read bs := readTree w bs.length bs

def trees (w : Width) : Format (List Tree) := (tree w).list

end Chomsky.Format
