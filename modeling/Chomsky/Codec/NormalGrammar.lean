import Chomsky.Codec.Format
import Chomsky.NormalGrammar.Basic

/-!
The stored form of a normal-form grammar: identities, tags, terminals, rules, parents and start,
in this order. Symbol indices take the bytes of the index width, which is not stored. Kinds of
values are told apart by a number in four bytes.
-/

namespace Chomsky.Format

variable {α : Type}

def index (w : Width) : Format Nat := nat w.bytes

def ident (name : Format α) : Format (Ident α) where
  write
    | .user a => writeNat 4 0 ++ name.write a
    | .synthetic n => writeNat 4 1 ++ writeNat 4 n
    | .start n => writeNat 4 2 ++ writeNat 4 n
  read bs := do
    let (kind, rest) ← readNat 4 bs
    match kind with
    | 0 => do
      let (a, rest) ← name.read rest
      pure (.user a, rest)
    | 1 => do
      let (n, rest) ← readNat 4 rest
      pure (.synthetic n, rest)
    | 2 => do
      let (n, rest) ← readNat 4 rest
      pure (.start n, rest)
    | _ => none

def tag (label : Format α) : Format (Tag α) where
  write
    | .root => writeNat 4 0
    | .user t => writeNat 4 1 ++ label.write t
    | .auto n => writeNat 4 2 ++ writeNat 4 n
  read bs := do
    let (kind, rest) ← readNat 4 bs
    match kind with
    | 0 => pure (.root, rest)
    | 1 => do
      let (t, rest) ← label.read rest
      pure (.user t, rest)
    | 2 => do
      let (n, rest) ← readNat 4 rest
      pure (.auto n, rest)
    | _ => none

def normalRule (w : Width) : Format NormalRule where
  write
    | .terminal t => writeNat 4 0 ++ (index w).write t
    | .pair l r => writeNat 4 1 ++ (index w).write l ++ (index w).write r
  read bs := do
    let (kind, rest) ← readNat 4 bs
    match kind with
    | 0 => do
      let (t, rest) ← (index w).read rest
      pure (.terminal t, rest)
    | 1 => do
      let (l, rest) ← (index w).read rest
      let (r, rest) ← (index w).read rest
      pure (.pair l r, rest)
    | _ => none

def bitSet : Format BitSet :=
  ((nat 8).pair word.list).map (fun p => ⟨p.1, p.2⟩) fun s => (s.size, s.words)

def normalGrammar [DecidableEq α] [Stored α] (w : Width) : Format (NormalGrammar α) :=
  let ids : Format (List (Ident α)) := (ident Stored.format).set
  let tags : Format (List (Tag α)) := (tag Stored.format).list
  let rules := (normalRule w).set.list
  let fields := ids.pair (tags.pair (bitSet.pair (rules.pair (bitSet.list.pair (index w)))))
  fields.map
    (fun (ids, tags, terminals, rules, parents, start) =>
      { width := w
        ids := ids
        tags := tags.toArray
        terminals := terminals
        rules := rules.toArray
        parents := parents.toArray
        start := start })
    fun c =>
      (c.ids, c.tags.toList, c.terminals, c.rules.toList, c.parents.toList, c.start)

end Chomsky.Format
