import Chomsky.Grammar.Basic
import Chomsky.NormalGrammar.Basic

/-!
The normal-form grammar of a grammar whose rules are all normal. The start symbol has the root
tag, whatever the caller has tagged it with; symbols without a tag are numbered.
-/

namespace Chomsky.Grammar

variable {α : Type}

def normalRule : List Nat → Except Fault NormalRule
  | [t] => .ok (.terminal t)
  | [l, r] => .ok (.pair l r)
  | _ => .error .notNormal

/-- The tags of symbols with their indices, where `k` is the next automatic tag. Automatic tags
are counted in 32 bits. -/
def tagsFrom (start : Nat) : Nat → List (Nat × Symbol α) → Except Fault (List (Tag α))
  | _, [] => .ok []
  | k, (i, s) :: rest =>
    if i = start then (tagsFrom start k rest).map (.root :: ·)
    else match s.tag with
      | some t => (tagsFrom start k rest).map (.user t :: ·)
      | none =>
        if k < 0xFFFFFFFF then (tagsFrom start (k + 1) rest).map (.auto k :: ·)
        else .error .overflow

def tags (g : Grammar α) : Except Fault (List (Tag α)) :=
  tagsFrom g.start 0 (g.indices.zip g.symbols)

def terminalSet (g : Grammar α) : Except Fault BitSet :=
  ((List.range g.symbols.length).filter g.isTerminal).foldlM BitSet.insert
    (BitSet.empty g.symbols.length)

def parentSet (g : Grammar α) (s : Symbol α) : Except Fault BitSet :=
  s.parents.foldlM BitSet.insert (BitSet.empty g.symbols.length)

def snapshot (g : Grammar α) : Except Fault (NormalGrammar α) :=
  if g.isNormal then do
    let tags ← g.tags
    let terminals ← g.terminalSet
    let parents ← g.symbols.mapM g.parentSet
    let rules ← g.symbols.mapM fun s => s.rules.mapM normalRule
    pure
      { width := g.width
        ids := g.symbols.map (·.id)
        tags := tags.toArray
        terminals := terminals
        rules := rules.toArray
        parents := parents.toArray
        start := g.start }
  else .error .notNormal

end Chomsky.Grammar
