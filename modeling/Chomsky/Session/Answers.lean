import Chomsky.Codec.Forest
import Chomsky.Render
import Chomsky.Parser
import Chomsky.Session.Command
import Chomsky.Session.Desk

/-!
Answers to questions about grammars, words, charts, forests and trees.
-/

namespace Chomsky.Desk

variable {α : Type}

def summary (f : Forest) : Except Fault (Value α) :=
  f.count.map (.parsed f.len f.roots)

def askChart (q : ChartQuery) (chart : Chart) (entries : List Entry) :
    Except Fault (Value α) :=
  match q with
  | .whole => do
    let accepts ← chart.accepts
    let rows ← (List.range chart.len).mapM fun row =>
      (List.range (chart.len - row)).mapM fun col => do
        let s ← chart.cell row col
        s.toList
    pure (.chart chart.len accepts rows)
  | .cell row col => do
    let s ← chart.cell row col
    s.toList.map .numbers
  | .contains places =>
    (places.mapM fun (row, col, symbol) => chart.contains row col symbol).map .flags
  | .entries => chart.accepts.map (.entries · entries)

section Grammars

variable [DecidableEq α] [Label α]

def askGrammar (g : Grammar α) : GrammarQuery α → Except Fault (Value α)
  | .text => g.render.map .text
  | .ruleText parent rule => (g.renderRule parent rule).map .text
  | .size => .ok (.number g.size)
  | .ruleCount => .ok (.number g.ruleCount)
  | .start => .ok (.number g.start)
  | .indices => .ok (.numbers g.indices)
  | .index name => .ok (.number? (g.index? name))
  | .ident i => (g.symbol i).map (.ident ·.id)
  | .isTerminal i => (g.symbol i).map (.flag ·.isTerminal)
  | .rules i => (g.symbol i).map (.lists ·.rules)
  | .parents i => (g.symbol i).map (.numbers ·.parents)
  | .hasRule parent rule => (g.symbol parent).map fun s => .flag (s.rules.contains rule)
  | .tag i => .ok (.label? (g.tag? i))
  | .isNormal => .ok (.flag g.isNormal)
  | .startOccurs => .ok (.flag g.startOccurs)
  | .dump => .ok (.dump g.start g.ruleCount g.symbols)

def askNormal [Stored α] (c : NormalGrammar α) : NormalQuery α → Except Fault (Value α)
  | .text => c.render.map .text
  | .size => .ok (.number c.size)
  | .ruleCount => .ok (.number c.ruleCount)
  | .start => .ok (.number c.start)
  | .indices => .ok (.numbers c.indices)
  | .index name => .ok (.number? (c.index? name))
  | .ident i => (c.ident i).map .ident
  | .tag i => (c.tag i).map .tag
  | .isRoot i => (c.isRoot i).map .flag
  | .isTerminal i => (c.isTerminal i).map .flag
  | .rules i => (c.rulesOf i).map .normalRules
  | .hasRule parent rule => (c.hasRule parent rule).map .flag
  | .parents i => do
    let s ← c.parentsOf i
    s.toList.map .numbers
  | .sharedParents left right => do
    let s ← c.sharedParents left right
    s.toList.map .numbers
  | .sharedParentsOver left right size =>
    if size = c.size then do
      let s ← c.sharedParentsInto left right (BitSet.full size)
      s.toList.map .numbers
    else .error .sizeMismatch
  | .dump => (c.indices.mapM c.view).map (.normalDump c.start c.ruleCount)
  | .bytes => .ok (.bytes ((Format.normalGrammar c.width).write c))

end Grammars

section Trees

variable [Label α]

/-- Only the printed form of a tree needs a grammar. -/
def viewTree (normal : Option (NormalGrammar α)) (t : Tree) :
    TreeForm → Except (Refusal α) TreeView
  | .whole => .ok (.whole t)
  | .leaves => .ok (.leaves t.leaves)
  | .root => .ok (.root t.symbol)
  | .text =>
    match normal with
    | none => .error .noNormal
    | some c => ((t.render c).map TreeView.text).mapError .fault

def viewTrees (d : Desk α) (t : Trail Record (List Tree)) (form : TreeForm) :
    Step (Desk α) α :=
  let answer := do
    let ts ← t.result.mapError .fault
    let views ← ts.mapM fun t => viewTree d.normal t form
    pure (.trees views)
  ⟨⟨t.records, answer⟩, d⟩

def describeTree (c : NormalGrammar α) (t : Tree) : Except Fault (Value α) :=
  (t.render c).map (.tree t.symbol t.leaves)

def askForest (d : Desk α) (f : Forest) : ForestQuery → Step (Desk α) α
  | .summary => d.ask (Trail.ofExcept (summary f))
  | .pointers row col symbol =>
    d.ask (Trail.ofExcept ((f.pointers row col symbol).map .pointers))
  | .trees form => d.viewTrees (Trail.ofExcept f.trees) form
  | .treesUpTo limit form => d.viewTrees (Trail.ofExcept (f.treesUpTo limit)) form
  | .bytes => d.give (.bytes ((Format.forest d.width).write f))
  | .treeBytes limit =>
    d.ask (Trail.ofExcept
      ((f.treesUpTo limit).map fun ts => .bytes ((Format.trees d.width).write ts)))

end Trees

section Words

variable [DecidableEq α]

def recognize (c : NormalGrammar α) : Word α → Trail Record Bool
  | .names as => c.recognize as
  | .indices is => Parser.recognizeIndices { grammar := c } is

def parse (c : NormalGrammar α) : Word α → Trail Record Forest
  | .names as => c.parse as
  | .indices is => Parser.parseIndices { grammar := c } is

def resolve (c : NormalGrammar α) : InputSymbol α → Option Nat
  | .name a => c.index? a
  | .index i => some i
  | .unknown => none

def chart (c : NormalGrammar α) (input : List (InputSymbol α)) (q : ChartQuery) :
    Trail Record (Value α) := do
  let (chart, entries) ← Chart.ofInput c (input.map (resolve c))
  askChart q chart entries

/-- A forest with its summary. -/
def summarized (t : Trail Record Forest) : Trail Record (Forest × Value α) := do
  let f ← t
  let v ← summary f
  pure (f, v)

end Words

end Chomsky.Desk
