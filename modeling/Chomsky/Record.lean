/-!
What grammars and parsers report of their work: each change to the rules while a grammar is
built and normalised, each split found while a chart is filled, and a few summaries.
-/

namespace Chomsky

inductive Level where
  | debug | trace
  deriving DecidableEq, Repr

def Level.text : Level → String
  | .debug => "DEBUG"
  | .trace => "TRACE"

inductive Record where
  /-- Comes before the rule is put in, also when it is there already. -/
  | adding (parent : Nat) (members : List Nat)
  /-- Comes after the rule was taken out. -/
  | removed (parent : Nat) (members : List Nat)
  | newStart (symbol : Nat)
  | pass (number symbols rules : Nat)
  | normalized (passes symbols rules : Nat)
  | split (row col parent left right after : Nat)
  /-- The entries are counted in 32 bits with a sign. -/
  | filled (length : Nat) (entries : Int32)
  | verdict (length : Nat) (accepted : Bool)
  deriving DecidableEq, Repr

namespace Record

def level : Record → Level
  | adding .. | removed .. | newStart .. | split .. => .trace
  | pass .. | normalized .. | filled .. | verdict .. => .debug

def listText (ns : List Nat) : String :=
  "[" ++ ", ".intercalate (ns.map Nat.repr) ++ "]"

def message : Record → String
  | adding p ms => s!"Adding rule {p} -> {listText ms}"
  | removed p ms => s!"Removed rule {p} -> {listText ms}"
  | newStart n => s!"START: new start symbol {n}"
  | pass k n r => s!"Normalization pass {k}: {n} symbols, {r} rules"
  | normalized k n r => s!"Grammar normalized after {k} passes: {n} symbols, {r} rules"
  | split row col p l r i => s!"({row}, {col}): {p} -> {l} {r} split after {i}"
  | filled n e => s!"Filled CYK table for {n} input symbols with {e.toInt} witnesses"
  | verdict n true => s!"Input of length {n} accepted"
  | verdict n false => s!"Input of length {n} rejected"

def line (r : Record) : String := r.level.text ++ " " ++ r.message

end Record

end Chomsky
