import Chomsky.Session.Answers
import Chomsky.Session.Building

/-!
Sessions: a desk to work on, and copies of it under names. A command that fails leaves all as it
was, but a fault of normalisation ends the session.
-/

namespace Chomsky

structure Session (α : Type) where
  desk : Desk α
  copies : List (String × Desk α) := []

namespace Desk

variable {α : Type}

def loadForest (d : Desk α) (bytes : List UInt8) : Step (Desk α) α :=
  match (Format.forest d.width).read bytes with
  | some (f, _) => { d with forest := some f }.give .done
  | none => d.refuse .malformed

variable [DecidableEq α] [Label α] [Stored α]

def loadNormal (d : Desk α) (bytes : List UInt8) : Step (Desk α) α :=
  match (Format.normalGrammar d.width).read bytes with
  | some (c, _) => { d with normal := some c }.give .done
  | none => d.refuse .malformed

/-- All commands but those on copies, which a desk does not have. -/
def step (d : Desk α) : Command α → Step (Desk α) α
  | .save _ => d.refuse .noCopy
  | .restore _ => d.refuse .noCopy
  | .declare name terminal => d.declare name terminal
  | .addRule parent members => d.addRule (d.grammar.addRule parent members)
  | .addRuleToStart members => d.addRule (d.grammar.addRuleToStart members)
  | .assignTag name tag => d.assignTag name tag
  | .build nonterminals terminals rules => d.build nonterminals terminals rules
  | .normalize => d.normalize
  | .grammar q => d.ask (Trail.ofExcept (askGrammar d.grammar q))
  | .normal q => d.withNormal fun c => d.ask (Trail.ofExcept (askNormal c q))
  | .loadNormal bytes => d.loadNormal bytes
  | .recognize word => d.withNormal fun c => d.ask (.flag <$> recognize c word)
  | .parse word => d.withNormal fun c =>
    d.finish (summarized (parse c word)) (·.2) fun r => { d with forest := some r.1 }
  | .parseTrees names maxTrees form => d.withNormal fun c =>
    d.viewTrees (Parser.trees { grammar := c, maxTrees := maxTrees } names) form
  | .chart input q => d.withNormal fun c => d.ask (chart c input q)
  | .forest q => d.withForest fun f => d.askForest f q
  | .loadForest bytes => d.loadForest bytes
  | .loadTrees bytes form =>
    match (Format.trees d.width).read bytes with
    | some (ts, _) => d.viewTrees (pure ts) form
    | none => d.refuse .malformed
  | .tree t => d.withNormal fun c => d.ask (Trail.ofExcept (describeTree c t))
  | .showIdent id => d.give (.ident id)
  | .showTag tag => d.give (.tag tag)
  | .showRejection r => d.give (.text r.message)
  | .wrap n => d.give (.number (d.width.wrap n))

end Desk

namespace Session

variable {α : Type} [DecidableEq α]

def create (width : Width) (start : α) : Except Fault (Session α) := do
  let g ← Grammar.create width start
  pure { desk := { grammar := g } }

variable [Label α] [Stored α]

def step (s : Session α) : Command α → Step (Session α) α
  | .save name =>
    ⟨⟨[], .ok .done⟩,
      some { s with copies := OrderedMap.alter name (fun _ => s.desk) s.copies }⟩
  | .restore name =>
    match OrderedMap.get? s.copies name with
    | some desk => ⟨⟨[], .ok .done⟩, some { s with desk := desk }⟩
    | none => ⟨⟨[], .error .noCopy⟩, some s⟩
  | c =>
    let r := s.desk.step c
    ⟨r.reply, r.next.map fun desk => { s with desk := desk }⟩

/-- The replies to the commands, up to the one that ends the session. -/
def run (s : Session α) : List (Command α) → List (Reply α)
  | [] => []
  | c :: cs =>
    let r := s.step c
    match r.next with
    | some s' => r.reply :: run s' cs
    | none => [r.reply]

end Session

end Chomsky
