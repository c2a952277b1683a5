import Chomsky.Grammar.Edit
import Chomsky.Session.Desk

/-!
Commands that change the grammar on the desk.
-/

namespace Chomsky.Desk

variable {α : Type}

def addRule (d : Desk α) (x : Except (Rejection α) (Trail Record (Grammar α))) :
    Step (Desk α) α :=
  match x with
  | .error r => d.refuse (.rejected r)
  | .ok t => d.finish t (.ruleCount ·.ruleCount) ({ d with grammar := · })

variable [DecidableEq α]

def declare (d : Desk α) (name : α) (terminal : Bool) : Step (Desk α) α :=
  match d.grammar.declare name terminal with
  | .error r => d.refuse (.rejected r)
  | .ok (i, g) => { d with grammar := g }.give (.number i)

def assignTag (d : Desk α) (name tag : α) : Step (Desk α) α :=
  match d.grammar.assignTag name tag with
  | .error r => d.refuse (.rejected r)
  | .ok g => { d with grammar := g }.give .done

/-- One request of many: a rejection is noted and does not stop the rest. -/
def noting (s : List (Rejection α) × Grammar α) (e : Edit α) :
    Trail Record (List (Rejection α) × Grammar α) :=
  match s.2.apply e with
  | .error r => pure (s.1 ++ [r], s.2)
  | .ok t => (s.1, ·) <$> t

/-- Declares non-terminals, then terminals, and then adds rules. -/
def build (d : Desk α) (nonterminals terminals : List α) (rules : List (α × List α)) :
    Step (Desk α) α :=
  let edits := nonterminals.map (Edit.declare · false) ++ terminals.map (Edit.declare · true) ++
    rules.map fun r => Edit.addRule r.1 r.2
  d.finish (edits.foldlM noting ([], d.grammar))
    (fun s => .built s.1 s.2.size s.2.ruleCount) fun s => { d with grammar := s.2 }

/-- A fault of normalisation ends the session. -/
def normalize (d : Desk α) : Step (Desk α) α :=
  let t := d.grammar.normalize
  match t.result with
  | .ok (g, c) =>
    ⟨⟨t.records, .ok (.normalized g.size g.ruleCount g.start)⟩,
      some { d with grammar := g, normal := some c }⟩
  | .error e => ⟨⟨t.records, .error (.fault e)⟩, none⟩

end Chomsky.Desk
