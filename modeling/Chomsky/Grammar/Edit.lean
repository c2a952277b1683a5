import Chomsky.Grammar.Build
import Chomsky.Normalize

/-!
The requests that change a grammar, as data, and the grammars that requests lead to.
-/

namespace Chomsky

inductive Edit (α : Type) where
  | declare (name : α) (terminal : Bool)
  | addRule (parent : α) (members : List α)
  | addRuleToStart (members : List α)
  | assignTag (name tag : α)
  | normalize

/-- Whether a request adds a symbol. -/
def Edit.declares {α : Type} : Edit α → Bool
  | .declare .. => true
  | _ => false

namespace Grammar

variable {α : Type} [DecidableEq α]

/-- Carries out a request. A rejected one changes and reports nothing. -/
def apply (g : Grammar α) : Edit α → Except (Rejection α) (Trail Record (Grammar α))
  | .declare name terminal => (g.declare name terminal).map fun r => pure r.2
  | .addRule parent members => g.addRule parent members
  | .addRuleToStart members => g.addRuleToStart members
  | .assignTag name tag => (g.assignTag name tag).map pure
  | .normalize => .ok (Prod.fst <$> g.normalize)

/-- As `apply`, where a rejected request is passed over. -/
def attempt (g : Grammar α) (e : Edit α) : Trail Record (Grammar α) :=
  match g.apply e with
  | .ok t => t
  | .error _ => pure g

def attemptAll (g : Grammar α) (es : List (Edit α)) : Trail Record (Grammar α) :=
  es.foldlM attempt g

/-- All requests are granted, one after another, and lead to `g'`. -/
inductive Granted : Grammar α → List (Edit α) → Grammar α → Prop where
  | nil {g : Grammar α} : Granted g [] g
  | cons {g g₁ g' : Grammar α} {e : Edit α} {es : List (Edit α)} {t : Trail Record (Grammar α)}
    (h : g.apply e = .ok t) (ht : t.result = .ok g₁) (rest : Granted g₁ es g') :
    Granted g (e :: es) g'

/-- Some requests make this grammar of a new one, without a fault. -/
def Reachable (g : Grammar α) : Prop :=
  ∃ (w : Width) (start : α) (g₀ : Grammar α) (es : List (Edit α)),
    create w start = .ok g₀ ∧ (g₀.attemptAll es).result = .ok g

end Grammar

end Chomsky
