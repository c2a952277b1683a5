import Chomsky.Grammar.Basic
import Chomsky.Session.Reply
import Chomsky.Trail

/-!
What a session works on: a grammar under construction, and the normal form and the forest made
last. Neither follows later changes of the grammar.
-/

namespace Chomsky

structure Desk (α : Type) where
  grammar : Grammar α
  normal : Option (NormalGrammar α) := none
  forest : Option Forest := none

/-- A reply, and what to work on next; nothing if the session is over. -/
structure Step (σ α : Type) where
  reply : Reply α
  next : Option σ

namespace Desk

variable {α : Type}

def width (d : Desk α) : Width := d.grammar.width

def refuse (d : Desk α) (r : Refusal α) : Step (Desk α) α := ⟨⟨[], .error r⟩, d⟩

def give (d : Desk α) (v : Value α) : Step (Desk α) α := ⟨⟨[], .ok v⟩, d⟩

/-- The value of a computation, and what to work on if it has one. -/
def finish {β : Type} (d : Desk α) (t : Trail Record β) (value : β → Value α)
    (next : β → Desk α) : Step (Desk α) α :=
  match t.result with
  | .ok b => ⟨⟨t.records, .ok (value b)⟩, next b⟩
  | .error e => ⟨⟨t.records, .error (.fault e)⟩, d⟩

/-- A question, which changes nothing. -/
def ask (d : Desk α) (t : Trail Record (Value α)) : Step (Desk α) α :=
  d.finish t id fun _ => d

def withNormal (d : Desk α) (f : NormalGrammar α → Step (Desk α) α) : Step (Desk α) α :=
  match d.normal with
  | some c => f c
  | none => d.refuse .noNormal

def withForest (d : Desk α) (f : Forest → Step (Desk α) α) : Step (Desk α) α :=
  match d.forest with
  | some forest => f forest
  | none => d.refuse .noForest

end Desk

end Chomsky
