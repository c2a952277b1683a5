import Chomsky.Render

/-!
Parse trees. A leaf is a terminal with its position in the word; a node is a non-terminal with
any number of children. Trees are walked with a list of the subtrees still to come.
-/

namespace Chomsky

inductive Tree where
  | leaf (symbol position : Nat)
  | node (symbol : Nat) (children : List Tree)
  deriving Repr

namespace Tree

def symbol : Tree → Nat
  | leaf s _ => s
  | node s _ => s

mutual
/-- The number of leaves and nodes. -/
def weight : Tree → Nat
  | leaf _ _ => 1
  | node _ ts => weightAll ts + 1

def weightAll : List Tree → Nat
  | [] => 0
  | t :: ts => weight t + weightAll ts
end

theorem weightAll_append (ts us : List Tree) :
    weightAll (ts ++ us) = weightAll ts + weightAll us := by
  induction ts with
  | nil => simp [weightAll]
  | cons t ts ih => simp [weightAll, ih, Nat.add_assoc]

/-- Subtrees with their common depth. -/
def atDepth (depth : Nat) (ts : List Tree) : List (Nat × Tree) := ts.map (depth, ·)

@[simp] theorem map_snd_atDepth (depth : Nat) (ts : List Tree) :
    (atDepth depth ts).map (·.2) = ts := by
  simp [atDepth, Function.comp_def]

def walkLeaves : List Tree → List Nat
  | [] => []
  | leaf s _ :: rest => s :: walkLeaves rest
  | node _ ts :: rest => walkLeaves (ts ++ rest)
termination_by pending => weightAll pending
decreasing_by
  · simp [weightAll, weight]
  · simp [weightAll, weightAll_append, weight]

/-- The terminals of a tree from left to right. -/
def leaves (t : Tree) : List Nat := walkLeaves [t]

variable {α : Type} [Label α]

def line (depth : Nat) (text : String) : String :=
  String.ofList (List.replicate depth ' ') ++ text ++ "\n"

/-- The lines of subtrees with their depths. -/
def walkLines (c : NormalGrammar α) : List (Nat × Tree) → Except Fault (List String)
  | [] => .ok []
  | (d, leaf s p) :: rest => do
    let name ← c.nameText s
    let lines ← walkLines c rest
    pure (line d (name ++ " " ++ p.repr) :: lines)
  | (d, node s ts) :: rest => do
    let name ← c.nameText s
    let lines ← walkLines c (atDepth (d + 1) ts ++ rest)
    pure (line d name :: lines)
termination_by pending => weightAll (pending.map (·.2))
decreasing_by
  · simp [weightAll, weight]
  · simp [weightAll, weightAll_append, weight]

/-- A line for each leaf and node, indented by its depth; a leaf is shown with its position. -/
def render (c : NormalGrammar α) (t : Tree) : Except Fault String :=
  (walkLines c [(0, t)]).map String.join

end Tree

end Chomsky
