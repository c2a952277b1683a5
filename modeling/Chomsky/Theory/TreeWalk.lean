import Chomsky.Tree

/-!
The leaves and the lines of a tree in two further ways: by recursion on the tree, without a list of
subtrees to come, and by loops over a stack. What is on top of the stack comes off and is written
down, and its children go onto the stack, the last one first. Nothing bounds the number of turns.
-/

namespace Chomsky

/-- The text of a symbol, and nothing for a symbol that the grammar does not have. -/
def NormalGrammar.nameAt {α : Type} [Label α] (c : NormalGrammar α) (i : Nat) : String :=
  (c.ids[i]?.map Ident.text).getD ""

namespace Tree

/-! ### Recursion -/

mutual
def leafList : Tree → List Nat
  | leaf s _ => [s]
  | node _ ts => leafLists ts

def leafLists : List Tree → List Nat
  | [] => []
  | t :: ts => leafList t ++ leafLists ts
end

mutual
/-- The lines of a tree at a depth, where `name` gives the text of a symbol. -/
def outline (name : Nat → String) (depth : Nat) : Tree → List String
  | leaf s p => [line depth (name s ++ " " ++ p.repr)]
  | node s ts => line depth (name s) :: outlines name (depth + 1) ts

def outlines (name : Nat → String) (depth : Nat) : List Tree → List String
  | [] => []
  | t :: ts => outline name depth t ++ outlines name depth ts
end

mutual
def symbols : Tree → List Nat
  | leaf s _ => [s]
  | node s ts => s :: symbolsOf ts

def symbolsOf : List Tree → List Nat
  | [] => []
  | t :: ts => symbols t ++ symbolsOf ts
end

/-! ### Loops over a stack -/

section Stack

variable {β ω : Type}

/-- Puts a list on a stack, whose top is in front, one element after the other from the last one
on. -/
def pile (xs stack : List β) : List β := xs.reverse.foldl (fun stack x => x :: stack) stack

structure Walk (β ω : Type) where
  /-- What goes onto the stack for what came off it. -/
  below : β → List β
  /-- Writes what came off the stack behind the output so far. -/
  write : ω → β → Except Fault ω

/-- `w.EndsIn stack out n r`: with that stack and that output the loop makes `n` turns more. Then
the stack is empty and `r` is the output, or the last turn broke off with `r`. -/
inductive Walk.EndsIn (w : Walk β ω) : List β → ω → Nat → Except Fault ω → Prop where
  | done {out : ω} : EndsIn w [] out 0 (.ok out)
  | turn {stack : List β} {x : β} {out out' : ω} {n : Nat} {r : Except Fault ω}
    (write : w.write out x = .ok out') (rest : EndsIn w (pile (w.below x) stack) out' n r) :
    EndsIn w (x :: stack) out (n + 1) r
  | fault {stack : List β} {x : β} {out : ω} {e : Fault} (write : w.write out x = .error e) :
    EndsIn w (x :: stack) out 1 (.error e)

end Stack

def children : Tree → List Tree
  | leaf _ _ => []
  | node _ ts => ts

def leafWalk : Walk Tree (List Nat) where
  below := children
  write
    | out, leaf s _ => .ok (out ++ [s])
    | out, node _ _ => .ok out

/-- Writes spaces one by one. -/
def indent : Nat → String → String
  | 0, out => out
  | depth + 1, out => indent depth (out.push ' ')

variable {α : Type} [Label α]

/-- Each subtree is on the stack with its depth. -/
def lineWalk (c : NormalGrammar α) : Walk (Nat × Tree) String where
  below x := atDepth (x.1 + 1) x.2.children
  write
    | out, (d, leaf s p) => do
      let name ← c.nameText s
      pure (indent d out ++ (name ++ " " ++ p.repr ++ "\n"))
    | out, (d, node s _) => do
      let name ← c.nameText s
      pure (indent d out ++ (name ++ "\n"))

end Tree

end Chomsky
