import Chomsky.Forest
import Chomsky.Grammar.Basic
import Chomsky.NormalGrammar.Basic
import Chomsky.Record
import Chomsky.Grammar.Build
import Chomsky.Tree

/-!
The replies of a session: a value or the reason why there is none, with the records of the work
done.
-/

namespace Chomsky

inductive TreeView where
  | whole (t : Tree)
  | text (s : String)
  | leaves (symbols : List Nat)
  | root (symbol : Nat)

inductive Value (α : Type) where
  | done
  | flag (b : Bool)
  | flags (bs : List Bool)
  | number (n : Nat)
  | number? (n : Option Nat)
  | numbers (ns : List Nat)
  | lists (ns : List (List Nat))
  | text (s : String)
  | bytes (bs : List UInt8)
  | ident (id : Ident α)
  | tag (t : Tag α)
  | label? (t : Option α)
  | ruleCount (n : Nat)
  | built (rejections : List (Rejection α)) (size ruleCount : Nat)
  | normalized (size ruleCount start : Nat)
  | dump (start ruleCount : Nat) (symbols : List (Symbol α))
  | normalRules (rules : List NormalRule)
  | normalDump (start ruleCount : Nat) (symbols : List (NormalSymbol α))
  | parsed (len : Nat) (roots : List Nat) (count : Nat)
  | pointers (ps : List Pointer)
  | trees (ts : List TreeView)
  | chart (len : Nat) (accepts : Bool) (rows : List (List (List Nat)))
  | entries (accepts : Bool) (es : List Entry)
  | tree (symbol : Nat) (leaves : List Nat) (text : String)

inductive Refusal (α : Type) where
  | rejected (r : Rejection α)
  | fault (f : Fault)
  /-- Bytes that do not hold what they should. -/
  | malformed
  | noNormal
  | noForest
  /-- There is no copy of that name. -/
  | noCopy

structure Reply (α : Type) where
  records : List Record
  answer : Except (Refusal α) (Value α)

end Chomsky
