import Chomsky.Text.Unprintable
import Chomsky.Text.GraphemeExtend

/-!
Names, identities and tags of symbols. Callers name symbols as they like, with values that have a
plain text and a quoted one; the symbols that normalisation creates are numbered in two ranges of
their own, and their printed forms start with a character of their own, which a caller's name that
starts with it is guarded against.

Every character of a quoted text is visible: the text stands between double quotes, a quote or a
backslash has a backslash before it, four controls have short forms, and a character that cannot be
shown alone is written by its code point.
-/

namespace Chomsky.Text

/-- A code point in lower-case hexadecimal, without leading zeros. -/
def codePoint (c : Char) : String :=
  "\\u\x7b" ++ String.ofList (Nat.toDigits 16 c.toNat) ++ "\x7d"

def escape (c : Char) : String :=
  match c with
  | '"' => "\\\""
  | '\\' => "\\\\"
  | '\n' => "\\n"
  | '\r' => "\\r"
  | '\t' => "\\t"
  | '\x00' => "\\0"
  | c => if isUnprintable c || isAttached c then codePoint c else c.toString

def quote (s : String) : String :=
  "\"" ++ String.join (s.toList.map escape) ++ "\""

end Chomsky.Text

namespace Chomsky

/-- What a caller may use as a name or a tag. Texts are quoted in messages; 64-bit integers are
written in decimal in both forms. -/
class Label (α : Type) where
  text : α → String
  quoted : α → String

instance : Label String where
  text s := s
  quoted := Text.quote

instance : Label Int64 where
  text i := i.toInt.repr
  quoted i := i.toInt.repr

inductive Ident (α : Type) where
  | user (name : α)
  /-- A symbol created to shorten a rule or to stand for a terminal in it. -/
  | synthetic (n : Nat)
  /-- A start symbol created so that the start occurs in no rule. -/
  | start (n : Nat)
  deriving DecidableEq

namespace Ident

def name? {α : Type} : Ident α → Option α
  | user a => some a
  | synthetic _ => none
  | start _ => none

/-- The characters with which the text of a created symbol or a guarded name starts. -/
def isReserved (c : Char) : Bool := c = '~' || c = '^' || c = '\\'

def guarded (s : String) : String :=
  if s.toList.head?.any isReserved then "\\" ++ s else s

def text {α : Type} [Label α] : Ident α → String
  | user a => guarded (Label.text a)
  | synthetic n => "~" ++ n.repr
  | start n => "^" ++ n.repr

end Ident

inductive Tag (α : Type) where
  | root
  | user (tag : α)
  /-- Given to a symbol that the caller has not tagged. -/
  | auto (n : Nat)
  deriving DecidableEq

namespace Tag

def isRoot {α : Type} : Tag α → Bool
  | root => true
  | user _ => false
  | auto _ => false

def text {α : Type} [Label α] : Tag α → String
  | root => "<root>"
  | user t => Label.text t
  | auto n => "#" ++ n.repr

end Tag

end Chomsky
