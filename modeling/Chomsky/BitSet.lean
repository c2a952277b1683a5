import Chomsky.Fault

/-!
Sets of numbers below a bound, kept as 64-bit words. The words are stored apart from the bound
and may be fewer than it needs when a set was read from bytes; to read a word that is not there
is a fault.
-/

namespace Chomsky

structure BitSet where
  size : Nat
  words : List UInt64
  deriving DecidableEq

namespace BitSet

def wordCount (size : Nat) : Nat := (size + 63) / 64

def empty (size : Nat) : BitSet := ⟨size, List.replicate (wordCount size) 0⟩

def full (size : Nat) : BitSet := ⟨size, List.replicate (wordCount size) (~~~0)⟩

def bit (w : UInt64) (i : Nat) : Bool := w.toNat.testBit i

/-- A number past the bound is not in the set. -/
def test (s : BitSet) (i : Nat) : Except Fault Bool :=
  if i < s.size then
    match s.words[i / 64]? with
    | some w => .ok (bit w (i % 64))
    | none => .error .outOfRange
  else .ok false

/-- As `test`, for numbers that must be below the bound. -/
def get (s : BitSet) (i : Nat) : Except Fault Bool :=
  if i < s.size then s.test i else .error .outOfRange

def insert (s : BitSet) (i : Nat) : Except Fault BitSet :=
  if i < s.size then
    match s.words[i / 64]? with
    | some w => .ok { s with words := s.words.set (i / 64) (w ||| UInt64.ofNat (1 <<< (i % 64))) }
    | none => .error .outOfRange
  else .error .outOfRange

def wordElements (base : Nat) (w : UInt64) : List Nat :=
  if w = 0 then [] else ((List.range 64).filter (bit w)).map (base + ·)

def elementsFrom (base : Nat) : List UInt64 → List Nat
  | [] => []
  | w :: ws => wordElements base w ++ elementsFrom (base + 64) ws

/-- The elements that the stored words hold, in ascending order. -/
def elements (s : BitSet) : List Nat :=
  (elementsFrom 0 s.words).filter (· < s.size)

/-- To walk a whole set, all of its words are needed. -/
def checkWords (s : BitSet) : Except Fault Unit :=
  if wordCount s.size ≤ s.words.length then .ok () else .error .outOfRange

def toList (s : BitSet) : Except Fault (List Nat) := do
  s.checkWords
  pure s.elements

def clear (s : BitSet) : BitSet := { s with words := s.words.map fun _ => 0 }

/-- Combines two lists of words as far as both go; the rest of the first is kept. -/
def zipWords (f : UInt64 → UInt64 → UInt64) : List UInt64 → List UInt64 → List UInt64
  | a :: as, b :: bs => f a b :: zipWords f as bs
  | as, _ => as

def union (s t : BitSet) : Except Fault BitSet :=
  if s.size = t.size then .ok { s with words := zipWords (· ||| ·) s.words t.words }
  else .error .sizeMismatch

def inter (s t : BitSet) : Except Fault BitSet :=
  if s.size = t.size then .ok { s with words := zipWords (· &&& ·) s.words t.words }
  else .error .sizeMismatch

end BitSet

end Chomsky
