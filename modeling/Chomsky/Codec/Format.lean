import Chomsky.Ordered

/-!
Byte formats: a way to write values and a way to read a value off the front of some bytes.
Numbers have a fixed count of bytes, the least significant first; lists are written after their
length. What follows a value is left to whoever reads on.
-/

namespace Chomsky

structure Format (α : Type) where
  write : α → List UInt8
  read : List UInt8 → Option (α × List UInt8)

namespace Format

variable {α β : Type}

def writeNat : Nat → Nat → List UInt8
  | 0, _ => []
  | k + 1, n => UInt8.ofNat n :: writeNat k (n / 256)

def readNat : Nat → List UInt8 → Option (Nat × List UInt8)
  | 0, bs => some (0, bs)
  | _ + 1, [] => none
  | k + 1, b :: bs => do
    let (n, rest) ← readNat k bs
    pure (b.toNat + 256 * n, rest)

/-- Numbers in `k` bytes. -/
def nat (k : Nat) : Format Nat := ⟨writeNat k, readNat k⟩

def map (f : Format α) (decode : α → β) (encode : β → α) : Format β where
  write b := f.write (encode b)
  read bs := do
    let (a, rest) ← f.read bs
    pure (decode a, rest)

def pair (f : Format α) (g : Format β) : Format (α × β) where
  write p := f.write p.1 ++ g.write p.2
  read bs := do
    let (a, rest) ← f.read bs
    let (b, rest) ← g.read rest
    pure ((a, b), rest)

def readMany (read : List UInt8 → Option (α × List UInt8)) :
    Nat → List UInt8 → Option (List α × List UInt8)
  | 0, bs => some ([], bs)
  | n + 1, bs => do
    let (a, rest) ← read bs
    let (as, rest) ← readMany read n rest
    pure (a :: as, rest)

def list (f : Format α) : Format (List α) where
  write as := writeNat 8 as.length ++ as.flatMap f.write
  read bs := do
    let (n, rest) ← readNat 8 bs
    readMany f.read n rest

/-- Lists without repetitions; a repeated element is dropped. -/
def set [DecidableEq α] (f : Format α) : Format (List α) :=
  f.list.map OrderedSet.ofList id

/-- Lists of keys and values; a repeated key keeps its place and takes the later value. -/
def table [DecidableEq α] (f : Format α) (g : Format β) : Format (List (α × β)) :=
  (f.pair g).list.map OrderedMap.ofList id

/-- Texts as their UTF-8 bytes after the count of them. -/
def text : Format String where
  write s := writeNat 8 s.utf8ByteSize ++ s.toUTF8.toList
  read bs := do
    let (n, rest) ← readNat 8 bs
    if n ≤ rest.length then
      let s ← String.fromUTF8? ⟨(rest.take n).toArray⟩
      pure (s, rest.drop n)
    else none

/-- Signed integers in two's complement. -/
def int64 : Format Int64 :=
  (nat 8).map (fun n => (UInt64.ofNat n).toInt64) fun i => i.toUInt64.toNat

def word : Format UInt64 := (nat 8).map UInt64.ofNat UInt64.toNat

end Format

/-- Types of names and tags that can be stored. -/
class Stored (α : Type) where
  format : Format α

instance : Stored String := ⟨Format.text⟩

instance : Stored Int64 := ⟨Format.int64⟩

end Chomsky
