/-!
Index widths. The symbols of a grammar are numbered with unsigned words of a fixed width, and
a number is brought into that width by dropping its high bits.
-/

namespace Chomsky

inductive Width where
  | w8 | w16 | w32 | w64 | w128
  deriving DecidableEq, Repr

namespace Width

def bytes : Width → Nat
  | w8 => 1
  | w16 => 2
  | w32 => 4
  | w64 => 8
  | w128 => 16

def bits (w : Width) : Nat := 8 * w.bytes

/-- How many numbers have this width. -/
def count (w : Width) : Nat := Nat.pow 2 w.bits

/-- The greatest number of this width, which is also the greatest count of symbols. -/
def max (w : Width) : Nat := w.count - 1

def wrap (w : Width) (n : Nat) : Nat := n % w.count

theorem count_pos (w : Width) : 0 < w.count := Nat.two_pow_pos _

theorem max_lt (w : Width) : w.max < w.count :=
  Nat.sub_one_lt (Nat.pos_iff_ne_zero.1 w.count_pos)

/-- Counts up to the greatest symbol count are not changed. -/
@[simp] theorem wrap_of_le {w : Width} {n : Nat} (h : n ≤ w.max) : w.wrap n = n :=
  Nat.mod_eq_of_lt (Nat.lt_of_le_of_lt h w.max_lt)

end Width

end Chomsky
