import Chomsky.Proofs.Decimal
import Chomsky.Record

/-!
The messages of records can be read back. The first character of a message tells its kind, and all
that the record says stands between fixed words.
-/

namespace Chomsky

/-- Reads a value off the front of a text. -/
abbrev Reader := StateT (List Char) Option

namespace Reader

variable {β : Type} {rest : List Char}

def word (w : String) : Reader Unit := fun cs =>
  if w.toList.isPrefixOf cs then some ((), cs.drop w.toList.length) else none

def natural : Reader Nat := fun cs => some (Decimal.natural cs)

def integer : Reader Int := fun cs => some (Decimal.integer cs)

/-- Numbers with a comma before each, and the closing bracket of their list. -/
def more : List Char → Option (List Nat × List Char)
  | ']' :: cs => some ([], cs)
  | ',' :: ' ' :: cs => do
    let (ns, rest) ← more (cs.dropWhile Char.isDigit)
    some ((Decimal.natural cs).1 :: ns, rest)
  | _ => none
termination_by cs => cs.length
decreasing_by
  have := (List.dropWhile_sublist (l := cs) Char.isDigit).length_le
  simp only [List.length_cons]
  omega

def members : Reader (List Nat) := fun cs =>
  if cs.head? = some ']' then some ([], cs.tail) else more (',' :: ' ' :: cs)

def list : Reader (List Nat) := do
  word "["
  members

lemma word_bind (w : String) (k : Unit → Reader β) :
    (word w >>= k) (w.toList ++ rest) = k () rest := by
  simp [bind, StateT.bind, word]

lemma natural_bind (n : Nat) (k : Nat → Reader β) (h : rest.head?.any Char.isDigit = false) :
    (natural >>= k) (n.repr.toList ++ rest) = k n rest := by
  change k (Decimal.natural (n.repr.toList ++ rest)).1 (Decimal.natural _).2 = _
  rw [Decimal.natural_append n h]

lemma integer_bind (i : Int) (k : Int → Reader β) (h : rest.head?.any Char.isDigit = false) :
    (integer >>= k) (i.repr.toList ++ rest) = k i rest := by
  change k (Decimal.integer (i.repr.toList ++ rest)).1 (Decimal.integer _).2 = _
  rw [Decimal.integer_append i h]

/-- How a list goes on after a number. -/
def behind : List Nat → List Char
  | [] => [']']
  | n :: ns => ',' :: ' ' :: (n.repr.toList ++ behind ns)

lemma behind_stops (ns : List Nat) : (behind ns ++ rest).head?.any Char.isDigit = false := by
  cases ns <;> rfl

lemma more_behind (ns : List Nat) : more (behind ns ++ rest) = some (ns, rest) := by
  induction ns with
  | nil => rw [behind, List.singleton_append, more]
  | cons n ns ih =>
    rw [behind, List.cons_append, List.cons_append, List.append_assoc, more,
      ← Decimal.snd_natural, Decimal.natural_append n (behind_stops ns), ih]
    rfl

lemma toList_listText (n : Nat) (ns : List Nat) :
    (Record.listText (n :: ns)).toList = "[".toList ++ (n.repr.toList ++ behind ns) := by
  have hmembers : (", ".intercalate ((n :: ns).map Nat.repr)).toList ++ [']'] =
      n.repr.toList ++ behind ns := by
    rw [String.toList_intercalate, List.map_map]
    induction ns generalizing n with
    | nil => simp [behind]
    | cons m ns ih =>
      rw [List.map_cons, List.map_cons, List.intercalate_cons_cons, ← List.map_cons,
        List.append_assoc, ih m, behind, List.append_assoc]
      rfl
  rw [Record.listText, String.toList_append, String.toList_append, List.append_assoc]
  exact congrArg ("[".toList ++ ·) hmembers

lemma list_bind (ms : List Nat) (k : List Nat → Reader β) :
    (list >>= k) ((Record.listText ms).toList ++ rest) = k ms rest := by
  cases ms with
  | nil => rfl
  | cons m ms =>
    -- a list that starts with a number is not closed at once
    have hopen : (m.repr.toList ++ (behind ms ++ rest)).head? ≠ some ']' := fun hclosed => by
      obtain ⟨d, hd, hdigit⟩ := Decimal.head?_repr m (behind ms ++ rest)
      obtain rfl : d = ']' := Option.some.inj (hd.symm.trans hclosed)
      simp at hdigit
    have hread : members (m.repr.toList ++ (behind ms ++ rest)) = some (m :: ms, rest) := by
      rw [members, if_neg hopen, ← List.append_assoc]
      exact more_behind (m :: ms)
    rw [toList_listText, List.append_assoc, List.append_assoc, list, bind_assoc, word_bind]
    change (members _).bind _ = _
    rw [hread]
    rfl

end Reader

namespace Record

open Reader

/-! ### Messages -/

/-- A symbol and the members of a rule behind the word `w`. -/
def readRule (w : String) (make : Nat → List Nat → Record) : Reader Record := do
  word w
  let p ← natural
  word " -> "
  return make p (← list)

/-- A number between the words `w` and `v`, and then the size of the grammar. -/
def readSize (w v : String) (make : Nat → Nat → Nat → Record) : Reader Record := do
  word w
  let k ← natural
  word v
  let n ← natural
  word " symbols, "
  let r ← natural
  word " rules"
  return make k n r

def readSplit : Reader Record := do
  word "("
  let row ← natural
  word ", "
  let col ← natural
  word "): "
  let p ← natural
  word " -> "
  let l ← natural
  word " "
  let r ← natural
  word " split after "
  return .split row col p l r (← natural)

def readFilled : Reader Record := do
  word "Filled CYK table for "
  let n ← natural
  word " input symbols with "
  let e ← integer
  word " witnesses"
  return .filled n (.ofInt e)

def readVerdict : Reader Record := do
  word "Input of length "
  let n ← natural
  let accepted ← (do word " accepted"; return true) <|> (do word " rejected"; return false)
  return .verdict n accepted

/-- How a message goes on that starts with the given character. -/
def reader : Char → Reader Record
  | 'A' => readRule "Adding rule " .adding
  | 'R' => readRule "Removed rule " .removed
  | 'S' => do
    word "START: new start symbol "
    return .newStart (← natural)
  | 'N' => readSize "Normalization pass " ": " .pass
  | 'G' => readSize "Grammar normalized after " " passes: " .normalized
  | '(' => readSplit
  | 'F' => readFilled
  | 'I' => readVerdict
  | _ => failure

/-- What a message reports. Nothing may follow. -/
def ofMessage (s : String) : Option Record :=
  match s.toList with
  | [] => none
  | c :: cs =>
    match reader c (c :: cs) with
    | some (r, []) => some r
    | _ => none

lemma ofMessage_eq {s : String} {r : Record} (c : Char) (hc : (s.toList ++ []).head? = some c)
    (h : reader c (s.toList ++ []) = some (r, [])) : ofMessage s = some r := by
  rw [List.append_nil] at hc h
  unfold ofMessage
  cases hs : s.toList with
  | nil => simp [hs] at hc
  | cons d ds =>
    obtain rfl : d = c := by simpa [hs] using hc
    rw [hs] at h
    simp only [h]

lemma readRule_append (w : String) (make : Nat → List Nat → Record) (p : Nat) (ms : List Nat) :
    readRule w make (w.toList ++ (p.repr.toList ++ (" -> ".toList ++
      ((listText ms).toList ++ [])))) = some (make p ms, []) := by
  rw [readRule, word_bind, natural_bind _ _ rfl, word_bind, list_bind]
  rfl

lemma readSize_append (w : String) {v : String} (make : Nat → Nat → Nat → Record) (k n r : Nat)
    (hv : ∀ rest, (v.toList ++ rest).head?.any Char.isDigit = false) :
    readSize w v make (w.toList ++ (k.repr.toList ++ (v.toList ++ (n.repr.toList ++
      (" symbols, ".toList ++ (r.repr.toList ++ (" rules".toList ++ []))))))) =
        some (make k n r, []) := by
  rw [readSize, word_bind, natural_bind _ _ (hv _), word_bind, natural_bind _ _ rfl, word_bind,
    natural_bind _ _ rfl, word_bind]
  rfl

/-- **Every message can be read back**, so it tells all that its record says. -/
theorem ofMessage_message (r : Record) : ofMessage r.message = some r := by
  cases r with
  | adding p ms =>
    change ofMessage ("Adding rule " ++ p.repr ++ " -> " ++ listText ms) = _
    apply ofMessage_eq 'A' <;> simp only [String.toList_append, List.append_assoc]
    · rfl
    · exact readRule_append _ _ p ms
  | removed p ms =>
    change ofMessage ("Removed rule " ++ p.repr ++ " -> " ++ listText ms) = _
    apply ofMessage_eq 'R' <;> simp only [String.toList_append, List.append_assoc]
    · rfl
    · exact readRule_append _ _ p ms
  | newStart n =>
    change ofMessage ("START: new start symbol " ++ n.repr) = _
    apply ofMessage_eq 'S' <;> simp only [String.toList_append, List.append_assoc]
    · rfl
    · rw [reader, word_bind, natural_bind _ _ rfl]
      rfl
  | pass k n r =>
    change ofMessage ("Normalization pass " ++ k.repr ++ ": " ++ n.repr ++ " symbols, " ++
      r.repr ++ " rules") = _
    apply ofMessage_eq 'N' <;> simp only [String.toList_append, List.append_assoc]
    · rfl
    · exact readSize_append _ _ k n r fun _ => rfl
  | normalized k n r =>
    change ofMessage ("Grammar normalized after " ++ k.repr ++ " passes: " ++ n.repr ++
      " symbols, " ++ r.repr ++ " rules") = _
    apply ofMessage_eq 'G' <;> simp only [String.toList_append, List.append_assoc]
    · rfl
    · exact readSize_append _ _ k n r fun _ => rfl
  | split row col p l r after =>
    change ofMessage ("(" ++ row.repr ++ ", " ++ col.repr ++ "): " ++ p.repr ++ " -> " ++ l.repr ++
      " " ++ r.repr ++ " split after " ++ after.repr) = _
    apply ofMessage_eq '(' <;> simp only [String.toList_append, List.append_assoc]
    · rfl
    · rw [reader, readSplit, word_bind, natural_bind _ _ rfl, word_bind, natural_bind _ _ rfl,
        word_bind, natural_bind _ _ rfl, word_bind, natural_bind _ _ rfl, word_bind,
        natural_bind _ _ rfl, word_bind, natural_bind _ _ rfl]
      rfl
  | filled n e =>
    change ofMessage ("Filled CYK table for " ++ n.repr ++ " input symbols with " ++
      e.toInt.repr ++ " witnesses") = _
    apply ofMessage_eq 'F' <;> simp only [String.toList_append, List.append_assoc]
    · rfl
    · rw [reader, readFilled, word_bind, natural_bind _ _ rfl, word_bind, integer_bind _ _ rfl,
        word_bind, Int32.ofInt_toInt]
      rfl
  | verdict n accepted =>
    cases accepted with
    | true =>
      change ofMessage ("Input of length " ++ n.repr ++ " accepted") = _
      apply ofMessage_eq 'I' <;> simp only [String.toList_append, List.append_assoc]
      · rfl
      · rw [reader, readVerdict, word_bind, natural_bind _ _ rfl]
        rfl
    | false =>
      change ofMessage ("Input of length " ++ n.repr ++ " rejected") = _
      apply ofMessage_eq 'I' <;> simp only [String.toList_append, List.append_assoc]
      · rfl
      · rw [reader, readVerdict, word_bind, natural_bind _ _ rfl]
        rfl

end Record

end Chomsky
