import Mathlib.Algebra.Group.Nat.Defs
import Mathlib.Tactic.Common
import Chomsky.Codec.NormalGrammar
import Chomsky.Fault

/-!
Laws of byte formats. A reader looks no further than the value it reads, and what was written is
read back, whatever follows. So a part of what was written, cut off at the end, can not be read.
-/

namespace Chomsky.Format

variable {α β : Type}

/-- What is read does not depend on what follows it. -/
def Local (read : List UInt8 → Option (α × List UInt8)) : Prop :=
  ∀ bs a rest more, read bs = some (a, rest) → read (bs ++ more) = some (a, rest ++ more)

/-- The value is read back, whatever follows. -/
def Returns (f : Format α) (a : α) : Prop := ∀ rest, f.read (f.write a ++ rest) = some (a, rest)

/-- **Nothing is read of a value that was cut off.** -/
theorem read_eq_none {f : Format α} {a : α} {bs : List UInt8} (hf : Local f.read)
    (ha : f.Returns a) (hpre : bs <+: f.write a) (hne : bs ≠ f.write a) : f.read bs = none := by
  obtain ⟨more, hmore⟩ := hpre
  cases hread : f.read bs with
  | none => rfl
  | some x =>
    have hlong := hf bs x.1 x.2 more hread
    have hwhole := ha []
    rw [List.append_nil, ← hmore, hlong] at hwhole
    obtain ⟨-, hnil⟩ := Prod.mk.inj (Option.some.inj hwhole)
    obtain ⟨-, rfl⟩ := List.append_eq_nil_iff.1 hnil
    exact absurd ((List.append_nil bs).symm.trans hmore) hne

/-! ### Readers -/

section Readers

variable {read : List UInt8 → Option (α × List UInt8)}
  {next : α → List UInt8 → Option (β × List UInt8)}

lemma local_pure (a : α) : Local fun bs => some (a, bs) := by
  intro bs b rest more h
  obtain ⟨rfl, rfl⟩ := Prod.mk.inj (Option.some.inj h)
  rfl

lemma local_none : Local fun _ => (none : Option (α × List UInt8)) := nofun

/-- One reader after another. -/
lemma Local.bind (h : Local read) (hnext : ∀ a, Local (next a)) :
    Local fun bs => read bs >>= fun x => next x.1 x.2 := by
  intro bs b rest more hb
  obtain ⟨⟨a, rest'⟩, ha, hb⟩ := Option.bind_eq_some_iff.1 hb
  exact Option.bind_eq_some_iff.2
    ⟨(a, rest' ++ more), h bs a rest' more ha, hnext a rest' b rest more hb⟩

lemma Local.map (h : Local read) (f : α → β) :
    Local fun bs => read bs >>= fun x => some (f x.1, x.2) :=
  h.bind fun a => local_pure (f a)

lemma local_readNat (k : Nat) : Local (readNat k) := by
  induction k with
  | zero => exact local_pure 0
  | succ k ih =>
    intro bs n rest more h
    cases bs with
    | nil => cases h
    | cons b bs =>
      obtain ⟨⟨m, rest'⟩, hm, h⟩ := Option.bind_eq_some_iff.1 h
      obtain ⟨rfl, rfl⟩ := Prod.mk.inj (Option.some.inj h)
      exact Option.bind_eq_some_iff.2 ⟨(m, rest' ++ more), ih bs m rest' more hm, rfl⟩

lemma Local.readMany (h : Local read) (n : Nat) : Local (readMany read n) := by
  induction n with
  | zero => exact local_pure []
  | succ n ih => exact h.bind fun a => ih.bind fun as => local_pure (a :: as)

end Readers

/-! ### Formats -/

section Formats

variable {f : Format α} {g : Format β}

lemma local_nat (k : Nat) : Local (nat k).read := local_readNat k

lemma local_map (hf : Local f.read) (decode : α → β) (encode : β → α) :
    Local (f.map decode encode).read := hf.map decode

lemma local_pair (hf : Local f.read) (hg : Local g.read) : Local (f.pair g).read :=
  hf.bind fun a => hg.bind fun b => local_pure (a, b)

lemma local_list (hf : Local f.read) : Local f.list.read :=
  (local_readNat 8).bind fun n => hf.readMany n

lemma local_set [DecidableEq α] (hf : Local f.read) : Local f.set.read :=
  local_map (local_list hf) _ _

lemma local_table [DecidableEq α] (hf : Local f.read) (hg : Local g.read) :
    Local (f.table g).read :=
  local_map (local_list (local_pair hf hg)) _ _

/-- The rest of reading a text, when the count of its bytes is known. -/
def readText (n : Nat) (bs : List UInt8) : Option (String × List UInt8) :=
  if n ≤ bs.length then do
    let s ← String.fromUTF8? ⟨(bs.take n).toArray⟩
    pure (s, bs.drop n)
  else none

lemma local_text : Local text.read := by
  have hbody : ∀ n, Local (readText n) := by
    intro n bs s rest more h
    unfold readText at h ⊢
    split at h
    · next hn =>
      have hmore : n ≤ (bs ++ more).length := by
        rw [List.length_append]
        omega
      obtain ⟨s', hs, h⟩ := Option.bind_eq_some_iff.1 h
      obtain ⟨rfl, rfl⟩ := Prod.mk.inj (Option.some.inj h)
      rw [if_pos hmore, List.take_append_of_le_length hn, List.drop_append_of_le_length hn, hs]
      rfl
    · cases h
  exact (local_readNat 8).bind hbody

lemma local_int64 : Local int64.read := local_map (local_nat 8) _ _

lemma local_word : Local word.read := local_map (local_nat 8) _ _

lemma returns_nat {k n : Nat} (h : n < 256 ^ k) : (nat k).Returns n := by
  intro rest
  induction k generalizing n with
  | zero =>
    obtain rfl : n = 0 := by omega
    rfl
  | succ k ih =>
    have hdiv : n / 256 < 256 ^ k := by
      rw [Nat.pow_succ] at h
      omega
    have hread : readNat k (writeNat k (n / 256) ++ rest) = some (n / 256, rest) := ih hdiv
    have hn : n % 256 + 256 * (n / 256) = n := by omega
    calc readNat (k + 1) (UInt8.ofNat n :: (writeNat k (n / 256) ++ rest))
        = (readNat k (writeNat k (n / 256) ++ rest) >>= fun x =>
            some (n % 256 + 256 * x.1, x.2)) := rfl
      _ = some (n % 256 + 256 * (n / 256), rest) := by rw [hread]; rfl
      _ = some (n, rest) := by rw [hn]

/-- Reading on after what was written. -/
lemma Returns.bind {γ : Type} {a : α} (h : f.Returns a)
    (next : α → List UInt8 → Option (γ × List UInt8)) (rest : List UInt8) :
    (f.read (f.write a ++ rest) >>= fun x => next x.1 x.2) = next a rest := by
  rw [h rest]
  rfl

lemma Returns.map {γ : Type} {a : α} (h : f.Returns a) (k : α → γ) (rest : List UInt8) :
    (f.read (f.write a ++ rest) >>= fun x => some (k x.1, x.2)) = some (k a, rest) :=
  h.bind (fun a rest => some (k a, rest)) rest

lemma returns_map {decode : α → β} {encode : β → α} {b : β} (h : f.Returns (encode b))
    (hb : decode (encode b) = b) : (f.map decode encode).Returns b := by
  intro rest
  calc (f.map decode encode).read ((f.map decode encode).write b ++ rest)
      = some (decode (encode b), rest) := h.map decode rest
    _ = some (b, rest) := by rw [hb]

lemma returns_pair {a : α} {b : β} (ha : f.Returns a) (hb : g.Returns b) :
    (f.pair g).Returns (a, b) := by
  intro rest
  calc (f.pair g).read ((f.write a ++ g.write b) ++ rest)
      = (f.pair g).read (f.write a ++ (g.write b ++ rest)) := by rw [List.append_assoc]
    _ = (g.read (g.write b ++ rest) >>= fun y => some ((a, y.1), y.2)) :=
        ha.bind (fun a rest => g.read rest >>= fun y => some ((a, y.1), y.2)) _
    _ = some ((a, b), rest) := hb.map (a, ·) rest

lemma returns_size {n : Nat} (h : n ≤ Size.max) : (nat 8).Returns n :=
  returns_nat (Nat.lt_succ_of_le h)

lemma readMany_flatMap {as : List α} (h : ∀ a ∈ as, f.Returns a) (rest : List UInt8) :
    readMany f.read as.length (as.flatMap f.write ++ rest) = some (as, rest) := by
  induction as with
  | nil => rfl
  | cons a as ih =>
    have ih := ih fun b hb => h b (List.mem_cons_of_mem a hb)
    calc readMany f.read (as.length + 1) ((a :: as).flatMap f.write ++ rest)
        = readMany f.read (as.length + 1) (f.write a ++ (as.flatMap f.write ++ rest)) := by
          rw [List.flatMap_cons, List.append_assoc]
      _ = (readMany f.read as.length (as.flatMap f.write ++ rest) >>= fun y =>
            some (a :: y.1, y.2)) :=
          (h a List.mem_cons_self).bind (fun a rest => readMany f.read as.length rest >>= fun y =>
            some (a :: y.1, y.2)) _
      _ = some (a :: as, rest) := by rw [ih]; rfl

lemma returns_list {as : List α} (hlen : as.length ≤ Size.max) (h : ∀ a ∈ as, f.Returns a) :
    f.list.Returns as := by
  intro rest
  calc f.list.read ((writeNat 8 as.length ++ as.flatMap f.write) ++ rest)
      = f.list.read (writeNat 8 as.length ++ (as.flatMap f.write ++ rest)) := by
        rw [List.append_assoc]
    _ = readMany f.read as.length (as.flatMap f.write ++ rest) :=
        (returns_size hlen).bind (readMany f.read) _
    _ = some (as, rest) := readMany_flatMap h rest

/-- What is read is made a set again, which changes nothing. -/
lemma returns_set [DecidableEq α] {as : List α} (hlen : as.length ≤ Size.max) (hn : as.Nodup)
    (h : ∀ a ∈ as, f.Returns a) : f.set.Returns as :=
  returns_map (returns_list hlen h) (OrderedSet.ofList_of_nodup hn)

/-- As for sets: no key stands twice, so the table that is made of what is read is the list. -/
lemma returns_table [DecidableEq α] {ps : List (α × β)} (hlen : ps.length ≤ Size.max)
    (hn : (ps.map (·.1)).Nodup) (hf : ∀ p ∈ ps, f.Returns p.1) (hg : ∀ p ∈ ps, g.Returns p.2) :
    (f.table g).Returns ps :=
  returns_map (returns_list hlen fun p hp => returns_pair (hf p hp) (hg p hp))
    (OrderedMap.ofList_of_nodup hn)

end Formats

/-! ### Texts and words -/

lemma toList_loop (bs : ByteArray) (i : Nat) (r : List UInt8) :
    ByteArray.toList.loop bs i r = r.reverse ++ bs.data.toList.drop i := by
  fun_induction ByteArray.toList.loop bs i r with
  | case1 i r h ih =>
    have hi : i < bs.data.toList.length := by
      rw [Array.length_toList]
      exact h
    have hget : bs.get! i = bs.data.toList[i] :=
      (getElem!_pos bs.data i h).trans (Array.getElem_toList h).symm
    rw [ih, List.reverse_cons, List.append_assoc, List.drop_eq_getElem_cons hi, hget]
    rfl
  | case2 i r h =>
    have hi : bs.data.toList.length ≤ i := by
      rw [Array.length_toList]
      exact Nat.le_of_not_lt h
    rw [List.drop_eq_nil_of_le hi, List.append_nil]

/-- The count of bytes of a text is stored before them, and the bytes are those of a valid text. -/
lemma returns_text {s : String} (h : s.utf8ByteSize ≤ Size.max) : text.Returns s := by
  intro rest
  have hbytes : s.toUTF8.toList = s.toByteArray.data.toList := toList_loop _ 0 []
  have hlen : s.toByteArray.data.toList.length = s.utf8ByteSize := Array.length_toList
  have hle : s.utf8ByteSize ≤ (s.toByteArray.data.toList ++ rest).length := by
    rw [List.length_append]
    omega
  have hvalid : String.fromUTF8? s.toByteArray = some s := dif_pos s.isValidUTF8
  calc text.read ((writeNat 8 s.utf8ByteSize ++ s.toUTF8.toList) ++ rest)
      = text.read (writeNat 8 s.utf8ByteSize ++ (s.toByteArray.data.toList ++ rest)) := by
        rw [List.append_assoc, hbytes]
    _ = readText s.utf8ByteSize (s.toByteArray.data.toList ++ rest) :=
        (returns_size h).bind readText _
    _ = (String.fromUTF8? s.toByteArray >>= fun t => some (t, rest)) := by
        rw [readText, if_pos hle, List.take_left' hlen, List.drop_left' hlen, Array.toArray_toList]
        rfl
    _ = some (s, rest) := by rw [hvalid]; rfl

lemma returns_int64 (i : Int64) : int64.Returns i := by
  refine returns_map (returns_size (Nat.le_of_lt_succ i.toUInt64.toNat_lt)) ?_
  rw [UInt64.ofNat_toNat]
  rfl

lemma returns_word (w : UInt64) : word.Returns w :=
  returns_map (returns_size (Nat.le_of_lt_succ w.toNat_lt)) UInt64.ofNat_toNat

end Chomsky.Format
