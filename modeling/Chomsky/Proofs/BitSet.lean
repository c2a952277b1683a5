import Mathlib.Data.Nat.Bitwise
import Chomsky.BitSet

/-!
Bit sets with all of their words are sets of the numbers below their bound: what a set holds is
what its operations look up, change and list.
-/

namespace Chomsky.BitSet

variable {s t : BitSet} {n i j : Nat}

/-- The number is below the bound and its bit is set. -/
def holds (s : BitSet) (i : Nat) : Bool :=
  i < s.size && (s.words[i / 64]?).any (bit · (i % 64))

/-- A set with the bound `n` and as many words as that needs. -/
structure Fits (n : Nat) (s : BitSet) : Prop where
  size : s.size = n
  words : s.words.length = wordCount n

lemma Fits.word_lt (h : s.Fits n) (hi : i < n) : i / 64 < s.words.length := by
  rw [h.words, wordCount]
  omega

lemma Fits.lt (h : s.Fits n) (hi : s.holds i = true) : i < n := by
  simp only [holds, Bool.and_eq_true, decide_eq_true_eq, h.size] at hi
  exact hi.1

lemma Fits.test (h : s.Fits n) (i : Nat) : s.test i = .ok (s.holds i) := by
  unfold BitSet.test holds
  split
  · next hi =>
    simp [hi, List.getElem?_eq_getElem (h.word_lt (h.size ▸ hi))]
  · next hi => simp [hi]

lemma Fits.get_eq_ok (h : s.Fits n) {b : Bool} :
    s.get i = .ok b ↔ i < n ∧ s.holds i = b := by
  unfold BitSet.get
  split
  · next hi => simp [h.test, h.size ▸ hi]
  · next hi => simp [h.size ▸ hi]

/-! ### Listing -/

lemma wordElements_eq (base : Nat) (w : UInt64) :
    wordElements base w = ((List.range 64).filter (bit w)).map (base + ·) := by
  unfold wordElements
  split
  · next h => simp [h, bit]
  · rfl

lemma elementsFrom_eq (base : Nat) (ws : List UInt64) : elementsFrom base ws =
    ((List.range (64 * ws.length)).filter fun i =>
      (ws[i / 64]?).any (bit · (i % 64))).map (base + ·) := by
  induction ws generalizing base with
  | nil => rfl
  | cons w ws ih =>
    have hlen : 64 * (w :: ws).length = 64 + 64 * ws.length := by
      rw [List.length_cons]
      omega
    rw [elementsFrom, ih, wordElements_eq, hlen, List.range_add, List.filter_append,
      List.map_append, List.filter_map, List.map_map]
    refine congrArg₂ (· ++ ·) ?_ ?_
    · refine congrArg (List.map _) (List.filter_congr fun i hi => ?_)
      have hi : i < 64 := List.mem_range.1 hi
      rw [Nat.div_eq_of_lt hi, Nat.mod_eq_of_lt hi]
      rfl
    · have hshift : ∀ i, (64 + i) / 64 = i / 64 + 1 := by omega
      simp only [Function.comp_def, hshift, Nat.add_mod_left, List.getElem?_cons_succ,
        Nat.add_assoc]

/-- The elements of a set are the numbers that it holds, in ascending order. -/
lemma Fits.elements (h : s.Fits n) : s.elements = (List.range n).filter s.holds := by
  obtain ⟨k, hk⟩ : ∃ k, 64 * s.words.length = n + k :=
    Nat.exists_eq_add_of_le (by rw [h.words, wordCount]; omega)
  rw [BitSet.elements, elementsFrom_eq, hk, List.range_add, List.filter_append, List.map_append,
    List.filter_append]
  simp only [Nat.zero_add, List.map_id_fun', id, List.filter_filter]
  have hnil : ((List.range k).map (n + ·)).filter s.holds = [] := by
    refine List.filter_eq_nil_iff.2 fun i hi hs => ?_
    obtain ⟨j, -, rfl⟩ := List.mem_map.1 hi
    exact absurd (h.lt hs) (by omega)
  exact (congrArg (_ ++ ·) hnil).trans (List.append_nil _)

lemma Fits.mem_elements (h : s.Fits n) : i ∈ s.elements ↔ s.holds i = true := by
  rw [h.elements, List.mem_filter, List.mem_range]
  exact and_iff_right_of_imp h.lt

lemma Fits.checkWords (h : s.Fits n) : s.checkWords = .ok () :=
  if_pos (by rw [h.words, h.size])

/-! ### Changing -/

lemma fits_empty (n : Nat) : (empty n).Fits n := ⟨rfl, List.length_replicate⟩

@[simp] lemma holds_empty : (empty n).holds i = false := by
  simp only [holds, empty, List.getElem?_replicate]
  split <;> simp [bit]

lemma Fits.clear (h : s.Fits n) : s.clear.Fits n := ⟨h.size, by simp [BitSet.clear, h.words]⟩

@[simp] lemma holds_clear : s.clear.holds i = false := by
  simp only [holds, BitSet.clear, List.getElem?_map]
  cases s.words[i / 64]? <;> simp [bit]

lemma bit_or_shift (w : UInt64) {k : Nat} (hk : k < 64) (i : Nat) :
    bit (w ||| UInt64.ofNat (1 <<< k)) i = (bit w i || decide (k = i)) := by
  have hpow : 2 ^ k < 2 ^ 64 := Nat.pow_lt_pow_right (by decide) hk
  rw [bit, UInt64.toNat_or, UInt64.toNat_ofNat', Nat.one_shiftLeft, Nat.mod_eq_of_lt hpow,
    Nat.testBit_or, Nat.testBit_two_pow]
  rfl

lemma Fits.insert (h : s.Fits n) (hi : i < n) : ∃ s', s.insert i = .ok s' ∧ s'.Fits n ∧
    ∀ j, s'.holds j = (s.holds j || decide (i = j)) := by
  have hlt := h.word_lt hi
  obtain ⟨w, hw⟩ : ∃ w, s.words[i / 64]? = some w := ⟨_, List.getElem?_eq_getElem hlt⟩
  refine ⟨{ s with words := s.words.set (i / 64) (w ||| UInt64.ofNat (1 <<< (i % 64))) }, ?_,
    ⟨h.size, by rw [List.length_set, h.words]⟩, fun j => ?_⟩
  · simp [BitSet.insert, h.size, hi, hw]
  · simp only [holds, h.size, List.getElem?_set, hlt, if_true]
    by_cases hj : j < n
    · by_cases hd : i / 64 = j / 64
      · have hij : i % 64 = j % 64 ↔ i = j := by omega
        simp [hj, ← hd, hw, bit_or_shift w (Nat.mod_lt i (by decide)), hij]
      · have hij : i ≠ j := fun h => hd (h ▸ rfl)
        simp [hd, hij]
    · have hij : i ≠ j := by omega
      simp [hj, hij]

lemma zipWords_eq {f : UInt64 → UInt64 → UInt64} {as bs : List UInt64}
    (h : as.length = bs.length) : zipWords f as bs = List.zipWith f as bs := by
  induction as generalizing bs with
  | nil => rw [List.zipWith_nil_left]; rfl
  | cons a as ih =>
    cases bs with
    | nil => simp at h
    | cons b bs => rw [zipWords, ih (by simpa using h), List.zipWith_cons_cons]

lemma holds_zip (hs : s.Fits n) (ht : t.Fits n) {f : UInt64 → UInt64 → UInt64}
    {c : Bool → Bool → Bool} (hf : ∀ a b i, bit (f a b) i = c (bit a i) (bit b i))
    (hc : c false false = false) :
    ({ s with words := zipWords f s.words t.words } : BitSet).Fits n ∧
      ∀ j, ({ s with words := zipWords f s.words t.words } : BitSet).holds j =
        c (s.holds j) (t.holds j) := by
  have hlen : s.words.length = t.words.length := hs.words.trans ht.words.symm
  refine ⟨⟨hs.size, by simp [zipWords_eq hlen, hs.words, ht.words]⟩, fun j => ?_⟩
  simp only [holds, zipWords_eq hlen, hs.size, ht.size]
  by_cases hj : j < n
  · have h₁ := hs.word_lt hj
    have h₂ := ht.word_lt hj
    simp [hj, List.getElem?_zipWith, List.getElem?_eq_getElem h₁, List.getElem?_eq_getElem h₂, hf]
  · simp [hj, hc]

lemma Fits.union (hs : s.Fits n) (ht : t.Fits n) : ∃ u, s.union t = .ok u ∧ u.Fits n ∧
    ∀ j, u.holds j = (s.holds j || t.holds j) :=
  ⟨_, if_pos (hs.size.trans ht.size.symm), holds_zip hs ht
    (fun a b i => by rw [bit, UInt64.toNat_or, Nat.testBit_or]; rfl) rfl⟩

lemma Fits.inter (hs : s.Fits n) (ht : t.Fits n) : ∃ u, s.inter t = .ok u ∧ u.Fits n ∧
    ∀ j, u.holds j = (s.holds j && t.holds j) :=
  ⟨_, if_pos (hs.size.trans ht.size.symm), holds_zip hs ht
    (fun a b i => by rw [bit, UInt64.toNat_and, Nat.testBit_and]; rfl) rfl⟩

/-- Inserting one number after another goes through, and the set then holds them all. -/
lemma Fits.foldlM_insert (h : s.Fits n) (xs : List Nat) (hxs : ∀ x ∈ xs, x < n) :
    ∃ s', xs.foldlM BitSet.insert s = .ok s' ∧ s'.Fits n ∧
      ∀ j, s'.holds j = (s.holds j || decide (j ∈ xs)) := by
  induction xs generalizing s with
  | nil => exact ⟨s, rfl, h, by simp⟩
  | cons x xs ih =>
    obtain ⟨s₁, h₁, hf₁, hh₁⟩ := h.insert (hxs x List.mem_cons_self)
    obtain ⟨s₂, h₂, hf₂, hh₂⟩ := ih hf₁ fun y hy => hxs y (List.mem_cons_of_mem x hy)
    refine ⟨s₂, ?_, hf₂, fun j => ?_⟩
    · rw [List.foldlM_cons, h₁]
      exact h₂
    · simp [hh₂, hh₁, Bool.or_assoc, eq_comm]

end Chomsky.BitSet
