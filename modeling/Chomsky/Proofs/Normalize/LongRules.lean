import Chomsky.Proofs.Grammar.Reachable
import Chomsky.Proofs.Normalize.Folding

/-!
Splitting long rules is a folding: each new symbol stands for the members that follow it in the
rule it was made for.
-/

namespace Chomsky.Grammar

variable {α : Type} [DecidableEq α] {g g' : Grammar α}

/-- `g'` has a pair for `p` and pairs for the symbols it made, which unfold to `ms` and to what
`h` says. -/
structure Chains (g : Grammar α) (p : Nat) (ms : List Nat) (h : Nat → List Nat)
    (g' : Grammar α) : Prop where
  length : g'.symbols.length = g.symbols.length + (ms.length - 2)
  start : g'.start = g.start
  isTerminal : ∀ i, g'.isTerminal i = g.isTerminal i
  rules : ∀ i < g.symbols.length, i ≠ p → g'.rules i = g.rules i
  head : ∃ b, b.length = 2 ∧ b.flatMap h = ms ∧ (2 < ms.length → g.symbols.length ∈ b) ∧
    g'.rules p = OrderedSet.insert (g.rules p) b
  fresh : ∀ i, g.symbols.length ≤ i → i < g'.symbols.length →
    ∃ b, b.length = 2 ∧ b.flatMap h = h i ∧ g'.rules i = [b]

lemma length_le_two {ms : List Nat}
    (hshort : ∀ m m' m'' rest, ms = m :: m' :: m'' :: rest → False) : ms.length ≤ 2 := by
  rcases ms with _ | ⟨m, _ | ⟨m', _ | ⟨m'', ms⟩⟩⟩
  · simp
  · simp
  · simp
  · exact absurd rfl (hshort m m' m'' ms)

/-- The `j`-th new symbol stands for what follows the member `j`. -/
lemma insertChain_spec {p : Nat} {ms : List Nat} {h : Nat → List Nat}
    (hp : p < g.symbols.length) (hlen : 2 ≤ ms.length) (hms : ∀ m ∈ ms, h m = [m])
    (hn : ∀ j, h (g.symbols.length + j) = ms.drop (j + 1))
    (hok : (g.insertChain p ms).result = .ok g') : g.Chains p ms h g' := by
  fun_induction insertChain g p ms with
  | case1 g p m m' m'' ms ih =>
    obtain ⟨n, g₁, g₂, hpush, hi, hc⟩ := insertChain_cons_eq_ok.1 hok
    obtain ⟨hm, -⟩ := makes_of_pushSynthetic hpush
    obtain ⟨hp₁, -, -, -, rfl⟩ := insertRule_eq_ok.1 hi
    obtain rfl := hm.index
    have hlen₁ := hm.length
    have hrules : ∀ i, (g₁.withRule p [m, g.symbols.length]).rules i =
        if i = p then OrderedSet.insert (g.rules p) [m, g.symbols.length] else g.rules i :=
      fun i => by rw [rules_withRule hp₁, hm.rules, hm.rules]
    have ih := ih g.symbols.length _ (by simp [hlen₁]) (by simp)
      (fun x hx => hms x (List.mem_cons_of_mem m hx)) (fun j => by
        have := hn (j + 1)
        rw [length_withRule, hlen₁, Nat.add_assoc, Nat.add_comm 1 j]
        simpa using this) hc
    obtain ⟨hlen', hstart, hterm, hrest, ⟨b, hb2, hb, -, hbr⟩, hfresh⟩ := ih
    rw [length_withRule, hlen₁] at hlen' hrest hfresh
    have hn0 : h g.symbols.length = m' :: m'' :: ms := by simpa using hn 0
    refine ⟨by simp at hlen' ⊢; omega, hstart.trans hm.start,
      fun i => by rw [hterm, isTerminal_withRule, hm.isTerminal],
      fun i hi hip => by rw [hrest i (by omega) (by omega), hrules, if_neg hip],
      ⟨[m, g.symbols.length], rfl, ?_, fun _ => by simp, ?_⟩, fun i hge hlt => ?_⟩
    · simp [hms m, hn0]
    · rw [hrest p (by omega) (by omega), hrules, if_pos rfl]
    · rcases Nat.eq_or_lt_of_le hge with rfl | hgt
      · refine ⟨b, hb2, hb.trans hn0.symm, ?_⟩
        rw [hbr, hrules, if_neg (by omega), rules_of_le (Nat.le_refl _)]
        rfl
      · exact hfresh i hgt hlt
  | case2 g p ms hshort =>
    have h2 : ms.length = 2 := le_antisymm (length_le_two hshort) hlen
    obtain ⟨hp₁, -, -, -, rfl⟩ := insertRule_eq_ok.1 hok
    refine ⟨by simp [h2], rfl, fun i => isTerminal_withRule,
      fun i _ hip => by rw [rules_withRule hp₁, if_neg hip],
      ⟨ms, h2, ?_, fun h3 => absurd h2 (by omega), by rw [rules_withRule hp₁, if_pos rfl]⟩,
      fun i hge hlt => absurd hlt (by simpa using hge)⟩
    rw [List.flatMap_congr hms]
    exact List.flatMap_singleton' ms

/-- A chain adds nothing but pairs. -/
lemma mem_rules_insertChain {p i : Nat} {ms s : List Nat} (hlen : 2 ≤ ms.length)
    (hok : (g.insertChain p ms).result = .ok g') (hs : s ∈ g'.rules i) :
    s ∈ g.rules i ∨ s.length = 2 := by
  have hins : ∀ {g g' : Grammar α} {q : Nat} {r : List Nat}, r.length = 2 →
      (g.insertRule q r).result = .ok g' → s ∈ g'.rules i → s ∈ g.rules i ∨ s.length = 2 := by
    intro g g' q r hr hi hs
    obtain ⟨hq, -, -, -, rfl⟩ := insertRule_eq_ok.1 hi
    rcases (mem_rules_withRule hq).1 hs with hs | ⟨-, rfl⟩
    · exact .inl hs
    · exact .inr hr
  fun_induction insertChain g p ms with
  | case1 g p m m' m'' ms ih =>
    obtain ⟨n, g₁, g₂, hpush, hi, hc⟩ := insertChain_cons_eq_ok.1 hok
    rcases ih n g₂ (by simp) hc with hs | hs
    · exact (hins rfl hi hs).imp_left fun h => by
        rwa [(makes_of_pushSynthetic hpush).1.rules] at h
    · exact .inr hs
  | case2 g p ms hshort =>
    exact hins (le_antisymm (length_le_two hshort) hlen) hok hs

/-- What follows a member of `r`, for the symbols made for it one after another from `n` on. -/
def tailFrom (n : Nat) (r : List Nat) (i : Nat) : List Nat :=
  if i < n then [i] else r.drop (i - n + 1)

lemma tailFrom_of_lt {n i : Nat} {r : List Nat} (hi : i < n) : tailFrom n r i = [i] := if_pos hi

lemma tailFrom_add (n j : Nat) (r : List Nat) : tailFrom n r (n + j) = r.drop (j + 1) := by
  rw [tailFrom, if_neg (by omega), Nat.add_sub_cancel_left]

/-- Splitting one rule is a folding. Its pair is not there before, because it contains a new
symbol. -/
lemma splitRule_folds (hw : g.WellFormed) {p : Nat} {r : List Nat} (hlong : 2 < r.length)
    (h : (splitRule p g r).result = .ok g') : g.Folds g' := by
  obtain ⟨g₁, hc, hrem⟩ := splitRule_eq_ok.1 h
  obtain ⟨hr₂, -, rfl⟩ := removeRule_eq_ok.1 hrem
  have hrp : r ∈ g.rules p :=
    (mem_rules_insertChain (by omega) hc hr₂).resolve_right (by omega)
  have hp : p < g.symbols.length := lt_of_mem_rules hrp
  have hlt := hw.member_lt p r hrp
  have hs := insertChain_spec (h := tailFrom g.symbols.length r) hp (by omega)
    (fun m hm => tailFrom_of_lt (hlt m hm)) (fun j => tailFrom_add _ j r) hc
  obtain ⟨b, hb2, hb, hbmem, hbr⟩ := hs.head
  have hnew : b ∉ g.rules p := fun hmem =>
    absurd (hw.member_lt p b hmem _ (hbmem hlong)) (Nat.lt_irrefl _)
  have hrules : ∀ i, i ≠ p → (g₁.withoutRule p r).rules i = g₁.rules i :=
    fun i hi => by rw [rules_withoutRule, if_neg hi]
  have hlen := hs.length
  have hgives : g.GivesWay (g₁.withoutRule p r) (tailFrom g.symbols.length r) p r b := {
    length_le := by simp [hlen]
    start := hs.start
    isTerminal := fun i => by simpa using hs.isTerminal i
    old := fun i => tailFrom_of_lt
    fresh := fun i hge hlt' => by
      rw [length_withoutRule] at hlt'
      obtain ⟨b', hb'2, hb', hbr'⟩ := hs.fresh i hge hlt'
      have htail : tailFrom g.symbols.length r i = r.drop (i - g.symbols.length + 1) :=
        if_neg (Nat.not_lt.2 hge)
      refine ⟨?_, fun m hm => ?_, fun m hm _ => ?_, b', by rw [hrules i (by omega), hbr'],
        hb'.symm, fun m hm => by simp [hm] at hb'2⟩
      · rw [htail]
        exact List.ne_nil_of_length_pos (by rw [List.length_drop]; omega)
      · exact hlt m (List.mem_of_mem_drop (htail ▸ hm))
      · exact List.mem_of_mem_drop (htail ▸ hm)
    mem := hrp
    long := by omega
    long' := by omega
    rest := fun i hi hip => (hrules i hip).trans (hs.rules i hi hip)
    rules := by rw [rules_withoutRule, if_pos rfl, hbr, insert_of_not_mem hnew]
    unfolds := hb }
  exact ⟨tailFrom g.symbols.length r, hgives.folding hw⟩

theorem splitLongRules_folds (hw : g.WellFormed) (h : g.splitLongRules.result = .ok g') :
    g.Folds g' := by
  refine folds_foldlM (fun c p _ c' hc _ h => ?_) hw h
  refine ⟨folds_foldlM (fun d r hr d' hd _ h => ?_) hc h,
    hc.changes (splitRulesOf_reshapes h).changes⟩
  have hr : 2 < r.length := by simpa using (List.mem_filter.1 hr).2
  exact ⟨splitRule_folds hd hr h, hd.changes (splitRule_reshapes h).changes⟩

end Chomsky.Grammar
