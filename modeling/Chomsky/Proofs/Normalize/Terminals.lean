import Chomsky.Proofs.Grammar.Reachable
import Chomsky.Proofs.Normalize.Folding

/-!
Shielding terminals is a folding: each new symbol stands for the terminal that is its only rule.
-/

namespace Chomsky.Grammar

variable {α : Type} {g g' : Grammar α}

/-- Every terminal among `ms` gives way to a symbol of its own. -/
structure Shields (g : Grammar α) (ms ms' : List Nat) (g' : Grammar α) : Prop where
  length : g'.symbols.length = g.symbols.length + ms.countP g.isTerminal
  start : g'.start = g.start
  isTerminal : ∀ i, g'.isTerminal i = g.isTerminal i
  rules : ∀ i < g.symbols.length, g'.rules i = g.rules i
  fresh : ∀ i, g.symbols.length ≤ i → i < g'.symbols.length →
    ∃ t, g.isTerminal t = true ∧ g'.rules i = [[t]]
  members : List.Forall₂ (fun m' m => g.isTerminal m = false ∧ m' = m ∨
    g.isTerminal m = true ∧ g.symbols.length ≤ m' ∧ g'.rules m' = [[m]]) ms' ms

/-- The rules of the new symbols, where a symbol stays itself if it is not new. -/
def standsFor (g g' : Grammar α) (i : Nat) : List Nat :=
  if i < g.symbols.length then [i] else (g'.rules i).flatten

lemma standsFor_of_lt {i : Nat} (hi : i < g.symbols.length) : standsFor g g' i = [i] := if_pos hi

lemma standsFor_of_rules {i t : Nat} (hi : g.symbols.length ≤ i) (h : g'.rules i = [[t]]) :
    standsFor g g' i = [t] := by
  rw [standsFor, if_neg (by omega), h]
  rfl

namespace Shields

variable {ms ms' : List Nat}

/-- A terminal leaves a new symbol behind. -/
lemma exists_new (hs : g.Shields ms ms' g') {t : Nat} (htm : t ∈ ms)
    (ht : g.isTerminal t = true) : ∃ m ∈ ms', g.symbols.length ≤ m := by
  obtain ⟨-, -, -, -, -, hmem⟩ := hs
  induction hmem with
  | nil => exact absurd htm List.not_mem_nil
  | @cons m' m ms' ms h _ ih =>
    rcases List.mem_cons.1 htm with rfl | htm
    · obtain ⟨hf, -⟩ | ⟨-, hge, -⟩ := h
      · rw [ht] at hf
        cases hf
      · exact ⟨m', List.mem_cons_self, hge⟩
    · obtain ⟨x, hx, hge⟩ := ih htm
      exact ⟨x, List.mem_cons_of_mem m' hx, hge⟩

/-- So a rule with a terminal is not rewritten to one that was there. -/
lemma not_mem_rules (hs : g.Shields ms ms' g') (hw : g.WellFormed) {p t : Nat} (htm : t ∈ ms)
    (ht : g.isTerminal t = true) : ms' ∉ g.rules p := fun hr => by
  obtain ⟨m, hm, hge⟩ := hs.exists_new htm ht
  exact absurd (hw.member_lt p ms' hr m hm) (Nat.not_lt.2 hge)

/-- A member is a non-terminal that was there or a new symbol. -/
lemma member_cases (hs : g.Shields ms ms' g') {m : Nat} (hm : m ∈ ms') :
    m ∈ ms ∧ g.isTerminal m = false ∨ g.symbols.length ≤ m ∧ m < g'.symbols.length := by
  obtain ⟨-, -, -, -, -, hmem⟩ := hs
  induction hmem with
  | nil => exact absurd hm List.not_mem_nil
  | @cons m' t ms' ms h _ ih =>
    rcases List.mem_cons.1 hm with rfl | hm
    · obtain ⟨ht, rfl⟩ | ⟨-, hge, hrule⟩ := h
      · exact .inl ⟨List.mem_cons_self, ht⟩
      · exact .inr ⟨hge, lt_of_mem_rules (hrule ▸ List.mem_singleton_self [t])⟩
    · exact (ih hm).imp_left fun h => ⟨List.mem_cons_of_mem t h.1, h.2⟩

lemma flatMap_standsFor (hs : g.Shields ms ms' g') {g'' : Grammar α}
    (hms : ∀ m ∈ ms, m < g.symbols.length)
    (hrules : ∀ i, g.symbols.length ≤ i → g''.rules i = g'.rules i) :
    ms'.flatMap (standsFor g g'') = ms := by
  obtain ⟨-, -, -, -, -, hmem⟩ := hs
  induction hmem with
  | nil => rfl
  | @cons m' m ms' ms h _ ih =>
    have hm : standsFor g g'' m' = [m] := by
      obtain ⟨-, rfl⟩ | ⟨-, hge, hrule⟩ := h
      · exact standsFor_of_lt (hms m' List.mem_cons_self)
      · exact standsFor_of_rules hge ((hrules m' hge).trans hrule)
    rw [List.flatMap_cons, hm, ih fun x hx => hms x (List.mem_cons_of_mem m hx)]
    rfl

/-- New symbols have no long rules. -/
lemma mem_rules_of_long (hs : g.Shields ms ms' g') {p : Nat} {r : List Nat}
    (hlong : 2 ≤ r.length) (hr : r ∈ g'.rules p) : p < g.symbols.length ∧ r ∈ g.rules p := by
  rcases Nat.lt_or_ge p g.symbols.length with hp | hp
  · exact ⟨hp, hs.rules p hp ▸ hr⟩
  · obtain ⟨t, -, ht⟩ := hs.fresh p hp (lt_of_mem_rules hr)
    rw [ht, List.mem_singleton] at hr
    simp [hr] at hlong

end Shields

/-- A symbol whose rule is a terminal was made for that terminal. -/
lemma madeFor_of_rules {i t : Nat} {r : List Nat} (hi : g.symbols.length ≤ i)
    (ht : g.isTerminal t = true) (hrule : g'.rules i = [[t]]) :
    g.MadeFor g' (standsFor g g') r i := by
  have ht' : t < g.symbols.length := lt_of_isTerminal ht
  have hstands : standsFor g g' i = [t] := standsFor_of_rules hi hrule
  refine ⟨by simp [hstands], fun m hm => ?_, fun m hm hm' => ?_, [t], hrule, ?_, fun m hm => ?_⟩
  · rw [hstands, List.mem_singleton] at hm
    exact hm ▸ ht'
  · rw [hstands, List.mem_singleton] at hm
    simp [hm, ht] at hm'
  · rw [hstands, List.flatMap_singleton, standsFor_of_lt ht']
  · rwa [← List.singleton_inj.1 hm]

variable [DecidableEq α]

/-- The new symbol comes last, and its rule is the terminal. -/
lemma pushStandIn_spec {t n : Nat} (h : (g.pushStandIn t).result = .ok (n, g')) :
    n = g.symbols.length ∧ g'.symbols.length = g.symbols.length + 1 ∧ g'.start = g.start ∧
      (∀ i, g'.isTerminal i = g.isTerminal i) ∧
      (∀ i < g.symbols.length, g'.rules i = g.rules i) ∧ g'.rules n = [[t]] := by
  obtain ⟨g₁, hp, hi⟩ := pushStandIn_eq_ok.1 h
  obtain ⟨hm, -⟩ := makes_of_pushSynthetic hp
  obtain ⟨hn, -, -, -, rfl⟩ := insertRule_eq_ok.1 hi
  obtain rfl := hm.index
  refine ⟨rfl, by simp [hm.length], hm.start, fun i => by simp [hm.isTerminal], fun i hlt => ?_, ?_⟩
  · rw [rules_withRule hn, if_neg (by omega), hm.rules]
  · rw [rules_withRule hn, if_pos rfl, hm.rules, rules_of_le (Nat.le_refl _)]
    rfl

lemma shieldMembers_spec {ms ms' : List Nat} (h : (g.shieldMembers ms).result = .ok (ms', g')) :
    g.Shields ms ms' g' := by
  induction ms generalizing g ms' with
  | nil =>
    obtain ⟨rfl, rfl⟩ := shieldMembers_nil_eq_ok.1 h
    exact ⟨rfl, rfl, fun _ => rfl, fun _ _ => rfl, fun _ h h' => absurd h' (Nat.not_lt.2 h), .nil⟩
  | cons m ms ih =>
    obtain ⟨m', g₁, ms', hm, hms, rfl⟩ := shieldMembers_cons_eq_ok.1 h
    obtain ⟨hlen, hstart, hterm, hrules, hfresh, hmem⟩ := ih hms
    obtain ⟨ht, hm⟩ | ⟨ht, rfl, rfl⟩ := hm
    · obtain ⟨rfl, hlen₁, hstart₁, hterm₁, hrules₁, hrule₁⟩ := pushStandIn_spec hm
      have hcongr : g₁.isTerminal = g.isTerminal := funext hterm₁
      rw [hcongr] at hlen hfresh hmem
      refine ⟨by rw [List.countP_cons_of_pos ht]; omega, hstart.trans hstart₁,
        fun i => (hterm i).trans (hterm₁ i),
        fun i hi => (hrules i (by omega)).trans (hrules₁ i hi), fun i hge hlt => ?_, ?_⟩
      · rcases Nat.eq_or_lt_of_le hge with rfl | hgt
        · exact ⟨m, ht, by rw [hrules _ (by omega), hrule₁]⟩
        · exact hfresh i (by omega) hlt
      · refine .cons (.inr ⟨ht, Nat.le_refl _, by rw [hrules _ (by omega), hrule₁]⟩)
          (hmem.imp fun a b hab => hab.imp_right fun hab => ⟨hab.1, by omega, hab.2.2⟩)
    · exact ⟨by rw [List.countP_cons_of_neg (by simp [ht]), hlen], hstart, hterm, hrules, hfresh,
        .cons (.inl ⟨ht, rfl⟩) hmem⟩

/-- Shielding one rule is a folding. The rule without terminals is not there before, because it
contains a new symbol. -/
lemma shieldRule_folds (hw : g.WellFormed) {p : Nat} {r : List Nat}
    (hr : g.needsShield r = true) (h : (shieldRule p g r).result = .ok g') : g.Folds g' := by
  obtain ⟨r', g₁, g₂, hm, hi, hrem⟩ := shieldRule_eq_ok.1 h
  have hs := shieldMembers_spec hm
  obtain ⟨hp₁, -, -, -, rfl⟩ := insertRule_eq_ok.1 hi
  obtain ⟨hr₂, -, rfl⟩ := removeRule_eq_ok.1 hrem
  simp only [needsShield, Bool.and_eq_true, decide_eq_true_eq, List.any_eq_true] at hr
  obtain ⟨hlong, t, htr, ht⟩ := hr
  have hlen := hs.members.length_eq
  rw [rules_withRule hp₁, if_pos rfl] at hr₂
  have hrr : r ≠ r' := by
    rintro rfl
    obtain ⟨hf, -⟩ | ⟨-, hge, -⟩ := List.forall₂_same.1 hs.members t htr
    · simp [ht] at hf
    · exact absurd (lt_of_isTerminal ht) (Nat.not_lt.2 hge)
  obtain ⟨hp, hrp⟩ :=
    hs.mem_rules_of_long hlong ((OrderedSet.mem_insert.1 hr₂).resolve_right hrr)
  have hnew : r' ∉ g.rules p := hs.not_mem_rules hw htr ht
  have hrules : ∀ i, i ≠ p → ((g₁.withRule p r').withoutRule p r).rules i = g₁.rules i :=
    fun i hi => by rw [rules_withoutRule, if_neg hi, rules_withRule hp₁, if_neg hi]
  generalize hg' : (g₁.withRule p r').withoutRule p r = g' at hrules
  have hlen' : g'.symbols.length = g₁.symbols.length := by simp [← hg']
  have hfresh : ∀ i, g.symbols.length ≤ i → i < g'.symbols.length →
      ∃ t, g.isTerminal t = true ∧ g'.rules i = [[t]] := fun i hge hlt => by
    rw [hrules i (by omega)]
    exact hs.fresh i hge (hlen' ▸ hlt)
  have hgives : g.GivesWay g' (standsFor g g') p r r' := {
    length_le := by rw [hlen', hs.length]; omega
    start := by rw [← hg']; exact hs.start
    isTerminal := fun i => by rw [← hg']; simpa using hs.isTerminal i
    old := fun i => standsFor_of_lt
    fresh := fun i hge hlt => by
      obtain ⟨t, ht, hrule⟩ := hfresh i hge hlt
      exact madeFor_of_rules hge ht hrule
    mem := hrp
    long := hlong
    long' := by omega
    rest := fun i hi hip => (hrules i hip).trans (hs.rules i hi)
    rules := by
      rw [← hg', rules_withoutRule, if_pos rfl, rules_withRule hp₁, if_pos rfl, hs.rules p hp,
        insert_of_not_mem hnew]
    unfolds := hs.flatMap_standsFor (hw.member_lt p r hrp) fun i hge => hrules i (by omega) }
  exact ⟨standsFor g g', hgives.folding hw⟩

theorem shieldTerminals_folds (hw : g.WellFormed) (h : g.shieldTerminals.result = .ok g') :
    g.Folds g' := by
  refine folds_foldlM (fun c p _ c' hc _ h => ?_) hw h
  refine ⟨folds_foldlM (fun d r hr d' hd hfd h => ?_) hc h,
    hc.changes (shieldRulesOf_reshapes h).changes⟩
  have hr : d.needsShield r = true := by
    have := (List.mem_filter.1 hr).2
    rw [needsShield, funext hfd.isTerminal]
    exact this
  exact ⟨shieldRule_folds hd hr h, hd.changes (shieldRule_reshapes h).changes⟩

end Chomsky.Grammar
