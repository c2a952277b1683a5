import Chomsky.Proofs.Normalize.Once

/-!
A new start symbol is made at most once. Requests can not name it, so it never comes to occur in a
rule, and only a start symbol that occurs in a rule gets a new one above it.
-/

namespace Chomsky.Grammar

variable {α : Type} {g g' : Grammar α}

/-- The start symbol is the first symbol, or it is the one that was created and occurs in no
rule. -/
inductive StartsOnce (g : Grammar α) : Prop where
  | first (hn : g.nextStart = 0) (hs : g.start = 0) : StartsOnce g
  | created (hn : g.nextStart = 1) (hid : g.ids[g.start]? = some (.start 0))
    (ho : ¬g.Occurs g.start) : StartsOnce g

namespace StartsOnce

/-- The start symbol stays, and if it was created it does not come to occur in a rule. -/
lemma of_extends (h : g.StartsOnce) (hs : g'.start = g.start) (hn : g'.nextStart = g.nextStart)
    (hids : g.ids <+: g'.ids)
    (ho : g.ids[g.start]? = some (.start 0) → g'.Occurs g.start → g.Occurs g.start) :
    g'.StartsOnce := by
  cases h with
  | first hn₀ hs₀ => exact .first (hn.trans hn₀) (hs.trans hs₀)
  | created hn₁ hid hocc =>
    refine .created (hn.trans hn₁) ?_ ?_
    · rw [hs]
      exact ids_mono hids hid
    · rw [hs]
      exact fun h => hocc (ho hid h)

variable [DecidableEq α]

lemma isolateStart (h : g.StartsOnce) (hg : g.Consistent)
    (hi : g.isolateStart.result = .ok g') : g'.StartsOnce := by
  have hw := hg.wellFormed
  obtain ⟨-, rfl⟩ | ⟨hs, hc, hids, hn⟩ := isolateStart_spec hi
  · exact h
  · cases h with
    | first hn₀ _ =>
      refine .created (by rw [hn, hn₀]) ?_ (hc.not_occurs_start hw)
      rw [hids, hc.start, hn₀, ← length_ids, List.getElem?_concat_length]
    | created _ _ ho => exact absurd (hw.startOccurs_iff.1 hs) ho

/-- No step of a pass puts the start symbol into a rule. -/
lemma pass (h : g.StartsOnce) (hg : g.Consistent) (hp : g.pass.result = .ok g') :
    g'.StartsOnce := by
  obtain ⟨g₁, g₂, hp⟩ := pass_spec hg.wellFormed hp
  have henl := hp.enlarges.trans (inlineUnits_reshapes hp.inline).enlarges
  obtain ⟨ns, hns⟩ := henl.ids
  refine (h.isolateStart hg hp.isolate).of_extends henl.start henl.nextStart ⟨_, hns.symm⟩ ?_
  intro _ ho
  exact hp.folds.occurs hp.isolated.start_lt hp.isolated.start_nonterminal
    (inlineUnits_occurs hp.folded hp.inline ho)

lemma normalize (h : g.StartsOnce) (hg : g.Consistent) {c : NormalGrammar α}
    (hn : g.normalize.result = .ok (g', c)) : g'.StartsOnce := by
  obtain ⟨⟨-, rfl⟩ | ⟨-, hp⟩, -⟩ := normalize_cases hg.wellFormed hn
  · exact h
  · exact h.pass hg hp

/-- A created symbol has no name, so it is no member of a rule that was asked for. -/
lemma insertRule (h : g.StartsOnce) (hw : g.WellFormed) {p : Nat} {r : List Nat}
    (hr : ∀ m ∈ r, ∃ a, g.index? a = some m) (hi : (g.insertRule p r).result = .ok g') :
    g'.StartsOnce := by
  obtain ⟨hp, -, -, -, rfl⟩ := insertRule_eq_ok.1 hi
  refine h.of_extends rfl rfl ⟨[], by simp⟩ ?_
  rintro hid ⟨q, s, hs, hmem⟩
  obtain hs | ⟨-, rfl⟩ := (mem_rules_withRule hp).1 hs
  · exact ⟨q, s, hs, hmem⟩
  · obtain ⟨a, ha⟩ := hr g.start hmem
    have hname := ids_of_index? hw ha
    rw [hid] at hname
    cases hname

/-- **Every request keeps it.** -/
theorem request (h : g.StartsOnce) (hg : g.Consistent) (hr : g.Request g') : g'.StartsOnce := by
  cases hr with
  | rejected => exact h
  | declare hd =>
    obtain ⟨-, -, hx⟩ := declare_eq_ok.1 hd
    obtain ⟨-, rfl⟩ := Prod.mk.inj hx
    refine h.of_extends rfl rfl ⟨_, (ids_append rfl).symm⟩ ?_
    rintro - ⟨p, r, hr, hm⟩
    exact ⟨p, r, by rwa [rules_append rfl] at hr, hm⟩
  | rule _ hm hi => exact h.insertRule hg.wellFormed hm hi
  | tag =>
    refine h.of_extends rfl rfl ⟨[], by simp⟩ ?_
    rintro - ⟨p, r, hr, hm⟩
    exact ⟨p, r, by rwa [rules_withTag] at hr, hm⟩
  | normalize hn => exact h.normalize hg hn

end StartsOnce

variable [DecidableEq α] {w : Width} {a : α} {g₀ : Grammar α} {es : List (Edit α)}

lemma attemptAll_startsOnce (hc : create w a = .ok g₀)
    (he : (g₀.attemptAll es).result = .ok g) : g.StartsOnce := by
  have hkeep := attemptAll_keeps (fun g => g.Consistent ∧ g.StartsOnce)
    (fun g g' h hr => ⟨h.1.changes hr.changes, h.2.request h.1 hr⟩)
    ⟨create_consistent hc, ?_⟩ he
  · exact hkeep.2
  · obtain ⟨-, rfl⟩ := create_eq_ok.1 hc
    exact .first rfl rfl

/-- **At most one start symbol is ever created.** Whatever was asked for, in whatever order, a
symbol of that kind is the first of its kind, is the start symbol, and occurs in no rule. Without
one, the start symbol is the first symbol, which keeps the name it was given. -/
theorem start_created_once (hc : create w a = .ok g₀)
    (he : (g₀.attemptAll es).result = .ok g) :
    (∀ i k, g.ids[i]? = some (.start k) → k = 0 ∧ i = g.start ∧ ¬g.Occurs i) ∧
      (.start 0 ∉ g.ids → g.start = 0) ∧ g.ids[0]? = some (.user a) := by
  have hg : g.Consistent := Reachable.consistent ⟨w, a, g₀, es, hc, he⟩
  have hfirst : g.ids[0]? = some (.user a) := by
    obtain ⟨-, rfl⟩ := create_eq_ok.1 hc
    exact ids_mono (attemptAll_changes he).ids_extends rfl
  obtain ⟨hn, hs⟩ | ⟨hn, hid, ho⟩ := attemptAll_startsOnce hc he
  · refine ⟨fun i k hk => ?_, fun _ => hs, hfirst⟩
    have hlt := hg.identified.start_lt (List.mem_of_getElem? hk)
    omega
  · refine ⟨fun i k hk => ?_, fun hno => absurd (List.mem_of_getElem? hid) hno, hfirst⟩
    have hlt := hg.identified.start_lt (List.mem_of_getElem? hk)
    obtain rfl : k = 0 := by omega
    have hi : i = g.start :=
      (List.getElem?_inj (by simpa using lt_of_ids hk) hg.identified.nodup).1 (hk.trans hid.symm)
    exact ⟨rfl, hi, hi ▸ ho⟩

/-- Normalises twice, and in between gives the new start a unit rule. -/
def alternatingTwice : List (Edit String) :=
  [.declare "a" true, .addRule "S" ["S", "a", "S"], .addRule "S" ["a"], .normalize,
    .addRuleToStart ["S"], .normalize]

theorem start_created_once_alternating :
    create .w8 "S" = .ok ⟨.w8, [{ id := .user "S", isTerminal := false }], 0, 0, 0⟩ ∧
      (attemptAll ⟨.w8, [{ id := .user "S", isTerminal := false }], 0, 0, 0⟩
        alternatingTwice).result = .ok alternatingResult ∧
      (alternatingResult.ids[2]? = some (.start 0) ∧ 2 = alternatingResult.start ∧
        ¬alternatingResult.Occurs 2) ∧ alternatingResult.ids[0]? = some (.user "S") := by
  have hc : create .w8 "S" = .ok ⟨.w8, [{ id := .user "S", isTerminal := false }], 0, 0, 0⟩ := rfl
  have he : (attemptAll ⟨.w8, [{ id := .user "S", isTerminal := false }], 0, 0, 0⟩
      alternatingTwice).result = .ok alternatingResult := rfl
  obtain ⟨hstart, -, hfirst⟩ := start_created_once hc he
  obtain ⟨-, hs, ho⟩ := hstart 2 0 rfl
  exact ⟨hc, he, ⟨rfl, hs, ho⟩, hfirst⟩

end Chomsky.Grammar
