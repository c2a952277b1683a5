import Chomsky.Proofs.Grammar.Covers
import Chomsky.Proofs.NormalGrammar.Mirror
import Chomsky.Proofs.Normalize.Expansion
import Chomsky.Proofs.Normalize.Language
import Chomsky.Proofs.Verdict

/-!
Normalising too early. Symbols and rules can be added to a grammar that was normalised, and it can
be normalised again. What was derived through unit rules and through the start symbol has then been
settled without them, so words may be missing, but none is gained: a grammar covers its normal
form, and goes on to cover it while both grow.
-/

namespace Chomsky.Grammar

open Relation

variable {α : Type} {g g' : Grammar α} {c : NormalGrammar α}

/-! ### What a normal form adds -/

section New

variable [DecidableEq α]

/-- The symbols that a pass makes have no names, and only a new symbol becomes the start. -/
lemma pass_new (hw : g.WellFormed) (h : g.pass.result = .ok g') :
    (∃ new, g'.ids = g.ids ++ new ∧ ∀ a, Ident.user a ∉ new) ∧
      (g'.start = g.start ∨ g.symbols.length ≤ g'.start) := by
  obtain ⟨g₁, g₂, hp⟩ := pass_spec hw h
  have henl := hp.enlarges.trans (inlineUnits_reshapes hp.inline).enlarges
  obtain ⟨ns, hns⟩ := henl.ids
  rw [henl.start, hns]
  obtain ⟨-, rfl⟩ | ⟨-, hc, hids, -⟩ := isolateStart_spec hp.isolate
  · exact ⟨⟨_, rfl, by simp⟩, .inl rfl⟩
  · rw [hids, List.append_assoc]
    exact ⟨⟨_, rfl, by simp⟩, .inr hc.start.ge⟩

lemma normalize_new (hw : g.WellFormed) (hn : g.normalize.result = .ok (g', c)) :
    (∃ new, g'.ids = g.ids ++ new ∧ ∀ a, Ident.user a ∉ new) ∧
      (g'.start = g.start ∨ g.symbols.length ≤ g'.start) := by
  obtain ⟨⟨-, rfl⟩ | ⟨-, hp⟩, -⟩ := normalize_cases hw hn
  · exact ⟨⟨[], (List.append_nil _).symm, fun _ => List.not_mem_nil⟩, .inl rfl⟩
  · exact pass_new hw hp

lemma normalize_index? (hg : g.Consistent) (hn : g.normalize.result = .ok (g', c)) (a : α) :
    g'.index? a = g.index? a := by
  obtain ⟨⟨new, hids, hnew⟩, -⟩ := normalize_new hg.wellFormed hn
  exact index?_of_extends hg (hg.changes (normalize_changes hn)) hids (hnew a)

end New

/-! ### A grammar and its normal form

What the symbols of a normal form stand for is what they unfold to, but a new start symbol stands
for the old one. -/

namespace Settles

variable {f : Nat → List Nat} {p : Nat} {r : List Nat} (hf : g.Settles g' f)
  (hs : g'.start = g.start ∨ g.symbols.length ≤ g'.start)

include hf hs

lemma update_start_of_lt (hp : p < g.symbols.length) :
    Function.update f g'.start [g.start] p = [p] := by
  by_cases hps : p = g'.start
  · rw [hps, Function.update_self, hs.resolve_right (by omega)]
  · rw [Function.update_of_ne hps]
    exact hf.unfolds.keep p fun hfresh => absurd hfresh.1 (Nat.not_le.2 hp)

/-- Every rule of the normal form is a derivation. -/
lemma produces_rule (hocc : ¬g'.Occurs g'.start) (hr : r ∈ g'.rules p) :
    ReflTransGen g.ruleSet.Produces (Function.update f g'.start [g.start] p)
      (r.flatMap (Function.update f g'.start [g.start])) := by
  have hmembers : r.flatMap (Function.update f g'.start [g.start]) = r.flatMap f :=
    List.flatMap_congr fun m hm => by
      have hm : m ≠ g'.start := fun h => hocc ⟨p, r, hr, h ▸ hm⟩
      rw [Function.update_of_ne hm]
  rw [hmembers]
  by_cases hp : p = g'.start
  · subst hp
    rw [Function.update_self]
    exact produces_of_properRule ((hf.start _).1 ⟨r, hr, rfl⟩)
  rcases Nat.lt_or_ge p g.symbols.length with hlt | hge
  · rw [hf.update_start_of_lt hs hlt]
    exact produces_of_properRule ((hf.rules p hlt _).1 ⟨r, hr, rfl⟩)
  · -- the only rule of a symbol made for a part of a rule unfolds to that part
    have hfresh := (hf.new p hge (lt_of_mem_rules hr)).resolve_right hp
    obtain ⟨b, hb, hbody, -⟩ := hf.unfolds.body p hfresh
    rw [hb, List.mem_singleton] at hr
    rw [Function.update_of_ne hp, hbody, hr]

end Settles

variable [DecidableEq α]

/-- **A grammar covers its normal form.** -/
theorem normalize_covers (hg : g.Consistent) (hn : g.normalize.result = .ok (g', c)) :
    ∃ f, g.Covers g' f := by
  have hw := hg.wellFormed
  obtain ⟨f, hf⟩ := normalize_settles hw hn
  have hs := (normalize_new hw hn).2
  have hindex := normalize_index? hg hn
  have hlt : ∀ a i, g.index? a = some i → i < g.symbols.length := fun a i hi =>
    lt_of_ids (ids_of_index? hw hi)
  refine ⟨Function.update f g'.start [g.start],
    fun p r => hf.produces_rule hs (normalize_inNormalForm hw hn).start, fun a => ?_, fun a => ?_,
    Function.update_self ..⟩
  · rw [hindex]
    exact Option.map_congr fun i hi => hf.update_start_of_lt hs (hlt a i hi)
  · rw [hindex]
    exact Option.map_congr fun i hi => (normalize_changes hn).isTerminal_of_lt (hlt a i hi)

lemma wellFormed_of_normalize (hg : g.Consistent) (hn : g.normalize.result = .ok (g', c)) :
    c.WellFormed :=
  snapshot_wellFormed (hg.changes (normalize_changes hn)).wellFormed
    (normalize_cases hg.wellFormed hn).2

/-- The normal form has the words of the grammar. -/
lemma derives_names_iff (hg : g.Consistent) (hn : g.normalize.result = .ok (g', c))
    {names : List α} :
    (∃ w : List Nat, names.map c.index? = w.map some ∧ c.Derives c.start w) ↔
      ∃ w : List Nat, names.map g.index? = w.map some ∧ g.Derives g.start w := by
  have hsnap := (normalize_cases hg.wellFormed hn).2
  have hindex : c.index? = g.index? := funext fun a =>
    (index?_of_snapshot hsnap a).trans (normalize_index? hg hn a)
  have hc := wellFormed_of_normalize hg hn
  rw [hindex]
  simp only [(snapshot_mirrors hsnap).derives_start_iff hc,
    (normalize_sameLanguage hg.wellFormed hn).start]

/-! ### Growing afterwards -/

/-- **Normalising early never adds words.** All requests that are granted to a grammar are granted
to its normal form, if there is room for the symbols they declare. Normalising what they make of it
can only break off for want of room. A word that is then recognised is also derived when the grammar
is normalised after the requests alone, and it is recognised there too, unless its chart has more
entries than can be counted. -/
theorem normalize_early (hg : g.Reachable) {es : List (Edit α)} (hes : ∀ e ∈ es, e ≠ .normalize)
    {g₁ g₂ g₂' : Grammar α} {c₂ : NormalGrammar α} (hlate : g.Granted es g₂)
    (hn₂ : g₂.normalize.result = .ok (g₂', c₂)) (hn : g.normalize.result = .ok (g₁, c))
    (hroom : g₁.symbols.length + es.countP Edit.declares ≤ g.width.max) :
    ∃ g₃, g₁.Granted es g₃ ∧ (∀ e, g₃.normalize.result = .error e → g.width.RunsOut e) ∧
      ∀ g₃' c₁, g₃.normalize.result = .ok (g₃', c₁) → ∀ names : List α,
        (c₁.recognize names).result = .ok true →
          (∃ w, names.map c₂.index? = w.map some ∧ c₂.Derives c₂.start w) ∧
          ((c₂.recognize names).result = .ok true ∨
            (c₂.recognize names).result = .error .counterFull ∧
              Chart.maxEntries < (Search.entries c₂ (names.map c₂.index?)).length) := by
  have hcons := hg.consistent
  have hc₁ := normalize_changes hn
  have hcons₁ := hcons.changes hc₁
  have hcons₂ := hcons.changes hlate.changes
  obtain ⟨f, hf⟩ := normalize_covers hcons hn
  obtain ⟨g₃, f', hearly, hcovers⟩ :=
    hf.granted hcons hcons₁ hes hlate (by rw [hc₁.width]; exact hroom)
  have hcons₃ := hcons₁.changes hearly.changes
  refine ⟨g₃, hearly, fun e he => ?_, fun g₃' c₁ hn₃ names hyes => ?_⟩
  · rw [← hc₁.width, ← hearly.changes.width]
    exact normalize_runsOut hcons₃ he
  · obtain ⟨hcount, hne, hword⟩ :=
      (Parser.result_recognize_eq_true (wellFormed_of_normalize hcons₃ hn₃)).1 hyes
    obtain ⟨w', hw', hd⟩ := (derives_names_iff hcons₃ hn₃).1 hword
    have hderives := (derives_names_iff hcons₂ hn₂).2 (hcovers.derives hw' hd)
    refine ⟨hderives, ?_⟩
    have hcells := hcount.cells
    rw [List.length_map] at hcells
    exact Parser.result_recognize_of_derives (wellFormed_of_normalize hcons₂ hn₂) hcells hne
      hderives

/-- Gives `S` a rule for a new terminal. -/
def alternatingMore : List (Edit String) := [.declare "b" true, .addRule "S" ["b"]]

/-- The new rule comes too late for the new start symbol, so that the word `b` is lost. -/
theorem normalize_early_alternating : alternating.Reachable ∧
    (∀ e ∈ alternatingMore, e ≠ .normalize) ∧
    alternating.normalize.result = .ok (alternatingResult, alternatingSnapshot) ∧
    5 + alternatingMore.countP Edit.declares ≤ Width.w8.max ∧
    ∃ g₂ g₂' c₂ g₃ g₃' c₁, alternating.Granted alternatingMore g₂ ∧
      g₂.normalize.result = .ok (g₂', c₂) ∧ alternatingResult.Granted alternatingMore g₃ ∧
      g₃.normalize.result = .ok (g₃', c₁) ∧ (c₁.recognize ["b", "a", "b"]).result = .ok true ∧
      (c₂.recognize ["b", "a", "b"]).result = .ok true ∧
      (c₁.recognize ["b"]).result = .ok false ∧ (c₂.recognize ["b"]).result = .ok true := by
  have hes : ∀ e ∈ alternatingMore, e ≠ .normalize := by simp [alternatingMore]
  have hroom : 5 + alternatingMore.countP Edit.declares ≤ Width.w8.max := by decide
  obtain ⟨g₂, g₂', c₂, hlate, hn₂, hb, hfew⟩ :
      ∃ g₂ g₂' c₂, alternating.Granted alternatingMore g₂ ∧
        g₂.normalize.result = .ok (g₂', c₂) ∧ (c₂.recognize ["b"]).result = .ok true ∧
        ¬Chart.maxEntries < (Search.entries c₂ (["b", "a", "b"].map c₂.index?)).length :=
    ⟨_, _, _, .cons rfl rfl (.cons rfl rfl .nil), rfl, rfl, by decide⟩
  obtain ⟨g₃, hearly, -, hwords⟩ := normalize_early alternating_reachable hes hlate hn₂
    alternating_normalize hroom
  obtain ⟨g₃', c₁, hn₃, hyes, hno⟩ : ∃ g₃' c₁, g₃.normalize.result = .ok (g₃', c₁) ∧
      (c₁.recognize ["b", "a", "b"]).result = .ok true ∧
      (c₁.recognize ["b"]).result = .ok false := by
    obtain rfl := Except.ok.inj hearly.attemptAll
    exact ⟨_, _, rfl, rfl, rfl⟩
  obtain ⟨-, hyes₂⟩ := hwords g₃' c₁ hn₃ _ hyes
  exact ⟨alternating_reachable, hes, alternating_normalize, hroom, g₂, g₂', c₂, g₃, g₃', c₁,
    hlate, hn₂, hearly, hn₃, hyes, hyes₂.resolve_right fun hfull => hfew hfull.2, hno, hb⟩

end Chomsky.Grammar
