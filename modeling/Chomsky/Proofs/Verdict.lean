import Chomsky.Proofs.Forest.Exact

/-!
All ways of asking about a word agree: recognising and parsing, by names or by indices, with the
answer of the chart.

What the grammar does not know is left out twice, when indices are looked up and when the chart is
filled. Leaving it out once is enough, so nothing depends on which unknown symbol stood there. The
chart looks for the start symbol among the bits of the top cell, a forest among the keys of it.
Both have it when there is a tree from the start symbol.
-/

namespace Chomsky

variable {α : Type} {c : NormalGrammar α} {input input' : List (Option Nat)}
  {limit : Option Nat}

/-- The answer of the chart of an input. -/
def Chart.verdict (c : NormalGrammar α) (input : List (Option Nat)) : Except Fault Bool := do
  let (chart, _) ← (Chart.ofInput c input).result
  chart.accepts

namespace NormalGrammar

/-- What is left of a symbol of the input: nothing, if it is outside the grammar. -/
def known (c : NormalGrammar α) (symbol? : Option Nat) : Option Nat :=
  symbol?.filter (· < c.size)

/-- A symbol outside the grammar: one that was not found, or an index past the last one. -/
def Unknown (c : NormalGrammar α) (symbol? : Option Nat) : Prop :=
  ∀ t, symbol? = some t → c.size ≤ t

lemma known_known (symbol? : Option Nat) : c.known (c.known symbol?) = c.known symbol? := by
  simp [known]

lemma known_of_unknown {symbol? : Option Nat} (h : c.Unknown symbol?) :
    c.known symbol? = none := by
  cases symbol? with
  | none => rfl
  | some t => simpa [known] using h t rfl

/-- Inputs that differ at most in what the grammar does not know. -/
lemma map_known_congr
    (h : List.Forall₂ (fun x y => x = y ∨ c.Unknown x ∧ c.Unknown y) input input') :
    input.map c.known = input'.map c.known := by
  induction h with
  | nil => rfl
  | @cons x y _ _ hxy _ ih =>
    have hhead : c.known x = c.known y := by
      obtain rfl | ⟨hx, hy⟩ := hxy
      · rfl
      · rw [known_of_unknown hx, known_of_unknown hy]
    rw [List.map_cons, List.map_cons, hhead, ih]

end NormalGrammar

/-! ### What is not known -/

namespace Chart

lemma terminalCell_known (col : Nat) (symbol? : Option Nat) :
    terminalCell c col (c.known symbol?) = terminalCell c col symbol? := by
  unfold terminalCell
  rw [← NormalGrammar.known, NormalGrammar.known_known]
  rfl

lemma fillCell_known (cells : Array BitSet) (span : Nat × Nat) :
    fillCell c (input.map c.known) cells span = fillCell c input cells span := by
  have hjoin : (input.map c.known)[span.2]?.join = c.known input[span.2]?.join := by
    rw [List.getElem?_map]
    rcases input[span.2]? with _ | _ | t <;> rfl
  rw [fillCell, fillCell, List.length_map, hjoin, terminalCell_known]

/-- The chart does not depend on what the grammar does not know. -/
lemma fill_known : fill c (input.map c.known) = fill c input := by
  have hcell : fillCell c (input.map c.known) = fillCell c input := by
    funext cells span
    exact fillCell_known cells span
  rw [fill, fill, fillAll, fillAll, List.length_map, hcell]

lemma ofInput_known : ofInput c (input.map c.known) = ofInput c input := by
  rw [ofInput, ofInput, List.length_map, fill_known]

end Chart

namespace Parser

lemma recognizeInput_known (p : Parser α) :
    p.recognizeInput (input.map p.grammar.known) = p.recognizeInput input := by
  rw [recognizeInput, recognizeInput, List.length_map, Chart.ofInput_known]

lemma parseInput_known (p : Parser α) :
    p.parseInput (input.map p.grammar.known) = p.parseInput input := by
  rw [parseInput, parseInput, List.length_map, Chart.ofInput_known]

lemma resolveIndices_eq (p : Parser α) (is : List Nat) :
    p.resolveIndices is = (is.map some).map p.grammar.known := by
  rw [resolveIndices, List.map_map]
  refine List.map_congr_left fun i _ => ?_
  simp [NormalGrammar.known, Option.filter]

lemma recognizeIndices_eq (p : Parser α) (is : List Nat) :
    p.recognizeIndices is = p.recognizeInput (is.map some) := by
  rw [recognizeIndices, resolveIndices_eq, recognizeInput_known]

lemma parseIndices_eq (p : Parser α) (is : List Nat) :
    p.parseIndices is = p.parseInput (is.map some) := by
  rw [parseIndices, resolveIndices_eq, parseInput_known]

/-! ### Answers -/

lemma result_recognizeInput (p : Parser α) :
    (p.recognizeInput input).result = Chart.verdict p.grammar input := by
  rw [recognizeInput, Trail.result_bind, Chart.verdict]
  refine congrArg _ (funext fun x => ?_)
  obtain ⟨chart, entries⟩ := x
  change _ = chart.accepts
  rw [Trail.result_bind, Trail.result_lift]
  rcases chart.accepts with _ | b <;> rfl

lemma result_parseInput (p : Parser α) : (p.parseInput input).result =
    (Chart.ofInput p.grammar input).result >>= fun x => Forest.ofChart p.grammar x.1 x.2 := by
  rw [parseInput, Trail.result_bind]
  refine congrArg _ (funext fun x => ?_)
  obtain ⟨chart, entries⟩ := x
  rw [Trail.result_bind, Trail.result_lift]
  rcases Forest.ofChart p.grammar chart entries with _ | f <;> rfl

end Parser

namespace Forest

variable {f : Forest}

lemma Holds.isEmpty (hf : Holds c input f) : f.isEmpty = true ↔ ¬Accepted c input := by
  by_cases ha : Accepted c input
  · simp [Forest.isEmpty, hf.roots ha, ha]
  · simp [Forest.isEmpty, hf.rejected ha, ha]

lemma Holds.count_pos (hf : Holds c input f) (hc : c.WellFormed) :
    ∃ n, f.count = .ok n ∧ (0 < n ↔ Accepted c input) := by
  refine ⟨_, hf.count hc, ?_⟩
  have hmax : 0 < Size.max := by decide
  have hcap : 0 < Size.cap f.allTrees.length ↔ 0 < f.allTrees.length := by
    rw [Size.cap, Nat.lt_min]
    exact and_iff_left hmax
  rw [hcap, List.length_pos_iff_exists_mem]
  simp only [hf.mem_allTrees hc, exists_and_left]
  rfl

/-- Every symbol of an accepted input is a terminal that the grammar knows. -/
lemma Accepted.terminal (hc : c.WellFormed) (ha : Accepted c input) {symbol? : Option Nat}
    (h : symbol? ∈ input) : ∃ t, symbol? = some t ∧ c.isTerminal t = .ok true := by
  obtain ⟨w, hw, -, hterminal⟩ := (NormalGrammar.exists_spans_start_iff hc ha.1).1 ha.2
  rw [hw] at h
  obtain ⟨t, ht, rfl⟩ := List.mem_map.1 h
  exact ⟨t, rfl, hterminal t ht⟩

end Forest

namespace Chart

lemma verdict_spec (hc : c.WellFormed) (h : Countable c input) :
    ∃ b, verdict c input = .ok b ∧ (b = true ↔ Forest.Accepted c input) := by
  obtain ⟨t, ht, hm⟩ := Parser.ofInput_spec hc h
  obtain ⟨b, hb, hiff⟩ := hm.accepts hc
  refine ⟨b, ?_, hiff⟩
  rw [verdict, ht]
  exact hb

lemma verdict_eq_ok (hc : c.WellFormed) :
    (∃ b, verdict c input = .ok b) ↔ Countable c input := by
  constructor
  · rintro ⟨b, hb⟩
    obtain ⟨x, hx, -⟩ := except_bind_eq_ok.1 hb
    exact (Parser.ofInput_eq_ok hc).1 ⟨x, hx⟩
  · intro h
    obtain ⟨b, hb, -⟩ := verdict_spec hc h
    exact ⟨b, hb⟩

/-- If the cells can be counted, nothing but the counter of entries leaves a word without a
verdict. -/
lemma verdict_eq_error (hc : c.WellFormed)
    (hcells : input.length * (input.length + 1) ≤ Size.max) {e : Fault} :
    verdict c input = .error e ↔
      e = .counterFull ∧ maxEntries < (Search.entries c input).length := by
  rw [← fill_eq_error hc hcells, ← Parser.ofInput_eq_error, verdict, except_bind_eq_error]
  refine or_iff_left ?_
  rintro ⟨x, hinput, herr⟩
  obtain ⟨b, hb⟩ := (verdict_eq_ok hc).2 ((Parser.ofInput_eq_ok hc).1 ⟨x, hinput⟩)
  rw [verdict, hinput, except_ok_bind, herr] at hb
  cases hb

lemma accepted_of_verdict (hc : c.WellFormed) (h : verdict c input = .ok true) :
    Forest.Accepted c input := by
  obtain ⟨b, hb, hiff⟩ := verdict_spec hc ((verdict_eq_ok hc).1 ⟨_, h⟩)
  exact hiff.1 (Except.ok.inj (hb.symm.trans h))

end Chart

namespace Parser

/-- Whatever is asked of the forest, its answer is that of the chart if it is so when there are
both. Otherwise both break off for the same reason. -/
lemma parseInput_bind_eq (hc : c.WellFormed) {ask : Forest → Except Fault Bool}
    (h : ∀ f b, Forest.Holds c input f → (b = true ↔ Forest.Accepted c input) →
      ask f = .ok b) :
    (parseInput ⟨c, limit⟩ input).result >>= ask = Chart.verdict c input := by
  by_cases hcount : Chart.Countable c input
  · obtain ⟨f, hf, hh⟩ : ∃ f, (parseInput ⟨c, limit⟩ input).result = .ok f ∧
        Forest.Holds c input f := parseInput_spec hc hcount
    obtain ⟨b, hb, hiff⟩ := Chart.verdict_spec hc hcount
    rw [hf, except_ok_bind, hb, h f b hh hiff]
  · rw [result_parseInput, Chart.verdict]
    rcases hinput : (Chart.ofInput c input).result with e | x
    · rfl
    · exact absurd ((ofInput_eq_ok hc).1 ⟨x, hinput⟩) hcount

lemma nonempty_parseInput (hc : c.WellFormed) :
    (parseInput ⟨c, limit⟩ input).result.map (!·.isEmpty) = Chart.verdict c input := by
  have hask : ∀ f b, Forest.Holds c input f → (b = true ↔ Forest.Accepted c input) →
      (.ok !f.isEmpty : Except Fault Bool) = .ok b := fun f b hh hiff => by
    rw [Except.ok.injEq, Bool.eq_iff_iff, Bool.not_eq_true', ← Bool.not_eq_true, hh.isEmpty,
      not_not, hiff]
  rw [← parseInput_bind_eq hc hask]
  rfl

lemma count_parseInput (hc : c.WellFormed) :
    ((parseInput ⟨c, limit⟩ input).result >>= fun f => f.count.map fun n => decide (0 < n)) =
      Chart.verdict c input := by
  refine parseInput_bind_eq hc fun f b hh hiff => ?_
  obtain ⟨n, hn, hpos⟩ := hh.count_pos hc
  rw [hn]
  refine congrArg Except.ok (Bool.eq_iff_iff.2 ?_)
  rw [decide_eq_true_eq, hpos, hiff]

/-- A word is recognised if the start symbol derives it, and if the cells and the entries of its
chart can be counted. -/
lemma result_recognize_eq_true [DecidableEq α] (hc : c.WellFormed) {names : List α} :
    (c.recognize names).result = .ok true ↔ Chart.Countable c (names.map c.index?) ∧
      names ≠ [] ∧ ∃ w : List Nat, names.map c.index? = w.map some ∧ c.Derives c.start w := by
  have hanswer : (c.recognize names).result = Chart.verdict c (names.map c.index?) :=
    result_recognizeInput _
  have hne : names.map c.index? ≠ [] ↔ names ≠ [] := by rw [Ne, List.map_eq_nil_iff]
  have haccepted : Forest.Accepted c (names.map c.index?) ↔ names ≠ [] ∧
      ∃ w : List Nat, names.map c.index? = w.map some ∧ c.Derives c.start w := by
    rw [← hne]
    exact and_congr_right (NormalGrammar.exists_spans_start_iff hc)
  rw [hanswer, ← haccepted, ← Chart.verdict_eq_ok hc]
  constructor
  · exact fun h => ⟨⟨true, h⟩, Chart.accepted_of_verdict hc h⟩
  · rintro ⟨hok, ha⟩
    obtain ⟨b, hb, hiff⟩ := Chart.verdict_spec hc ((Chart.verdict_eq_ok hc).1 hok)
    rw [hb, hiff.2 ha]

/-- A word that the start symbol derives is recognised, unless the counter of entries gives out. -/
lemma result_recognize_of_derives [DecidableEq α] (hc : c.WellFormed) {names : List α}
    (hcells : names.length * (names.length + 1) ≤ Size.max) (hne : names ≠ [])
    (h : ∃ w : List Nat, names.map c.index? = w.map some ∧ c.Derives c.start w) :
    (c.recognize names).result = .ok true ∨ (c.recognize names).result = .error .counterFull ∧
      Chart.maxEntries < (Search.entries c (names.map c.index?)).length := by
  have hcells : (names.map c.index?).length * ((names.map c.index?).length + 1) ≤ Size.max := by
    rwa [List.length_map]
  rcases Nat.lt_or_ge Chart.maxEntries (Search.entries c (names.map c.index?)).length with hlt | hle
  · have hanswer : (c.recognize names).result = Chart.verdict c (names.map c.index?) :=
      result_recognizeInput _
    rw [hanswer]
    exact .inr ⟨(Chart.verdict_eq_error hc hcells).2 ⟨rfl, hlt⟩, hlt⟩
  · exact .inl ((result_recognize_eq_true hc).2 ⟨⟨hcells, hle⟩, hne, h⟩)

/-- **All ways of asking agree.** Recognising, parsing, counting and the chart give the same answer
for every list of names; there is one just where the cells and the entries of the chart can be
counted. Indices give the same answer and the same forest as the names that they were looked up
from. Which symbol outside the grammar stands in an input does not matter, and an input with one, or
with a non-terminal, is rejected. The start symbol is the only root of an accepted input. -/
theorem recognize_agrees [DecidableEq α] {g g' : Grammar α} (hg : g.Reachable)
    (hn : g.normalize.result = .ok (g', c)) (limit : Option Nat) :
    (∀ names : List α,
      (c.recognize names).result = Chart.verdict c (names.map c.index?) ∧
      (recognize ⟨c, limit⟩ names).result = Chart.verdict c (names.map c.index?) ∧
      (c.parse names).result.map (!·.isEmpty) = Chart.verdict c (names.map c.index?) ∧
      (parse ⟨c, limit⟩ names).result.map (!·.isEmpty) = Chart.verdict c (names.map c.index?) ∧
      ((c.parse names).result >>= fun f => f.count.map fun n => decide (0 < n)) =
        Chart.verdict c (names.map c.index?) ∧
      ∀ is : List Nat, names.map c.index? = is.map some →
        recognizeIndices ⟨c, limit⟩ is = recognize ⟨c, limit⟩ names ∧
        parseIndices ⟨c, limit⟩ is = parse ⟨c, limit⟩ names) ∧
    (∀ is : List Nat,
      (recognizeIndices ⟨c, limit⟩ is).result = Chart.verdict c (is.map some) ∧
      (parseIndices ⟨c, limit⟩ is).result.map (!·.isEmpty) = Chart.verdict c (is.map some)) ∧
    (∀ is js : List Nat, List.Forall₂ (fun i j => i = j ∨ c.size ≤ i ∧ c.size ≤ j) is js →
      recognizeIndices ⟨c, limit⟩ is = recognizeIndices ⟨c, limit⟩ js ∧
      parseIndices ⟨c, limit⟩ is = parseIndices ⟨c, limit⟩ js) ∧
    (∀ input input' : List (Option Nat),
      List.Forall₂ (fun x y => x = y ∨ c.Unknown x ∧ c.Unknown y) input input' →
        Chart.ofInput c input = Chart.ofInput c input') ∧
    ∀ input : List (Option Nat),
      ((∃ b, Chart.verdict c input = .ok b) ↔ Chart.Countable c input) ∧
      (∀ x ∈ input, (∀ t, x = some t → c.isTerminal t ≠ .ok true) →
        Chart.Countable c input → Chart.verdict c input = .ok false) ∧
      ∀ f, (parseInput ⟨c, limit⟩ input).result = .ok f → Chart.verdict c input = .ok true →
        f.roots = [c.start] := by
  obtain ⟨-, hc, -⟩ := Grammar.normalize_mirrors hg hn
  refine ⟨fun names => ⟨result_recognizeInput _, result_recognizeInput _, nonempty_parseInput hc,
    nonempty_parseInput hc, count_parseInput hc, fun is his => ?_⟩, fun is => ?_,
    fun is js h => ?_, fun input input' h => ?_, fun input => ⟨Chart.verdict_eq_ok hc,
    fun x hx hunknown hcount => ?_, fun f hf hyes => ?_⟩⟩
  · rw [recognizeIndices_eq, parseIndices_eq, ← his]
    exact ⟨rfl, rfl⟩
  · rw [recognizeIndices_eq, parseIndices_eq]
    exact ⟨result_recognizeInput _, nonempty_parseInput hc⟩
  · have hknown : (is.map some).map c.known = (js.map some).map c.known := by
      refine NormalGrammar.map_known_congr (List.forall₂_map_left_iff.2
        (List.forall₂_map_right_iff.2 (h.imp fun i j hij => ?_)))
      simpa [NormalGrammar.Unknown] using hij
    rw [recognizeIndices, recognizeIndices, parseIndices, parseIndices, resolveIndices_eq,
      resolveIndices_eq, hknown]
    exact ⟨rfl, rfl⟩
  · rw [← Chart.ofInput_known, NormalGrammar.map_known_congr h, Chart.ofInput_known]
  · obtain ⟨b, hb, hiff⟩ := Chart.verdict_spec hc hcount
    have hno : ¬Forest.Accepted c input := fun ha => by
      obtain ⟨t, rfl, ht⟩ := ha.terminal hc hx
      exact hunknown t rfl ht
    rw [hb, Bool.eq_false_iff.2 (mt hiff.1 hno)]
  · exact (holds_of_parseInput hc hf).roots (Chart.accepted_of_verdict hc hyes)

/-- Indices outside the grammar, a rejected word, and an accepted one. -/
theorem recognize_agrees_alternating : Grammar.alternating.Reachable ∧
    Grammar.alternating.normalize.result =
      .ok (Grammar.alternatingResult, Grammar.alternatingSnapshot) ∧
    recognizeIndices ⟨Grammar.alternatingSnapshot, some 2⟩ [1, 9, 1] =
      recognizeIndices ⟨Grammar.alternatingSnapshot, some 2⟩ [1, 255, 1] ∧
    Chart.verdict Grammar.alternatingSnapshot [some 1, none] = .ok false ∧
    Chart.verdict Grammar.alternatingSnapshot [some 1, some 1, some 1] = .ok true ∧
    (Grammar.alternatingSnapshot.recognize ["a", "a", "a"]).result = .ok true ∧
    parseIndices ⟨Grammar.alternatingSnapshot, some 2⟩ [1, 1, 1] =
      parse ⟨Grammar.alternatingSnapshot, some 2⟩ ["a", "a", "a"] ∧
    ∃ f, (parse ⟨Grammar.alternatingSnapshot, some 2⟩ ["a", "a", "a"]).result = .ok f ∧
      f.isEmpty = false ∧ f.roots = [2] := by
  obtain ⟨hnames, -, hother, -, hinput⟩ := recognize_agrees Grammar.alternating_reachable
    Grammar.alternating_normalize (some 2)
  obtain ⟨hrecognize, -, -, hparse, -, hindices⟩ := hnames ["a", "a", "a"]
  obtain ⟨-, hrejected, -⟩ := hinput [some 1, none]
  obtain ⟨-, -, hroots⟩ := hinput [some 1, some 1, some 1]
  have hsame : List.Forall₂ (fun i j => i = j ∨ Grammar.alternatingSnapshot.size ≤ i ∧
      Grammar.alternatingSnapshot.size ≤ j) [1, 9, 1] [1, 255, 1] :=
    .cons (.inl rfl) (.cons (.inr ⟨by decide, by decide⟩) (.cons (.inl rfl) .nil))
  have hyes : Chart.verdict Grammar.alternatingSnapshot [some 1, some 1, some 1] = .ok true := by
    decide +kernel
  obtain ⟨f, hf, hfull⟩ := except_map_eq_ok.1 (hparse.trans hyes)
  exact ⟨Grammar.alternating_reachable, Grammar.alternating_normalize, (hother _ _ hsame).1,
    hrejected none (by simp) nofun (by decide), hyes, hrecognize.trans hyes,
    (hindices [1, 1, 1] rfl).2, f, hf, by simpa using hfull, hroots f hf hyes⟩

end Parser

end Chomsky
