import Chomsky.Proofs.Widening.NormalGrammar
import Chomsky.Session.Run

/-!
Commands at a desk of a greater index width. They get the same replies and leave the same behind,
unless the narrower desk has run out of indices.
-/

namespace Chomsky

variable {α : Type}

/-! ### What shows a width -/

def Refusal.runsOut : Refusal α → Bool
  | .rejected r => r.reason = .tooManySymbols
  | .fault e => e = .indexSpaceFull
  | _ => false

/-- When many requests are made at once, each rejection is in the value. -/
def Value.runsOut : Value α → Bool
  | .built rejections _ _ => rejections.any (·.reason = .tooManySymbols)
  | _ => false

/-- The reply says that there are too many symbols. -/
def Reply.runsOut (r : Reply α) : Bool :=
  match r.answer with
  | .ok v => v.runsOut
  | .error e => e.runsOut

/-- Commands that do not ask for the width itself. In stored forms an index takes the bytes of the
width, and a number to be made an index has to be one. -/
def Command.Portable (w : Width) : Command α → Prop
  | .normal .bytes => False
  | .loadNormal _ => False
  | .forest .bytes => False
  | .forest (.treeBytes _) => False
  | .loadForest _ => False
  | .loadTrees .. => False
  | .wrap n => n ≤ w.max
  | _ => True

namespace Step

variable {σ τ : Type}

/-- The same reply with something else to work on. -/
def map (f : σ → τ) (x : Step σ α) : Step τ α := ⟨x.reply, x.next.map f⟩

end Step

namespace Desk

/-- The same desk with indices of another width. -/
def widen (w : Width) (d : Desk α) : Desk α :=
  { d with grammar := d.grammar.widen w, normal := d.normal.map (.widen w) }

variable {d d' : Desk α} {w w' : Width}

@[simp] lemma grammar_widen : (d.widen w).grammar = d.grammar.widen w := rfl

/-! ### What a command leaves behind -/

/-- What there is to work on after a command: the grammar has changed, perhaps there is a new normal
form of it, or there is a new forest. -/
inductive Advance [DecidableEq α] (d : Desk α) : Desk α → Prop where
  | same : Advance d d
  | grammar {g : Grammar α} (h : d.grammar.Changes g) : Advance d { d with grammar := g }
  | normal {g : Grammar α} {c : NormalGrammar α} (h : d.grammar.normalize.result = .ok (g, c)) :
    Advance d { d with grammar := g, normal := some c }
  | forest (f : Forest) : Advance d { d with forest := some f }

lemma finish_next {β : Type} {t : Trail Record β} {value : β → Value α} {next : β → Desk α}
    (h : (d.finish t value next).next = some d') :
    d' = d ∨ ∃ b, t.result = .ok b ∧ d' = next b := by
  unfold finish at h
  split at h
  · next b hb => exact .inr ⟨b, hb, (Option.some.inj h).symm⟩
  · exact .inl (Option.some.inj h).symm

section Advance

variable [DecidableEq α]

lemma advance_of_eq {x : Step (Desk α) α} (hx : x.next = some d) (h : x.next = some d') :
    d.Advance d' := by
  obtain rfl : d = d' := Option.some.inj (hx.symm.trans h)
  exact .same

lemma ask_advance {t : Trail Record (Value α)} (h : (d.ask t).next = some d') : d.Advance d' := by
  obtain rfl | ⟨-, -, rfl⟩ := finish_next h
  · exact .same
  · exact .same

lemma withNormal_advance {f : NormalGrammar α → Step (Desk α) α}
    (hf : ∀ c, (f c).next = some d' → d.Advance d') (h : (d.withNormal f).next = some d') :
    d.Advance d' := by
  unfold withNormal at h
  split at h
  · next c _ => exact hf c h
  · exact advance_of_eq rfl h

lemma addRule_advance {x : Except (Rejection α) (Trail Record (Grammar α))}
    (hx : ∀ t g, x = .ok t → t.result = .ok g → d.grammar.Changes g)
    (h : (d.addRule x).next = some d') : d.Advance d' := by
  unfold addRule at h
  split at h
  · exact advance_of_eq rfl h
  · next t =>
    obtain rfl | ⟨g, hg, rfl⟩ := finish_next h
    · exact .same
    · exact .grammar (hx t g rfl hg)

lemma noting_changes {x y : List (Rejection α) × Grammar α} {e : Edit α}
    (h : (noting x e).result = .ok y) : x.2.Changes y.2 := by
  unfold noting at h
  split at h
  · obtain rfl := Except.ok.inj h
    exact .refl
  · next t ht =>
    rw [Trail.result_map] at h
    obtain ⟨g, hg, rfl⟩ := except_map_eq_ok.1 h
    exact (Grammar.apply_request ht hg).changes

lemma notingAll_changes {x y : List (Rejection α) × Grammar α} {es : List (Edit α)}
    (h : (es.foldlM noting x).result = .ok y) : x.2.Changes y.2 :=
  Trail.foldlM_keeps (fun z => x.2.Changes z.2) (fun _ _ _ _ hz h => hz.trans (noting_changes h))
    .refl h

lemma build_advance {nonterminals terminals : List α} {rules : List (α × List α)}
    (h : (d.build nonterminals terminals rules).next = some d') : d.Advance d' := by
  obtain rfl | ⟨x, hx, rfl⟩ := finish_next h
  · exact .same
  · exact .grammar (notingAll_changes hx)

lemma normalize_advance (h : d.normalize.next = some d') : d.Advance d' := by
  unfold normalize at h
  dsimp only at h
  split at h
  · next g c hn =>
    obtain rfl := Option.some.inj h
    exact .normal hn
  · cases h

variable [Label α] [Stored α]

/-- Nothing else is left behind, except by what reads stored forms. -/
lemma step_advance {c : Command α} (hc : c.Portable w) (h : (d.step c).next = some d') :
    d.Advance d' := by
  cases c with
  | save | restore | showIdent | showTag | showRejection | wrap => exact advance_of_eq rfl h
  | declare a terminal =>
    simp only [step, declare] at h
    split at h
    · exact advance_of_eq rfl h
    · next i g hg =>
      obtain rfl := Option.some.inj h
      exact .grammar (.single (.declare hg))
  | addRule a as =>
    exact addRule_advance (fun t g ht hg => (Grammar.addRule_request ht hg).changes) h
  | addRuleToStart as =>
    exact addRule_advance (fun t g ht hg => (Grammar.addRuleToStart_request ht hg).changes) h
  | assignTag a tag =>
    simp only [step, assignTag] at h
    split at h
    · exact advance_of_eq rfl h
    · next g hg =>
      obtain rfl := Option.some.inj h
      exact .grammar (Grammar.assignTag_request hg).changes
  | build nonterminals terminals rules => exact build_advance h
  | normalize => exact normalize_advance h
  | grammar q => exact ask_advance h
  | normal q => exact withNormal_advance (fun c => ask_advance) h
  | recognize word => exact withNormal_advance (fun c => ask_advance) h
  | chart input q => exact withNormal_advance (fun c => ask_advance) h
  | tree t => exact withNormal_advance (fun c => ask_advance) h
  | parse word =>
    refine withNormal_advance (fun c h => ?_) h
    obtain rfl | ⟨x, -, rfl⟩ := finish_next h
    · exact .same
    · exact .forest x.1
  | parseTrees as maxTrees form => exact withNormal_advance (fun c => advance_of_eq rfl) h
  | forest q =>
    simp only [step, withForest] at h
    split at h
    · cases q with
      | summary | pointers => exact ask_advance h
      | trees | treesUpTo => exact advance_of_eq rfl h
      | bytes | treeBytes => exact absurd hc not_false
    · exact advance_of_eq rfl h
  | loadNormal | loadForest | loadTrees => exact absurd hc not_false

end Advance

/-! ### Desks with an index for all symbols -/

/-- Both grammars have indices of the width `w` for all of their symbols. -/
structure Fits (w : Width) (d : Desk α) : Prop where
  grammar : d.grammar.WellFormed
  width : d.grammar.width = w
  normal : ∀ c, d.normal = some c → c.Indexed ∧ c.width = w

lemma Fits.advance [DecidableEq α] (hd : d.Fits w) (h : d.Advance d') : d'.Fits w := by
  cases h with
  | same => exact hd
  | grammar hc => exact ⟨hd.grammar.changes hc, hc.width.trans hd.width, hd.normal⟩
  | @normal g c hn =>
    obtain ⟨-, hs⟩ := Grammar.normalize_eq_ok.1 hn
    have hc := Grammar.normalize_changes hn
    have hg := hd.grammar.changes hc
    refine ⟨hg, hc.width.trans hd.width, fun c' hc' => ?_⟩
    obtain rfl : c = c' := Option.some.inj hc'
    have hcw := Grammar.width_of_snapshot hs
    have hids : c.ids.length ≤ c.width.max := by
      rw [Grammar.ids_of_snapshot hs, List.length_map, hcw]
      exact hg.length_le
    exact ⟨⟨Grammar.snapshot_wellFormed hg hs, hids⟩, hcw.trans (hc.width.trans hd.width)⟩
  | forest f => exact ⟨hd.grammar, hd.width, hd.normal⟩

/-! ### Questions at a wider desk -/

section Questions

lemma ask_widen (t : Trail Record (Value α)) :
    (d.widen w').ask t = (d.ask t).map (widen w') := by
  rcases t with ⟨rs, _ | v⟩
  · rfl
  · rfl

lemma viewTrees_widen [Label α] (t : Trail Record (List Tree)) (form : TreeForm) :
    (d.widen w').viewTrees t form = (d.viewTrees t form).map (widen w') := by
  have hview : ∀ t, viewTree (d.widen w').normal t form = viewTree d.normal t form := by
    intro t
    cases form with
    | text =>
      rcases hn : d.normal with _ | c
      · rw [widen, hn]
        rfl
      · simp only [widen, hn, Option.map_some, viewTree, Tree.render_widen]
    | whole | leaves | root => rfl
  rw [viewTrees, viewTrees]
  simp only [hview]
  rfl

variable [DecidableEq α]

lemma askGrammar_widen [Label α] {g : Grammar α} (hg : g.WellFormed) (hw : g.width.max ≤ w.max)
    (q : GrammarQuery α) : askGrammar (g.widen w) q = askGrammar g q := by
  cases q with
  | text => rw [askGrammar, askGrammar, Grammar.render_widen hg.length_le hw]
  | size => rw [askGrammar, askGrammar, Grammar.size_widen hg.length_le hw]
  | indices => rw [askGrammar, askGrammar, Grammar.indices_widen hg.length_le hw]
  | index a => rw [askGrammar, askGrammar, Grammar.index?_widen hg.length_le hw]
  | ruleText | ruleCount | start | ident | isTerminal | rules | parents | hasRule | tag
  | isNormal | startOccurs | dump => rfl

omit [DecidableEq α] in
lemma withNormal_widen {f f' : NormalGrammar α → Step (Desk α) α}
    (h : ∀ c, d.normal = some c → f' (c.widen w) = (f c).map (widen w)) :
    (d.widen w).withNormal f' = (d.withNormal f).map (widen w) := by
  have hnormal : (d.widen w).normal = d.normal.map (.widen w) := rfl
  rw [withNormal, withNormal, hnormal]
  cases hn : d.normal with
  | none => rfl
  | some c => exact h c hn

variable {c : NormalGrammar α} (hc : c.Indexed) (hw : c.width.max ≤ w.max)

include hc hw

lemma askNormal_widen [Label α] [Stored α] {q : NormalQuery α}
    (hq : (Command.normal q).Portable w') : askNormal (c.widen w) q = askNormal c q := by
  cases q with
  | text => rw [askNormal, askNormal, NormalGrammar.render_widen hc hw]
  | size => rw [askNormal, askNormal, NormalGrammar.size_widen hc hw]
  | indices => rw [askNormal, askNormal, NormalGrammar.indices_widen hc hw]
  | index a => rw [askNormal, askNormal, NormalGrammar.index?_widen hc hw]
  | sharedParents l r => rw [askNormal, askNormal, NormalGrammar.sharedParents_widen hc hw]
  | sharedParentsOver l r size =>
    rw [askNormal, askNormal, NormalGrammar.sharedParentsInto_widen hc hw,
      NormalGrammar.size_widen hc hw]
  | dump =>
    rw [askNormal, askNormal, NormalGrammar.indices_widen hc hw]
    rfl
  | ruleCount | start | ident | tag | isRoot | isTerminal | rules | hasRule | parents => rfl
  | bytes => exact absurd hq not_false

lemma recognize_widen (word : Word α) : recognize (c.widen w) word = recognize c word := by
  cases word with
  | names as => exact Parser.recognize_widen (p := ⟨c, none⟩) hc hw as
  | indices is => exact Parser.recognizeIndices_widen (p := ⟨c, none⟩) hc hw is

lemma parse_widen (word : Word α) : parse (c.widen w) word = parse c word := by
  cases word with
  | names as => exact Parser.parse_widen (p := ⟨c, none⟩) hc hw as
  | indices is => exact Parser.parseIndices_widen (p := ⟨c, none⟩) hc hw is

lemma chart_widen (input : List (InputSymbol α)) (q : ChartQuery) :
    chart (c.widen w) input q = chart c input q := by
  have hresolve : resolve (c.widen w) = resolve c := by
    funext x
    cases x with
    | name a => exact NormalGrammar.index?_widen hc hw a
    | index | unknown => rfl
  rw [chart, chart, hresolve, Chart.ofInput_widen hc hw]

end Questions

/-! ### Changes at a wider desk -/

section Changes

lemma finish_widen {β γ : Type} {f : β → γ} {t : Trail Record β} {t' : Trail Record γ}
    {value : β → Value α} {value' : γ → Value α} {next : β → Desk α} {next' : γ → Desk α}
    (h : Trail.Tracks f t t') (hvalue : ∀ b, t.result = .ok b → value' (f b) = value b)
    (hnext : ∀ b, next' (f b) = (next b).widen w)
    (hroom : (d.finish t value next).reply.runsOut = false) :
    (d.widen w).finish t' value' next' = (d.finish t value next).map (widen w) := by
  obtain hfull | rfl := h
  · simp [finish, hfull, Reply.runsOut, Refusal.runsOut] at hroom
  · rcases t with ⟨rs, e | b⟩
    · simp [finish, Except.map, Step.map]
    · have hvalue := hvalue b rfl
      simp [finish, Except.map, Step.map, hvalue, hnext]

lemma addRule_widen {x : Except (Rejection α) (Trail Record (Grammar α))}
    (hroom : (d.addRule x).reply.runsOut = false) :
    (d.widen w).addRule (x.map (Grammar.widen w <$> ·)) = (d.addRule x).map (widen w) := by
  rcases x with r | t
  · rfl
  · exact finish_widen (.of_eq rfl) (fun _ _ => rfl) (fun _ => rfl) hroom

variable [DecidableEq α] (hd : d.grammar.WellFormed) (hw : d.grammar.width.max ≤ w.max)

include hd hw

lemma declare_widen {a : α} {terminal : Bool}
    (hroom : (d.declare a terminal).reply.runsOut = false) :
    (d.widen w).declare a terminal = (d.declare a terminal).map (widen w) := by
  obtain ⟨r, hr, hfull⟩ | h := Grammar.declare_widen hd.length_le hw a terminal
  · simp [declare, hr, refuse, Reply.runsOut, Refusal.runsOut, hfull] at hroom
  · rw [declare, declare, grammar_widen, h]
    cases d.grammar.declare a terminal with
    | error r => rfl
    | ok x => rfl

lemma assignTag_widen {a tag : α} :
    (d.widen w).assignTag a tag = (d.assignTag a tag).map (widen w) := by
  rw [assignTag, assignTag, grammar_widen, Grammar.assignTag_widen hd.length_le hw]
  cases d.grammar.assignTag a tag with
  | error r => rfl
  | ok g => rfl

lemma normalize_widen (hroom : d.normalize.reply.runsOut = false) :
    (d.widen w).normalize = d.normalize.map (widen w) := by
  obtain hfull | h := Grammar.normalize_tracks hd hw
  · simp [normalize, hfull, Reply.runsOut, Refusal.runsOut] at hroom
  · rw [normalize, normalize, grammar_widen, h]
    rcases hn : d.grammar.normalize with ⟨rs, e | ⟨g, c⟩⟩
    · simp [Except.map, Step.map]
    · have hc : d.grammar.Changes g := Grammar.normalize_changes (by rw [hn])
      have hsize : (g.widen w).size = g.size :=
        Grammar.size_widen (hd.changes hc).length_le (by rwa [hc.width])
      simp only [Trail.result_map, Trail.records_map, Except.map, Prod.map_apply, hsize]
      rfl

end Changes

section Build

variable [DecidableEq α] {x : List (Rejection α) × Grammar α}

/-- Some request was rejected because there are too many symbols. -/
def Crowded (rs : List (Rejection α)) : Prop := ∃ r ∈ rs, r.reason = .tooManySymbols

lemma noting_of_error {e : Edit α} {r : Rejection α} (h : x.2.apply e = .error r) :
    noting x e = pure (x.1 ++ [r], x.2) := by
  rw [noting, h]

lemma noting_of_ok {e : Edit α} {t : Trail Record (Grammar α)} (h : x.2.apply e = .ok t) :
    noting x e = (x.1, ·) <$> t := by
  rw [noting, h]

lemma noting_widen {e : Edit α} (hx : x.2.WellFormed) (hw : x.2.width.max ≤ w.max)
    (he : e ≠ .normalize) : ∃ y, (noting x e).result = .ok y ∧ x.1 <+: y.1 ∧
      (Crowded y.1 ∨ noting (Prod.map id (Grammar.widen w) x) e =
        Prod.map id (Grammar.widen w) <$> noting x e) := by
  have happly := Grammar.apply_widen hx.length_le hw he
  cases ha : x.2.apply e with
  | error r =>
    have hx' := noting_of_error ha
    refine ⟨(x.1 ++ [r], x.2), by rw [hx']; rfl, ⟨[r], rfl⟩, ?_⟩
    obtain ⟨r', hr, hfull⟩ | h := happly
    · obtain rfl : r = r' := Except.error.inj (ha.symm.trans hr)
      exact .inl ⟨r, by simp, hfull⟩
    · right
      rw [ha] at h
      rw [noting_of_error (x := Prod.map id (Grammar.widen w) x) h, hx']
      rfl
  | ok t =>
    have hx' := noting_of_ok ha
    obtain ⟨g, hg⟩ := Grammar.apply_goes_through hx he ha
    refine ⟨(x.1, g), by rw [hx', Trail.result_map, hg]; rfl, List.prefix_rfl, ?_⟩
    obtain ⟨r, hr, -⟩ | h := happly
    · cases ha.symm.trans hr
    · right
      rw [ha] at h
      rw [noting_of_ok (x := Prod.map id (Grammar.widen w) x) h, hx']
      simp

lemma notingAll_widen {es : List (Edit α)} (hx : x.2.WellFormed) (hw : x.2.width.max ≤ w.max)
    (hes : ∀ e ∈ es, e ≠ .normalize) : ∃ y, (es.foldlM noting x).result = .ok y ∧ x.1 <+: y.1 ∧
      (Crowded y.1 ∨ es.foldlM noting (Prod.map id (Grammar.widen w) x) =
        Prod.map id (Grammar.widen w) <$> es.foldlM noting x) := by
  induction es generalizing x with
  | nil => exact ⟨x, rfl, List.prefix_rfl, .inr rfl⟩
  | cons e es ih =>
    obtain ⟨y, hy, hpre, hstep⟩ := noting_widen hx hw (hes e List.mem_cons_self)
    have hc := noting_changes hy
    obtain ⟨z, hz, hpre', hrest⟩ := ih (hx.changes hc) (by rwa [hc.width])
      fun e' he' => hes e' (List.mem_cons_of_mem e he')
    refine ⟨z, ?_, hpre.trans hpre', ?_⟩
    · rw [List.foldlM_cons, Trail.bind_of_ok hy]
      exact hz
    · obtain ⟨r, hr, hfull⟩ | hstep := hstep
      · exact .inl ⟨r, hpre'.subset hr, hfull⟩
      · refine hrest.imp_right fun hrest => ?_
        rw [List.foldlM_cons, List.foldlM_cons, hstep, bind_map_left, map_bind,
          Trail.bind_of_ok hy, Trail.bind_of_ok hy, hrest]

lemma build_widen (hd : d.grammar.WellFormed) (hw : d.grammar.width.max ≤ w.max)
    {nonterminals terminals : List α} {rules : List (α × List α)}
    (hroom : (d.build nonterminals terminals rules).reply.runsOut = false) :
    (d.widen w).build nonterminals terminals rules =
      (d.build nonterminals terminals rules).map (widen w) := by
  set es := nonterminals.map (Edit.declare · false) ++ terminals.map (Edit.declare · true) ++
    rules.map fun r => Edit.addRule r.1 r.2 with hes
  have hkind : ∀ e ∈ es, e ≠ .normalize := by
    intro e he
    simp only [hes, List.mem_append, List.mem_map] at he
    obtain (⟨a, -, rfl⟩ | ⟨a, -, rfl⟩) | ⟨r, -, rfl⟩ := he <;> exact nofun
  obtain ⟨y, hy, -, hcrowded | h⟩ := notingAll_widen (x := ([], d.grammar)) hd hw hkind
  · obtain ⟨r, hr, hfull⟩ := hcrowded
    have hreply : (d.build nonterminals terminals rules).reply.runsOut =
        y.1.any (·.reason = .tooManySymbols) := by
      simp only [build, finish, ← hes, hy]
      rfl
    rw [hreply, List.any_eq_false] at hroom
    exact absurd hfull (by simpa using hroom r hr)
  · refine finish_widen (.of_eq h) (fun z hz => ?_) (fun _ => rfl) hroom
    have hc := notingAll_changes hz
    have hsize : (z.2.widen w).size = z.2.size :=
      Grammar.size_widen (hd.changes hc).length_le (by rwa [hc.width])
    simp only [Prod.map_fst, Prod.map_snd, id_eq, hsize]
    rfl

end Build

/-! ### All commands -/

variable [DecidableEq α] [Label α] [Stored α]

/-- **A wider desk does the same.** -/
theorem step_widen {c : Command α} (hd : d.Fits w) (hw : w.max ≤ w'.max) (hc : c.Portable w)
    (hroom : (d.step c).reply.runsOut = false) :
    (d.widen w').step c = (d.step c).map (widen w') := by
  have hg : d.grammar.WellFormed := hd.grammar
  have hgw : d.grammar.width.max ≤ w'.max := by rwa [hd.width]
  have hn : ∀ c, d.normal = some c → c.Indexed ∧ c.width.max ≤ w'.max := by
    intro c hc
    obtain ⟨hc, hcw⟩ := hd.normal c hc
    exact ⟨hc, by rwa [hcw]⟩
  cases c with
  | save | restore | showIdent | showTag | showRejection => rfl
  | declare a terminal => exact declare_widen hg hgw hroom
  | addRule a as =>
    rw [step, step, grammar_widen, Grammar.addRule_widen hg.length_le hgw]
    exact addRule_widen hroom
  | addRuleToStart as =>
    rw [step, step, grammar_widen, Grammar.addRuleToStart_widen hg.length_le hgw]
    exact addRule_widen hroom
  | assignTag a tag => exact assignTag_widen hg hgw
  | build nonterminals terminals rules => exact build_widen hg hgw hroom
  | normalize => exact normalize_widen hg hgw hroom
  | grammar q =>
    rw [step, step, grammar_widen, askGrammar_widen hg hgw]
    exact ask_widen _
  | normal q =>
    refine withNormal_widen fun c h => ?_
    rw [askNormal_widen (hn c h).1 (hn c h).2 hc]
    exact ask_widen _
  | recognize word =>
    refine withNormal_widen fun c h => ?_
    rw [recognize_widen (hn c h).1 (hn c h).2]
    exact ask_widen _
  | parse word =>
    refine withNormal_widen fun c h => ?_
    rw [parse_widen (hn c h).1 (hn c h).2]
    generalize summarized (parse c word) = t
    rcases t with ⟨rs, _ | x⟩
    · rfl
    · rfl
  | parseTrees as maxTrees form =>
    refine withNormal_widen fun c h => ?_
    rw [← viewTrees_widen]
    exact congrArg ((d.widen w').viewTrees · form)
      (Parser.trees_widen (p := ⟨c, maxTrees⟩) (hn c h).1 (hn c h).2 as)
  | chart input q =>
    refine withNormal_widen fun c h => ?_
    rw [chart_widen (hn c h).1 (hn c h).2]
    exact ask_widen _
  | forest q =>
    have hforest : (d.widen w').forest = d.forest := rfl
    rw [step, step, withForest, withForest, hforest]
    cases d.forest with
    | none => rfl
    | some f =>
      cases q with
      | summary | pointers => exact ask_widen _
      | trees | treesUpTo => exact viewTrees_widen _ _
      | bytes | treeBytes => exact absurd hc not_false
  | tree t =>
    refine withNormal_widen fun c h => ?_
    rw [describeTree, describeTree, Tree.render_widen]
    exact ask_widen _
  | wrap n =>
    have hc : n ≤ w.max := hc
    have hwide : (d.widen w').width.wrap n = n := Width.wrap_of_le (Nat.le_trans hc hw)
    have hnarrow : d.width.wrap n = n := by rw [width, hd.width, Width.wrap_of_le hc]
    rw [step, step, hwide, hnarrow]
    rfl
  | loadNormal | loadForest | loadTrees => exact absurd hc not_false

end Desk

end Chomsky
