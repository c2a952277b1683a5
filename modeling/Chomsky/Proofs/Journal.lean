import Chomsky.Proofs.Grammar.Reachable
import Chomsky.Proofs.Record
import Chomsky.Theory.Requests

/-!
The records of a run are a complete journal of the rules. A primitive change makes the record that
turns the journal of the grammar before it into that of the grammar after it, and whatever is made
of such changes recounts them one after another. So the journal never differs from the grammar, not
even in the order of the rules.
-/

namespace Chomsky

variable {α β γ : Type}

namespace Journal

lemma replay_append (j : Journal) (rs ss : List Record) :
    j.replay (rs ++ ss) = j.replay rs >>= fun k => k.replay ss :=
  List.foldlM_append

lemma replay_single (j : Journal) (r : Record) : j.replay [r] = j.enter r := by
  rw [replay, List.foldlM_cons]
  exact bind_pure (j.enter r)

/-- Enters what a message says. What is no message is refused. -/
def enterMessage (j : Journal) (s : String) : Option Journal := Record.ofMessage s >>= j.enter

def replayMessages (j : Journal) (ss : List String) : Option Journal := ss.foldlM enterMessage j

lemma replayMessages_eq (j : Journal) (rs : List Record) :
    j.replayMessages (rs.map Record.message) = j.replay rs := by
  have henter : (fun (j : Journal) r => j.enterMessage (Record.message r)) = enter := by
    funext j r
    rw [enterMessage, Record.ofMessage_message]
    rfl
  rw [replayMessages, List.foldlM_map, henter, replay]

end Journal

namespace Grammar

variable {g g' : Grammar α} {p : Nat} {r : List Nat} {view : β → Grammar α} {view' : γ → Grammar α}

/-- What a journal of this grammar says once all is entered. -/
def journal (g : Grammar α) : Journal := ⟨g.rules, g.start⟩

/-- Replaying the records of `x` on the journal of `g` gives the journal of the grammar that the
result of `x` holds. -/
def Recounts (g : Grammar α) (view : β → Grammar α) (x : Trail Record β) : Prop :=
  ∀ b, x.result = .ok b → g.journal.replay x.records = some (view b).journal

lemma Recounts.bind {x : Trail Record β} {f : β → Trail Record γ} (hx : g.Recounts view x)
    (hf : ∀ b, x.result = .ok b → (view b).Recounts view' (f b)) :
    g.Recounts view' (x >>= f) := by
  intro c h
  obtain ⟨b, hb, hc⟩ := Trail.bind_eq_ok.1 h
  rw [Trail.bind_of_ok hb, Journal.replay_append, hx b hb]
  exact hf b hb c hc

lemma recounts_pure {b : β} (h : (view b).journal = g.journal) :
    g.Recounts view (pure b) := by
  intro b' hb
  obtain rfl := Except.ok.inj hb
  exact congrArg some h.symm

/-- What leaves no records has to leave the rules and the start alone. -/
lemma recounts_lift (view : β → Grammar α) {x : Except Fault β}
    (h : ∀ b, x = .ok b → (view b).journal = g.journal) : g.Recounts view (liftM x) := by
  intro b hb
  exact congrArg some (h b hb).symm

lemma recounts_record (g' : Grammar α) {rec : Record} (h : g.journal.enter rec = some g'.journal) :
    g.Recounts (fun _ => g') (Trail.record rec) := by
  intro _ _
  exact (g.journal.replay_single rec).trans h

lemma recounts_foldlM {f : Grammar α → β → Trail Record (Grammar α)}
    (hf : ∀ (c : Grammar α) x, c.Recounts id (f c x)) (xs : List β) (g : Grammar α) :
    g.Recounts id (xs.foldlM f g) := by
  induction xs generalizing g with
  | nil => exact recounts_pure rfl
  | cons x xs ih =>
    rw [List.foldlM_cons]
    exact (hf g x).bind fun c _ => ih c

/-! ### The primitive changes -/

lemma journal_append {id : Ident α} {t : Bool}
    (h : g'.symbols = g.symbols ++ [{ id := id, isTerminal := t }]) (hs : g'.start = g.start) :
    g'.journal = g.journal := by
  rw [journal, journal, hs, funext (rules_append h)]

lemma Makes.journal {id : Ident α} {n : Nat} (h : g.Makes id n g') : g'.journal = g.journal :=
  journal_append h.symbols h.start

lemma journal_withTag {i : Nat} {tag : α} : (g.withTag i tag).journal = g.journal := by
  rw [journal, funext rules_withTag]
  rfl

lemma journal_withRule (hp : p < g.symbols.length) : (g.withRule p r).journal =
    g.journal.setRules p (OrderedSet.insert (g.rules p) r) := by
  rw [journal, funext (rules_withRule hp)]
  rfl

lemma journal_withoutRule :
    (g.withoutRule p r).journal = g.journal.setRules p ((g.rules p).erase r) := by
  have hrules : (g.withoutRule p r).rules = fun i =>
      if i = p then (g.rules p).erase r else g.rules i := funext fun _ => rules_withoutRule
  rw [journal, hrules]
  rfl

lemma records_insertRule (h : (g.insertRule p r).result = .ok g') :
    (g.insertRule p r).records = [.adding p r] := by
  obtain ⟨hp, ht, hr, hm, -⟩ := insertRule_eq_ok.1 h
  obtain ⟨s, hs⟩ := exists_symbol hp
  rw [isTerminal_eq hs] at ht
  have hr : r.isEmpty = false := by simpa using hr
  have hm : r.all (· < g.symbols.length) = true := by simpa using hm
  rw [insertRule, symbol_eq_ok.2 hs, Trail.lift_ok_bind, if_neg (by simp [ht]),
    if_neg (by simp [hr]), if_pos hm]
  rfl

lemma records_removeRule (h : (g.removeRule p r).result = .ok g') :
    (g.removeRule p r).records = [.removed p r] := by
  obtain ⟨hr, hm, -⟩ := removeRule_eq_ok.1 h
  obtain ⟨s, hs⟩ := exists_symbol (lt_of_mem_rules hr)
  rw [rules_eq hs] at hr
  have hm : r.all (· < g.symbols.length) = true := by simpa using hm
  rw [removeRule, symbol_eq_ok.2 hs, Trail.lift_ok_bind, if_neg (by simp [hr]),
    if_neg (by simp [hm])]
  rfl

/-- The record of a rule comes first; it says the same whether the rule was there or not. -/
lemma insertRule_recounts (g : Grammar α) (p : Nat) (r : List Nat) :
    g.Recounts id (g.insertRule p r) := by
  intro g' h
  rw [records_insertRule h, Journal.replay_single]
  obtain ⟨hp, -, -, -, rfl⟩ := insertRule_eq_ok.1 h
  exact congrArg some (journal_withRule hp).symm

/-- A rule that is taken out stands in the journal. -/
lemma removeRule_recounts (g : Grammar α) (p : Nat) (r : List Nat) :
    g.Recounts id (g.removeRule p r) := by
  intro g' h
  rw [records_removeRule h, Journal.replay_single]
  obtain ⟨hr, -, rfl⟩ := removeRule_eq_ok.1 h
  exact (if_pos hr).trans (congrArg some journal_withoutRule.symm)

/-! ### Normalisation -/

variable [DecidableEq α]

lemma pushSynthetic_recounts (g : Grammar α) :
    g.Recounts (·.2) (liftM g.pushSynthetic : Trail Record (Nat × Grammar α)) :=
  recounts_lift (·.2) fun _ h => (makes_of_pushSynthetic h).1.journal

lemma pushStart_recounts (g : Grammar α) :
    g.Recounts (·.2) (liftM g.pushStart : Trail Record (Nat × Grammar α)) :=
  recounts_lift (·.2) fun _ h => (makes_of_pushStart h).1.journal

/-- The start moves when this is said, after the new symbol has got its rule. -/
lemma isolateStart_recounts (g : Grammar α) : g.Recounts id g.isolateStart := by
  unfold isolateStart
  split
  · refine g.pushStart_recounts.bind fun x _ => ?_
    obtain ⟨n, g₁⟩ := x
    refine (g₁.insertRule_recounts n [g.start]).bind fun g₂ _ => ?_
    have hmove : g₂.journal.enter (.newStart n) =
        some ({ g₂ with start := n } : Grammar α).journal := rfl
    exact (recounts_record _ hmove).bind fun _ _ => recounts_pure rfl
  · exact recounts_pure rfl

lemma pushStandIn_recounts (g : Grammar α) (t : Nat) : g.Recounts (·.2) (g.pushStandIn t) := by
  refine g.pushSynthetic_recounts.bind fun x _ => ?_
  obtain ⟨n, g₁⟩ := x
  exact (g₁.insertRule_recounts n [t]).bind fun _ _ => recounts_pure rfl

lemma shieldMembers_recounts (g : Grammar α) (ms : List Nat) :
    g.Recounts (·.2) (g.shieldMembers ms) := by
  induction ms generalizing g with
  | nil => exact recounts_pure rfl
  | cons m ms ih =>
    have hrest : ∀ x : Nat × Grammar α, x.2.Recounts (·.2)
        (x.2.shieldMembers ms >>= fun y => pure (x.1 :: y.1, y.2)) :=
      fun x => (ih x.2).bind fun _ _ => recounts_pure rfl
    unfold shieldMembers
    split
    · exact (g.pushStandIn_recounts m).bind fun x _ => hrest x
    · have hkeep : g.Recounts (·.2) (pure (m, g) : Trail Record (Nat × Grammar α)) :=
        recounts_pure rfl
      exact hkeep.bind fun x _ => hrest x

lemma shieldRule_recounts (g : Grammar α) (p : Nat) (r : List Nat) :
    g.Recounts id (shieldRule p g r) := by
  refine (g.shieldMembers_recounts r).bind fun x _ => ?_
  obtain ⟨r', g₁⟩ := x
  exact (g₁.insertRule_recounts p r').bind fun g₂ _ => g₂.removeRule_recounts p r

lemma shieldTerminals_recounts (g : Grammar α) : g.Recounts id g.shieldTerminals :=
  recounts_foldlM (fun c p => recounts_foldlM (fun d r => d.shieldRule_recounts p r) _ c) _ g

lemma insertChain_recounts (g : Grammar α) (p : Nat) (r : List Nat) :
    g.Recounts id (g.insertChain p r) := by
  fun_induction insertChain g p r with
  | case1 g p m m' m'' ms ih =>
    refine g.pushSynthetic_recounts.bind fun x _ => ?_
    obtain ⟨n, g₁⟩ := x
    exact (g₁.insertRule_recounts p [m, n]).bind fun g₂ _ => ih n g₂
  | case2 g p r => exact g.insertRule_recounts p r

lemma splitRule_recounts (g : Grammar α) (p : Nat) (r : List Nat) :
    g.Recounts id (splitRule p g r) :=
  (g.insertChain_recounts p r).bind fun g₁ _ => g₁.removeRule_recounts p r

lemma splitLongRules_recounts (g : Grammar α) : g.Recounts id g.splitLongRules :=
  recounts_foldlM (fun c p => recounts_foldlM (fun d r => d.splitRule_recounts p r) _ c) _ g

omit [DecidableEq α] in
lemma replaceUnits_recounts (g : Grammar α) (p : Nat) (rs : List (List Nat)) :
    g.Recounts id (g.replaceUnits p rs) :=
  (recounts_foldlM (fun c r => c.insertRule_recounts p r) rs g).bind fun g₁ _ =>
    recounts_foldlM (fun c r => c.removeRule_recounts p r) _ g₁

omit [DecidableEq α] in
lemma inlineUnits_recounts (g : Grammar α) : g.Recounts id g.inlineUnits :=
  recounts_foldlM (fun (c : Grammar α) (x : Nat × List (List Nat)) =>
    c.replaceUnits_recounts x.1 x.2) _ g

lemma pass_recounts (g : Grammar α) : g.Recounts id g.pass :=
  g.isolateStart_recounts.bind fun g₁ _ => g₁.shieldTerminals_recounts.bind fun g₂ _ =>
    g₂.splitLongRules_recounts.bind fun g₃ _ =>
      (recounts_lift (fun _ => g₃) fun _ _ => rfl).bind fun _ _ => g₃.inlineUnits_recounts

/-- Records that are not about rules are passed over. -/
lemma passes_recounts (g : Grammar α) (n k : Nat) : g.Recounts (·.2) (g.passes n k) := by
  induction n generalizing g k with
  | zero => exact recounts_pure rfl
  | succ n ih =>
    unfold passes
    split
    · exact recounts_pure rfl
    · exact (recounts_record g rfl).bind fun _ _ => g.pass_recounts.bind fun g₁ _ =>
        ih g₁ (k + 1)

lemma normalize_recounts (g : Grammar α) : g.Recounts (·.1) g.normalize := by
  refine (g.passes_recounts g.passBound 0).bind fun x _ => ?_
  obtain ⟨k, g₁⟩ := x
  exact (recounts_record g₁ rfl).bind fun _ _ =>
    (recounts_lift (fun _ => g₁) fun _ _ => rfl).bind fun _ _ => recounts_pure rfl

/-! ### Requests -/

lemma apply_recounts {e : Edit α} {t : Trail Record (Grammar α)} (h : g.apply e = .ok t) :
    g.Recounts id t := by
  cases e with
  | declare a terminal =>
    obtain ⟨x, hd, rfl⟩ := except_map_eq_ok.1 h
    obtain ⟨-, -, rfl⟩ := declare_eq_ok.1 hd
    exact recounts_pure (journal_append rfl rfl)
  | addRule a as =>
    obtain ⟨p, r, -, -, -, rfl⟩ := addRule_eq_ok.1 h
    exact g.insertRule_recounts p r
  | addRuleToStart as =>
    obtain ⟨r, -, rfl⟩ := addRuleToStart_eq_ok.1 h
    exact g.insertRule_recounts g.start r
  | assignTag a b =>
    obtain ⟨g₁, ha, rfl⟩ := except_map_eq_ok.1 h
    obtain ⟨i, -, rfl⟩ := assignTag_eq_ok.1 ha
    exact recounts_pure journal_withTag
  | normalize =>
    obtain rfl := Except.ok.inj h
    rw [map_eq_pure_bind]
    exact g.normalize_recounts.bind fun _ _ => recounts_pure rfl

lemma attempt_recounts (g : Grammar α) (e : Edit α) : g.Recounts id (g.attempt e) := by
  unfold attempt
  split
  · next ht => exact apply_recounts ht
  · exact recounts_pure rfl

lemma attemptAll_recounts (g : Grammar α) (es : List (Edit α)) :
    g.Recounts id (g.attemptAll es) :=
  recounts_foldlM attempt_recounts es g

/-- A new grammar has nothing to tell. -/
lemma journal_of_create {w : Width} {a : α} (h : create w a = .ok g) :
    g.journal = Journal.blank := by
  obtain ⟨-, rfl⟩ := create_eq_ok.1 h
  have hempty : ({ width := w, symbols := [], start := 0 } : Grammar α).journal = Journal.blank :=
    rfl
  rw [← hempty]
  exact journal_append rfl rfl

/-- **The records are a complete journal.** After any of the requests of a run, the records up to
there, replayed from a grammar without rules, give the rules of every symbol in their order and the
start symbol. Every rule that they take out is there. Their messages alone say as much. -/
theorem replay_records {w : Width} {a : α} {g₀ : Grammar α} (hc : create w a = .ok g₀)
    {es : List (Edit α)} (he : (g₀.attemptAll es).result = .ok g) (later : List (Edit α)) :
    (g₀.attemptAll es).records <+: (g₀.attemptAll (es ++ later)).records ∧
      Journal.blank.replay (g₀.attemptAll es).records = some ⟨g.rules, g.start⟩ ∧
      Journal.blank.replayMessages ((g₀.attemptAll es).records.map Record.message) =
        some ⟨g.rules, g.start⟩ := by
  have hreplay : Journal.blank.replay (g₀.attemptAll es).records = some ⟨g.rules, g.start⟩ := by
    rw [← journal_of_create hc]
    exact g₀.attemptAll_recounts es g he
  refine ⟨?_, hreplay, (Journal.replayMessages_eq _ _).trans hreplay⟩
  have happend : g₀.attemptAll (es ++ later) = g₀.attemptAll es >>= fun c => c.attemptAll later :=
    List.foldlM_append
  rw [happend, Trail.bind_of_ok he]
  exact List.prefix_append _ _

/-- A rule is added twice, and another one is refused, before normalisation moves the start. -/
def alternatingEdits : List (Edit String) :=
  [.declare "a" true, .addRule "S" ["S", "a", "S"], .addRule "S" ["a"], .addRule "S" ["a"],
    .addRule "S" ["b"], .normalize]

theorem replay_records_alternating : ∃ g₀ : Grammar String, create .w8 "S" = .ok g₀ ∧
    (g₀.attemptAll alternatingEdits).result = .ok alternatingResult ∧
    ((g₀.attemptAll alternatingEdits).records.map Record.message).take 2 =
      ["Adding rule 0 -> [0, 1, 0]", "Adding rule 0 -> [1]"] ∧
    (g₀.attemptAll alternatingEdits).records <+:
      (g₀.attemptAll (alternatingEdits ++ [.addRuleToStart ["a", "a"]])).records ∧
    Journal.blank.replay (g₀.attemptAll alternatingEdits).records =
      some ⟨alternatingResult.rules, 2⟩ ∧
    Journal.blank.replayMessages ((g₀.attemptAll alternatingEdits).records.map Record.message) =
      some ⟨alternatingResult.rules, 2⟩ := by
  refine ⟨_, rfl, rfl, by decide +kernel, ?_⟩
  exact replay_records (w := .w8) (a := "S") rfl rfl [.addRuleToStart ["a", "a"]]

end Grammar

end Chomsky
