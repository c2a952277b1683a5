import Chomsky.Proofs.Grammar.Reachable

/-!
Two steps of normalisation go through the rules of all symbols and rewrite the rules of one kind.
Rewriting a rule makes no other rule of that kind and leaves the other rules alone. So no rule of
that kind is left in the end, and every rule is still there when its turn comes.
-/

namespace Chomsky.Grammar

variable {α : Type} [DecidableEq α] {g g' : Grammar α} {e : Fault}

variable {pick : Grammar α → List Nat → Bool}
  {step : Nat → Grammar α → List Nat → Trail Record (Grammar α)}

def rewriteRulesOf (pick : Grammar α → List Nat → Bool)
    (step : Nat → Grammar α → List Nat → Trail Record (Grammar α)) (g : Grammar α) (p : Nat) :
    Trail Record (Grammar α) :=
  ((g.rules p).filter (pick g)).foldlM (step p) g

def rewriteRules (pick : Grammar α → List Nat → Bool)
    (step : Nat → Grammar α → List Nat → Trail Record (Grammar α)) (g : Grammar α) :
    Trail Record (Grammar α) :=
  g.indices.foldlM (rewriteRulesOf pick step) g

/-- `step p c r` takes the picked rule `r` of `p` out of `c` and puts in rules that are not
picked. -/
structure Rewrites (pick : Grammar α → List Nat → Bool)
    (step : Nat → Grammar α → List Nat → Trail Record (Grammar α)) : Prop where
  pick_eq : ∀ {c c' : Grammar α}, c.Enlarges c' → pick c' = pick c
  reshapes : ∀ {p c r c'}, (step p c r).result = .ok c' → c.Reshapes c'
  gone : ∀ {p c r c'}, c.WellFormed → (step p c r).result = .ok c' → r ∉ c'.rules p
  keeps : ∀ {p c r c' i s}, (step p c r).result = .ok c' → s ∈ c.rules i → (i = p → s ≠ r) →
    s ∈ c'.rules i
  adds : ∀ {p c r c' i s}, pick c r = true → (step p c r).result = .ok c' → s ∈ c'.rules i →
    s ∈ c.rules i ∨ pick c s = false

namespace Rewrites

variable {c c' : Grammar α} {p i : Nat} {r s : List Nat}

/-- A grammar on the way from `g`. -/
structure Between (g c : Grammar α) : Prop where
  wellFormed : c.WellFormed
  enlarges : g.Enlarges c

lemma Between.reshapes (h : Between g c) (hc : c.Reshapes c') : Between g c' :=
  ⟨h.wellFormed.changes hc.changes, h.enlarges.trans hc.enlarges⟩

variable (hs : Rewrites pick step)

include hs

lemma rulesOf_reshapes (h : (rewriteRulesOf pick step c p).result = .ok c') : c.Reshapes c' :=
  reshapes_foldlM (fun _ _ _ => hs.reshapes) h

/-- A rule to be picked that is not there does not come up while the rules of `p` are rewritten. -/
lemma not_mem_rulesOf (hc : Between g c) (hp : pick g s = true) (hn : s ∉ c.rules i)
    (h : (rewriteRulesOf pick step c p).result = .ok c') : s ∉ c'.rules i := by
  have hpick : ∀ {d}, Between g d → pick d = pick g := fun hd => hs.pick_eq hd.enlarges
  have hkeep := Trail.foldlM_keeps (fun d => Between g d ∧ s ∉ d.rules i) (fun d r hr d' hd h => by
    refine ⟨hd.1.reshapes (hs.reshapes h), fun hmem => ?_⟩
    have hr : pick d r = true := by
      rw [hpick hd.1, ← hpick hc]
      exact (List.mem_filter.1 hr).2
    rcases hs.adds hr h hmem with hmem | hmem
    · exact hd.2 hmem
    · rw [hpick hd.1, hp] at hmem
      cases hmem) ⟨hc, hn⟩ h
  exact hkeep.2

/-- A rule to be picked that is there goes when its turn comes, and does not come back. -/
lemma gone_rulesOf (hc : Between g c) (hp : pick g s = true)
    (h : (rewriteRulesOf pick step c p).result = .ok c') : s ∉ c'.rules p := by
  by_cases hmem : s ∈ c.rules p
  · have hpick : ∀ {d}, Between g d → pick d = pick g := fun hd => hs.pick_eq hd.enlarges
    have hpc : pick c s = true := by rw [hpick hc, hp]
    refine Trail.foldlM_reaches (f := step p) (Between g) (fun d => s ∉ d.rules p)
      (List.mem_filter.2 ⟨hmem, hpc⟩) (fun d _ _ d' hd h => hd.reshapes (hs.reshapes h))
      (fun d r hr d' hd hn h hmem' => ?_) (fun d d' hd h => hs.gone hd.wellFormed h) hc h
    have hr : pick d r = true := by
      rw [hpick hd, ← hpick hc]
      exact (List.mem_filter.1 hr).2
    rcases hs.adds hr h hmem' with hmem' | hmem'
    · exact hn hmem'
    · rw [hpick hd, hp] at hmem'
      cases hmem'
  · exact hs.not_mem_rulesOf hc hp hmem h

/-- **No rule is left** that would be picked. -/
theorem pick_eq_false (hw : g.WellFormed) (h : (rewriteRules pick step g).result = .ok g')
    (hmem : s ∈ g'.rules p) : pick g' s = false := by
  have hg : Between g g := ⟨hw, .refl g⟩
  have henl : g.Enlarges g' :=
    (reshapes_foldlM (fun _ _ _ => hs.rulesOf_reshapes) h).enlarges
  rw [hs.pick_eq henl]
  by_contra hp
  have hp : pick g s = true := by simpa using hp
  have hstep : ∀ d q d', Between g d → (rewriteRulesOf pick step d q).result = .ok d' →
      Between g d' := fun d q d' hd h => hd.reshapes (hs.rulesOf_reshapes h)
  refine absurd hmem ?_
  by_cases hmem₀ : s ∈ g.rules p
  · have hlt : p ∈ g.indices := by rw [hw.indices]; exact List.mem_range.2 (lt_of_mem_rules hmem₀)
    exact Trail.foldlM_reaches (Between g) (fun d => s ∉ d.rules p) hlt
      (fun d q _ => hstep d q) (fun d q _ d' hd hn h => hs.not_mem_rulesOf hd hp hn h)
      (fun d d' hd h => hs.gone_rulesOf hd hp h) hg h
  · have hkeep := Trail.foldlM_keeps (fun d => Between g d ∧ s ∉ d.rules p)
      (fun d q _ d' hd h => ⟨hstep d q d' hd.1 h, hs.not_mem_rulesOf hd.1 hp hd.2 h⟩)
      ⟨hg, hmem₀⟩ h
    exact hkeep.2

/-- What rewriting a picked rule keeps, rewriting several rules of one symbol keeps. Each of them is
still there when its turn comes, because the ones before it are others. -/
lemma keeps_rulesOf (I : Grammar α → Prop)
    (hI : ∀ c p r c', c.WellFormed → I c → r ∈ c.rules p → pick c r = true →
      (step p c r).result = .ok c' → I c') {rs : List (List Nat)} (hnodup : rs.Nodup)
    (hrs : ∀ r ∈ rs, r ∈ c.rules p ∧ pick c r = true) (hw : c.WellFormed) (hc : I c)
    (h : (rs.foldlM (step p) c).result = .ok c') : I c' := by
  induction rs generalizing c with
  | nil =>
    obtain rfl := Except.ok.inj h
    exact hc
  | cons r rs ih =>
    rw [List.foldlM_cons, Trail.bind_eq_ok] at h
    obtain ⟨d, hd, h⟩ := h
    obtain ⟨hnew, hnodup⟩ := List.nodup_cons.1 hnodup
    obtain ⟨hr, hp⟩ := hrs r List.mem_cons_self
    have hcd := hs.reshapes hd
    refine ih hnodup (fun s hsr => ?_) (hw.changes hcd.changes) (hI c p r d hw hc hr hp hd) h
    obtain ⟨hsc, hsp⟩ := hrs s (List.mem_cons_of_mem r hsr)
    refine ⟨hs.keeps hd hsc fun _ he => hnew (he ▸ hsr), ?_⟩
    rw [hs.pick_eq hcd.enlarges, hsp]

lemma keeps_rulesOfAll (I : Grammar α → Prop)
    (hI : ∀ c p r c', c.WellFormed → I c → r ∈ c.rules p → pick c r = true →
      (step p c r).result = .ok c' → I c') {ps : List Nat} (hw : g.WellFormed) (hg : I g)
    (h : (ps.foldlM (rewriteRulesOf pick step) g).result = .ok g') : I g' := by
  have hkeep := Trail.foldlM_keeps (fun c => c.WellFormed ∧ I c) (fun c p _ c' hc h => by
    refine ⟨hc.1.changes (hs.rulesOf_reshapes h).changes, ?_⟩
    exact hs.keeps_rulesOf I hI ((hc.1.nodup_rules p).filter (pick c))
      (fun r hr => List.mem_filter.1 hr) hc.1 hc.2 h) ⟨hw, hg⟩ h
  exact hkeep.2

/-- **What rewriting a picked rule keeps**, the whole step keeps. -/
theorem keeps_all (I : Grammar α → Prop)
    (hI : ∀ c p r c', c.WellFormed → I c → r ∈ c.rules p → pick c r = true →
      (step p c r).result = .ok c' → I c') (hw : g.WellFormed) (hg : I g)
    (h : (rewriteRules pick step g).result = .ok g') : I g' :=
  hs.keeps_rulesOfAll I hI hw hg h

/-- **Every rule is there when its turn comes**, so the loop breaks off only as a rewriting does. Up
to then it keeps what rewritings keep. -/
theorem exists_of_error (I : Grammar α → Prop)
    (hI : ∀ c p r c', c.WellFormed → I c → r ∈ c.rules p → pick c r = true →
      (step p c r).result = .ok c' → I c') (hg : g.Consistent) (hgI : I g)
    (h : (rewriteRules pick step g).result = .error e) : ∃ c p r, g.Reshapes c ∧ c.Consistent ∧
      I c ∧ r ∈ c.rules p ∧ pick c r = true ∧ (step p c r).result = .error e := by
  obtain ⟨ps, p, qs, c, -, hc, h⟩ := Trail.foldlM_eq_error h
  have hgc : g.Reshapes c := reshapes_foldlM (fun _ _ _ => hs.rulesOf_reshapes) hc
  have hw := hg.changes hgc.changes
  have hcI := hs.keeps_rulesOfAll I hI hg.wellFormed hgI hc
  obtain ⟨rs, r, ss, d, hrs, hd, h⟩ := Trail.foldlM_eq_error h
  have hcd : c.Reshapes d := reshapes_foldlM (fun _ _ _ => hs.reshapes) hd
  have hpicked : ∀ s ∈ rs ++ r :: ss, s ∈ c.rules p ∧ pick c s = true :=
    fun s hs => List.mem_filter.1 (by rwa [hrs])
  have hnodup := (hw.wellFormed.nodup_rules p).filter (pick c)
  rw [hrs, List.nodup_append] at hnodup
  have hdI : I d := hs.keeps_rulesOf I hI hnodup.1
    (fun s hs => hpicked s (List.mem_append_left _ hs)) hw.wellFormed hcI hd
  obtain ⟨hr, hp⟩ := hpicked r (List.mem_append_right rs List.mem_cons_self)
  have hrd : r ∈ d.rules p := Trail.foldlM_keeps (fun d => r ∈ d.rules p)
    (fun b s hs' b' hb h => hs.keeps h hb fun _ he =>
      hnodup.2.2 s hs' r List.mem_cons_self he.symm) hr hd
  exact ⟨d, p, r, hgc.trans hcd, hw.changes hcd.changes, hdI, hrd,
    by rwa [hs.pick_eq hcd.enlarges], h⟩

end Rewrites

end Chomsky.Grammar
