import Chomsky.Proofs.NormalGrammar.Snapshot
import Chomsky.Proofs.Widening.Grammar

/-!
Normalisation at a greater index width takes the same steps and ends in the same grammar, unless the
narrower one has run out of indices.
-/

namespace Chomsky

open Trail

/-- The same normal-form grammar with indices of another width. -/
def NormalGrammar.widen {α : Type} (w : Width) (c : NormalGrammar α) : NormalGrammar α :=
  { c with width := w }

namespace Grammar

variable {α : Type} [DecidableEq α] {g : Grammar α} {w : Width} {p : Nat} {r : List Nat}

/-! ### The steps -/

lemma isolateStart_tracks (hw : g.width.max ≤ w.max) :
    Tracks (widen w) g.isolateStart (g.widen w).isolateStart := by
  have hoccurs : (g.widen w).startOccurs = g.startOccurs := rfl
  rw [isolateStart, isolateStart, hoccurs]
  split
  · refine (pushStart_tracks hw).bind fun x _ => ?_
    refine insertRule_tracks.bind fun g₁ _ => ?_
    exact .of_eq rfl
  · exact .pure (widen w) g

lemma pushStandIn_tracks (hw : g.width.max ≤ w.max) {t : Nat} :
    Tracks (Prod.map id (widen w)) (g.pushStandIn t) ((g.widen w).pushStandIn t) := by
  refine (pushSynthetic_tracks hw).bind fun x _ => ?_
  refine insertRule_tracks.bind fun g₁ _ => ?_
  exact .pure (Prod.map id (widen w)) (x.1, g₁)

lemma shieldMembers_tracks (hw : g.width.max ≤ w.max) {ms : List Nat} :
    Tracks (Prod.map id (widen w)) (g.shieldMembers ms) ((g.widen w).shieldMembers ms) := by
  induction ms generalizing g with
  | nil => exact .pure (Prod.map id (widen w)) ([], g)
  | cons m ms ih =>
    have hterminal : (g.widen w).isTerminal m = g.isTerminal m := rfl
    have hrest : ∀ x : Nat × Grammar α, x.2.width.max ≤ w.max → Tracks (Prod.map id (widen w))
        (x.2.shieldMembers ms >>= fun y => pure (x.1 :: y.1, y.2))
        ((x.2.widen w).shieldMembers ms >>= fun y => pure (x.1 :: y.1, y.2)) :=
      fun x hx => (ih hx).bind fun y _ => .pure (Prod.map id (widen w)) (x.1 :: y.1, y.2)
    rw [shieldMembers, shieldMembers, hterminal]
    split
    · refine (pushStandIn_tracks hw).bind fun x hx => hrest x ?_
      rwa [(pushStandIn_reshapes hx).enlarges.width]
    · exact hrest (m, g) hw

lemma shieldRule_tracks (hw : g.width.max ≤ w.max) :
    Tracks (widen w) (shieldRule p g r) (shieldRule p (g.widen w) r) := by
  refine (shieldMembers_tracks hw).bind fun x _ => ?_
  exact insertRule_tracks.bind fun g₁ _ => removeRule_tracks

lemma insertChain_tracks (hw : g.width.max ≤ w.max) :
    Tracks (widen w) (g.insertChain p r) ((g.widen w).insertChain p r) := by
  fun_induction insertChain g p r with
  | case1 g p m m' m'' ms ih =>
    rw [insertChain]
    refine (pushSynthetic_tracks hw).bind fun x hx => ?_
    refine insertRule_tracks.bind fun g₂ hg₂ => ih x.1 g₂ ?_
    have hre : g.Reshapes g₂ := (Relation.ReflTransGen.single (.synthetic hx)).tail (.insert hg₂)
    rwa [hre.enlarges.width]
  | case2 g p r h =>
    rw [insertChain]
    · exact insertRule_tracks
    · exact h

lemma splitRule_tracks (hw : g.width.max ≤ w.max) :
    Tracks (widen w) (splitRule p g r) (splitRule p (g.widen w) r) :=
  (insertChain_tracks hw).bind fun _ _ => removeRule_tracks

/-- Steps that track each other one by one do so in a loop, because they keep the narrow width. -/
lemma foldlM_tracks {β : Type} {f : Grammar α → β → Trail Record (Grammar α)} {xs : List β}
    (hf : ∀ g x, g.width.max ≤ w.max → Tracks (widen w) (f g x) (f (g.widen w) x))
    (hre : ∀ g x g', (f g x).result = .ok g' → g.Reshapes g') (hw : g.width.max ≤ w.max) :
    Tracks (widen w) (xs.foldlM f g) (xs.foldlM f (g.widen w)) := by
  refine Tracks.foldlM (fun c => c.width.max ≤ w.max) (fun c hc x => hf c x hc) ?_ hw
  intro c x c' hc h
  rwa [(hre c x c' h).enlarges.width]

lemma shieldTerminals_tracks (hg : g.WellFormed) (hw : g.width.max ≤ w.max) :
    Tracks (widen w) g.shieldTerminals (g.widen w).shieldTerminals := by
  rw [shieldTerminals, shieldTerminals, indices_widen hg.length_le hw]
  refine foldlM_tracks (fun c p hc => ?_) (fun _ _ _ => shieldRulesOf_reshapes) hw
  exact foldlM_tracks (fun _ _ => shieldRule_tracks) (fun _ _ _ => shieldRule_reshapes) hc

lemma splitLongRules_tracks (hg : g.WellFormed) (hw : g.width.max ≤ w.max) :
    Tracks (widen w) g.splitLongRules (g.widen w).splitLongRules := by
  rw [splitLongRules, splitLongRules, indices_widen hg.length_le hw]
  refine foldlM_tracks (fun c p hc => ?_) (fun _ _ _ => splitRulesOf_reshapes) hw
  exact foldlM_tracks (fun _ _ => splitRule_tracks) (fun _ _ _ => splitRule_reshapes) hc

omit [DecidableEq α] in
/-- The walk over unit rules does not see the width. -/
lemma unitTargets_widen (i : Nat) : (g.widen w).unitTargets i = g.unitTargets i := by
  have hwalk : ∀ n found todo, (g.widen w).unitWalk n found todo = g.unitWalk n found todo := by
    intro n
    induction n with
    | zero => exact fun _ _ => rfl
    | succ n ih =>
      intro found todo
      cases todo with
      | nil => rfl
      | cons i todo => exact ih _ _
  exact hwalk _ _ _

lemma inlineUnits_tracks (hg : g.WellFormed) (hw : g.width.max ≤ w.max) :
    Tracks (widen w) g.inlineUnits (g.widen w).inlineUnits := by
  have hinherited : ∀ i, (g.widen w).inheritedRules i = g.inheritedRules i := by
    intro i
    rw [inheritedRules, unitTargets_widen]
    rfl
  simp only [inlineUnits, indices_widen hg.length_le hw, unitTargets_widen, hinherited]
  refine foldlM_tracks (fun c x hc => ?_) (fun _ _ _ => replaceUnits_reshapes) hw
  refine Tracks.bind (f := widen w) ?_ fun c₁ h₁ => ?_
  · exact foldlM_tracks (fun _ _ _ => insertRule_tracks) (fun _ _ _ h => .single (.insert h)) hc
  · have hre : c.Reshapes c₁ := reshapes_foldlM (fun _ _ _ h => .single (.insert h)) h₁
    refine foldlM_tracks (fun _ _ _ => removeRule_tracks) (fun _ _ _ h => .single (.remove h)) ?_
    rwa [hre.enlarges.width]

/-! ### Passes and the snapshot -/

lemma pass_tracks (hg : g.WellFormed) (hw : g.width.max ≤ w.max) :
    Tracks (widen w) g.pass (g.widen w).pass := by
  refine (isolateStart_tracks hw).bind fun g₁ h₁ => ?_
  have hc₁ := isolateStart_changes h₁
  have hg₁ := hg.changes hc₁
  rw [← hc₁.width] at hw
  refine (shieldTerminals_tracks hg₁ hw).bind fun g₂ h₂ => ?_
  have hc₂ := (shieldTerminals_reshapes h₂).changes
  have hg₂ := hg₁.changes hc₂
  rw [← hc₂.width] at hw
  refine (splitLongRules_tracks hg₂ hw).bind fun g₃ h₃ => ?_
  have hc₃ := (splitLongRules_reshapes h₃).changes
  have hg₃ := hg₂.changes hc₃
  rw [← hc₃.width] at hw
  exact (Tracks.refl (liftM g₃.checkNonempty)).bind fun _ _ => inlineUnits_tracks hg₃ hw

lemma passes_tracks (hg : g.WellFormed) (hw : g.width.max ≤ w.max) {n k : Nat} :
    Tracks (Prod.map id (widen w)) (g.passes n k) ((g.widen w).passes n k) := by
  induction n generalizing g k with
  | zero => exact .pure (Prod.map id (widen w)) (k, g)
  | succ n ih =>
    have hsettled : (g.widen w).isSettled = g.isSettled := rfl
    have hcount : (g.widen w).ruleCount = g.ruleCount := rfl
    rw [passes, passes, hsettled, hcount, symbols_widen]
    split
    · exact .pure (Prod.map id (widen w)) (k, g)
    · refine (Tracks.refl (Trail.record _)).bind fun _ _ => ?_
      refine (pass_tracks hg hw).bind fun g₁ h₁ => ?_
      have hc := pass_changes h₁
      exact ih (hg.changes hc) (by rwa [hc.width])

lemma snapshot_widen (hg : g.WellFormed) (hw : g.width.max ≤ w.max) :
    (g.widen w).snapshot = NormalGrammar.widen w <$> g.snapshot := by
  have htags : (g.widen w).tags = g.tags := by
    rw [tags, indices_widen hg.length_le hw]
    rfl
  have hnormal : (g.widen w).isNormal = g.isNormal := rfl
  have hterminals : (g.widen w).terminalSet = g.terminalSet := rfl
  have hparents : (g.widen w).parentSet = g.parentSet := rfl
  rw [snapshot, snapshot, hnormal, htags, hterminals, hparents, symbols_widen]
  split
  · simp only [map_bind]
    rfl
  · rfl

lemma normalize_tracks (hg : g.WellFormed) (hw : g.width.max ≤ w.max) :
    Tracks (Prod.map (widen w) (NormalGrammar.widen w)) g.normalize (g.widen w).normalize := by
  refine (passes_tracks hg hw).bind fun x hx => ?_
  refine (Tracks.refl (Trail.record _)).bind fun _ _ => ?_
  have hc : g.Changes x.2 := passes_keeps (fun c => g.Changes c)
    (fun _ _ hc hp => hc.trans (pass_changes hp)) .refl hx
  have hsnapshot : Tracks (NormalGrammar.widen w) (liftM x.2.snapshot : Trail Record _)
      (liftM (x.2.widen w).snapshot) := by
    rw [snapshot_widen (hg.changes hc) (by rwa [hc.width])]
    right
    cases x.2.snapshot <;> rfl
  exact hsnapshot.bind fun c _ => .pure (Prod.map (widen w) (NormalGrammar.widen w)) (x.2, c)

end Grammar

end Chomsky
