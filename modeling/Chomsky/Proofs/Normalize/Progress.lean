import Chomsky.Proofs.NormalGrammar.Snapshot
import Chomsky.Proofs.Normalize.Shape

/-!
Normalisation breaks off for one reason alone: there are too many symbols. Fresh identities are new,
rules are put in where they may stand, and every rule to be taken out is there, so no other fault
can occur.
-/

namespace Chomsky

/-- The faults of a grammar that is too large: there is no index left, or one of the 32-bit counters
of created symbols and of tags has no next value, for which indices have to have 64 bits. -/
def Width.RunsOut (w : Width) (e : Fault) : Prop :=
  e = .indexSpaceFull ∨ w = .w64 ∧ (e = .namespaceExhausted ∨ e = .overflow)

lemma Width.eq_w64 {w : Width} (hb : w.bits ≤ 64) (h : 0xFFFFFFFF < w.max) : w = .w64 := by
  revert hb h
  cases w <;> decide

namespace Grammar

variable {α : Type} {g g' : Grammar α} {p : Nat} {r : List Nat} {e : Fault}

lemma WellFormed.width_eq (h : g.WellFormed) (hlt : 0xFFFFFFFF < g.symbols.length) :
    g.width = .w64 :=
  Width.eq_w64 h.bits_le (hlt.trans_le h.length_le)

/-! ### The primitive changes -/

lemma insertRule_ne_error (hp : p < g.symbols.length) (ht : g.isTerminal p = false) (hr : r ≠ [])
    (hm : ∀ m ∈ r, m < g.symbols.length) : (g.insertRule p r).result ≠ .error e := by
  rw [insertRule_eq_ok.2 ⟨hp, ht, hr, hm, rfl⟩]
  exact nofun

lemma removeRule_ne_error (hr : r ∈ g.rules p) (hm : ∀ m ∈ r, m < g.symbols.length) :
    (g.removeRule p r).result ≠ .error e := by
  rw [removeRule_eq_ok.2 ⟨hr, hm, rfl⟩]
  exact nofun

variable [DecidableEq α]

/-- A counter stays below the number of symbols, so that indices run out before it does unless they
are wider. -/
lemma pushNext_runsOut {n : Nat} {f : Nat → Grammar α} {id : Ident α} (hw : g.WellFormed)
    (hn : n < g.symbols.length) (hid : id ∉ g.ids) (hf : ∀ m, (f m).symbols = g.symbols)
    (h : (nextCount n >>= fun m => (f m).push id false) = .error e) : g.width.RunsOut e := by
  obtain h | ⟨m, -, h⟩ := except_bind_eq_error.1 h
  · unfold nextCount at h
    split at h
    · cases h
    · cases h
      exact .inr ⟨hw.width_eq (by omega), .inl rfl⟩
  · unfold push at h
    split at h
    · cases h
      exact .inl rfl
    · split at h
      · next hany =>
        obtain ⟨s, hs, rfl⟩ : ∃ s ∈ g.symbols, s.id = id := by simpa [hf] using hany
        exact absurd (List.mem_map_of_mem hs) hid
      · cases h

lemma pushSynthetic_runsOut (hg : g.Consistent) (h : g.pushSynthetic = .error e) :
    g.width.RunsOut e :=
  pushNext_runsOut (f := fun m => { g with nextSynthetic := m }) hg.wellFormed
    hg.identified.nextSynthetic_lt
    (fun hid => Nat.lt_irrefl _ (hg.identified.synthetic_lt hid)) (fun _ => rfl) h

lemma pushStart_runsOut (hg : g.Consistent) (h : g.pushStart = .error e) : g.width.RunsOut e :=
  pushNext_runsOut (f := fun m => { g with nextStart := m }) hg.wellFormed
    hg.identified.nextStart_lt
    (fun hid => Nat.lt_irrefl _ (hg.identified.start_lt hid)) (fun _ => rfl) h

omit [DecidableEq α] in
/-- A new symbol can have any symbol as its rule. -/
lemma insertRule_made_ne_error {id : Ident α} {n x : Nat} (hm : g.Makes id n g')
    (hx : x < g.symbols.length) : (g'.insertRule n [x]).result ≠ .error e := by
  have hlen := hm.length
  refine insertRule_ne_error (by rw [hm.index]; omega) hm.nonterminal (List.cons_ne_nil x [])
    fun m hmem => ?_
  rw [List.mem_singleton.1 hmem]
  omega

/-! ### The first three steps -/

lemma isolateStart_runsOut (hg : g.Consistent) (h : g.isolateStart.result = .error e) :
    g.width.RunsOut e := by
  unfold isolateStart at h
  split at h
  · obtain h | ⟨⟨n, g₁⟩, hp, h⟩ := Trail.bind_eq_error.1 h
    · exact pushStart_runsOut hg h
    · obtain h | ⟨g₂, -, h⟩ := Trail.bind_eq_error.1 h
      · exact absurd h (insertRule_made_ne_error (makes_of_pushStart hp).1 hg.wellFormed.start_lt)
      · cases h
  · cases h

lemma pushStandIn_runsOut {t : Nat} (hg : g.Consistent) (ht : t < g.symbols.length)
    (h : (g.pushStandIn t).result = .error e) : g.width.RunsOut e := by
  obtain h | ⟨⟨n, g₁⟩, hp, h⟩ := Trail.bind_eq_error.1 h
  · exact pushSynthetic_runsOut hg h
  · obtain h | ⟨g₂, -, h⟩ := Trail.bind_eq_error.1 h
    · exact absurd h (insertRule_made_ne_error (makes_of_pushSynthetic hp).1 ht)
    · cases h

lemma shieldMembers_runsOut {ms : List Nat} (hg : g.Consistent)
    (hms : ∀ m ∈ ms, m < g.symbols.length) (h : (g.shieldMembers ms).result = .error e) :
    g.width.RunsOut e := by
  induction ms generalizing g with
  | nil => cases h
  | cons m ms ih =>
    have hms' : ∀ x ∈ ms, x < g.symbols.length := fun x hx => hms x (List.mem_cons_of_mem m hx)
    unfold shieldMembers at h
    split at h
    · obtain h | ⟨⟨m', g₁⟩, hm, h⟩ := Trail.bind_eq_error.1 h
      · exact pushStandIn_runsOut hg (hms m List.mem_cons_self) h
      · have hre := pushStandIn_reshapes hm
        obtain ⟨-, hlen, -⟩ := pushStandIn_spec hm
        rw [← hre.enlarges.width]
        obtain h | ⟨x, -, h⟩ := Trail.bind_eq_error.1 h
        · exact ih (hg.changes hre.changes) (fun x hx => by have := hms' x hx; omega) h
        · cases h
    · rw [pure_bind] at h
      obtain h | ⟨x, -, h⟩ := Trail.bind_eq_error.1 h
      · exact ih hg hms' h
      · cases h

lemma shieldRule_runsOut (hg : g.Consistent) (hr : r ∈ g.rules p)
    (h : (shieldRule p g r).result = .error e) : g.width.RunsOut e := by
  have hw := hg.wellFormed
  have hp := lt_of_mem_rules hr
  have hms := hw.member_lt p r hr
  obtain h | ⟨⟨r', g₁⟩, hm, h⟩ := Trail.bind_eq_error.1 h
  · exact shieldMembers_runsOut hg hms h
  · have hs := shieldMembers_spec hm
    have hlen := hs.length
    have hne : r' ≠ [] := by
      rintro rfl
      exact hw.rule_ne_nil p r hr (List.forall₂_nil_left_iff.1 hs.members)
    obtain h | ⟨g₂, hi, h⟩ := Trail.bind_eq_error.1 h
    · refine absurd h (insertRule_ne_error (by omega)
        ((hs.isTerminal p).trans (hw.nonterminal_of_mem hr)) hne fun m hm => ?_)
      obtain ⟨hm, -⟩ | ⟨-, hlt⟩ := hs.member_cases hm
      · have := hms m hm
        omega
      · exact hlt
    · refine absurd h (removeRule_ne_error (mem_rules_of_insertRule hi (hs.rules p hp ▸ hr))
        fun m hm => ?_)
      obtain ⟨-, -, -, -, rfl⟩ := insertRule_eq_ok.1 hi
      have := hms m hm
      rw [length_withRule]
      omega

/-- A loop that rewrites rules breaks off only as a rewriting does. -/
lemma Rewrites.runsOut {pick : Grammar α → List Nat → Bool}
    {step : Nat → Grammar α → List Nat → Trail Record (Grammar α)} (hs : Rewrites pick step)
    (hstep : ∀ {c : Grammar α} {p r}, c.Consistent → r ∈ c.rules p →
      (step p c r).result = .error e → c.width.RunsOut e) (hg : g.Consistent)
    (h : (rewriteRules pick step g).result = .error e) : g.width.RunsOut e := by
  obtain ⟨c, p, r, hgc, hc, -, hr, -, h⟩ :=
    hs.exists_of_error (fun _ => True) (fun _ _ _ _ _ _ _ _ _ => trivial) hg trivial h
  rw [← hgc.enlarges.width]
  exact hstep hc hr h

lemma shieldTerminals_runsOut (hg : g.Consistent) (h : g.shieldTerminals.result = .error e) :
    g.width.RunsOut e :=
  shieldRule_rewrites.runsOut shieldRule_runsOut hg h

lemma insertChain_runsOut (hg : g.Consistent) (hp : p < g.symbols.length)
    (ht : g.isTerminal p = false) (hr : r ≠ []) (hms : ∀ m ∈ r, m < g.symbols.length)
    (h : (g.insertChain p r).result = .error e) : g.width.RunsOut e := by
  fun_induction insertChain g p r with
  | case1 g p m m' m'' ms ih =>
    obtain h | ⟨⟨n, g₁⟩, hpush, h⟩ := Trail.bind_eq_error.1 h
    · exact pushSynthetic_runsOut hg h
    · obtain ⟨hm, -⟩ := makes_of_pushSynthetic hpush
      have hlen := hm.length
      have hn := hm.index
      have hmp := hms m List.mem_cons_self
      obtain h | ⟨g₂, hi, h⟩ := Trail.bind_eq_error.1 h
      · refine absurd h (insertRule_ne_error (by omega) ((hm.isTerminal p).trans ht)
          (List.cons_ne_nil _ _) fun x hx => ?_)
        rcases (by simpa using hx : x = m ∨ x = n) with rfl | rfl
        · omega
        · omega
      · have hre : g.Reshapes g₂ :=
          (Relation.ReflTransGen.single (.synthetic hpush)).tail (.insert hi)
        obtain ⟨-, -, -, -, rfl⟩ := insertRule_eq_ok.1 hi
        rw [← hre.enlarges.width]
        refine ih n _ (hg.changes hre.changes) (by rw [length_withRule]; omega)
          (isTerminal_withRule.trans hm.nonterminal) (List.cons_ne_nil _ _) (fun x hx => ?_) h
        have := hms x (List.mem_cons_of_mem m hx)
        rw [length_withRule]
        omega
  | case2 g p r => exact absurd h (insertRule_ne_error hp ht hr hms)

lemma splitRule_runsOut (hg : g.Consistent) (hr : r ∈ g.rules p)
    (h : (splitRule p g r).result = .error e) : g.width.RunsOut e := by
  have hw := hg.wellFormed
  have hms := hw.member_lt p r hr
  obtain h | ⟨g₁, hc, h⟩ := Trail.bind_eq_error.1 h
  · exact insertChain_runsOut hg (lt_of_mem_rules hr) (hw.nonterminal_of_mem hr)
      (hw.rule_ne_nil p r hr) hms h
  · have hw₁ := hw.changes (insertChain_reshapes hc).changes
    have hr₁ := mem_rules_of_insertChain hc hr
    exact absurd h (removeRule_ne_error hr₁ (hw₁.member_lt p r hr₁))

lemma splitLongRules_runsOut (hg : g.Consistent) (h : g.splitLongRules.result = .error e) :
    g.width.RunsOut e :=
  splitRule_rewrites.runsOut splitRule_runsOut hg h

/-! ### The last step -/

omit [DecidableEq α] in
lemma checkNonempty_eq_ok (hw : g.WellFormed) : g.checkNonempty = .ok () := by
  refine if_neg fun h => ?_
  obtain ⟨s, hs, r, hr, hnil⟩ : ∃ s ∈ g.symbols, ∃ r ∈ s.rules, r.isEmpty := by simpa using h
  obtain ⟨p, hp⟩ := List.mem_iff_getElem?.1 hs
  exact hw.rule_ne_nil p r (by rwa [rules_eq hp]) (List.isEmpty_iff.1 hnil)

omit [DecidableEq α] in
/-- What is put in belongs where it comes from, and the unit rules are there until they go. -/
lemma replaceUnits_ne_error {rs : List (List Nat)} (hn : (g.rules p).Nodup)
    (hp : p < g.symbols.length) (ht : g.isTerminal p = false)
    (hrs : ∀ r ∈ rs, r ≠ [] ∧ ∀ m ∈ r, m < g.symbols.length)
    (hms : ∀ r ∈ g.rules p, ∀ m ∈ r, m < g.symbols.length) :
    (g.replaceUnits p rs).result ≠ .error e := by
  intro h
  obtain h | ⟨g₁, hi, h⟩ := Trail.bind_eq_error.1 h
  · obtain ⟨ys, r, zs, c, rfl, hc, h⟩ := Trail.foldlM_eq_error h
    obtain ⟨hsame, -⟩ := insertRules_spec hc
    obtain ⟨hr, hm⟩ := hrs r (by simp)
    refine insertRule_ne_error ?_ ?_ hr (fun m hmem => ?_) h
    · rw [hsame.length]
      exact hp
    · rw [hsame.isTerminal, ht]
    · rw [hsame.length]
      exact hm m hmem
  · obtain ⟨ys, r, zs, c, hunits, hc, h⟩ := Trail.foldlM_eq_error h
    obtain ⟨hsame₁, hrules₁⟩ := insertRules_spec hi
    obtain ⟨hsame, hrules⟩ := removeRules_spec hc
    have hnodup := hn.filter g.isUnitRule
    rw [hunits, List.nodup_append] at hnodup
    have hr : r ∈ g.rules p :=
      (List.mem_filter.1 (hunits ▸ List.mem_append_right ys List.mem_cons_self)).1
    refine removeRule_ne_error ?_ (fun m hmem => ?_) h
    · rw [hrules, if_pos rfl, hrules₁, if_pos rfl, ← List.diff_eq_foldl]
      exact List.mem_diff_of_mem (OrderedSet.mem_foldl_insert.2 (.inl hr))
        fun hy => hnodup.2.2 r hy r List.mem_cons_self rfl
    · rw [hsame.length, hsame₁.length]
      exact hms r hr m hmem

omit [DecidableEq α] in
/-- Inlining always goes through. -/
lemma inlineUnits_ne_error (hw : g.WellFormed) : g.inlineUnits.result ≠ .error e := by
  intro h
  obtain ⟨ys, x, zs, c, hxs, hc, h⟩ := Trail.foldlM_eq_error h
  obtain ⟨heirs, rest, hheirs, rfl, hrest⟩ := List.map_eq_append_iff.1 hxs
  obtain ⟨i, rest, rfl, rfl, -⟩ := List.map_eq_cons_iff.1 hrest
  have hnodup : (heirs ++ i :: rest).Nodup := by
    rw [← hheirs, hw.indices]
    exact List.nodup_range.filter _
  rw [List.nodup_append] at hnodup
  obtain ⟨hsame, hrules⟩ := replaceAllUnits_spec hw (.refl g) hnodup.1 (fun _ _ => rfl) hc
  have hi : c.rules i = g.rules i := by
    rw [hrules, if_neg fun hmem => hnodup.2.2 i hmem i List.mem_cons_self rfl]
  have hmem : i ∈ g.indices.filter fun i => !(g.unitTargets i).isEmpty := by
    rw [hheirs]
    exact List.mem_append_right heirs List.mem_cons_self
  obtain ⟨hlt, hne⟩ := List.mem_filter.1 hmem
  rw [hw.indices, List.mem_range] at hlt
  obtain ⟨q, hq⟩ := exists_unitStep hw (by simpa using hne)
  refine replaceUnits_ne_error ?_ ?_ ?_ (fun r hr => ?_) (fun r hr m hm => ?_) h
  · rw [hi]
    exact hw.nodup_rules i
  · rw [hsame.length]
    exact hlt
  · rw [hsame.isTerminal]
    exact hw.nonterminal_of_mem hq.1
  · obtain ⟨q, -, hr⟩ := List.mem_flatMap.1 hr
    have hr := (mem_properRules.1 hr).1
    rw [hsame.length]
    exact ⟨hw.rule_ne_nil q r hr, hw.member_lt q r hr⟩
  · rw [hsame.length]
    exact hw.member_lt i r (hi ▸ hr) m hm

/-! ### Passes and the snapshot -/

lemma pass_runsOut (hg : g.Consistent) (h : g.pass.result = .error e) : g.width.RunsOut e := by
  obtain h | ⟨g₁, h₁, h⟩ := Trail.bind_eq_error.1 h
  · exact isolateStart_runsOut hg h
  · have hc₁ := isolateStart_changes h₁
    have hg₁ := hg.changes hc₁
    rw [← hc₁.width]
    obtain h | ⟨g₂, h₂, h⟩ := Trail.bind_eq_error.1 h
    · exact shieldTerminals_runsOut hg₁ h
    · have hc₂ := (shieldTerminals_reshapes h₂).changes
      have hg₂ := hg₁.changes hc₂
      rw [← hc₂.width]
      obtain h | ⟨g₃, h₃, h⟩ := Trail.bind_eq_error.1 h
      · exact splitLongRules_runsOut hg₂ h
      · have hw₃ := (hg₂.changes (splitLongRules_reshapes h₃).changes).wellFormed
        rw [checkNonempty_eq_ok hw₃, Trail.lift_ok_bind] at h
        exact absurd h (inlineUnits_ne_error hw₃)

omit [DecidableEq α] in
/-- Only automatic tags can run out. -/
lemma tagsFrom_eq_error {start k : Nat} {xs : List (Nat × Symbol α)}
    (h : tagsFrom start k xs = .error e) : e = .overflow ∧ 0xFFFFFFFF < k + xs.length := by
  fun_induction tagsFrom start k xs with
  | case1 => cases h
  | case2 k s rest ih =>
    obtain ⟨he, hk⟩ := ih (except_map_eq_error.1 h)
    exact ⟨he, by rw [List.length_cons]; omega⟩
  | case3 k i s rest hi t ht ih =>
    obtain ⟨he, hk⟩ := ih (except_map_eq_error.1 h)
    exact ⟨he, by rw [List.length_cons]; omega⟩
  | case4 k i s rest hi ht hk ih =>
    obtain ⟨he, hk⟩ := ih (except_map_eq_error.1 h)
    exact ⟨he, by rw [List.length_cons]; omega⟩
  | case5 k i s rest hi ht hk =>
    cases h
    exact ⟨rfl, by rw [List.length_cons]; omega⟩

omit [DecidableEq α] in
lemma normalRule_ne_error (h : g.isNormalRule r = true) : normalRule r ≠ .error e := by
  obtain ⟨t, rfl, -⟩ | ⟨l, m, rfl, -⟩ := isNormalRule_iff.1 h
  · simp [normalRule]
  · simp [normalRule]

omit [DecidableEq α] in
/-- A snapshot of a normal grammar breaks off only for want of automatic tags. -/
lemma snapshot_eq_error (hw : g.WellFormed) (hn : g.isNormal = true)
    (h : g.snapshot = .error e) : g.width = .w64 ∧ e = .overflow := by
  unfold snapshot at h
  rw [if_pos hn] at h
  obtain h | ⟨tags, -, h⟩ := except_bind_eq_error.1 h
  · obtain ⟨rfl, hlt⟩ := tagsFrom_eq_error h
    have hlen : (g.indices.zip g.symbols).length = g.symbols.length := by simp [indices]
    exact ⟨hw.width_eq (by omega), rfl⟩
  · obtain h | ⟨terminals, -, h⟩ := except_bind_eq_error.1 h
    · obtain ⟨s, hs, -⟩ := (BitSet.fits_empty g.symbols.length).foldlM_insert
        ((List.range g.symbols.length).filter g.isTerminal) (fun i hi => by
          simpa using (List.mem_filter.1 hi).1)
      cases hs.symm.trans h
    · obtain h | ⟨parents, -, h⟩ := except_bind_eq_error.1 h
      · obtain ⟨s, hs, h⟩ := except_mapM_eq_error h
        obtain ⟨i, hi⟩ := List.mem_iff_getElem?.1 hs
        obtain ⟨ps, hps, -⟩ := (BitSet.fits_empty g.symbols.length).foldlM_insert s.parents
          fun p hp => hw.parent_lt (by rwa [parents_eq hi])
        cases hps.symm.trans h
      · obtain h | ⟨rules, -, h⟩ := except_bind_eq_error.1 h
        · obtain ⟨s, hs, h⟩ := except_mapM_eq_error h
          obtain ⟨r, hr, h⟩ := except_mapM_eq_error h
          obtain ⟨i, hi⟩ := List.mem_iff_getElem?.1 hs
          exact absurd h (normalRule_ne_error (isNormal_iff.1 hn i r (by rwa [rules_eq hi])))
        · cases h

end Grammar

end Chomsky
