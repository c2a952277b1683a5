import Chomsky.Proofs.Grammar.Stable
import Chomsky.Proofs.NormalGrammar.Snapshot
import Chomsky.Proofs.Normalize.Frame
import Chomsky.Proofs.Normalize.StartSymbol
import Chomsky.Theory.Requests

/-!
The tags of a normal form. Only a request for a tag changes the tags of a grammar, so each symbol
has the one that was last assigned to it; the snapshot numbers the symbols that have none, without
the start symbol, whose tag it hides.
-/

namespace Chomsky.Grammar

variable {α : Type} {g g' g₀ : Grammar α} {c : NormalGrammar α} {a t : α} {i : Nat}

/-! ### What requests do to tags -/

section Requests

lemma tag?_withTag {j : Nat} (hj : j < g.symbols.length) (i : Nat) :
    (g.withTag j t).tag? i = if i = j then some t else g.tag? i := by
  rw [tag?, getElem?_withTag]
  by_cases hi : i = j
  · obtain ⟨s, hs⟩ := exists_symbol hj
    simp [hi, hs]
  · rw [if_neg hi, tag?]
    cases g.symbols[i]? <;> simp [Ne.symm hi]

variable [DecidableEq α] {e : Edit α} {es : List (Edit α)}

/-- A tag is put on the symbol with the name, if there is one, and on no other. -/
lemma tag?_of_assignTag (hg : g.Consistent) (h : (g.attempt (.assignTag a t)).result = .ok g') :
    g'.tag? i = if g.ids[i]? = some (.user a) then some t else g.tag? i := by
  rw [attempt, apply, assignTag] at h
  simp only [← index?_eq_some hg]
  cases ha : g.index? a with
  | none =>
    rw [ha] at h
    obtain rfl := Except.ok.inj h
    simp
  | some j =>
    rw [ha] at h
    obtain rfl := Except.ok.inj h
    rw [tag?_withTag (lt_of_ids (ids_of_index? hg.wellFormed ha))]
    simp [eq_comm]

lemma tag?_of_apply (hg : g.WellFormed) (he : ∀ b u, e ≠ .assignTag b u)
    {tr : Trail Record (Grammar α)} (h : g.apply e = .ok tr) (ht : tr.result = .ok g') :
    g'.tag? i = g.tag? i := by
  cases e with
  | declare b terminal =>
    obtain ⟨x, hd, rfl⟩ := except_map_eq_ok.1 h
    obtain rfl := Except.ok.inj ht
    obtain ⟨-, -, rfl⟩ := declare_eq_ok.1 hd
    exact tag?_append rfl i
  | addRule b as =>
    obtain ⟨p, r, -, -, -, rfl⟩ := addRule_eq_ok.1 h
    exact (Spares.insert ht).tag i
  | addRuleToStart as =>
    obtain ⟨r, -, rfl⟩ := addRuleToStart_eq_ok.1 h
    exact (Spares.insert ht).tag i
  | assignTag b u => exact absurd rfl (he b u)
  | normalize =>
    obtain rfl := Except.ok.inj h
    obtain ⟨⟨g₁, c⟩, hn, rfl⟩ := Trail.map_eq_ok.1 ht
    exact (normalize_spares hg hn).tag i

/-- All other requests, normalisation among them, leave the tags alone. -/
lemma tag?_of_attempt (hg : g.WellFormed) (he : ∀ b u, e ≠ .assignTag b u)
    (h : (g.attempt e).result = .ok g') : g'.tag? i = g.tag? i := by
  unfold attempt at h
  split at h
  · next ht => exact tag?_of_apply hg he ht h
  · obtain rfl := Except.ok.inj h
    rfl

/-! ### The last tag in a run -/

/-- An identity that was there stands where it stood. -/
lemma Consistent.getElem?_ids_iff (hg' : g'.Consistent) (h : g.Changes g') {id : Ident α}
    (hid : id ∈ g.ids) : g'.ids[i]? = some id ↔ g.ids[i]? = some id := by
  refine ⟨fun hi => ?_, ids_mono h.ids_extends⟩
  obtain ⟨j, hj⟩ := List.mem_iff_getElem?.1 hid
  have hj' := ids_mono h.ids_extends hj
  rwa [(List.getElem?_inj (by simpa using lt_of_ids hi) hg'.identified.nodup).1 (hi.trans hj'.symm)]

lemma exists_assignTag (hg : g.Consistent) :
    (∃ g', g.assignTag a t = .ok g') ↔ .user a ∈ g.ids := by
  simp only [assignTag_eq_ok, List.mem_iff_getElem?, ← index?_eq_some hg]
  constructor
  · rintro ⟨g', i, hi, -⟩
    exact ⟨i, hi⟩
  · rintro ⟨i, hi⟩
    exact ⟨_, i, hi, rfl⟩

lemma attemptAll_append_eq_ok {es es' : List (Edit α)} :
    (g.attemptAll (es ++ es')).result = .ok g' ↔
      ∃ g₁, (g.attemptAll es).result = .ok g₁ ∧ (g₁.attemptAll es').result = .ok g' := by
  rw [attemptAll, List.foldlM_append, Trail.bind_eq_ok]
  rfl

lemma attemptAll_concat_eq_ok : (g.attemptAll (es ++ [e])).result = .ok g' ↔
    ∃ g₁, (g.attemptAll es).result = .ok g₁ ∧ (g₁.attempt e).result = .ok g' := by
  rw [attemptAll_append_eq_ok]
  simp only [attemptAll, List.foldlM_cons, List.foldlM_nil, bind_pure]

/-- A symbol with a last tag has a name from then on. -/
lemma LastTag.mem_ids (hg₀ : g₀.Consistent) (hes : (g₀.attemptAll es).result = .ok g)
    (h : g₀.LastTag es a t) : .user a ∈ g.ids := by
  obtain ⟨before, after, g₁, g₂, rfl, hb, ha, -⟩ := h
  obtain ⟨g₁', hb', hafter⟩ := attemptAll_append_eq_ok.1 hes
  obtain rfl : g₁ = g₁' := Except.ok.inj (hb.symm.trans hb')
  have hg₁ := hg₀.changes (attemptAll_changes hb)
  exact (attemptAll_changes hafter).ids_extends.subset ((exists_assignTag hg₁).1 ⟨g₂, ha⟩)

/-- The last request of a run gives a name its last tag, or leaves it with the one it had. -/
lemma lastTag_concat (hg₀ : g₀.Consistent) (hes : (g₀.attemptAll es).result = .ok g) :
    g₀.LastTag (es ++ [e]) a t ↔
      e = .assignTag a t ∧ .user a ∈ g.ids ∨ g₀.LastTag es a t ∧ ∀ u, e ≠ .assignTag a u := by
  have hg := hg₀.changes (attemptAll_changes hes)
  constructor
  · rintro ⟨before, after, g₁, g₂, heq, hb, ha, hno⟩
    obtain rfl | ⟨after, e', rfl⟩ := List.eq_nil_or_concat' after
    · obtain ⟨rfl, he⟩ := List.append_inj' heq rfl
      obtain rfl : g = g₁ := Except.ok.inj (hes.symm.trans hb)
      exact .inl ⟨List.singleton_inj.1 he, (exists_assignTag hg).1 ⟨g₂, ha⟩⟩
    · rw [← List.cons_append, ← List.append_assoc] at heq
      obtain ⟨rfl, he⟩ := List.append_inj' heq rfl
      obtain rfl := List.singleton_inj.1 he
      simp only [List.mem_append, List.mem_singleton, not_or] at hno
      exact .inr ⟨⟨before, after, g₁, g₂, rfl, hb, ha, fun u => (hno u).1⟩,
        fun u h => (hno u).2 h.symm⟩
  · rintro (⟨rfl, ha⟩ | ⟨⟨before, after, g₁, g₂, rfl, hb, ha, hno⟩, hne⟩)
    · obtain ⟨g', ha⟩ := (exists_assignTag (t := t) hg).2 ha
      exact ⟨es, [], g, g', rfl, hes, ha, nofun⟩
    · refine ⟨before, after ++ [e], g₁, g₂, by simp, hb, ha, fun u hu => ?_⟩
      rcases List.mem_append.1 hu with hu | hu
      · exact hno u hu
      · exact hne u (List.mem_singleton.1 hu).symm

/-- The tags of the symbols after a request, which may have made symbols, but none with a tag. -/
lemma exists_lastTag_concat (hg₀ : g₀.Consistent) (hes : (g₀.attemptAll es).result = .ok g)
    (he : (g.attempt e).result = .ok g') :
    (∃ b, g'.ids[i]? = some (.user b) ∧ g₀.LastTag (es ++ [e]) b t) ↔
      ∃ b, g.ids[i]? = some (.user b) ∧
        (e = .assignTag b t ∨ g₀.LastTag es b t ∧ ∀ u, e ≠ .assignTag b u) := by
  have hc := (attempt_request he).changes
  have hg' := (hg₀.changes (attemptAll_changes hes)).changes hc
  refine exists_congr fun b => ?_
  rw [lastTag_concat hg₀ hes]
  constructor
  · rintro ⟨hb, ⟨hbe, hmem⟩ | hlast⟩
    · exact ⟨(hg'.getElem?_ids_iff hc hmem).1 hb, .inl hbe⟩
    · exact ⟨(hg'.getElem?_ids_iff hc (hlast.1.mem_ids hg₀ hes)).1 hb, .inr hlast⟩
  · rintro ⟨hb, hlast⟩
    have hmem := List.mem_of_getElem? hb
    exact ⟨ids_mono hc.ids_extends hb, hlast.imp_left fun hbe => ⟨hbe, hmem⟩⟩

/-- **Each symbol has the tag that was last assigned to it.** Symbols to which none was assigned
have no tag, and neither have created symbols. -/
theorem tag?_eq_some_iff {w : Width} (hc : create w a = .ok g₀)
    (hes : (g₀.attemptAll es).result = .ok g) :
    g.tag? i = some t ↔ ∃ b, g.ids[i]? = some (.user b) ∧ g₀.LastTag es b t := by
  have hg₀ := create_consistent hc
  -- from the end of the run, as a later tag hides the ones before it
  induction es using List.reverseRecOn generalizing g t with
  | nil =>
    obtain rfl : g₀ = g := Except.ok.inj hes
    obtain ⟨-, rfl⟩ := create_eq_ok.1 hc
    constructor
    · intro h
      cases i <;> cases h
    · rintro ⟨b, -, before, after, -, -, heq, -⟩
      cases before <;> cases heq
  | append_singleton es e ih =>
    obtain ⟨g₁, hes₁, he⟩ := attemptAll_concat_eq_ok.1 hes
    have hg₁ := hg₀.changes (attemptAll_changes hes₁)
    rw [exists_lastTag_concat hg₀ hes₁ he]
    by_cases htag : ∃ b u, e = .assignTag b u
    · obtain ⟨b, u, rfl⟩ := htag
      rw [tag?_of_assignTag hg₁ he]
      split
      · next hb => simp [hb]
      · next hb =>
        refine (ih hes₁).trans (exists_congr fun x => and_congr_right fun hx => ?_)
        have hne : b ≠ x := fun h => hb (h ▸ hx)
        simp [hne]
    · simp only [not_exists] at htag
      rw [tag?_of_attempt hg₁.wellFormed htag he]
      exact (ih hes₁).trans (exists_congr fun x => and_congr_right fun _ => by simp [htag])

end Requests

/-! ### The tags of a snapshot -/

/-- Symbols that a snapshot numbers. -/
def automatic (g : Grammar α) (i : Nat) : Bool := i ≠ g.start && (g.tag? i).isNone

/-- What is counted along a range numbers the elements that count. -/
lemma map_countP_range (p : Nat → Bool) (n : Nat) :
    ((List.range n).filter p).map (fun i => (List.range i).countP p) =
      List.range ((List.range n).countP p) := by
  induction n with
  | zero => rfl
  | succ n ih =>
    rw [List.range_succ, List.filter_append, List.map_append, ih, List.countP_append]
    cases hp : p n
    · simp [hp]
    · simp [hp, List.range_succ]

lemma countP_untagged (hw : g.WellFormed) (hi : i ≤ g.symbols.length) :
    ((g.indices.zip g.symbols).take i).countP (untagged g.start) =
      (List.range i).countP g.automatic := by
  induction i with
  | zero => rfl
  | succ i ih =>
    obtain ⟨s, hs⟩ := exists_symbol hi
    rw [List.take_add_one, List.countP_append, ih (by omega), List.range_succ, List.countP_append,
      getElem?_zip_indices hw hs]
    simp [untagged, automatic, tag?, hs]

lemma tag_of_snapshot (hw : g.WellFormed) (h : g.snapshot = .ok c) (hi : i < g.symbols.length) :
    c.tag i = .ok (if i = g.start then .root
      else match g.tag? i with
        | some t => .user t
        | none => .auto ((List.range i).countP g.automatic)) := by
  obtain ⟨-, tags, terminals, parents, rules, ht, -, -, -, rfl⟩ := snapshot_eq_ok.1 h
  obtain ⟨s, hs⟩ := exists_symbol hi
  have htag := getElem?_tagsFrom ht (getElem?_zip_indices hw hs)
  rw [countP_untagged hw hi.le, Nat.zero_add] at htag
  rw [NormalGrammar.tag, List.getElem?_toArray, htag, tag?, hs]
  rfl

lemma tag_of_le (h : g.snapshot = .ok c) (hi : g.symbols.length ≤ i) :
    c.tag i = .error .outOfRange := by
  have hsize := (snapshot_mirrors h).size
  rw [NormalGrammar.tag, Array.getElem?_eq_none (by omega)]
  rfl

lemma tag_eq_root (hw : g.WellFormed) (h : g.snapshot = .ok c) :
    c.tag i = .ok .root ↔ i = g.start := by
  rcases Nat.lt_or_ge i g.symbols.length with hi | hi
  · rw [tag_of_snapshot hw h hi]
    split
    · next hs => simp [hs]
    · next hs => split <;> simp [hs]
  · have hs := hw.start_lt
    rw [tag_of_le h hi]
    simpa using by omega

lemma tag_eq_user (hw : g.WellFormed) (h : g.snapshot = .ok c) :
    c.tag i = .ok (.user t) ↔ i ≠ g.start ∧ g.tag? i = some t := by
  rcases Nat.lt_or_ge i g.symbols.length with hi | hi
  · rw [tag_of_snapshot hw h hi]
    split
    · next hs => simp [hs]
    · next hs => split <;> simp_all
  · rw [tag_of_le h hi, tag?, List.getElem?_eq_none hi]
    simp

/-- What has no other tag is numbered in the order of the symbols. -/
lemma map_tag_automatic (hw : g.WellFormed) (h : g.snapshot = .ok c) :
    ((List.range g.symbols.length).filter g.automatic).map c.tag =
      (List.range ((List.range g.symbols.length).filter g.automatic).length).map
        fun k => .ok (.auto k) := by
  rw [← List.countP_eq_length_filter, ← map_countP_range, List.map_map]
  refine List.map_congr_left fun i hi => ?_
  obtain ⟨hlt, hauto⟩ := List.mem_filter.1 hi
  obtain ⟨hs, htag⟩ : i ≠ g.start ∧ g.tag? i = none := by simpa [automatic] using hauto
  rw [tag_of_snapshot hw h (List.mem_range.1 hlt), if_neg hs, htag]
  rfl

/-- As long as no start symbol was created, the first symbol is the start. -/
lemma StartsOnce.start_eq_zero_iff (h : g.StartsOnce) (hg : g.Identified) :
    g.start = 0 ↔ ∀ n, .start n ∉ g.ids := by
  cases h with
  | first hn hs => exact iff_of_true hs fun n hmem => by have := hg.start_lt hmem; omega
  | created hn hid _ =>
    refine iff_of_false (fun hs => ?_) fun hno => hno 0 (List.mem_of_getElem? hid)
    obtain ⟨a, ha⟩ := hg.named
    rw [hs, ha] at hid
    cases hid

variable [DecidableEq α] {es : List (Edit α)}

lemma attemptAll_concat_normalize (he : (g₀.attemptAll es).result = .ok g)
    (hn : g.normalize.result = .ok (g', c)) :
    (g₀.attemptAll (es ++ [.normalize])).result = .ok g' := by
  rw [attemptAll_concat_eq_ok]
  exact ⟨g, he, Trail.map_eq_ok.2 ⟨_, hn, rfl⟩⟩

/-- **The tags of a normal form.** The start symbol, and no other, has the root tag; every other
symbol has the tag that was last assigned to it, and those to which none was assigned are numbered
in the order of their indices. So a tag of the first symbol is hidden until a new start symbol is
created, and not after that. -/
theorem normalize_tags {w : Width} (hc : create w a = .ok g₀)
    (he : (g₀.attemptAll es).result = .ok g) (hn : g.normalize.result = .ok (g', c)) :
    (∀ i, c.tag i = .ok .root ↔ i = c.start) ∧
      (∀ i t, c.tag i = .ok (.user t) ↔
        i ≠ c.start ∧ ∃ b, c.ids[i]? = some (.user b) ∧ g₀.LastTag es b t) ∧
      (∃ rest : List Nat, rest.Pairwise (· < ·) ∧
        (∀ i, i ∈ rest ↔ i < c.ids.length ∧ i ≠ c.start ∧
          ¬∃ t b, c.ids[i]? = some (.user b) ∧ g₀.LastTag es b t) ∧
        rest.map c.tag = (List.range rest.length).map fun k => .ok (.auto k)) ∧
      c.ids[0]? = some (.user a) ∧
      ((∀ n, .start n ∉ c.ids) → c.tag 0 = .ok .root) ∧
      ((∃ n, .start n ∈ c.ids) → ∀ t, g₀.LastTag es a t → c.tag 0 = .ok (.user t)) := by
  have hg₀ := create_consistent hc
  have he' := attemptAll_concat_normalize he hn
  obtain ⟨-, hsnap⟩ := normalize_eq_ok.1 hn
  have hg' : g'.Consistent := hg₀.changes (attemptAll_changes he')
  have hids : c.ids = g'.ids := ids_of_snapshot hsnap
  have hstart : c.start = g'.start := (snapshot_mirrors hsnap).start
  have htag : ∀ i t, g'.tag? i = some t ↔
      ∃ b, c.ids[i]? = some (.user b) ∧ g₀.LastTag es b t := by
    intro i t
    rw [tag?_eq_some_iff hc he', hids]
    simp [lastTag_concat hg₀ he]
  have hroot : ∀ i, c.tag i = .ok .root ↔ i = c.start := fun i => by
    rw [tag_eq_root hg'.wellFormed hsnap, hstart]
  have huser : ∀ i t, c.tag i = .ok (.user t) ↔
      i ≠ c.start ∧ ∃ b, c.ids[i]? = some (.user b) ∧ g₀.LastTag es b t := fun i t => by
    rw [tag_eq_user hg'.wellFormed hsnap, htag, hstart]
  have hfirst : c.ids[0]? = some (.user a) := by
    obtain ⟨-, rfl⟩ := create_eq_ok.1 hc
    rw [hids]
    exact ids_mono (attemptAll_changes he').ids_extends rfl
  have hzero := (attemptAll_startsOnce hc he').start_eq_zero_iff hg'.identified
  rw [← hstart, ← hids] at hzero
  refine ⟨hroot, huser, ⟨(List.range g'.symbols.length).filter g'.automatic,
    List.pairwise_lt_range.filter _, fun i => ?_, map_tag_automatic hg'.wellFormed hsnap⟩, hfirst,
    fun hno => (hroot 0).2 (hzero.2 hno).symm, ?_⟩
  · rw [List.mem_filter, List.mem_range, automatic, hids, length_ids, ← hstart]
    simp [Option.isNone_iff_eq_none, Option.eq_none_iff_forall_ne_some, htag, ← hids]
  · rintro ⟨n, hnew⟩ t ht
    exact (huser 0 t).2 ⟨fun h => hzero.1 h.symm n hnew, a, hfirst, ht⟩

/-- Tags the start symbol and the terminal, and the terminal once more after it was shielded. -/
def alternatingTagged : List (Edit String) :=
  [.declare "a" true, .assignTag "S" "sentence", .assignTag "a" "letter",
    .addRule "S" ["S", "a", "S"], .addRule "S" ["a"], .normalize, .assignTag "a" "mark",
    .assignTag "b" "unknown"]

/-- The tag of `S` can be seen again, `a` has the later one of its tags, and the two synthetic
symbols are numbered. -/
theorem normalize_tags_alternating : ∃ g₀ g g' c, create .w8 "S" = .ok g₀ ∧
    (g₀.attemptAll alternatingTagged).result = .ok g ∧ g.normalize.result = .ok (g', c) ∧
    c.ids = [.user "S", .user "a", .start 0, .synthetic 0, .synthetic 1] ∧
    c.tag 2 = .ok .root ∧ c.tag 0 = .ok (.user "sentence") ∧ c.tag 1 = .ok (.user "mark") ∧
    ∃ rest : List Nat, (3 ∈ rest ∧ 4 ∈ rest) ∧
      rest.map c.tag = (List.range rest.length).map fun k => .ok (.auto k) := by
  obtain ⟨g₀, hc, g, he, g', c, hn, hids, hstart⟩ : ∃ g₀, create .w8 "S" = .ok g₀ ∧
      ∃ g, (g₀.attemptAll alternatingTagged).result = .ok g ∧
      ∃ g' c, g.normalize.result = .ok (g', c) ∧
        c.ids = [.user "S", .user "a", .start 0, .synthetic 0, .synthetic 1] ∧ c.start = 2 :=
    ⟨_, rfl, _, rfl, _, _, rfl, rfl, rfl⟩
  obtain ⟨hroot, huser, ⟨rest, -, hmem, hrest⟩, -, -, hfirst⟩ := normalize_tags hc he hn
  have hsentence : g₀.LastTag alternatingTagged "S" "sentence" := by
    obtain rfl : _ = g₀ := Except.ok.inj hc
    exact ⟨[.declare "a" true], _, _, _, rfl, rfl, rfl, by simp⟩
  have hmark : g₀.LastTag alternatingTagged "a" "mark" := by
    obtain rfl : _ = g₀ := Except.ok.inj hc
    exact ⟨alternatingTagged.take 6, _, _, _, rfl, rfl, rfl, by simp⟩
  refine ⟨g₀, g, g', c, hc, he, hn, hids, (hroot 2).2 hstart.symm,
    hfirst ⟨0, by simp [hids]⟩ _ hsentence,
    (huser 1 _).2 ⟨by simp [hstart], "a", by simp [hids], hmark⟩, rest, ⟨?_, ?_⟩, hrest⟩
  · exact (hmem 3).2 ⟨by simp [hids], by simp [hstart], by simp [hids]⟩
  · exact (hmem 4).2 ⟨by simp [hids], by simp [hstart], by simp [hids]⟩

end Chomsky.Grammar
