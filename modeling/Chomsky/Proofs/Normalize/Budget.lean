import Mathlib.Algebra.Order.BigOperators.Group.Finset
import Mathlib.Algebra.Order.BigOperators.Group.List
import Chomsky.Proofs.Normalize.Once
import Chomsky.Theory.Normalization

/-!
How many symbols normalisation makes. What the rules of a grammar still need is a load, which each
rewriting of a rule lowers by as much as it adds to the symbols. So symbols and load together stay
what they are, in the end there is no load left, and indices run out only for a grammar that needs
too many.
-/

namespace Chomsky.Grammar

open Finset

variable {α β γ : Type} {g g' : Grammar α} {p i : Nat} {r : List Nat}

/-! ### Symbols that a computation makes -/

/-- `x` makes `k` symbols, or breaks off for want of indices for so many. -/
structure Takes (g : Grammar α) (k : Nat) (view : β → Grammar α) (x : Trail Record β) : Prop where
  length : ∀ b, x.result = .ok b → (view b).symbols.length = g.symbols.length + k
  width : ∀ b, x.result = .ok b → (view b).width = g.width
  full : x.result = .error .indexSpaceFull → g.width.max < g.symbols.length + k

section Takes

variable {view : β → Grammar α} {view' : γ → Grammar α}

lemma takes_pure {b : β} (hlen : (view b).symbols.length = g.symbols.length)
    (hw : (view b).width = g.width) : g.Takes 0 view (pure b) where
  length b' h := by
    obtain rfl := Except.ok.inj h
    exact hlen
  width b' h := by
    obtain rfl := Except.ok.inj h
    exact hw
  full h := by cases h

lemma Takes.bind {k j : Nat} {x : Trail Record β} {f : β → Trail Record γ}
    (hx : g.Takes k view x) (hf : ∀ b, x.result = .ok b → (view b).Takes j view' (f b)) :
    g.Takes (k + j) view' (x >>= f) where
  length c h := by
    obtain ⟨b, hb, hc⟩ := Trail.bind_eq_ok.1 h
    have h₁ := hx.length b hb
    have h₂ := (hf b hb).length c hc
    omega
  width c h := by
    obtain ⟨b, hb, hc⟩ := Trail.bind_eq_ok.1 h
    exact ((hf b hb).width c hc).trans (hx.width b hb)
  full h := by
    obtain h | ⟨b, hb, h⟩ := Trail.bind_eq_error.1 h
    · have := hx.full h
      omega
    · have h₁ := hx.length b hb
      have h₂ := (hf b hb).full h
      rw [hx.width b hb] at h₂
      omega

/-- What makes no symbols does not run out of indices. -/
lemma takes_zero {x : Trail Record β}
    (hok : ∀ b, x.result = .ok b →
      (view b).symbols.length = g.symbols.length ∧ (view b).width = g.width)
    (hfull : x.result ≠ .error .indexSpaceFull) : g.Takes 0 view x :=
  ⟨fun b h => (hok b h).1, fun b h => (hok b h).2, fun h => absurd h hfull⟩

lemma symbol_ne_full : g.symbol i ≠ .error .indexSpaceFull := by
  unfold symbol required
  split <;> nofun

lemma insertRule_takes (g : Grammar α) (p : Nat) (r : List Nat) :
    g.Takes 0 id (g.insertRule p r) := by
  refine takes_zero (fun g' h => ?_) fun h => ?_
  · obtain ⟨-, -, -, -, rfl⟩ := insertRule_eq_ok.1 h
    exact ⟨length_withRule, rfl⟩
  · obtain h | ⟨s, -, h⟩ := Trail.bind_eq_error.1 h
    · exact symbol_ne_full h
    · split at h
      · cases h
      · split at h
        · cases h
        · obtain h | ⟨-, -, h⟩ := Trail.bind_eq_error.1 h
          · cases h
          · split at h <;> cases h

lemma removeRule_takes (g : Grammar α) (p : Nat) (r : List Nat) :
    g.Takes 0 id (g.removeRule p r) := by
  refine takes_zero (fun g' h => ?_) fun h => ?_
  · obtain ⟨-, -, rfl⟩ := removeRule_eq_ok.1 h
    exact ⟨length_withoutRule, rfl⟩
  · obtain h | ⟨s, -, h⟩ := Trail.bind_eq_error.1 h
    · exact symbol_ne_full h
    · split at h
      · cases h
      · split at h
        · cases h
        · obtain h | ⟨-, -, h⟩ := Trail.bind_eq_error.1 h <;> cases h

end Takes

section Steps

variable [DecidableEq α]

lemma push_full {id : Ident α} {t : Bool} (h : g.push id t = .error .indexSpaceFull) :
    g.width.max ≤ g.symbols.length := by
  unfold push at h
  split at h
  · assumption
  · split at h <;> cases h

lemma pushNext_full {n : Nat} {f : Nat → Grammar α} {id : Ident α}
    (hf : ∀ m, (f m).symbols = g.symbols ∧ (f m).width = g.width)
    (h : (nextCount n >>= fun m => (f m).push id false) = .error .indexSpaceFull) :
    g.width.max < g.symbols.length + 1 := by
  obtain h | ⟨m, -, h⟩ := except_bind_eq_error.1 h
  · unfold nextCount at h
    split at h <;> cases h
  · have := push_full h
    rw [(hf m).1, (hf m).2] at this
    omega

omit [DecidableEq α] in
lemma takes_of_makes {id : Ident α} {x : Except Fault (Nat × Grammar α)}
    (hok : ∀ n g', x = .ok (n, g') → g.Makes id n g')
    (hfull : x = .error .indexSpaceFull → g.width.max < g.symbols.length + 1) :
    g.Takes 1 (·.2) (liftM x : Trail Record (Nat × Grammar α)) :=
  ⟨fun b h => (hok b.1 b.2 h).length, fun b h => (hok b.1 b.2 h).width, hfull⟩

lemma pushSynthetic_takes (g : Grammar α) :
    g.Takes 1 (·.2) (liftM g.pushSynthetic : Trail Record (Nat × Grammar α)) :=
  takes_of_makes (fun _ _ h => (makes_of_pushSynthetic h).1)
    (pushNext_full (f := fun m => { g with nextSynthetic := m }) fun _ => ⟨rfl, rfl⟩)

lemma pushStart_takes (g : Grammar α) :
    g.Takes 1 (·.2) (liftM g.pushStart : Trail Record (Nat × Grammar α)) :=
  takes_of_makes (fun _ _ h => (makes_of_pushStart h).1)
    (pushNext_full (f := fun m => { g with nextStart := m }) fun _ => ⟨rfl, rfl⟩)

lemma isolateStart_takes (g : Grammar α) :
    g.Takes (if g.startOccurs then 1 else 0) id g.isolateStart := by
  unfold isolateStart
  split
  · refine g.pushStart_takes.bind (j := 0) fun x _ => ?_
    obtain ⟨n, g₁⟩ := x
    refine (g₁.insertRule_takes n [g.start]).bind (j := 0) fun g₂ _ => ?_
    refine takes_zero (fun g₃ h => ?_) nofun
    obtain rfl := Except.ok.inj h
    exact ⟨rfl, rfl⟩
  · exact takes_pure rfl rfl

lemma pushStandIn_takes (g : Grammar α) (t : Nat) : g.Takes 1 (·.2) (g.pushStandIn t) := by
  refine g.pushSynthetic_takes.bind (j := 0) fun x _ => ?_
  obtain ⟨n, g₁⟩ := x
  exact (g₁.insertRule_takes n [t]).bind (j := 0) fun _ _ => takes_pure rfl rfl

/-- One symbol for each terminal. -/
lemma shieldMembers_takes (g : Grammar α) (ms : List Nat) :
    g.Takes (ms.countP g.isTerminal) (·.2) (g.shieldMembers ms) := by
  induction ms generalizing g with
  | nil => exact takes_pure rfl rfl
  | cons m ms ih =>
    have hrest : ∀ x : Nat × Grammar α, x.2.isTerminal = g.isTerminal →
        x.2.Takes (ms.countP g.isTerminal) (·.2)
          (x.2.shieldMembers ms >>= fun y => pure (x.1 :: y.1, y.2)) := fun x hx => by
      rw [← hx]
      exact (ih x.2).bind (j := 0) fun _ _ => takes_pure rfl rfl
    unfold shieldMembers
    split
    · next ht =>
      rw [List.countP_cons_of_pos ht, Nat.add_comm]
      refine (g.pushStandIn_takes m).bind fun x hx => hrest x (funext ?_)
      exact (pushStandIn_reshapes hx).enlarges.isTerminal
    · next ht =>
      rw [List.countP_cons_of_neg ht, pure_bind]
      exact hrest (m, g) rfl

lemma shieldRule_takes (g : Grammar α) (p : Nat) (r : List Nat) :
    g.Takes (r.countP g.isTerminal) id (shieldRule p g r) := by
  refine (g.shieldMembers_takes r).bind (j := 0) fun x _ => ?_
  obtain ⟨r', g₁⟩ := x
  exact (g₁.insertRule_takes p r').bind (j := 0) fun g₂ _ => g₂.removeRule_takes p r

/-- One symbol for each member past the second. -/
lemma insertChain_takes (g : Grammar α) (p : Nat) (r : List Nat) :
    g.Takes (r.length - 2) id (g.insertChain p r) := by
  fun_induction insertChain g p r with
  | case1 g p m m' m'' ms ih =>
    have hk : (m :: m' :: m'' :: ms).length - 2 = 1 + (0 + ((m' :: m'' :: ms).length - 2)) := by
      simp only [List.length_cons]
      omega
    rw [hk]
    refine g.pushSynthetic_takes.bind fun x _ => ?_
    obtain ⟨n, g₁⟩ := x
    exact (g₁.insertRule_takes p [m, n]).bind fun g₂ _ => ih n g₂
  | case2 g p r hshort =>
    rw [Nat.sub_eq_zero_of_le (length_le_two hshort)]
    exact g.insertRule_takes p r

lemma splitRule_takes (g : Grammar α) (p : Nat) (r : List Nat) :
    g.Takes (r.length - 2) id (splitRule p g r) :=
  (g.insertChain_takes p r).bind (j := 0) fun g₁ _ => g₁.removeRule_takes p r

end Steps

/-! ### What rules still need -/

/-- The symbols that the rules need. -/
def load (g : Grammar α) : Nat :=
  ∑ i ∈ range g.symbols.length, ((g.rules i).map g.ruleNeed).sum

lemma need_eq (g : Grammar α) :
    g.need = g.symbols.length + (if g.startOccurs then 1 else 0) + g.load := by
  have hsymbols : g.symbols.map (fun s => (s.rules.map g.ruleNeed).sum) =
      (List.range g.symbols.length).map fun i => ((g.rules i).map g.ruleNeed).sum := by
    refine List.ext_getElem (by simp) fun i h _ => ?_
    have hi : i < g.symbols.length := by simpa using h
    simp [rules_eq (List.getElem?_eq_getElem hi)]
  have hload : ((g.symbols.flatMap (·.rules)).map g.ruleNeed).sum = g.load := by
    rw [List.map_flatMap, List.flatMap_def, List.sum_flatten, List.map_map]
    exact congrArg List.sum hsymbols
  rw [need, ← hload]
  rfl

lemma ruleNeed_congr (h : ∀ i, g'.isTerminal i = g.isTerminal i) : g'.ruleNeed = g.ruleNeed := by
  funext r
  rw [ruleNeed, funext h]
  rfl

lemma countP_eq_zero (h : ∀ m ∈ r, g.isTerminal m = false) : r.countP g.isTerminal = 0 :=
  List.countP_eq_zero.2 fun m hm => by simp [h m hm]

/-- Short rules without terminals beside other members need nothing. -/
lemma ruleNeed_eq_zero (hlen : r.length ≤ 2) (hs : g.needsShield r = false) : g.ruleNeed r = 0 := by
  unfold ruleNeed
  split
  · next hlong =>
    have hterm := countP_eq_zero (nonterminal_of_needsShield hlong hs)
    omega
  · rfl

lemma load_eq_zero (hlen : ∀ p, ∀ r ∈ g.rules p, r.length ≤ 2)
    (hs : ∀ p, ∀ r ∈ g.rules p, g.needsShield r = false) : g.load = 0 :=
  Finset.sum_eq_zero fun p _ => List.sum_eq_zero fun k hk => by
    obtain ⟨r, hr, rfl⟩ := List.mem_map.1 hk
    exact ruleNeed_eq_zero (hlen p r hr) (hs p r hr)

lemma ruleNeed_le_load (hr : r ∈ g.rules p) : g.ruleNeed r ≤ g.load := by
  have hp := mem_range.2 (lt_of_mem_rules hr)
  calc g.ruleNeed r ≤ ((g.rules p).map g.ruleNeed).sum :=
        List.le_sum_of_mem (List.mem_map_of_mem hr)
    _ ≤ g.load := Finset.single_le_sum (f := fun i => ((g.rules i).map g.ruleNeed).sum)
        (fun _ _ => Nat.zero_le _) hp

lemma Makes.load {id : Ident α} {n : Nat} (h : g.Makes id n g') : g'.load = g.load := by
  rw [Grammar.load, h.length, Finset.sum_range_succ, h.rules, rules_of_le (Nat.le_refl _),
    ruleNeed_congr h.isTerminal, funext h.rules]
  rfl

/-- The load changes with the rules of one symbol. -/
lemma load_update (g' : Grammar α) (hlen : g'.symbols.length = g.symbols.length)
    (ht : ∀ i, g'.isTerminal i = g.isTerminal i) (hp : p < g.symbols.length)
    (hrules : ∀ i, i ≠ p → g'.rules i = g.rules i) :
    g'.load + ((g.rules p).map g.ruleNeed).sum = g.load + ((g'.rules p).map g.ruleNeed).sum := by
  have hp := mem_range.2 hp
  have hrest : ∑ i ∈ (range g.symbols.length).erase p, ((g'.rules i).map g.ruleNeed).sum =
      ∑ i ∈ (range g.symbols.length).erase p, ((g.rules i).map g.ruleNeed).sum :=
    Finset.sum_congr rfl fun i hi => by rw [hrules i (Finset.ne_of_mem_erase hi)]
  rw [load, load, hlen, ruleNeed_congr ht, ← Finset.add_sum_erase _ _ hp,
    ← Finset.add_sum_erase _ _ hp, hrest]
  omega

/-- A new rule adds what it needs. -/
lemma load_withRule (hp : p < g.symbols.length) (hr : r ∉ g.rules p ∨ g.ruleNeed r = 0) :
    (g.withRule p r).load = g.load + g.ruleNeed r := by
  have hup := load_update (g.withRule p r) length_withRule (fun _ => isTerminal_withRule) hp
    fun i hi => by rw [rules_withRule hp, if_neg hi]
  rw [rules_withRule hp, if_pos rfl] at hup
  by_cases hmem : r ∈ g.rules p
  · rw [OrderedSet.insert, if_pos hmem] at hup
    have := hr.resolve_left (not_not_intro hmem)
    omega
  · rw [insert_of_not_mem hmem, List.map_append, List.sum_append, List.map_singleton,
      List.sum_singleton] at hup
    omega

lemma load_withoutRule (hr : r ∈ g.rules p) :
    (g.withoutRule p r).load + g.ruleNeed r = g.load := by
  have hup := load_update (g.withoutRule p r) length_withoutRule
    (fun _ => isTerminal_withoutRule) (lt_of_mem_rules hr)
    fun i hi => by rw [rules_withoutRule, if_neg hi]
  rw [rules_withoutRule, if_pos rfl] at hup
  have hsum := ((List.perm_cons_erase hr).map g.ruleNeed).sum_eq
  rw [List.map_cons, List.sum_cons] at hsum
  omega

lemma ruleNeed_of_long (h : 1 < r.length) :
    g.ruleNeed r = r.countP g.isTerminal + (r.length - 2) := if_pos h

/-! ### Steps lower the load -/

variable [DecidableEq α]

/-- A new start adds to the symbols what it adds to the need. -/
lemma isolateStart_need (h : g.isolateStart.result = .ok g') :
    g'.symbols.length + g'.load = g.need := by
  have hlen : g'.symbols.length = g.symbols.length + if g.startOccurs then 1 else 0 :=
    g.isolateStart_takes.length g' h
  rw [need_eq, hlen]
  obtain ⟨-, rfl⟩ | ⟨-, n, g₁, g₂, hp, hi, rfl⟩ := isolateStart_eq_ok.1 h
  · rfl
  · obtain ⟨hn, -, -, -, rfl⟩ := insertRule_eq_ok.1 hi
    have hload : (g₁.withRule n [g.start]).load = g.load := by
      rw [load_withRule hn (.inr rfl), (makes_of_pushStart hp).1.load]
      rfl
    exact congrArg _ hload

lemma pushStandIn_load {t n : Nat} (h : (g.pushStandIn t).result = .ok (n, g')) :
    g'.load = g.load := by
  obtain ⟨g₁, hp, hi⟩ := pushStandIn_eq_ok.1 h
  obtain ⟨hn, -, -, -, rfl⟩ := insertRule_eq_ok.1 hi
  rw [load_withRule hn (.inr rfl), (makes_of_pushSynthetic hp).1.load]
  rfl

lemma shieldMembers_load {ms ms' : List Nat} (h : (g.shieldMembers ms).result = .ok (ms', g')) :
    g'.load = g.load := by
  induction ms generalizing g ms' with
  | nil =>
    obtain ⟨-, rfl⟩ := shieldMembers_nil_eq_ok.1 h
    rfl
  | cons m ms ih =>
    obtain ⟨m', g₁, ms'', hm, hms, -⟩ := shieldMembers_cons_eq_ok.1 h
    obtain ⟨-, hm⟩ | ⟨-, -, rfl⟩ := hm
    · exact (ih hms).trans (pushStandIn_load hm)
    · exact ih hms

/-- The rule that comes in needs as much as the old one, the terminals apart. -/
lemma shieldRule_load (hw : g.WellFormed) (hr : r ∈ g.rules p) (hs : g.needsShield r = true)
    (h : (shieldRule p g r).result = .ok g') : g'.load + r.countP g.isTerminal = g.load := by
  obtain ⟨r', g₁, g₂, hm, hi, hrem⟩ := shieldRule_eq_ok.1 h
  have hsh := shieldMembers_spec hm
  obtain ⟨hlong, t, htr, ht⟩ := needsShield_eq_true.1 hs
  obtain ⟨hp, -, -, -, rfl⟩ := insertRule_eq_ok.1 hi
  obtain ⟨hr₂, -, rfl⟩ := removeRule_eq_ok.1 hrem
  have hnew : r' ∉ g₁.rules p := by
    rw [hsh.rules p (lt_of_mem_rules hr)]
    exact hsh.not_mem_rules hw htr ht
  have hlen := hsh.members.length_eq
  have hterm : r'.countP g₁.isTerminal = 0 := countP_eq_zero fun m hm => by
    rw [hsh.isTerminal]
    obtain ⟨-, ht⟩ | ⟨hge, -⟩ := hsh.member_cases hm
    · exact ht
    · exact isTerminal_of_le hge
  have hin := load_withRule hp (.inl hnew)
  have hout := load_withoutRule hr₂
  rw [ruleNeed_congr fun _ => isTerminal_withRule, ruleNeed_congr hsh.isTerminal,
    ruleNeed_of_long hlong] at hout
  rw [ruleNeed_of_long (by omega), hterm, shieldMembers_load hm] at hin
  omega

/-- Pairs of non-terminals need nothing. -/
lemma insertChain_load (hr : ∀ m ∈ r, g.isTerminal m = false)
    (h : (g.insertChain p r).result = .ok g') : g'.load = g.load := by
  have hneed : ∀ {c : Grammar α} {s : List Nat}, s.length ≤ 2 →
      (∀ m ∈ s, c.isTerminal m = false) → c.ruleNeed s = 0 := fun hlen hs =>
    ruleNeed_eq_zero hlen (needsShield_of_nonterminals hs)
  fun_induction insertChain g p r with
  | case1 g p m m' m'' ms ih =>
    obtain ⟨n, g₁, g₂, hp, hi, h⟩ := insertChain_cons_eq_ok.1 h
    obtain ⟨hm, -⟩ := makes_of_pushSynthetic hp
    obtain ⟨hlt, -, -, -, rfl⟩ := insertRule_eq_ok.1 hi
    have hpair : ∀ x ∈ [m, n], g₁.isTerminal x = false := fun x hx => by
      rw [hm.isTerminal]
      rcases (by simpa using hx : x = m ∨ x = n) with rfl | rfl
      · exact hr x List.mem_cons_self
      · exact isTerminal_of_le hm.index.ge
    have hn := hneed (by simp) hpair
    have hrest := ih n _ (fun x hx => by
      rw [isTerminal_withRule, hm.isTerminal]
      exact hr x (List.mem_cons_of_mem m hx)) h
    rw [hrest, load_withRule hlt (.inr hn), hm.load, hn, Nat.add_zero]
  | case2 g p r hshort =>
    obtain ⟨hlt, -, -, -, rfl⟩ := insertRule_eq_ok.1 h
    have hn := hneed (length_le_two hshort) hr
    rw [load_withRule hlt (.inr hn), hn, Nat.add_zero]

lemma splitRule_load (hlong : 2 < r.length) (hs : g.needsShield r = false)
    (h : (splitRule p g r).result = .ok g') : g'.load + (r.length - 2) = g.load := by
  obtain ⟨g₁, hc, hrem⟩ := splitRule_eq_ok.1 h
  obtain ⟨hr₁, -, rfl⟩ := removeRule_eq_ok.1 hrem
  have hterm := nonterminal_of_needsShield (by omega) hs
  have hout := load_withoutRule hr₁
  rw [ruleNeed_congr (insertChain_reshapes hc).enlarges.isTerminal, ruleNeed_of_long (by omega),
    countP_eq_zero hterm, insertChain_load hterm hc] at hout
  omega

/-! ### Normalisation -/

/-- Symbols and load together stay what they are, unless they are too many. -/
structure Balances (g : Grammar α) (x : Trail Record (Grammar α)) : Prop where
  total : ∀ g', x.result = .ok g' → g'.symbols.length + g'.load = g.symbols.length + g.load
  full : x.result = .error .indexSpaceFull → g.width.max < g.symbols.length + g.load

/-- A loop that rewrites rules trades load for symbols. -/
lemma Rewrites.balances {pick : Grammar α → List Nat → Bool}
    {step : Nat → Grammar α → List Nat → Trail Record (Grammar α)} (hs : Rewrites pick step)
    (I : Grammar α → Prop) (k : Grammar α → List Nat → Nat)
    (htakes : ∀ (c : Grammar α) p r, c.Takes (k c r) id (step p c r))
    (hk : ∀ (c : Grammar α) r, pick c r = true → k c r ≤ c.ruleNeed r)
    (hstep : ∀ c p r c', c.WellFormed → I c → r ∈ c.rules p → pick c r = true →
      (step p c r).result = .ok c' → I c' ∧ c'.load + k c r = c.load)
    (hg : g.Consistent) (hgI : I g) : g.Balances (rewriteRules pick step g) := by
  have hI : ∀ c p r c', c.WellFormed →
      (I c ∧ c.symbols.length + c.load = g.symbols.length + g.load) → r ∈ c.rules p →
      pick c r = true → (step p c r).result = .ok c' →
      I c' ∧ c'.symbols.length + c'.load = g.symbols.length + g.load := by
    intro c p r c' hw hc hr hp h
    obtain ⟨hI', hload⟩ := hstep c p r c' hw hc.1 hr hp h
    have hlen : c'.symbols.length = c.symbols.length + k c r := (htakes c p r).length c' h
    refine ⟨hI', ?_⟩
    omega
  refine ⟨fun g' h => (hs.keeps_all _ hI hg.wellFormed ⟨hgI, rfl⟩ h).2, fun h => ?_⟩
  obtain ⟨c, p, r, hgc, -, ⟨-, hc⟩, hr, hp, h⟩ := hs.exists_of_error _ hI hg ⟨hgI, rfl⟩ h
  have hfull := (htakes c p r).full h
  have hneed := hk c r hp
  have hle := ruleNeed_le_load hr
  rw [hgc.enlarges.width] at hfull
  omega

lemma shieldTerminals_balances (hg : g.Consistent) : g.Balances g.shieldTerminals := by
  refine shieldRule_rewrites.balances (fun _ => True) (fun c r => r.countP c.isTerminal)
    shieldRule_takes (fun c r hp => ?_)
    (fun c p r c' hw _ hr hp h => ⟨trivial, shieldRule_load hw hr hp h⟩) hg trivial
  rw [ruleNeed_of_long (needsShield_eq_true.1 hp).1]
  exact Nat.le_add_right _ _

/-- Once terminals are shielded. -/
lemma splitLongRules_balances (hg : g.Consistent)
    (hs : ∀ i, ∀ s ∈ g.rules i, g.needsShield s = false) : g.Balances g.splitLongRules := by
  refine splitRule_rewrites.balances (fun c => ∀ i, ∀ s ∈ c.rules i, c.needsShield s = false)
    (fun _ r => r.length - 2) splitRule_takes (fun c r hp => ?_) (fun c p r c' _ hc hr hp h => ?_)
    hg hs
  · have hlong : 2 < r.length := of_decide_eq_true hp
    rw [ruleNeed_of_long (by omega)]
    exact Nat.le_add_left _ _
  · have hlong : 2 < r.length := of_decide_eq_true hp
    exact ⟨needsShield_splitRule hc hlong h, splitRule_load hlong (hc p r hr) h⟩

/-- A pass leaves no load. -/
lemma pass_length (hg : g.Consistent) (h : g.pass.result = .ok g') :
    g'.symbols.length = g.need := by
  obtain ⟨g₁, g₂, g₃, h₁, h₂, h₃, -, h₄⟩ := pass_eq_ok.1 h
  have hg₁ := hg.changes (isolateStart_changes h₁)
  have hg₂ := hg₁.changes (shieldTerminals_reshapes h₂).changes
  have hw₃ := (hg₂.changes (splitLongRules_reshapes h₃).changes).wellFormed
  have hs : ∀ i, ∀ s ∈ g₂.rules i, g₂.needsShield s = false :=
    fun _ _ => needsShield_shieldTerminals hg₁.wellFormed h₂
  have hload : g₃.load = 0 :=
    load_eq_zero (fun _ _ => length_splitLongRules hg₂.wellFormed h₃)
      (needsShield_splitLongRules hs h₃)
  calc g'.symbols.length = g₃.symbols.length + g₃.load := by
        rw [(inlineUnits_spec hw₃ h₄).1.length, hload, Nat.add_zero]
    _ = g₂.symbols.length + g₂.load := (splitLongRules_balances hg₂ hs).total g₃ h₃
    _ = g₁.symbols.length + g₁.load := (shieldTerminals_balances hg₁).total g₂ h₂
    _ = g.need := isolateStart_need h₁

lemma pass_full (hg : g.Consistent) (h : g.pass.result = .error .indexSpaceFull) :
    g.width.max < g.need := by
  obtain h | ⟨g₁, h₁, h⟩ := Trail.bind_eq_error.1 h
  · have := g.isolateStart_takes.full h
    rw [need_eq]
    omega
  · have hc₁ := isolateStart_changes h₁
    have hg₁ := hg.changes hc₁
    rw [← hc₁.width, ← isolateStart_need h₁]
    obtain h | ⟨g₂, h₂, h⟩ := Trail.bind_eq_error.1 h
    · exact (shieldTerminals_balances hg₁).full h
    · have hc₂ := (shieldTerminals_reshapes h₂).changes
      have hg₂ := hg₁.changes hc₂
      have hs : ∀ i, ∀ s ∈ g₂.rules i, g₂.needsShield s = false :=
        fun _ _ => needsShield_shieldTerminals hg₁.wellFormed h₂
      rw [← hc₂.width, ← (shieldTerminals_balances hg₁).total g₂ h₂]
      obtain h | ⟨g₃, h₃, h⟩ := Trail.bind_eq_error.1 h
      · exact (splitLongRules_balances hg₂ hs).full h
      · have hw₃ := (hg₂.changes (splitLongRules_reshapes h₃).changes).wellFormed
        rw [checkNonempty_eq_ok hw₃, Trail.lift_ok_bind] at h
        exact absurd h (inlineUnits_ne_error hw₃)

omit [DecidableEq α] in
/-- A normal grammar needs no more symbols than it has. -/
lemma InNormalForm.need (hw : g.WellFormed) (h : g.InNormalForm) :
    g.need = g.symbols.length := by
  have hstart : ¬g.startOccurs = true := fun hs => h.start (hw.startOccurs_iff.1 hs)
  have hload : g.load = 0 := by
    refine load_eq_zero (fun p r hr => ?_) (fun p r hr => ?_)
    · obtain ⟨t, rfl, -⟩ | ⟨l, m, rfl, -⟩ := h.rules p r hr
      · simp
      · simp
    · obtain ⟨t, rfl, -⟩ | ⟨l, m, rfl, hl, hm⟩ := h.rules p r hr
      · simp [needsShield]
      · simp [needsShield, hl, hm]
  rw [need_eq, if_neg hstart, hload]
  rfl

/-- **The need of a grammar is exact.** Normalisation leaves as many symbols as the grammar needs if
there are indices for them. Otherwise it breaks off, and the caller is told that indices have run
out; nothing else makes it break off. -/
theorem normalize_budget (hg : g.Reachable) (hb : g.width.bits ≤ 32) :
    (g.startOccurs = true ↔ g.Occurs g.start) ∧
      (g.normalize.result = .error .indexSpaceFull ↔ g.width.max < g.need) ∧
      (∀ e, g.normalize.result = .error e → e = .indexSpaceFull) ∧
      (g.need ≤ g.width.max →
        ∃ g' c, g.normalize.result = .ok (g', c) ∧ g'.symbols.length = g.need) ∧
      Fault.indexSpaceFull.message? =
        some "StorageT is not big enough to store this grammar's symbols." := by
  have hc := hg.consistent
  have hw := hc.wellFormed
  have hw64 : g.width ≠ .w64 := by
    intro h
    rw [h] at hb
    exact absurd hb (by decide)
  have honly : ∀ e, g.normalize.result = .error e → e = .indexSpaceFull :=
    fun e h => (normalize_runsOut hc h).resolve_right fun h => hw64 h.1
  have hfull : g.normalize.result = .error .indexSpaceFull → g.width.max < g.need := by
    intro h
    obtain ⟨-, hp⟩ | ⟨h, -⟩ := normalize_eq_error hw h
    · exact pass_full hc hp
    · exact absurd h hw64
  have hlength : ∀ g' c, g.normalize.result = .ok (g', c) → g'.symbols.length = g.need := by
    intro g' c h
    obtain ⟨⟨hn, rfl⟩ | ⟨-, hp⟩, -⟩ := normalize_cases hw h
    · exact (hn.need hw).symm
    · exact pass_length hc hp
  have hfits : ∀ g' c, g.normalize.result = .ok (g', c) → g.need ≤ g.width.max := by
    intro g' c h
    have hch := normalize_changes h
    rw [← hlength g' c h, ← hch.width]
    exact (hw.changes hch).length_le
  refine ⟨hw.startOccurs_iff, ⟨hfull, fun hlt => ?_⟩, honly, fun hle => ?_, rfl⟩
  · rcases h : g.normalize.result with e | ⟨g', c⟩
    · rw [honly e h]
    · have := hfits g' c h
      omega
  · rcases h : g.normalize.result with e | ⟨g', c⟩
    · rw [honly e h] at h
      have := hfull h
      omega
    · exact ⟨g', c, rfl, hlength g' c h⟩

/-- A grammar with one rule, of `k` members `S` and 126 members `a`. -/
def crowded (k : Nat) : Grammar String where
  width := .w8
  symbols := [
    { id := .user "S", isTerminal := false,
      rules := [List.replicate k 0 ++ List.replicate 126 1], parents := [0] },
    { id := .user "a", isTerminal := true, parents := [0] }]
  start := 0

def crowdedEdits (k : Nat) : List (Edit String) :=
  [.declare "a" true, .addRule "S" (List.replicate k "S" ++ List.replicate 126 "a")]

set_option maxRecDepth 4000 in
lemma crowded_reachable : (crowded 2).Reachable ∧ (crowded 3).Reachable :=
  ⟨⟨.w8, "S", _, crowdedEdits 2, rfl, rfl⟩, ⟨.w8, "S", _, crowdedEdits 3, rfl, rfl⟩⟩

lemma need_crowded (k : Nat) : (crowded k).need = 253 + k := by
  have h₀ : (crowded k).isTerminal 0 = false := rfl
  have h₁ : (crowded k).isTerminal 1 = true := rfl
  have hrule : (crowded k).ruleNeed (List.replicate k 0 ++ List.replicate 126 1) = 250 + k := by
    have hcount : (List.replicate k 0 ++ List.replicate 126 1).countP (crowded k).isTerminal =
        126 := by simp [List.countP_replicate, h₀, h₁]
    rw [ruleNeed_of_long (by simp), hcount, List.length_append, List.length_replicate,
      List.length_replicate]
    omega
  have hneed : (crowded k).need = 2 + 1 +
      ((crowded k).ruleNeed (List.replicate k 0 ++ List.replicate 126 1) + 0) := rfl
  omega

/-- The last grammar that fits, and the first that does not. -/
theorem normalize_budget_crowded : (crowded 2).Reachable ∧ Width.w8.bits ≤ 32 ∧
    (∃ g' c, (crowded 2).normalize.result = .ok (g', c) ∧ g'.symbols.length = 255) ∧
    (crowded 3).Reachable ∧ (crowded 3).need = 256 ∧
    (crowded 3).normalize.result = .error .indexSpaceFull := by
  have hb : Width.w8.bits ≤ 32 := by decide
  obtain ⟨h₂, h₃⟩ := crowded_reachable
  obtain ⟨-, -, -, hok, -⟩ := normalize_budget h₂ hb
  obtain ⟨-, hfull, -⟩ := normalize_budget h₃ hb
  have hneed₂ : (crowded 2).need = 255 := need_crowded 2
  have hneed₃ : (crowded 3).need = 256 := need_crowded 3
  have hok := hok hneed₂.le
  rw [hneed₂] at hok
  refine ⟨h₂, hb, hok, h₃, hneed₃, hfull.2 ?_⟩
  rw [hneed₃]
  decide

end Chomsky.Grammar
