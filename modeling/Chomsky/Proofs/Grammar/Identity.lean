import Mathlib.Data.List.Nodup
import Chomsky.Proofs.Grammar.WellFormed

/-!
Identities. The list of identities only grows, no identity occurs in it twice, and the created ones
are numbered without gaps up to the counters.
-/

namespace Chomsky

namespace Ident

variable {α : Type}

/-- The number of a symbol made for a part of a rule. -/
def synthetic? : Ident α → Option Nat
  | synthetic n => some n
  | _ => none

/-- The number of a created start symbol. -/
def start? : Ident α → Option Nat
  | start n => some n
  | _ => none

end Ident

namespace Grammar

variable {α : Type} {g g' : Grammar α} {p i : Nat} {r : List Nat} {id : Ident α}

/-- The identities of all symbols, in the order of their indices. -/
def ids (g : Grammar α) : List (Ident α) := g.symbols.map (·.id)

@[simp] lemma length_ids : g.ids.length = g.symbols.length := List.length_map _

lemma getElem?_ids (i : Nat) : g.ids[i]? = g.symbols[i]?.map (·.id) := List.getElem?_map ..

lemma lt_of_ids (h : g.ids[i]? = some id) : i < g.symbols.length := by
  simpa using (List.getElem?_eq_some_iff.1 h).1

@[simp] lemma ids_withRule : (g.withRule p r).ids = g.ids := by
  refine List.ext_getElem? fun i => ?_
  rw [getElem?_ids, getElem?_ids, getElem?_withRule]
  cases g.symbols[i]? <;> rfl

@[simp] lemma ids_withoutRule : (g.withoutRule p r).ids = g.ids := by
  refine List.ext_getElem? fun i => ?_
  rw [getElem?_ids, getElem?_ids, getElem?_withoutRule]
  cases g.symbols[i]? <;> rfl

@[simp] lemma ids_withTag {tag : α} : (g.withTag i tag).ids = g.ids := by
  refine List.ext_getElem? fun j => ?_
  rw [getElem?_ids, getElem?_ids, getElem?_withTag]
  cases g.symbols[j]? with
  | none => rfl
  | some s =>
    simp only [Option.map_eq_map, Option.map_some]
    split <;> rfl

lemma ids_append {t : Bool} (h : g'.symbols = g.symbols ++ [{ id := id, isTerminal := t }]) :
    g'.ids = g.ids ++ [id] := by simp [ids, h]

lemma Makes.ids {n : Nat} (h : g.Makes id n g') : g'.ids = g.ids ++ [id] := ids_append h.symbols

lemma Makes.not_mem_ids {n : Nat} (h : g.Makes id n g') : id ∉ g.ids := fun hid => by
  obtain ⟨s, hs, hid⟩ := List.mem_map.1 hid
  exact h.new s hs hid

lemma ids_mono (h : g.ids <+: g'.ids) (hi : g.ids[i]? = some id) : g'.ids[i]? = some id := by
  obtain ⟨new, hnew⟩ := h
  rw [← hnew, List.getElem?_append_left (List.getElem?_eq_some_iff.1 hi).1, hi]

/-! ### Looking a name up -/

section Lookup

variable [DecidableEq α] {a : α}

lemma position?_eq_none : g.position? id = none ↔ id ∉ g.ids := by
  simp [position?, ids, List.findIdx?_eq_none_iff]

lemma position?_eq : g.position? id = g.ids.findIdx? (· = id) := by
  rw [position?, ids, List.findIdx?_map]
  rfl

lemma index?_congr (hids : g'.ids = g.ids) (hw : g'.width = g.width) :
    g'.index? a = g.index? a := by
  rw [index?, index?, position?_eq, position?_eq, hids, hw]

lemma ids_of_position? (h : g.position? id = some i) : g.ids[i]? = some id := by
  obtain ⟨hi, hp, -⟩ := List.findIdx?_eq_some_iff_getElem.1 h
  rw [getElem?_ids, List.getElem?_eq_getElem hi, Option.map_some, of_decide_eq_true hp]

/-- Where no identity occurs twice, it is found where it stands. -/
lemma position?_eq_some (hn : g.ids.Nodup) : g.position? id = some i ↔ g.ids[i]? = some id := by
  refine ⟨ids_of_position?, fun h => ?_⟩
  cases hp : g.position? id with
  | none => exact absurd (List.mem_of_getElem? h) (position?_eq_none.1 hp)
  | some j =>
    have hj := ids_of_position? hp
    rw [(List.getElem?_inj (List.getElem?_eq_some_iff.1 hj).1 hn).1 (hj.trans h.symm)]

lemma index?_eq_none : g.index? a = none ↔ .user a ∉ g.ids := by
  rw [index?, Option.map_eq_none_iff, position?_eq_none]

lemma ids_of_index? (hw : g.WellFormed) (h : g.index? a = some i) :
    g.ids[i]? = some (.user a) := by
  obtain ⟨j, hj, rfl⟩ := Option.map_eq_some_iff.1 h
  have hj := ids_of_position? hj
  have hle : j ≤ g.width.max := by have := lt_of_ids hj; have := hw.length_le; omega
  rwa [Width.wrap_of_le hle]

end Lookup

/-! ### What a change does to them -/

/-- A change leaves the identities alone, or puts a new one at the end and counts it. -/
lemma Change.ids_cases [DecidableEq α] (h : g.Change g') :
    (g'.ids = g.ids ∧ g'.nextSynthetic = g.nextSynthetic ∧ g'.nextStart = g.nextStart) ∨
      ∃ id, g'.ids = g.ids ++ [id] ∧ id ∉ g.ids ∧
        List.range g'.nextSynthetic = List.range g.nextSynthetic ++ id.synthetic?.toList ∧
        List.range g'.nextStart = List.range g.nextStart ++ id.start?.toList := by
  cases h with
  | declare hd =>
    obtain ⟨hnew, -, hx⟩ := declare_eq_ok.1 hd
    obtain ⟨-, rfl⟩ := Prod.mk.inj hx
    exact .inr ⟨_, ids_append rfl, index?_eq_none.1 hnew, by simp [Ident.synthetic?],
      by simp [Ident.start?]⟩
  | synthetic hs =>
    obtain ⟨hm, hn, ht⟩ := makes_of_pushSynthetic hs
    exact .inr ⟨_, hm.ids, hm.not_mem_ids, by simp [hn, List.range_succ, Ident.synthetic?],
      by simp [ht, Ident.start?]⟩
  | newStart hs =>
    obtain ⟨hm, hn, ht⟩ := makes_of_pushStart hs
    exact .inr ⟨_, hm.ids, hm.not_mem_ids, by simp [ht, Ident.synthetic?],
      by simp [hn, List.range_succ, Ident.start?]⟩
  | insert hi =>
    obtain ⟨-, -, -, -, rfl⟩ := insertRule_eq_ok.1 hi
    exact .inl ⟨ids_withRule, rfl, rfl⟩
  | remove hr =>
    obtain ⟨-, -, rfl⟩ := removeRule_eq_ok.1 hr
    exact .inl ⟨ids_withoutRule, rfl, rfl⟩
  | moveStart => exact .inl ⟨rfl, rfl, rfl⟩
  | tag => exact .inl ⟨ids_withTag, rfl, rfl⟩

/-- The list of identities only grows. -/
lemma Changes.ids_extends [DecidableEq α] (h : g.Changes g') : g.ids <+: g'.ids := by
  induction h with
  | refl => exact List.prefix_rfl
  | tail _ hc ih =>
    obtain ⟨hids, -⟩ | ⟨id, hids, -⟩ := hc.ids_cases
    · rwa [hids]
    · exact ih.trans ⟨[id], hids.symm⟩

/-! ### The invariant -/

/-- Every identity was given out once. The first symbol has a name, and the created symbols are
counted. -/
structure Identified (g : Grammar α) : Prop where
  named : ∃ a, g.ids[0]? = some (.user a)
  nodup : g.ids.Nodup
  synthetics : g.ids.filterMap Ident.synthetic? = List.range g.nextSynthetic
  starts : g.ids.filterMap Ident.start? = List.range g.nextStart

namespace Identified

lemma change [DecidableEq α] (h : g.Identified) (hc : g.Change g') : g'.Identified := by
  obtain ⟨hids, hs, ht⟩ | ⟨id, hids, hid, hs, ht⟩ := hc.ids_cases
  · exact ⟨by rw [hids]; exact h.named, by rw [hids]; exact h.nodup,
      by rw [hids, hs]; exact h.synthetics, by rw [hids, ht]; exact h.starts⟩
  · refine ⟨?_, ?_, ?_, ?_⟩
    · obtain ⟨a, ha⟩ := h.named
      exact ⟨a, ids_mono ⟨_, hids.symm⟩ ha⟩
    · rw [hids, ← List.concat_eq_append]
      exact h.nodup.concat hid
    · rw [hids, List.filterMap_append, h.synthetics, hs]
      cases id <;> rfl
    · rw [hids, List.filterMap_append, h.starts, ht]
      cases id <;> rfl

lemma changes [DecidableEq α] (h : g.Identified) (hc : g.Changes g') : g'.Identified := by
  induction hc with
  | refl => exact h
  | tail _ hc ih => exact ih.change hc

lemma synthetic_lt (h : g.Identified) {n : Nat} (hn : .synthetic n ∈ g.ids) :
    n < g.nextSynthetic := by
  rw [← List.mem_range, ← h.synthetics]
  exact List.mem_filterMap.2 ⟨_, hn, rfl⟩

lemma start_lt (h : g.Identified) {n : Nat} (hn : .start n ∈ g.ids) : n < g.nextStart := by
  rw [← List.mem_range, ← h.starts]
  exact List.mem_filterMap.2 ⟨_, hn, rfl⟩

/-- The first symbol is no created one, so not all symbols have numbers of one kind. -/
lemma length_filterMap_lt (h : g.Identified) {f : Ident α → Option Nat}
    (hf : ∀ a, f (.user a) = none) : (g.ids.filterMap f).length < g.symbols.length := by
  obtain ⟨a, ha⟩ := h.named
  rw [← length_ids]
  cases hids : g.ids with
  | nil => simp [hids] at ha
  | cons id rest =>
    obtain rfl : id = .user a := by simpa [hids] using ha
    rw [List.filterMap_cons_none (hf a), List.length_cons]
    exact Nat.lt_succ_of_le (List.length_filterMap_le f rest)

lemma nextSynthetic_lt (h : g.Identified) : g.nextSynthetic < g.symbols.length := by
  have hlt := h.length_filterMap_lt (f := Ident.synthetic?) fun _ => rfl
  rwa [h.synthetics, List.length_range] at hlt

lemma nextStart_lt (h : g.Identified) : g.nextStart < g.symbols.length := by
  have hlt := h.length_filterMap_lt (f := Ident.start?) fun _ => rfl
  rwa [h.starts, List.length_range] at hlt

end Identified

/-- Both invariants. -/
structure Consistent (g : Grammar α) : Prop where
  wellFormed : g.WellFormed
  identified : g.Identified

lemma Consistent.changes [DecidableEq α] (h : g.Consistent) (hc : g.Changes g') :
    g'.Consistent :=
  ⟨h.wellFormed.changes hc, h.identified.changes hc⟩

end Grammar

end Chomsky
