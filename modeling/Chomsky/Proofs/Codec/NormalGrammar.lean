import Chomsky.Proofs.Codec.Format
import Chomsky.Proofs.Normalize.Progress

/-!
The stored form of a normal-form grammar gives the grammar back.

Every number has to fit the bytes that it is stored in. The numbers of created symbols and tags
take four bytes, and the counters they come from stay below that (`Grammar.Counted`,
`Grammar.auto_lt`). An index takes the bytes of the width, and a size eight bytes, which is enough
because there are no more symbols than indices. Sets are stored as lists and made sets again when
they are read, so nothing may stand in them twice.
-/

namespace Chomsky

namespace Format

variable {α β : Type} {name : Format α} {w : Width}

/-! ### Kinds of values -/

/-- A value whose kind comes first, and is read on with `next`. -/
lemma returns_of_kind {f : Format β} {b : β} {k : Nat} {body : List UInt8}
    (next : Nat → List UInt8 → Option (β × List UInt8))
    (hread : ∀ bs, f.read bs = readNat 4 bs >>= fun x => next x.1 x.2)
    (hwrite : f.write b = writeNat 4 k ++ body) (hk : k < 3)
    (hbody : ∀ rest, next k (body ++ rest) = some (b, rest)) : f.Returns b := by
  intro rest
  have hkind : (nat 4).Returns k := returns_nat (by omega)
  calc f.read (f.write b ++ rest)
      = f.read (writeNat 4 k ++ (body ++ rest)) := by rw [hwrite, List.append_assoc]
    _ = (readNat 4 (writeNat 4 k ++ (body ++ rest)) >>= fun x => next x.1 x.2) := hread _
    _ = next k (body ++ rest) := hkind.bind next _
    _ = some (b, rest) := hbody rest

/-- The rest of reading an identity. -/
def readIdent (name : Format α) (kind : Nat) (bs : List UInt8) : Option (Ident α × List UInt8) :=
  match kind with
  | 0 => do
    let (a, rest) ← name.read bs
    pure (.user a, rest)
  | 1 => do
    let (n, rest) ← readNat 4 bs
    pure (.synthetic n, rest)
  | 2 => do
    let (n, rest) ← readNat 4 bs
    pure (.start n, rest)
  | _ => none

lemma local_ident (h : Local name.read) : Local (ident name).read := by
  have hkind : ∀ kind, Local (readIdent name kind)
    | 0 => h.map Ident.user
    | 1 => (local_readNat 4).map Ident.synthetic
    | 2 => (local_readNat 4).map Ident.start
    | _ + 3 => local_none
  exact (local_readNat 4).bind hkind

lemma returns_ident {id : Ident α} (hname : ∀ a, id = .user a → name.Returns a)
    (hn : ∀ n, id = .synthetic n ∨ id = .start n → n < 256 ^ 4) : (ident name).Returns id := by
  cases id with
  | user a =>
    exact returns_of_kind (readIdent name) (fun _ => rfl) rfl (k := 0) (by omega)
      ((hname a rfl).map Ident.user)
  | synthetic n =>
    exact returns_of_kind (readIdent name) (fun _ => rfl) rfl (k := 1) (by omega)
      ((returns_nat (hn n (.inl rfl))).map Ident.synthetic)
  | start n =>
    exact returns_of_kind (readIdent name) (fun _ => rfl) rfl (k := 2) (by omega)
      ((returns_nat (hn n (.inr rfl))).map Ident.start)

/-- The rest of reading a tag. -/
def readTag (label : Format α) (kind : Nat) (bs : List UInt8) : Option (Tag α × List UInt8) :=
  match kind with
  | 0 => pure (.root, bs)
  | 1 => do
    let (t, rest) ← label.read bs
    pure (.user t, rest)
  | 2 => do
    let (n, rest) ← readNat 4 bs
    pure (.auto n, rest)
  | _ => none

lemma local_tag (h : Local name.read) : Local (tag name).read := by
  have hkind : ∀ kind, Local (readTag name kind)
    | 0 => local_pure Tag.root
    | 1 => h.map Tag.user
    | 2 => (local_readNat 4).map Tag.auto
    | _ + 3 => local_none
  exact (local_readNat 4).bind hkind

lemma returns_tag {t : Tag α} (hname : ∀ a, t = .user a → name.Returns a)
    (hn : ∀ n, t = .auto n → n < 256 ^ 4) : (tag name).Returns t := by
  cases t with
  | root =>
    exact returns_of_kind (readTag name) (fun _ => rfl) (List.append_nil _).symm (k := 0)
      (by omega) fun _ => rfl
  | user a =>
    exact returns_of_kind (readTag name) (fun _ => rfl) rfl (k := 1) (by omega)
      ((hname a rfl).map Tag.user)
  | auto n =>
    exact returns_of_kind (readTag name) (fun _ => rfl) rfl (k := 2) (by omega)
      ((returns_nat (hn n rfl)).map Tag.auto)

/-- The rest of reading a rule. -/
def readRule (w : Width) (kind : Nat) (bs : List UInt8) : Option (NormalRule × List UInt8) :=
  match kind with
  | 0 => do
    let (t, rest) ← (index w).read bs
    pure (.terminal t, rest)
  | 1 => do
    let (l, rest) ← (index w).read bs
    let (r, rest) ← (index w).read rest
    pure (.pair l r, rest)
  | _ => none

lemma local_index : Local (index w).read := local_nat w.bytes

lemma local_normalRule : Local (normalRule w).read := by
  have hkind : ∀ kind, Local (readRule w kind)
    | 0 => local_index.map NormalRule.terminal
    | 1 => local_index.bind fun l => local_index.map (NormalRule.pair l)
    | _ + 2 => local_none
  exact (local_readNat 4).bind hkind

lemma returns_index {n : Nat} (h : n ≤ w.max) : (index w).Returns n := by
  have hcount : 256 ^ w.bytes = w.count := by cases w <;> rfl
  refine returns_nat ?_
  rw [hcount]
  exact Nat.lt_of_le_of_lt h w.max_lt

lemma returns_normalRule {rule : NormalRule} (h : ∀ m ∈ rule.members, m ≤ w.max) :
    (normalRule w).Returns rule := by
  cases rule with
  | terminal t =>
    exact returns_of_kind (readRule w) (fun _ => rfl) rfl (k := 0) (by omega)
      ((returns_index (h t (by simp [NormalRule.members]))).map NormalRule.terminal)
  | pair l r =>
    have hl : (index w).Returns l := returns_index (h l (by simp [NormalRule.members]))
    have hr : (index w).Returns r := returns_index (h r (by simp [NormalRule.members]))
    refine returns_of_kind (readRule w) (fun _ => rfl) (List.append_assoc _ _ _) (k := 1)
      (by omega) fun rest => ?_
    calc readRule w 1 (((index w).write l ++ (index w).write r) ++ rest)
        = readRule w 1 ((index w).write l ++ ((index w).write r ++ rest)) := by
          rw [List.append_assoc]
      _ = ((index w).read ((index w).write r ++ rest) >>= fun x => some (.pair l x.1, x.2)) :=
          hl.bind (fun l rest =>
            (index w).read rest >>= fun x => some (NormalRule.pair l x.1, x.2)) _
      _ = some (.pair l r, rest) := hr.map (NormalRule.pair l) rest

/-! ### Bit sets -/

lemma local_bitSet : Local bitSet.read :=
  local_map (local_pair (local_nat 8) (local_list local_word)) _ _

lemma returns_bitSet {s : BitSet} {n : Nat} (hs : s.Fits n) (hn : n ≤ Size.max) :
    bitSet.Returns s := by
  have hsize : s.size ≤ Size.max := by rw [hs.size]; exact hn
  have hwords : s.words.length ≤ Size.max := by
    rw [hs.words, BitSet.wordCount]
    unfold Size.max at *
    omega
  exact returns_map (returns_pair (returns_size hsize) (returns_list hwords fun w _ =>
    returns_word w)) rfl

end Format

/-! ### Names -/

/-- Stored names are read back if they have a size. -/
class LawfulStored (α : Type) [Stored α] where
  Sized : α → Prop
  isLocal : Format.Local (Stored.format : Format α).read
  returns : ∀ a, Sized a → (Stored.format : Format α).Returns a

instance : LawfulStored String where
  Sized s := s.utf8ByteSize ≤ Size.max
  isLocal := Format.local_text
  returns _ := Format.returns_text

instance : LawfulStored Int64 where
  Sized _ := True
  isLocal := Format.local_int64
  returns i _ := Format.returns_int64 i

/-! ### The counters -/

namespace Grammar

variable {α : Type} {g g' : Grammar α}

/-- Created symbols are counted in 32 bits. -/
structure Counted (g : Grammar α) : Prop where
  synthetic : g.nextSynthetic ≤ 0xFFFFFFFF
  start : g.nextStart ≤ 0xFFFFFFFF

variable [DecidableEq α]

lemma Counted.change (h : g.Counted) (hc : g.Change g') : g'.Counted := by
  cases hc with
  | declare hd =>
    obtain ⟨-, -, hx⟩ := declare_eq_ok.1 hd
    obtain ⟨-, rfl⟩ := Prod.mk.inj hx
    exact ⟨h.synthetic, h.start⟩
  | synthetic hs =>
    obtain ⟨-, hn, ht⟩ := makes_of_pushSynthetic hs
    obtain ⟨m, hm, -⟩ := except_bind_eq_ok.1 hs
    have hlt := (nextCount_eq_ok.1 hm).1
    exact ⟨by omega, by rw [ht]; exact h.start⟩
  | newStart hs =>
    obtain ⟨-, hn, ht⟩ := makes_of_pushStart hs
    obtain ⟨m, hm, -⟩ := except_bind_eq_ok.1 hs
    have hlt := (nextCount_eq_ok.1 hm).1
    exact ⟨by rw [ht]; exact h.synthetic, by omega⟩
  | insert hi =>
    obtain ⟨-, -, -, -, rfl⟩ := insertRule_eq_ok.1 hi
    exact ⟨h.synthetic, h.start⟩
  | remove hr =>
    obtain ⟨-, -, rfl⟩ := removeRule_eq_ok.1 hr
    exact ⟨h.synthetic, h.start⟩
  | moveStart => exact ⟨h.synthetic, h.start⟩
  | tag => exact ⟨h.synthetic, h.start⟩

lemma Counted.changes (h : g.Counted) (hc : g.Changes g') : g'.Counted := by
  induction hc with
  | refl => exact h
  | tail _ hc ih => exact ih.change hc

lemma Reachable.counted (h : g.Reachable) : g.Counted := by
  obtain ⟨w, a, g₀, hc, hch⟩ := h.changes
  refine Counted.changes ?_ hch
  obtain ⟨-, rfl⟩ := create_eq_ok.1 hc
  exact ⟨Nat.zero_le _, Nat.zero_le _⟩

omit [DecidableEq α] in
lemma auto_lt {start k n : Nat} {xs : List (Nat × Symbol α)} {ts : List (Tag α)}
    (h : tagsFrom start k xs = .ok ts) (hn : .auto n ∈ ts) : n < 0xFFFFFFFF := by
  fun_induction tagsFrom start k xs generalizing ts with
  | case1 =>
    obtain rfl := Except.ok.inj h
    exact absurd hn List.not_mem_nil
  | case2 k s rest ih =>
    obtain ⟨us, hus, rfl⟩ := except_map_eq_ok.1 h
    exact ih hus (by simpa using hn)
  | case3 k i s rest hi t ht ih =>
    obtain ⟨us, hus, rfl⟩ := except_map_eq_ok.1 h
    exact ih hus (by simpa using hn)
  | case4 k i s rest hi ht hk ih =>
    obtain ⟨us, hus, rfl⟩ := except_map_eq_ok.1 h
    rcases List.mem_cons.1 hn with hn | hn
    · obtain rfl : n = k := Tag.auto.inj hn
      exact hk
    · exact ih hus hn
  | case5 => cases h

end Grammar

/-! ### The whole grammar -/

/-- How many different rules there are over `n` symbols. -/
lemma length_rules_le {rs : List NormalRule} {n : Nat} (hn : rs.Nodup)
    (hm : ∀ rule ∈ rs, ∀ m ∈ rule.members, m < n) : rs.length ≤ n + n * n := by
  have hsub : rs.toFinset ⊆ (Finset.range n).image NormalRule.terminal ∪
      (Finset.range n ×ˢ Finset.range n).image fun p => NormalRule.pair p.1 p.2 := by
    intro rule hr
    have hm := hm rule (List.mem_toFinset.1 hr)
    cases rule with
    | terminal t =>
      have ht := hm t (by simp [NormalRule.members])
      exact Finset.mem_union_left _ (Finset.mem_image_of_mem _ (Finset.mem_range.2 ht))
    | pair l r =>
      have hl := hm l (by simp [NormalRule.members])
      have hr := hm r (by simp [NormalRule.members])
      exact Finset.mem_union_right _ (Finset.mem_image.2 ⟨(l, r), by simp [hl, hr], rfl⟩)
  have hcard := (Finset.card_le_card hsub).trans (Finset.card_union_le _ _)
  have hterm : ((Finset.range n).image NormalRule.terminal).card ≤ n := by
    simpa using Finset.card_image_le (s := Finset.range n) (f := NormalRule.terminal)
  have hpair : ((Finset.range n ×ˢ Finset.range n).image fun p =>
      NormalRule.pair p.1 p.2).card ≤ n * n := by
    simpa using Finset.card_image_le (s := Finset.range n ×ˢ Finset.range n)
      (f := fun p => NormalRule.pair p.1 p.2)
  rw [List.toFinset_card_of_nodup hn] at hcard
  omega

namespace NormalGrammar

variable {α : Type}

/-- A rule has one or two members, and a width of 32 bits has less than `2 ^ 32` indices. -/
lemma WellFormed.length_rulesAt_le {c : NormalGrammar α} (hc : c.WellFormed)
    (hb : c.width.bits ≤ 64) (hw : c.width ≠ .w64) (p : Nat) :
    (c.rulesAt p).length ≤ Size.max := by
  have hsmall : c.tags.size ≤ 0xFFFFFFFF :=
    hc.size_le.trans (Nat.le_of_not_lt fun hlt => hw (Width.eq_w64 hb hlt))
  have hcount := length_rules_le (hc.nodup_rules p) fun _ hr _ hm => hc.member_lt hr hm
  have hsquare := Nat.mul_le_mul hsmall hsmall
  unfold Size.max
  omega

variable [Stored α] [LawfulStored α]

/-- The parts have sizes in 64 bits, as everything has that is kept in memory. Only texts, and the
rules of one symbol at the greatest width, are not bounded by the number of indices. -/
structure Sized (c : NormalGrammar α) : Prop where
  names : ∀ a, .user a ∈ c.ids → LawfulStored.Sized a
  tags : ∀ t, .user t ∈ c.tags → LawfulStored.Sized t
  rules : c.width = .w64 → ∀ rs ∈ c.rules, rs.length ≤ Size.max

end NormalGrammar

namespace Format

lemma local_normalGrammar [DecidableEq α] [Stored α] [LawfulStored α] :
    Local (normalGrammar (α := α) w).read := by
  have hname : Local (Stored.format : Format α).read := LawfulStored.isLocal
  exact local_map (local_pair (local_set (local_ident hname)) <|
    local_pair (local_list (local_tag hname)) <| local_pair local_bitSet <|
    local_pair (local_list (local_set local_normalRule)) <|
    local_pair (local_list local_bitSet) local_index) _ _

lemma returns_normalGrammar {α : Type} [DecidableEq α] [Stored α] {c : NormalGrammar α}
    (hids : (ident Stored.format).set.Returns c.ids)
    (htags : (tag Stored.format).list.Returns c.tags.toList)
    (hterminals : bitSet.Returns c.terminals)
    (hrules : (normalRule c.width).set.list.Returns c.rules.toList)
    (hparents : bitSet.list.Returns c.parents.toList)
    (hstart : (index c.width).Returns c.start) : (normalGrammar c.width).Returns c := by
  have hfields := returns_pair hids <| returns_pair htags <| returns_pair hterminals <|
    returns_pair hrules <| returns_pair hparents hstart
  unfold normalGrammar
  refine returns_map ?_ rfl
  exact hfields

end Format

namespace Grammar

variable {α : Type} [DecidableEq α] [Stored α] [LawfulStored α] {g g' : Grammar α}
  {c : NormalGrammar α}

lemma max_le_size {w : Width} (hb : w.bits ≤ 64) : w.max ≤ Size.max := by
  revert hb
  cases w <;> decide

open Format

lemma returns_ids (hg : g.Consistent) (hcount : g.Counted)
    (hnames : ∀ a, .user a ∈ g.ids → LawfulStored.Sized a) :
    (ident Stored.format).set.Returns g.ids := by
  have hlen : g.ids.length ≤ Size.max := by
    rw [length_ids]
    exact hg.wellFormed.length_le.trans (max_le_size hg.wellFormed.bits_le)
  refine returns_set hlen hg.identified.nodup fun id hid => returns_ident ?_ ?_
  · rintro a rfl
    exact LawfulStored.returns a (hnames a hid)
  · rintro n (rfl | rfl)
    · have hlt := hg.identified.synthetic_lt hid
      have hle := hcount.synthetic
      omega
    · have hlt := hg.identified.start_lt hid
      have hle := hcount.start
      omega

omit [DecidableEq α] in
lemma returns_tags (hg : g.WellFormed) {ts : List (Tag α)} (h : g.tags = .ok ts)
    (hnames : ∀ t, .user t ∈ ts → LawfulStored.Sized t) :
    (tag Stored.format).list.Returns ts := by
  have hlen : ts.length ≤ Size.max := by
    have hts := length_tagsFrom h
    have hle := hg.length_le.trans (max_le_size hg.bits_le)
    simp only [indices, List.length_zip, List.length_map, List.length_range, Nat.min_self] at hts
    omega
  refine returns_list hlen fun t ht => returns_tag ?_ ?_
  · rintro a rfl
    exact LawfulStored.returns a (hnames a ht)
  · rintro n rfl
    have hlt := auto_lt h ht
    omega

omit [DecidableEq α] [Stored α] [LawfulStored α] in
lemma returns_rules (hc : c.WellFormed) (hb : c.width.bits ≤ 64)
    (hrules : c.width = .w64 → ∀ rs ∈ c.rules, rs.length ≤ Size.max) :
    (Format.normalRule c.width).set.list.Returns c.rules.toList := by
  have hmax := hc.size_le.trans (max_le_size hb)
  refine returns_list (by rw [Array.length_toList, hc.rules_size]; exact hmax) fun rs hrs => ?_
  obtain ⟨p, hp⟩ := List.mem_iff_getElem?.1 hrs
  have hat : c.rulesAt p = rs := by
    rw [NormalGrammar.rulesAt, ← Array.getElem?_toList, hp, Option.getD_some]
  have hlen : rs.length ≤ Size.max := by
    by_cases hw : c.width = .w64
    · exact hrules hw rs (Array.mem_toList_iff.1 hrs)
    · exact hat ▸ hc.length_rulesAt_le hb hw p
  refine returns_set hlen (hat ▸ hc.nodup_rules p) fun rule hr => returns_normalRule fun m hm => ?_
  rw [← hat] at hr
  exact (hc.member_lt hr hm).le.trans hc.size_le

/-- **A stored snapshot is read back.** -/
lemma returns_snapshot (hg : g.Consistent) (hcount : g.Counted) (h : g.snapshot = .ok c)
    (hs : c.Sized) : (normalGrammar c.width).Returns c := by
  have hw := hg.wellFormed
  have hc := snapshot_wellFormed hw h
  obtain ⟨-, tags, terminals, parents, rules, ht, -, hp, -, rfl⟩ := snapshot_eq_ok.1 h
  have hmax := hw.length_le.trans (max_le_size hw.bits_le)
  have hids : (ident Stored.format).set.Returns g.ids := returns_ids hg hcount hs.names
  have htags : (tag Stored.format).list.Returns tags :=
    returns_tags hw ht fun t ht => hs.tags t (List.mem_toArray.2 ht)
  have hterminals : bitSet.Returns terminals :=
    returns_bitSet hc.terminals (hc.size_le.trans (max_le_size hw.bits_le))
  have hrules := returns_rules hc hw.bits_le hs.rules
  have hparents : bitSet.list.Returns parents := by
    obtain ⟨hlen, hat⟩ := except_mapM_eq_ok hp
    refine returns_list (hlen.trans_le hmax) fun ps hps => ?_
    obtain ⟨i, hi, rfl⟩ := List.mem_iff_getElem.1 hps
    obtain ⟨s, hsym⟩ := exists_symbol (hlen ▸ hi)
    obtain ⟨ps, hps, hset⟩ := hat i s hsym
    obtain rfl : parents[i] = ps := Option.some.inj ((List.getElem?_eq_getElem hi).symm.trans hps)
    exact returns_bitSet (parentSet_eq_ok hw hsym hset).1 hmax
  have hstart : (index g.width).Returns g.start :=
    returns_index (hw.start_lt.le.trans hw.length_le)
  exact returns_normalGrammar hids htags hterminals hrules hparents hstart

/-- **The stored form of a normal-form grammar keeps everything.** What was written of the result of
a normalisation is read back whole, whatever follows it: the identities, the tags, the terminals,
the rules in their order, the parents and the start. So every query, and every recognition and
parse, answers the same on what was read. If something is cut off at the end, nothing is read. -/
theorem read_write_normalize (hg : g.Reachable) (hn : g.normalize.result = .ok (g', c))
    (hs : c.Sized) :
    (∀ rest, (Format.normalGrammar g.width).read ((Format.normalGrammar g.width).write c ++ rest) =
      some (c, rest)) ∧
    ∀ bs, bs <+: (Format.normalGrammar g.width).write c →
      bs ≠ (Format.normalGrammar g.width).write c →
      (Format.normalGrammar (α := α) g.width).read bs = none := by
  have hch := normalize_changes hn
  obtain ⟨-, hsnap⟩ := normalize_eq_ok.1 hn
  have hwidth : c.width = g.width := (width_of_snapshot hsnap).trans hch.width
  have hret : (Format.normalGrammar g.width).Returns c := by
    rw [← hwidth]
    exact returns_snapshot (hg.consistent.changes hch) (hg.counted.changes hch) hsnap hs
  have hlocal : Local (Format.normalGrammar (α := α) g.width).read := Format.local_normalGrammar
  exact ⟨hret, fun bs hpre hne => read_eq_none hlocal hret hpre hne⟩

lemma alternatingSnapshot_sized : alternatingSnapshot.Sized where
  names a ha := by
    have ha : a = "S" ∨ a = "a" := by simpa [alternatingSnapshot] using ha
    change a.utf8ByteSize ≤ Size.max
    rcases ha with rfl | rfl <;> decide
  tags t ht := by simp [alternatingSnapshot] at ht
  rules := nofun

theorem read_write_normalize_alternating : alternating.Reachable ∧
    alternating.normalize.result = .ok (alternatingResult, alternatingSnapshot) ∧
    alternatingSnapshot.Sized ∧
    (Format.normalGrammar .w8).read
        ((Format.normalGrammar .w8).write alternatingSnapshot ++ [7, 0]) =
      some (alternatingSnapshot, [7, 0]) ∧
    (Format.normalGrammar (α := String) .w8).read
      ((Format.normalGrammar .w8).write alternatingSnapshot).dropLast = none := by
  obtain ⟨hwhole, hpart⟩ := read_write_normalize alternating_reachable alternating_normalize
    alternatingSnapshot_sized
  have hshort : ((Format.normalGrammar .w8).write alternatingSnapshot).dropLast ≠
      (Format.normalGrammar .w8).write alternatingSnapshot := by
    have hne : (Format.normalGrammar .w8).write alternatingSnapshot ≠ [] := nofun
    intro h
    have hpos := List.length_pos_iff.2 hne
    have hlen := congrArg List.length h
    rw [List.length_dropLast] at hlen
    omega
  exact ⟨alternating_reachable, alternating_normalize, alternatingSnapshot_sized, hwhole [7, 0],
    hpart _ (List.dropLast_prefix _) hshort⟩

end Grammar

end Chomsky
