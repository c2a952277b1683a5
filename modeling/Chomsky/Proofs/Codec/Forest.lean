import Mathlib.Order.Interval.Finset.Nat
import Chomsky.Codec.Forest
import Chomsky.Proofs.Codec.NormalGrammar
import Chomsky.Proofs.Forest.Exact

/-!
The stored forms of forests and trees give them back.

A tree is read with a bound on its depth. More depth never changes what is read, and the bytes of
a tree are more than it is deep, so the count of all bytes is bound enough. A forest is a table of
symbols for each cell: no symbol is listed twice in a cell, so the table that is read keeps the
order in which the symbols were found.
-/

namespace Chomsky

lemma Width.max_le_of_bits {w : Width} (h : w.bits ≤ 16) : w.max ≤ 0xFFFF := by
  revert h
  cases w <;> decide

/-- The numbers of a reason fit the bytes that they are stored in. -/
inductive Pointer.Fits (w : Width) : Pointer → Prop where
  | terminal {t : Nat} (ht : t ≤ w.max) : Fits w (.terminal t)
  | split {after l r : Nat} (ha : after ≤ Size.max) (hl : l ≤ w.max) (hr : r ≤ w.max) :
    Fits w (.split after l r)

/-- All symbols of a tree are indices, all positions and counts of children are sizes. -/
inductive Tree.Fits (w : Width) : Tree → Prop where
  | leaf {s p : Nat} (hs : s ≤ w.max) (hp : p ≤ Size.max) : Fits w (.leaf s p)
  | node {s : Nat} {ts : List Tree} (hs : s ≤ w.max) (hlen : ts.length ≤ Size.max)
    (hts : ∀ t ∈ ts, Fits w t) : Fits w (.node s ts)

lemma Tree.fits_leaf {w : Width} {s p : Nat} :
    (Tree.leaf s p).Fits w ↔ s ≤ w.max ∧ p ≤ Size.max := by
  refine ⟨fun h => ?_, fun h => .leaf h.1 h.2⟩
  cases h with
  | leaf hs hp => exact ⟨hs, hp⟩

lemma Tree.fits_node {w : Width} {s : Nat} {ts : List Tree} : (Tree.node s ts).Fits w ↔
    s ≤ w.max ∧ ts.length ≤ Size.max ∧ ∀ t ∈ ts, t.Fits w := by
  refine ⟨fun h => ?_, fun h => .node h.1 h.2.1 h.2.2⟩
  cases h with
  | node hs hlen hts => exact ⟨hs, hlen, hts⟩

namespace Format

variable {α β : Type} {w : Width}

/-! ### Trees -/

/-- The rest of reading a tree, with a way to read its subtrees. -/
def readTreeOn (w : Width) (read : List UInt8 → Option (Tree × List UInt8)) (kind : Nat)
    (bs : List UInt8) : Option (Tree × List UInt8) :=
  match kind with
  | 0 => do
    let (s, rest) ← (index w).read bs
    let (p, rest) ← readNat 8 rest
    pure (.leaf s p, rest)
  | 1 => do
    let (s, rest) ← (index w).read bs
    let (n, rest) ← readNat 8 rest
    let (ts, rest) ← readMany read n rest
    pure (.node s ts, rest)
  | _ => none

lemma local_readTree (depth : Nat) : Local (readTree w depth) := by
  induction depth with
  | zero => exact local_none
  | succ depth ih =>
    have hkind : ∀ kind, Local (readTreeOn w (readTree w depth) kind)
      | 0 => local_index.bind fun s => (local_readNat 8).map (Tree.leaf s)
      | 1 => local_index.bind fun s => (local_readNat 8).bind fun n =>
          (ih.readMany n).map (Tree.node s)
      | _ + 2 => local_none
    exact (local_readNat 4).bind hkind

/-- What the first reader reads, the second one reads too. -/
def Extends (read read' : List UInt8 → Option (α × List UInt8)) : Prop :=
  ∀ bs x, read bs = some x → read' bs = some x

section Extends

variable {read read' : List UInt8 → Option (α × List UInt8)}
  {next next' : α → List UInt8 → Option (β × List UInt8)}

lemma Extends.refl (read : List UInt8 → Option (α × List UInt8)) : Extends read read :=
  fun _ _ h => h

lemma Extends.bind (h : Extends read read') (hnext : ∀ a, Extends (next a) (next' a)) :
    Extends (fun bs => read bs >>= fun x => next x.1 x.2)
      fun bs => read' bs >>= fun x => next' x.1 x.2 := by
  intro bs y hy
  obtain ⟨x, hx, hy⟩ := Option.bind_eq_some_iff.1 hy
  exact Option.bind_eq_some_iff.2 ⟨x, h bs x hx, hnext x.1 x.2 y hy⟩

lemma Extends.readMany (h : Extends read read') (n : Nat) :
    Extends (readMany read n) (readMany read' n) := by
  induction n with
  | zero => exact .refl _
  | succ n ih => exact h.bind fun a => ih.bind fun as => .refl fun bs => some (a :: as, bs)

end Extends

/-- With a greater bound on the depth, no less is read. -/
lemma readTree_extends {depth depth' : Nat} (h : depth ≤ depth') :
    Extends (readTree w depth) (readTree w depth') := by
  induction depth generalizing depth' with
  | zero => exact nofun
  | succ depth ih =>
    obtain ⟨depth', rfl⟩ : ∃ d, depth' = d + 1 := ⟨depth' - 1, by omega⟩
    have ih := ih (Nat.le_of_succ_le_succ h)
    have hkind : ∀ kind, Extends (readTreeOn w (readTree w depth) kind)
        (readTreeOn w (readTree w depth') kind)
      | 0 => .refl _
      | 1 => (Extends.refl _).bind fun s => (Extends.refl (readNat 8)).bind fun n =>
          (ih.readMany n).bind fun ts => .refl fun bs => some (Tree.node s ts, bs)
      | _ + 2 => .refl _
    exact (Extends.refl (readNat 4)).bind hkind

lemma local_tree : Local (tree w).read := by
  intro bs t rest more h
  have hlen : bs.length ≤ (bs ++ more).length := by
    rw [List.length_append]
    omega
  exact readTree_extends hlen _ _ (local_readTree bs.length bs t rest more h)

lemma writeTrees_eq (ts : List Tree) : writeTrees w ts = ts.flatMap (writeTree w) := by
  induction ts with
  | nil => rfl
  | cons t ts ih => rw [writeTrees, ih, List.flatMap_cons]

lemma length_writeNat (k n : Nat) : (writeNat k n).length = k := by
  induction k generalizing n with
  | zero => rfl
  | succ k ih => rw [writeNat, List.length_cons, ih]

lemma length_writeTree_pos (t : Tree) : 0 < (writeTree w t).length := by
  cases t <;> simp [writeTree, length_writeNat]

/-- A subtree takes less bytes than its parent. -/
lemma length_writeTree_lt {s : Nat} {t : Tree} {ts : List Tree} (h : t ∈ ts) :
    (writeTree w t).length < (writeTree w (.node s ts)).length := by
  have hsub : (writeTree w t).Sublist (writeTrees w ts) := by
    rw [writeTrees_eq, List.flatMap_def]
    exact List.sublist_flatten_of_mem (List.mem_map_of_mem h)
  have hle := hsub.length_le
  simp only [writeTree, List.length_append, length_writeNat]
  omega

/-- Reading trees of bounded depth only. -/
def treeWithin (w : Width) (depth : Nat) : Format Tree := ⟨writeTree w, readTree w depth⟩

/-- The count of bytes of a tree bounds its depth. -/
lemma returns_treeWithin {t : Tree} (ht : t.Fits w) {depth : Nat}
    (hd : (writeTree w t).length ≤ depth) : (treeWithin w depth).Returns t := by
  obtain ⟨d, rfl⟩ := Nat.exists_eq_add_one.2 ((length_writeTree_pos t).trans_le hd)
  induction ht generalizing d with
  | @leaf s p hs hp =>
    refine returns_of_kind (readTreeOn w (readTree w d)) (fun _ => rfl) (List.append_assoc _ _ _)
      (k := 0) (by omega) fun rest => ?_
    calc readTreeOn w (readTree w d) 0 (((index w).write s ++ writeNat 8 p) ++ rest)
        = readTreeOn w (readTree w d) 0 ((index w).write s ++ (writeNat 8 p ++ rest)) := by
          rw [List.append_assoc]
      _ = (readNat 8 (writeNat 8 p ++ rest) >>= fun x => some (.leaf s x.1, x.2)) :=
          (returns_index hs).bind (fun s rest =>
            readNat 8 rest >>= fun x => some (Tree.leaf s x.1, x.2)) _
      _ = some (.leaf s p, rest) := (returns_size hp).map (Tree.leaf s) rest
  | @node s ts hs hlen hts ih =>
    have hchildren : ∀ t ∈ ts, (treeWithin w d).Returns t := fun t ht => by
      have hlt : (writeTree w t).length ≤ d :=
        Nat.le_of_lt_succ ((length_writeTree_lt ht).trans_le hd)
      obtain ⟨d, rfl⟩ := Nat.exists_eq_add_one.2 ((length_writeTree_pos t).trans_le hlt)
      exact ih t ht d hlt
    have hwrite : (treeWithin w (d + 1)).write (.node s ts) =
        writeNat 4 1 ++ ((index w).write s ++ (writeNat 8 ts.length ++ writeTrees w ts)) := by
      simp only [treeWithin, writeTree, List.append_assoc]
    refine returns_of_kind (readTreeOn w (readTree w d)) (fun _ => rfl) hwrite (by omega)
      fun rest => ?_
    calc readTreeOn w (readTree w d) 1
          (((index w).write s ++ (writeNat 8 ts.length ++ writeTrees w ts)) ++ rest)
        = readTreeOn w (readTree w d) 1
            ((index w).write s ++ (writeNat 8 ts.length ++ (writeTrees w ts ++ rest))) := by
          simp only [List.append_assoc]
      _ = (readNat 8 (writeNat 8 ts.length ++ (writeTrees w ts ++ rest)) >>= fun x =>
            readMany (readTree w d) x.1 x.2 >>= fun x => some (.node s x.1, x.2)) :=
          (returns_index hs).bind (fun s rest => readNat 8 rest >>= fun x =>
            readMany (readTree w d) x.1 x.2 >>= fun x => some (Tree.node s x.1, x.2)) _
      _ = (readMany (readTree w d) ts.length (writeTrees w ts ++ rest) >>= fun x =>
            some (.node s x.1, x.2)) :=
          (returns_size hlen).bind (fun n rest =>
            readMany (readTree w d) n rest >>= fun x => some (Tree.node s x.1, x.2)) _
      _ = some (.node s ts, rest) := by
          rw [writeTrees_eq]
          have hmany : readMany (readTree w d) ts.length (ts.flatMap (writeTree w) ++ rest) =
            some (ts, rest) := readMany_flatMap hchildren rest
          rw [hmany]
          rfl

lemma returns_tree {t : Tree} (ht : t.Fits w) : (tree w).Returns t := by
  intro rest
  have hlen : (writeTree w t).length ≤ (writeTree w t ++ rest).length := by
    rw [List.length_append]
    omega
  exact returns_treeWithin ht hlen rest

lemma local_trees : Local (trees w).read := local_list local_tree

lemma returns_trees {ts : List Tree} (hlen : ts.length ≤ Size.max) (hts : ∀ t ∈ ts, t.Fits w) :
    (trees w).Returns ts :=
  returns_list hlen fun t ht => returns_tree (hts t ht)

/-! ### Forests -/

/-- The rest of reading a reason. -/
def readPointer (w : Width) (kind : Nat) (bs : List UInt8) : Option (Pointer × List UInt8) :=
  match kind with
  | 0 => do
    let (t, rest) ← (index w).read bs
    pure (.terminal t, rest)
  | 1 => do
    let (after, rest) ← readNat 8 bs
    let (l, rest) ← (index w).read rest
    let (r, rest) ← (index w).read rest
    pure (.split after l r, rest)
  | _ => none

lemma local_pointer : Local (pointer w).read := by
  have hkind : ∀ kind, Local (readPointer w kind)
    | 0 => local_index.map Pointer.terminal
    | 1 => (local_readNat 8).bind fun after => local_index.bind fun l =>
        local_index.map (Pointer.split after l)
    | _ + 2 => local_none
  exact (local_readNat 4).bind hkind

lemma returns_pointer {ptr : Pointer} (h : ptr.Fits w) : (pointer w).Returns ptr := by
  cases h with
  | terminal ht =>
    exact returns_of_kind (readPointer w) (fun _ => rfl) rfl (k := 0) (by omega)
      ((returns_index ht).map Pointer.terminal)
  | @split after l r ha hl hr =>
    have hwrite : (pointer w).write (.split after l r) =
        writeNat 4 1 ++ (writeNat 8 after ++ ((index w).write l ++ (index w).write r)) := by
      simp only [pointer, List.append_assoc]
    refine returns_of_kind (readPointer w) (fun _ => rfl) hwrite (by omega) fun rest => ?_
    calc readPointer w 1
          ((writeNat 8 after ++ ((index w).write l ++ (index w).write r)) ++ rest)
        = readPointer w 1
            (writeNat 8 after ++ ((index w).write l ++ ((index w).write r ++ rest))) := by
          simp only [List.append_assoc]
      _ = ((index w).read ((index w).write l ++ ((index w).write r ++ rest)) >>= fun x =>
            (index w).read x.2 >>= fun y => some (.split after x.1 y.1, y.2)) :=
          (returns_size ha).bind (fun after rest => (index w).read rest >>= fun x =>
            (index w).read x.2 >>= fun y => some (Pointer.split after x.1 y.1, y.2)) _
      _ = ((index w).read ((index w).write r ++ rest) >>= fun y =>
            some (.split after l y.1, y.2)) :=
          (returns_index hl).bind (fun l rest =>
            (index w).read rest >>= fun y => some (Pointer.split after l y.1, y.2)) _
      _ = some (.split after l r, rest) := (returns_index hr).map (Pointer.split after l) rest

lemma local_forest : Local (forest w).read :=
  local_map (local_pair (local_nat 8) <| local_pair
    (local_list (local_table local_index (local_list local_pointer))) (local_list local_index)) _ _

end Format

namespace Forest

/-- The numbers and lists of a cell fit the bytes that they are stored in. -/
structure CellFits (w : Width) (cell : List (Nat × List Pointer)) : Prop where
  keys : (cell.map (·.1)).Nodup
  length_le : cell.length ≤ Size.max
  symbol_le : ∀ x ∈ cell, x.1 ≤ w.max
  count_le : ∀ x ∈ cell, x.2.length ≤ Size.max
  pointers : ∀ x ∈ cell, ∀ ptr ∈ x.2, ptr.Fits w

lemma CellFits.returns {w : Width} {cell : List (Nat × List Pointer)} (h : CellFits w cell) :
    (Format.table (Format.index w) (Format.pointer w).list).Returns cell :=
  Format.returns_table h.length_le h.keys (fun x hx => Format.returns_index (h.symbol_le x hx))
    fun x hx => Format.returns_list (h.count_le x hx) fun ptr hptr =>
      Format.returns_pointer (h.pointers x hx ptr hptr)

/-- The numbers and lists of a forest fit the bytes that they are stored in. -/
structure Fits (w : Width) (f : Forest) : Prop where
  len_le : f.len ≤ Size.max
  size_le : f.cells.size ≤ Size.max
  cells : ∀ cell ∈ f.cells, CellFits w cell
  roots_le : f.roots.length ≤ Size.max
  root_le : ∀ s ∈ f.roots, s ≤ w.max

lemma Fits.returns {w : Width} {f : Forest} (h : f.Fits w) : (Format.forest w).Returns f := by
  have hcells : (Format.table (Format.index w) (Format.pointer w).list).list.Returns
      f.cells.toList :=
    Format.returns_list (by rw [Array.length_toList]; exact h.size_le) fun cell hcell =>
      (h.cells cell (Array.mem_toList_iff.1 hcell)).returns
  have hroots : (Format.index w).list.Returns f.roots :=
    Format.returns_list h.roots_le fun s hs => Format.returns_index (h.root_le s hs)
  have hfields := Format.returns_pair (Format.returns_size h.len_le)
    (Format.returns_pair hcells hroots)
  unfold Format.forest
  refine Format.returns_map ?_ rfl
  exact hfields

/-! ### The forest of a parse -/

open Search (atSpan entries)

variable {α : Type} {c : NormalGrammar α} {input : List (Option Nat)} {row col p : Nat}
  {f : Forest}

/-- Every count of reasons is a size, as everything is that is kept in memory. -/
def Sized (f : Forest) : Prop := ∀ cell ∈ f.cells, ∀ x ∈ cell, x.2.length ≤ Size.max

lemma mem_reasonsIn_lt (hc : c.WellFormed) (h : Triangle.Contains input.length row col)
    {ptr : Pointer} (hptr : ptr ∈ reasonsIn c input row col p) :
    (∃ x < c.tags.size, ptr = .terminal x) ∨
      ∃ k l r, 1 ≤ k ∧ k ≤ row ∧ l < c.tags.size ∧ r < c.tags.size ∧ ptr = .split k l r := by
  obtain ⟨x, -, -, hr, rfl⟩ | ⟨k, l, r, h₁, h₂, -, -, hr, rfl⟩ := (mem_reasonsIn hc h).1 hptr
  · exact .inl ⟨x, hc.member_lt hr (by simp [NormalRule.members]), rfl⟩
  · exact .inr ⟨k, l, r, h₁, h₂, hc.member_lt hr (by simp [NormalRule.members]),
      hc.member_lt hr (by simp [NormalRule.members]), rfl⟩

/-- No reason is found twice, so there are no more of them than terminals, and pairs at each place
where the span can be split. -/
lemma length_reasonsIn_le (hc : c.WellFormed) (h : Triangle.Contains input.length row col) :
    (reasonsIn c input row col p).length ≤
      c.tags.size + row * (c.tags.size * c.tags.size) := by
  set n := c.tags.size with hn
  have hsub : (reasonsIn c input row col p).toFinset ⊆
      (Finset.range n).image Pointer.terminal ∪
        (Finset.Icc 1 row ×ˢ Finset.range n ×ˢ Finset.range n).image fun x =>
          Pointer.split x.1 x.2.1 x.2.2 := by
    intro ptr hptr
    obtain ⟨x, hx, rfl⟩ | ⟨k, l, r, h₁, h₂, hl, hr, rfl⟩ :=
      mem_reasonsIn_lt hc h (List.mem_toFinset.1 hptr)
    · exact Finset.mem_union_left _ (Finset.mem_image_of_mem _ (Finset.mem_range.2 hx))
    · refine Finset.mem_union_right _ (Finset.mem_image.2 ⟨(k, l, r), ?_, rfl⟩)
      simp only [Finset.mem_product, Finset.mem_Icc, Finset.mem_range]
      exact ⟨⟨h₁, h₂⟩, hl, hr⟩
  have hcard := (Finset.card_le_card hsub).trans (Finset.card_union_le _ _)
  have hterm : ((Finset.range n).image Pointer.terminal).card ≤ n := by
    simpa using Finset.card_image_le (s := Finset.range n) (f := Pointer.terminal)
  have hsplit : ((Finset.Icc 1 row ×ˢ Finset.range n ×ˢ Finset.range n).image fun x =>
      Pointer.split x.1 x.2.1 x.2.2).card ≤ row * (n * n) := by
    simpa using Finset.card_image_le (s := Finset.Icc 1 row ×ˢ Finset.range n ×ˢ Finset.range n)
      (f := fun x => Pointer.split x.1 x.2.1 x.2.2)
  rw [List.toFinset_card_of_nodup (nodup_reasonsIn h)] at hcard
  omega

/-- With few symbols, the counts of reasons are sizes: a word with a chart is shorter than
`2 ^ 32`. -/
lemma length_reasonsIn_le_size (hc : c.WellFormed) (hsmall : c.tags.size ≤ 0xFFFF)
    (hmax : input.length * input.length ≤ Size.max)
    (h : Triangle.Contains input.length row col) :
    (reasonsIn c input row col p).length ≤ Size.max := by
  have hrow : row ≤ 0xFFFFFFFF :=
    Nat.le_of_lt_succ (h.1.trans (Triangle.length_lt_of_mul_self_le hmax))
  have hpairs := Nat.mul_le_mul hrow (Nat.mul_le_mul hsmall hsmall)
  have hcount := length_reasonsIn_le (p := p) hc h
  unfold Size.max
  omega

lemma cellFits_cellOf (hc : c.WellFormed) (hb : c.width.bits ≤ 64)
    (hmax : input.length * input.length ≤ Size.max) (h : Triangle.Contains input.length row col)
    (hcount : ∀ x ∈ cellOf (atSpan (entries c input) row col), x.2.length ≤ Size.max) :
    CellFits c.width (cellOf (atSpan (entries c input) row col)) := by
  have hsymbols : c.tags.size ≤ c.width.max := hc.size_le
  obtain ⟨hkeys, hmem⟩ := keys_cellOf (atSpan (entries c input) row col)
  have hlt : ∀ p ∈ (cellOf (atSpan (entries c input) row col)).map (·.1), p < c.tags.size := by
    intro p hp
    obtain ⟨e, he, rfl⟩ := (hmem p).1 hp
    exact Search.symbol_lt hc (Search.mem_atSpan.1 he).1
  have hsize : ∀ x ∈ cellOf (atSpan (entries c input) row col), x.1 ≤ c.width.max := fun x hx =>
    (hlt x.1 (List.mem_map_of_mem hx)).le.trans hsymbols
  have hlength : (cellOf (atSpan (entries c input) row col)).length ≤ c.tags.size := by
    have hperm := hkeys.subperm fun p hp => List.mem_range.2 (hlt p hp)
    simpa using hperm.length_le
  refine ⟨hkeys, ?_, hsize, hcount, fun x hx ptr hptr => ?_⟩
  · exact hlength.trans (hsymbols.trans (Grammar.max_le_size hb))
  · have hrow : row ≤ Size.max := by
      have hlen := Nat.le_mul_of_pos_left input.length (Nat.zero_lt_of_lt h.1)
      have hlt := h.1
      omega
    rw [pointers_of_mem_cellOf hx] at hptr
    obtain ⟨x, hx, rfl⟩ | ⟨k, l, r, -, hk, hl, hr, rfl⟩ := mem_reasonsIn_lt hc h hptr
    · exact .terminal (hx.le.trans hsymbols)
    · exact .split (hk.trans hrow) (hl.le.trans hsymbols) (hr.le.trans hsymbols)

/-- **The forest of a parse fits its bytes.** Only the counts of reasons are not bounded by the
number of symbols and the length of the word, and they are at the two smallest widths. -/
lemma Holds.fits (hf : Holds c input f) (hc : c.WellFormed) (hb : c.width.bits ≤ 64)
    (hs : 16 < c.width.bits → f.Sized) : f.Fits c.width := by
  have hlen : f.len ≤ f.len * f.len := Nat.le_mul_self f.len
  have hmax : f.len * f.len ≤ Size.max := hf.len ▸ hf.len_le
  by_cases ha : Accepted c input
  · have hgroups := hf.groups ha
    have hroots := hf.roots ha
    refine ⟨hlen.trans hmax, ?_, fun cell hcell => ?_, ?_, fun s hs => ?_⟩
    · rw [hgroups.size, Triangle.length_cells, ← hf.len, Nat.mul_succ]
      omega
    · obtain ⟨row, col, h, rfl⟩ := hgroups.exists_span hcell
      refine cellFits_cellOf hc hb hf.len_le h fun x hx => ?_
      by_cases hw : 16 < c.width.bits
      · exact hs hw _ hcell x hx
      · rw [pointers_of_mem_cellOf hx]
        have hsmall := hc.size_le.trans (Width.max_le_of_bits (Nat.le_of_not_lt hw))
        exact length_reasonsIn_le_size hc hsmall hf.len_le h
    · rw [hroots]
      exact Nat.one_le_iff_ne_zero.2 nofun
    · rw [hroots] at hs
      rw [List.mem_singleton.1 hs]
      exact hc.start_lt.le.trans hc.size_le
  · have hcells := hf.bare ha
    have hroots := hf.rejected ha
    refine ⟨hlen.trans hmax, ?_, fun cell hcell => ?_, ?_, fun s hs => ?_⟩
    · rw [hcells]
      exact Nat.zero_le _
    · rw [hcells] at hcell
      exact absurd hcell (Array.not_mem_empty cell)
    · rw [hroots]
      exact Nat.zero_le _
    · rw [hroots] at hs
      exact absurd hs List.not_mem_nil

end Forest

namespace Format

variable {α : Type} [DecidableEq α] {g g' : Grammar α} {c : NormalGrammar α} {f : Forest}
  {limit : Option Nat} {input : List (Option Nat)}

/-- **The stored forms of forests and trees keep everything.** What was written of the forest of a
parse is read back whole, whatever follows it: the length of the word, the cells with their symbols
and reasons in order, and the roots. So its trees, their number and the reasons are the same. The
same holds of every list of trees, of any shape. If something is cut off at the end, nothing is
read. -/
theorem read_write_parse (hg : g.Reachable) (hn : g.normalize.result = .ok (g', c))
    (hf : (Parser.parseInput ⟨c, limit⟩ input).result = .ok f)
    (hs : 16 < g.width.bits → f.Sized) :
    ((∀ rest, (forest g.width).read ((forest g.width).write f ++ rest) = some (f, rest)) ∧
      ∀ bs, bs <+: (forest g.width).write f → bs ≠ (forest g.width).write f →
        (forest g.width).read bs = none) ∧
    ∀ (w : Width) (ts : List Tree), ts.length ≤ Size.max → (∀ t ∈ ts, t.Fits w) →
      (∀ rest, (trees w).read ((trees w).write ts ++ rest) = some (ts, rest)) ∧
      ∀ bs, bs <+: (trees w).write ts → bs ≠ (trees w).write ts → (trees w).read bs = none := by
  obtain ⟨hw', hc, -⟩ := Grammar.normalize_mirrors hg hn
  have hch := Grammar.normalize_changes hn
  obtain ⟨-, hsnap⟩ := Grammar.normalize_eq_ok.1 hn
  have hwidth : c.width = g.width := (Grammar.width_of_snapshot hsnap).trans hch.width
  have hbits : c.width.bits ≤ 64 := by
    rw [hwidth, ← hch.width]
    exact hw'.bits_le
  have hfits := (Parser.holds_of_parseInput hc hf).fits hc hbits (hwidth ▸ hs)
  have hforest : (forest g.width).Returns f := hwidth ▸ hfits.returns
  refine ⟨⟨hforest, fun bs hpre hne => read_eq_none local_forest hforest hpre hne⟩,
    fun w ts hlen hts => ?_⟩
  have htrees : (trees w).Returns ts := returns_trees hlen hts
  exact ⟨htrees, fun bs hpre hne => read_eq_none local_trees htrees hpre hne⟩

/-- Trees that no parse gives: a node without children, and leaves beside nodes. -/
def oddTrees : List Tree :=
  [.node 3 [], .node 255 [.leaf 1 0, .node 0 [.node 2 [.leaf 9 7, .leaf 9 7, .node 2 []]]]]

lemma oddTrees_fit : ∀ t ∈ oddTrees, t.Fits .w8 := by
  have hmax : Width.w8.max = 255 := rfl
  simp [oddTrees, Tree.fits_leaf, Tree.fits_node, hmax, Size.max]

theorem read_write_parse_alternating : Grammar.alternating.Reachable ∧
    Grammar.alternating.normalize.result =
      .ok (Grammar.alternatingResult, Grammar.alternatingSnapshot) ∧
    (∃ f, (Parser.parseInput ⟨Grammar.alternatingSnapshot, none⟩ Parser.alternatingWord).result =
        .ok f ∧
      (16 < Grammar.alternating.width.bits → f.Sized) ∧
      (forest .w8).read ((forest .w8).write f ++ [7, 0]) = some (f, [7, 0])) ∧
    oddTrees.length ≤ Size.max ∧ (∀ t ∈ oddTrees, t.Fits .w8) ∧
    (trees .w8).read ((trees .w8).write oddTrees ++ [7, 0]) = some (oddTrees, [7, 0]) := by
  have hc : Grammar.alternatingSnapshot.WellFormed :=
    (Grammar.normalize_mirrors Grammar.alternating_reachable Grammar.alternating_normalize).2.1
  obtain ⟨f, hf⟩ : ∃ f, (Parser.parseInput ⟨Grammar.alternatingSnapshot, none⟩
      Parser.alternatingWord).result = .ok f := (Parser.parseInput_eq_ok hc).2 (by decide)
  have hsized : 16 < Grammar.alternating.width.bits → f.Sized := fun h => absurd h (by decide)
  have hlen : oddTrees.length ≤ Size.max := by decide
  obtain ⟨⟨hforest, -⟩, htrees⟩ := read_write_parse Grammar.alternating_reachable
    Grammar.alternating_normalize hf hsized
  obtain ⟨hread, -⟩ := htrees .w8 oddTrees hlen oddTrees_fit
  exact ⟨Grammar.alternating_reachable, Grammar.alternating_normalize,
    ⟨f, hf, hsized, hforest [7, 0]⟩, hlen, oddTrees_fit, hread [7, 0]⟩

end Format

end Chomsky
