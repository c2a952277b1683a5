import Chomsky.Proofs.Widening.Desk

/-!
Sessions at two index widths. As long as the narrower session does not say that there are too many
symbols, the wider one gives the same replies.
-/

namespace Chomsky

/-! ### Copies -/

namespace OrderedMap

variable {κ υ τ : Type} [DecidableEq κ] {m : List (κ × υ)} {k : κ} {v : υ}

lemma alter_map (f : υ → τ) : alter k (fun _ => f v) (m.map (Prod.map id f)) =
    (alter k (fun _ => v) m).map (Prod.map id f) := by
  induction m with
  | nil => rfl
  | cons p m ih =>
    rw [List.map_cons, alter, alter, ih]
    split
    · next h => rw [if_pos (by simpa using h)]; rfl
    · next h => rw [if_neg (by simpa using h)]; rfl

lemma get?_map (f : υ → τ) : get? (m.map (Prod.map id f)) k = (get? m k).map f := by
  rw [get?, get?, List.find?_map, Option.map_map, Option.map_map]
  rfl

lemma mem_alter {p : κ × υ} (h : p ∈ alter k (fun _ => v) m) : p.2 = v ∨ p ∈ m := by
  induction m with
  | nil =>
    obtain rfl := List.mem_singleton.1 h
    exact .inl rfl
  | cons q m ih =>
    unfold alter at h
    split at h
    · rcases List.mem_cons.1 h with rfl | h
      · exact .inl rfl
      · exact .inr (List.mem_cons_of_mem q h)
    · rcases List.mem_cons.1 h with rfl | h
      · exact .inr List.mem_cons_self
      · exact (ih h).imp_right (List.mem_cons_of_mem q)

lemma mem_of_get? (h : get? m k = some v) : ∃ p ∈ m, p.2 = v := by
  obtain ⟨p, hp, hv⟩ := Option.map_eq_some_iff.1 h
  exact ⟨p, List.mem_of_find?_eq_some hp, hv⟩

end OrderedMap

/-! ### Sessions -/

variable {α : Type}

/-- No conversion to an index drops a digit at this desk: in no grammar that changes make of the one
on it, so at no point of a normalisation either, and not in the normal form. -/
structure Desk.Exact [DecidableEq α] (d : Desk α) : Prop where
  grammar : ∀ g, d.grammar.Changes g → g.Exact
  normal : ∀ c, d.normal = some c → c.Exact

lemma Desk.Fits.exact [DecidableEq α] {d : Desk α} {w : Width} (hd : d.Fits w) : d.Exact where
  grammar _ hc := Grammar.exact_of_le (hd.grammar.changes hc).length_le
  normal c hc := (hd.normal c hc).1.exact

namespace Session

variable {s s' : Session α} {w w' : Width}

/-- What a session works on, and the copies of what it has worked on. -/
def desks (s : Session α) : List (Desk α) := s.desk :: s.copies.map (·.2)

def widen (w : Width) (s : Session α) : Session α :=
  { desk := s.desk.widen w, copies := s.copies.map (Prod.map id (Desk.widen w)) }

def Fits (w : Width) (s : Session α) : Prop := ∀ d ∈ s.desks, d.Fits w

def Exact [DecidableEq α] (s : Session α) : Prop := ∀ d ∈ s.desks, d.Exact

lemma fits_iff : s.Fits w ↔ s.desk.Fits w ∧ ∀ p ∈ s.copies, p.2.Fits w := by
  rw [Fits, desks, List.forall_mem_cons, List.forall_mem_map]

variable [DecidableEq α] [Label α] [Stored α] {c : Command α} {cs : List (Command α)}

/-- Only two commands are about copies. -/
lemma step_cases (c : Command α) : (∃ name, c = .save name) ∨ (∃ name, c = .restore name) ∨
    ∀ s : Session α, s.step c = (s.desk.step c).map fun desk => { s with desk := desk } := by
  cases c with
  | save name => exact .inl ⟨name, rfl⟩
  | restore name => exact .inr (.inl ⟨name, rfl⟩)
  | _ => exact .inr (.inr fun _ => rfl)

lemma Fits.step (hs : s.Fits w) (hc : c.Portable w) (h : (s.step c).next = some s') :
    s'.Fits w := by
  obtain ⟨hdesk, hcopies⟩ := fits_iff.1 hs
  obtain ⟨name, rfl⟩ | ⟨name, rfl⟩ | hstep := step_cases c
  · obtain rfl := Option.some.inj h
    refine fits_iff.2 ⟨hdesk, fun p hp => ?_⟩
    obtain hp | hp := OrderedMap.mem_alter hp
    · rwa [hp]
    · exact hcopies p hp
  · simp only [Session.step] at h
    split at h
    · next d hd =>
      obtain rfl := Option.some.inj h
      obtain ⟨p, hp, rfl⟩ := OrderedMap.mem_of_get? hd
      exact fits_iff.2 ⟨hcopies p hp, hcopies⟩
    · obtain rfl := Option.some.inj h
      exact hs
  · rw [hstep] at h
    obtain ⟨d, hd, rfl⟩ := Option.map_eq_some_iff.1 h
    exact fits_iff.2 ⟨hdesk.advance (Desk.step_advance hc hd), hcopies⟩

/-- **A wider session does the same.** -/
theorem step_widen (hs : s.Fits w) (hw : w.max ≤ w'.max) (hc : c.Portable w)
    (hroom : (s.step c).reply.runsOut = false) :
    (s.widen w').step c = (s.step c).map (widen w') := by
  obtain ⟨name, rfl⟩ | ⟨name, rfl⟩ | hstep := step_cases c
  · simp only [step, Step.map, Option.map_some, widen, OrderedMap.alter_map]
  · have hcopies : (s.widen w').copies = s.copies.map (Prod.map id (Desk.widen w')) := rfl
    rw [step, step, hcopies, OrderedMap.get?_map]
    cases OrderedMap.get? s.copies name with
    | none => rfl
    | some d => rfl
  · rw [hstep] at hroom
    have hdesk := Desk.step_widen (fits_iff.1 hs).1 hw hc hroom
    have hwide : (s.widen w').desk = s.desk.widen w' := rfl
    rw [hstep, hstep, hwide, hdesk, Step.map, Step.map, Step.map, Step.map, Option.map_map,
      Option.map_map]
    rfl

/-- The session after some commands, if they do not end it. -/
def after (s : Session α) (cs : List (Command α)) : Option (Session α) :=
  cs.foldlM (fun s c => (s.step c).next) s

lemma Fits.after (hs : s.Fits w) (hcs : ∀ c ∈ cs, c.Portable w) (h : s.after cs = some s') :
    s'.Fits w := by
  induction cs generalizing s with
  | nil =>
    obtain rfl := Option.some.inj h
    exact hs
  | cons c cs ih =>
    obtain ⟨t, ht, h⟩ := Option.bind_eq_some_iff.1 h
    exact ih (hs.step (hcs c List.mem_cons_self) ht)
      (fun c' hc' => hcs c' (List.mem_cons_of_mem c hc')) h

lemma run_cons (s : Session α) (c : Command α) (cs : List (Command α)) :
    s.run (c :: cs) = (s.step c).reply :: ((s.step c).next.map (·.run cs)).getD [] := by
  rw [run]
  cases (s.step c).next with
  | none => rfl
  | some t => rfl

lemma run_widen (hs : s.Fits w) (hw : w.max ≤ w'.max) (hcs : ∀ c ∈ cs, c.Portable w)
    (hroom : ∀ r ∈ s.run cs, r.runsOut = false) : (s.widen w').run cs = s.run cs := by
  induction cs generalizing s with
  | nil => rfl
  | cons c cs ih =>
    have hc := hcs c List.mem_cons_self
    rw [run_cons] at hroom
    have hstep := step_widen hs hw hc (hroom _ List.mem_cons_self)
    rw [run_cons, run_cons, hstep, Step.map]
    cases hnext : (s.step c).next with
    | none => rfl
    | some t =>
      rw [hnext] at hroom
      have hrest := ih (hs.step hc hnext) (fun c' hc' => hcs c' (List.mem_cons_of_mem c hc'))
        fun r hr => hroom r (List.mem_cons_of_mem _ hr)
      exact congrArg (_ :: ·) hrest

/-- The session at its beginning. -/
def blank (w : Width) (a : α) : Session α :=
  { desk := { grammar := ⟨w, [{ id := .user a, isTerminal := false }], 0, 0, 0⟩ } }

omit [Label α] [Stored α] in
lemma create_eq {a : α} (hb : w.bits ≤ 64) : create w a = .ok (blank w a) := by
  rw [create, Grammar.create_eq_ok.2 ⟨hb, rfl⟩]
  rfl

omit [Label α] [Stored α] in
lemma fits_blank {a : α} (hb : w.bits ≤ 64) : (blank w a).Fits w :=
  have hg := Grammar.create_wellFormed (Grammar.create_eq_ok.2 ⟨hb, rfl⟩)
  fits_iff.2 ⟨⟨hg, rfl, nofun⟩, nofun⟩

/-- **A width that is not used up does not matter.** Of two widths, the greater one gives the same
replies with the same records to all commands, as long as the smaller one does not say that there
are too many symbols; and no number that is made an index on the way has a digit too many. -/
theorem run_eq_of_wider {w₁ w₂ : Width} (hw : w₁.bits < w₂.bits) (hb : w₂.bits ≤ 64) (a : α) :
    ∃ s₁ s₂ : Session α, create w₁ a = .ok s₁ ∧ create w₂ a = .ok s₂ ∧
      ∀ cs : List (Command α), (∀ c ∈ cs, c.Portable w₁) →
        (∀ r ∈ s₁.run cs, r.runsOut = false) → s₂.run cs = s₁.run cs ∧
          ∀ cs' s, cs' <+: cs → s₁.after cs' = some s → s.Exact := by
  have hb₁ : w₁.bits ≤ 64 := by omega
  have hfits := fits_blank (a := a) hb₁
  have hmax : w₁.max ≤ w₂.max :=
    Nat.sub_le_sub_right (Nat.pow_le_pow_right Nat.two_pos (Nat.le_of_lt hw)) 1
  refine ⟨blank w₁ a, (blank w₁ a).widen w₂, create_eq hb₁, create_eq hb,
    fun cs hcs hroom => ⟨?_, fun cs' s hpre hs => ?_⟩⟩
  · exact run_widen hfits hmax hcs hroom
  · have hfits' := hfits.after (fun c hc => hcs c (hpre.subset hc)) hs
    exact fun d hd => (hfits' d hd).exact

/-- Commands of all kinds, two of which are refused. -/
def alternatingCommands : List (Command String) :=
  [.declare "a" true, .addRule "S" ["S", "a", "S"], .addRule "S" ["a"], .declare "a" false,
    .addRuleToStart [], .save "before", .normalize, .grammar .size, .grammar .indices,
    .grammar (.index "a"), .normal .indices, .normal (.sharedParents 3 0),
    .recognize (.names ["a", "a", "a"]), .parse (.indices [1, 1, 1]), .forest (.trees .whole),
    .chart [.name "a", .index 1, .unknown] .whole, .restore "before",
    .build ["B"] ["b"] [("B", ["b"]), ("S", ["B"])], .wrap 255]

/-- The session with 8 bits ends with 4 symbols on the desk, and 32 bits change nothing. -/
theorem run_eq_of_wider_alternating : Width.w8.bits < Width.w32.bits ∧ Width.w32.bits ≤ 64 ∧
    ∃ s₁ s₂ : Session String, create .w8 "S" = .ok s₁ ∧ create .w32 "S" = .ok s₂ ∧
      (∀ c ∈ alternatingCommands, c.Portable .w8) ∧
      (∀ r ∈ s₁.run alternatingCommands, r.runsOut = false) ∧
      s₂.run alternatingCommands = s₁.run alternatingCommands ∧
      ∃ s, s₁.after alternatingCommands = some s ∧ s.desk.grammar.symbols.length = 4 ∧ s.Exact := by
  have hlt : Width.w8.bits < Width.w32.bits := by decide
  have hle : Width.w32.bits ≤ 64 := by decide
  have hcs : ∀ c ∈ alternatingCommands, c.Portable .w8 := by
    simp only [alternatingCommands, List.forall_mem_cons, Command.Portable, true_and]
    exact ⟨by decide, nofun⟩
  have hroom : ∀ r ∈ (blank .w8 "S").run alternatingCommands, r.runsOut = false := by
    decide +kernel
  obtain ⟨s, hs, hlen⟩ : ∃ s, (blank .w8 "S").after alternatingCommands = some s ∧
      s.desk.grammar.symbols.length = 4 := ⟨_, rfl, rfl⟩
  obtain ⟨s₁, s₂, h₁, h₂, h⟩ := run_eq_of_wider hlt hle "S"
  obtain rfl : blank .w8 "S" = s₁ := Except.ok.inj h₁
  obtain ⟨hrun, hexact⟩ := h alternatingCommands hcs hroom
  exact ⟨hlt, hle, _, s₂, h₁, h₂, hcs, hroom, hrun, s, hs, hlen,
    hexact alternatingCommands s List.prefix_rfl hs⟩

end Session

end Chomsky
