/-
# Where values are known

A value is known at a place if every path to the place has defined it. While a
graph is built, new edges go to blocks that are not begun, or back to a block
that every path has passed before; so a path to a block that is begun has one
among its blocks that was there before, and what is known at a place stays known
(`Builder.Shortcut`, `Builder.Knows.later`). All that a builder makes use of is
known where it is used (`Builder.Informed`).

`Builder.Leads` compares a builder with an earlier one. Paths come to newer
blocks only through the block that was being written then, so what was known
there is known where the builder writes now (`Builder.Leads.knows`).

Key definitions: `Builder.Knows`, `Builder.Numbered`, `Builder.Informed`,
`Builder.Sound`, `Builder.Leads`.
Key theorems: `Builder.shortcut_of_writes`, `Builder.Sound.of_writes`,
`Builder.Leads.of_writes`, `Builder.Leads.knows`.
-/
import Mathlib
import Chordal.Proofs.Ssa.Wiring

namespace Chordal.Ssa

theorem Widened.definedIds_eq : ∀ {c d : List Instr}, Widened c d → definedIds d = definedIds c
  | _, _, .nil => rfl
  | _, _, .cons h hs => by
    have ih := definedIds_eq hs
    unfold definedIds at ih ⊢
    cases h with
    | same i => rw [List.filterMap_cons, List.filterMap_cons, ih]
    | phi t es more => rw [List.filterMap_cons, List.filterMap_cons, ih]; rfl

/-- What code defines, it defines later. -/
theorem CodeGrows.definedIds_subset {fixed : Prop} {c c' : List Instr} (h : CodeGrows fixed c c') :
    definedIds c ⊆ definedIds c' := by
  obtain ⟨d, tail, rfl, hd, -, -⟩ := h
  rw [definedIds_append, hd.definedIds_eq]
  exact List.subset_append_left _ _

namespace Builder

/-! ### Values that are known -/

/-- Every path to the block, and through the part `done` of it, has defined the
value. -/
def Knows (s : Builder) (b : BlockId) (done : List Instr) (id : Nat) : Prop :=
  ∀ l, s.func.Path b l → s.func.Known l done id

/-- Every path to a block that was begun has, among its blocks, a path that was
there before. -/
def Shortcut (s s' : Builder) : Prop :=
  ∀ b l, s.Begun b → s'.func.Path b l → ∃ l', l' ⊆ l ∧ s.func.Path b l'

theorem Shortcut.refl (s : Builder) : Shortcut s s := fun _ l _ hl => ⟨l, List.Subset.refl l, hl⟩

theorem Shortcut.trans {s s' s'' : Builder} (h : Shortcut s s') (h' : Shortcut s' s'')
    (hbegun : ∀ b, s.Begun b → s'.Begun b) : Shortcut s s'' := by
  intro b l hb hl
  obtain ⟨l₁, hsub₁, hl₁⟩ := h' b l (hbegun b hb) hl
  obtain ⟨l₂, hsub₂, hl₂⟩ := h b l₁ hb hl₁
  exact ⟨l₂, List.Subset.trans hsub₂ hsub₁, hl₂⟩

theorem Shortcut.of_targets {s s' : Builder} (hhead : s'.func.head = s.func.head)
    (h : ∀ c, s'.func.targets c = s.func.targets c) : Shortcut s s' := by
  intro b l _ hl
  refine ⟨l, List.Subset.refl l, hl.mono ?_ fun a b hb => by rwa [← h]⟩
  exact congrArg (fun head => head.2.2.2) hhead.symm

/-- What is known at a place stays known. -/
theorem Knows.later {s s' : Builder} {b : BlockId} {done done' : List Instr} {id : Nat}
    (h : s.Knows b done id) (hg : Grows s s') (hp : Shortcut s s') (hb : s.Begun b)
    (hdone : definedIds done ⊆ definedIds done') : s'.Knows b done' id := by
  intro l hl
  obtain ⟨l', hsub, hl'⟩ := hp b l hb hl
  rcases h l' hl' with hid | ⟨a, ha, hid⟩
  · exact Or.inl (hdone hid)
  · exact Or.inr ⟨a, hsub ha, (hg.code a).definedIds_subset hid⟩

theorem Knows.at_end {s s' : Builder} {b : BlockId} {id : Nat} (h : s.Knows b (s.code b) id)
    (hg : Grows s s') (hp : Shortcut s s') (hb : s.Begun b) : s'.Knows b (s'.code b) id :=
  h.later hg hp hb (hg.code b).definedIds_subset

/-- New edges go to blocks that are not begun, or to blocks that every path to
their source has passed. -/
theorem shortcut_of_writes {s s' : Builder} {a : BlockId} {tail : List Instr} {out : List BlockId}
    (hw : s.Wired) (h : Writes a tail out s s')
    (hback : ∀ b ∈ out, s.Begun b → ∀ l, s.func.Path a l → b ∈ a :: l) : Shortcut s s' := by
  intro b l hb hl
  induction hl with
  | start =>
    rw [h.start]
    exact ⟨[], List.Subset.refl [], .start⟩
  | @step c b l hl hc ih =>
    have hbegun : s.Begun c := by
      rcases h.mem_targets.mp hc with hc | ⟨rfl, hc⟩
      · exact hw.begun_of_targets hc
      · exact h.begun_of_out hc
    obtain ⟨l', hsub, hl'⟩ := ih hbegun
    rcases h.mem_targets.mp hc with hc | ⟨rfl, hc⟩
    · exact ⟨c :: l', List.cons_subset_cons c hsub, .step hl' hc⟩
    · -- the path goes back to where it has been
      rcases List.mem_cons.mp (hback b hc hb l' hl') with rfl | hmem
      · exact ⟨l', List.subset_cons_of_subset _ hsub, hl'⟩
      · obtain ⟨l'', hl'', hsuffix⟩ := hl'.prior hmem
        refine ⟨l'', fun x hx => ?_, hl''⟩
        exact List.mem_cons_of_mem _ (hsub (hsuffix.subset (List.mem_cons_of_mem _ hx)))

/-! ### Values with one definition -/

/-- Every value is defined once. -/
structure Numbered (s : Builder) : Prop where
  nodup : ∀ b, (definedIds (s.code b)).Nodup
  only : ∀ b c id, id ∈ definedIds (s.code b) → id ∈ definedIds (s.code c) → b = c
  mem : ∀ id, id < s.count ↔ ∃ b, id ∈ definedIds (s.code b)

theorem Numbered.congr {s s' : Builder} (hn : s.Numbered) (hcount : s'.count = s.count)
    (hcode : ∀ c, definedIds (s'.code c) = definedIds (s.code c)) : s'.Numbered where
  nodup b := by
    rw [hcode]
    exact hn.nodup b
  only b c id hb hc := by
    rw [hcode] at hb hc
    exact hn.only b c id hb hc
  mem id := by
    rw [hcount, hn.mem]
    simp only [hcode]

/-- A step defines the next values. -/
theorem Numbered.of_writes {s s' : Builder} {a : BlockId} {tail : List Instr} {out : List BlockId} {k : Nat}
    (hn : s.Numbered) (h : Writes a tail out s s') (hids : definedIds tail = List.range' s.count k)
    (hcount : s'.count = s.count + k) : s'.Numbered := by
  have hcode : ∀ b, definedIds (s'.code b) =
      definedIds (s.code b) ++ if b = a then List.range' s.count k else [] := by
    intro b
    rw [h.code]
    split_ifs with hb
    · rw [definedIds_append, hids, hb]
    · rw [List.append_nil]
  have hold : ∀ {b id}, id ∈ definedIds (s.code b) → id < s.count := fun hid => (hn.mem _).mpr ⟨_, hid⟩
  have hnew : ∀ {b id}, id ∈ definedIds (s'.code b) →
      id ∈ definedIds (s.code b) ∨ b = a ∧ s.count ≤ id ∧ id < s.count + k := by
    intro b id hid
    rw [hcode, List.mem_append] at hid
    rcases hid with hid | hid
    · exact Or.inl hid
    · split_ifs at hid with hb
      · exact Or.inr ⟨hb, List.mem_range'_1.mp hid⟩
      · cases hid
  refine ⟨fun b => ?_, fun b c id hb hc => ?_, fun id => ?_⟩
  · rw [hcode]
    split_ifs
    · rw [List.nodup_append]
      refine ⟨hn.nodup b, List.nodup_range', fun x hx y hy => ?_⟩
      rw [List.mem_range'_1] at hy
      have := hold hx
      omega
    · rw [List.append_nil]
      exact hn.nodup b
  · rcases hnew hb with hb | ⟨rfl, hb, -⟩ <;> rcases hnew hc with hc | ⟨rfl, hc, -⟩
    · exact hn.only b c id hb hc
    · exact absurd (hold hb) (Nat.not_lt.mpr hc)
    · exact absurd (hold hc) (Nat.not_lt.mpr hb)
    · rfl
  · rw [hcount]
    constructor
    · intro hid
      rcases Nat.lt_or_ge id s.count with hlt | hge
      · obtain ⟨b, hb⟩ := (hn.mem id).mp hlt
        exact ⟨b, by rw [hcode]; exact List.mem_append_left _ hb⟩
      · refine ⟨a, ?_⟩
        rw [hcode, if_pos rfl]
        exact List.mem_append_right _ (List.mem_range'_1.mpr ⟨hge, hid⟩)
    · rintro ⟨b, hb⟩
      rcases hnew hb with hb | ⟨-, -, hb⟩
      · exact (hold hb).trans_le (Nat.le_add_right _ _)
      · exact hb

/-! ### Uses of what is known -/

/-- Whatever a builder holds, carries or has used is known there. What a phi reads
is known at the end of the block that it is read from. -/
structure Informed (s : Builder) : Prop where
  bound : ∀ b, s.current = some b → ∀ j v, s.bindings.get? j = some v → s.Knows b (s.code b) v.id
  carried : ∀ e ∈ s.pending, ∀ j v, e.bindings.get? j = some v → s.Knows e.source (s.code e.source) v.id
  use : ∀ b done i rest, s.code b = done ++ i :: rest → i.isPhi = false → ∀ v ∈ i.operands,
    s.Knows b done v.id
  phi : ∀ b t es, .phi t es ∈ s.code b → ∀ e ∈ es, s.Begun e.2 ∧ s.Knows e.2 (s.code e.2) e.1.id

theorem Informed.of_writes {s s' : Builder} {a : BlockId} {tail : List Instr} {out : List BlockId}
    (hi : s.Informed) (hgood : s.Good) (hw : s.Wired) (h : Writes a tail out s s') (hg : Grows s s')
    (hp : Shortcut s s')
    (huse : ∀ i ∈ tail, i.isPhi = false → s.current = some a ∧ ∀ v ∈ i.operands, s.Knows a (s.code a) v.id)
    (hphi : ∀ t es, .phi t es ∈ tail → ∀ e ∈ es, s.Begun e.2 ∧ s.Knows e.2 (s.code e.2) e.1.id)
    (hbound : ∀ b, s'.current = some b → ∀ j v, s'.bindings.get? j = some v → s'.Knows b (s'.code b) v.id)
    (hcarried : ∀ e ∈ s'.pending, e ∈ s.pending ∨ s.current = some e.source ∧ e.bindings = s.bindings) :
    s'.Informed where
  bound := hbound
  carried e he j v hv := by
    rcases hcarried e he with he | ⟨hcur, heq⟩
    · exact (hi.carried e he j v hv).at_end hg hp (Or.inr (hgood.sources e he))
    · exact (hi.bound _ hcur j v (heq ▸ hv)).at_end hg hp (Or.inl hcur)
  use b done i rest hcode hphi' v hv := by
    -- the instruction was there, or it is in the new code
    have hcases : (∃ rest', s.code b = done ++ i :: rest') ∨
        b = a ∧ i ∈ tail ∧ s.code a <+: done := by
      rw [h.code] at hcode
      split_ifs at hcode with hb
      · subst hb
        rcases List.append_eq_append_iff.mp hcode with ⟨mid, rfl, htail⟩ | ⟨mid, hmid, htail⟩
        · exact Or.inr ⟨rfl, by rw [htail]; simp, List.prefix_append _ _⟩
        · cases mid with
          | nil =>
            rw [List.append_nil] at hmid
            exact Or.inr ⟨rfl, by rw [List.nil_append] at htail; rw [← htail]; exact List.mem_cons_self,
              hmid ▸ List.prefix_rfl⟩
          | cons j mid =>
            rw [List.cons_append] at htail
            obtain ⟨rfl, -⟩ := List.cons.inj htail
            exact Or.inl ⟨mid, hmid⟩
      · exact Or.inl ⟨rest, hcode⟩
    rcases hcases with ⟨rest', hold⟩ | ⟨rfl, htail, hpre⟩
    · have hb : s.Begun b := by
        by_contra hnot
        rw [hw.idle b hnot] at hold
        simp at hold
      exact (hi.use b done i rest' hold hphi' v hv).later hg hp hb fun _ h => h
    · obtain ⟨hcur, hknown⟩ := huse i htail hphi'
      obtain ⟨more, rfl⟩ := hpre
      refine (hknown v hv).later hg hp (Or.inl hcur) ?_
      rw [definedIds_append]
      exact List.subset_append_left _ _
  phi b t es hmem e he := by
    have hcases : .phi t es ∈ s.code b ∨ .phi t es ∈ tail := by
      rw [h.code] at hmem
      split_ifs at hmem with hb
      · rw [hb]
        exact List.mem_append.mp hmem
      · exact Or.inl hmem
    obtain ⟨hbegun, hknown⟩ : s.Begun e.2 ∧ s.Knows e.2 (s.code e.2) e.1.id := by
      rcases hcases with hmem | hmem
      · exact hi.phi b t es hmem e he
      · exact hphi t es hmem e he
    exact ⟨hg.begun _ hbegun, hknown.at_end hg hp hbegun⟩

/-! ### Phis at the heads of blocks -/

/-- Phis stand at the heads of blocks, with one entry for each edge. -/
structure Headed (s : Builder) : Prop where
  entries : ∀ b t es, .phi t es ∈ s.code b → es.map Prod.snd = s.func.preds b
  phis_first : ∀ b, ∀ i ∈ (s.code b).dropWhile Instr.isPhi, i.isPhi = false

theorem mem_dropWhile_append {c tail : List Instr} (hc : ∀ i ∈ c.dropWhile Instr.isPhi, i.isPhi = false)
    (htail : ∀ i ∈ tail, i.isPhi = false) : ∀ i ∈ (c ++ tail).dropWhile Instr.isPhi, i.isPhi = false := by
  intro i hi
  rw [List.dropWhile_append] at hi
  split_ifs at hi with hnil
  · exact htail i ((List.dropWhile_sublist _).subset hi)
  · rcases List.mem_append.mp hi with hi | hi
    · exact hc i hi
    · exact htail i hi

theorem Headed.of_writes {s s' : Builder} {a : BlockId} {tail : List Instr} {out : List BlockId}
    (hh : s.Headed) (hw : s.Wired) (h : Writes a tail out s s') (hout : ∀ b ∈ out, ¬ s.Begun b)
    (hphis : (∀ i ∈ tail, i.isPhi = false) ∨ s.code a = [] ∧ ∀ i ∈ tail, i.isPhi = true)
    (hentries : ∀ t es, .phi t es ∈ tail → es.map Prod.snd = s.func.preds a) : s'.Headed where
  entries b t es hmem := by
    have hcases : .phi t es ∈ s.code b ∨ b = a ∧ .phi t es ∈ tail := by
      rw [h.code] at hmem
      split_ifs at hmem with hb
      · subst hb
        exact (List.mem_append.mp hmem).imp id fun h => ⟨rfl, h⟩
      · exact Or.inl hmem
    rw [h.preds]
    rcases hcases with hmem | ⟨rfl, hmem⟩
    · rw [if_neg fun hb => ?_]
      · exact hh.entries b t es hmem
      · rw [hw.idle b (hout b hb)] at hmem
        cases hmem
    · rw [if_neg fun hb => hout b hb (h.begun_of_out hb)]
      exact hentries t es hmem
  phis_first b := by
    rw [h.code]
    split_ifs with hb
    · rcases hphis with htail | ⟨hnil, htail⟩
      · exact mem_dropWhile_append (hh.phis_first a) htail
      · rw [hnil, List.nil_append, List.dropWhile_eq_nil_iff.mpr htail]
        exact fun i hi => absurd hi List.not_mem_nil
    · exact hh.phis_first b

/-! ### Builders in order -/

/-- What holds of a builder between any two operations. -/
structure Sound (s : Builder) : Prop where
  good : s.Good
  wired : s.Wired
  numbered : s.Numbered
  informed : s.Informed
  headed : s.Headed

/-- A builder and an earlier one: blocks that were begun are reached as before,
and edges that are new come from the block that was being written and from
blocks whose number is at least `n`. -/
structure Leads (n : Nat) (base s : Builder) : Prop where
  grows : Grows base s
  shortcut : Shortcut base s
  preds : ∀ b, base.Begun b → s.func.preds b = base.func.preds b
  edges : ∀ a b, b ∈ s.func.targets a → b ∈ base.func.targets a ∨ base.current = some a ∨ n ≤ a
  current : ∀ b, s.current = some b → base.current = some b ∨ n ≤ b

namespace Leads

variable {n m : Nat} {base s s' : Builder}

theorem refl (n : Nat) (s : Builder) : Leads n s s :=
  ⟨.refl s, .refl s, fun _ _ => rfl, fun _ _ h => Or.inl h, fun _ h => Or.inl h⟩

theorem mono (h : Leads m base s) (hn : n ≤ m) : Leads n base s :=
  ⟨h.grows, h.shortcut, h.preds, fun a b hb => (h.edges a b hb).imp_right (Or.imp_right hn.trans),
    fun b hb => (h.current b hb).imp_right hn.trans⟩

theorem trans (h : Leads n base s) (h' : Leads n s s') : Leads n base s' where
  grows := h.grows.trans h'.grows
  shortcut := h.shortcut.trans h'.shortcut h.grows.begun
  preds b hb := (h'.preds b (h.grows.begun b hb)).trans (h.preds b hb)
  edges a b hb := by
    rcases h'.edges a b hb with hb | hb | hb
    · exact h.edges a b hb
    · exact Or.inr (h.current a hb)
    · exact Or.inr (Or.inr hb)
  current b hb := by
    rcases h'.current b hb with hb | hb
    · exact h.current b hb
    · exact Or.inr hb

/-- One more step. It may go back to a block that was not begun at the base. -/
theorem of_writes {a : BlockId} {tail : List Instr} {out : List BlockId} (h : Leads n base s)
    (hx : Writes a tail out s s') (hg : Grows s s') (hp : Shortcut s s') (hout : ∀ b ∈ out, ¬ base.Begun b)
    (hnew : s.current = none → n ≤ a) : Leads n base s' := by
  have ha : base.current = some a ∨ n ≤ a := by
    rcases hx.alone with ⟨hcur, -⟩ | hcur
    · exact Or.inr (hnew hcur)
    · exact h.current a hcur
  refine ⟨h.grows.trans hg, h.shortcut.trans hp h.grows.begun, fun b hb => ?_, fun c b hb => ?_, fun b hb => ?_⟩
  · rw [hx.preds, if_neg fun hmem => hout b hmem hb]
    exact h.preds b hb
  · rcases hx.mem_targets.mp hb with hb | ⟨rfl, -⟩
    · exact h.edges c b hb
    · exact Or.inr ha
  · rcases hx.begun with hcur | ⟨hcur, -⟩
    · rw [hcur] at hb
      exact Option.some.inj hb ▸ ha
    · rw [hcur] at hb
      cases hb

/-- A change that is none of edges. -/
theorem of_targets (n : Nat) (hg : Grows s s') (htargets : ∀ c, s'.func.targets c = s.func.targets c)
    (hpreds : ∀ c, s'.func.preds c = s.func.preds c) (hcur : s'.current = s.current) : Leads n s s' :=
  ⟨hg, .of_targets hg.head htargets, fun b _ => hpreds b, fun c b hb => Or.inl (by rwa [← htargets]),
    fun b hb => Or.inl (hcur ▸ hb)⟩

/-- A path comes to a newer block through the block that was being written. -/
theorem passes {a b : BlockId} {l : List BlockId} (h : Leads base.size base s) (hbase : base.Sound)
    (hcur : base.current = some a) (hb : base.size ≤ b) (hl : s.func.Path b l) : a ∈ l := by
  induction hl with
  | start =>
    have hstart : s.func.start = base.func.start := congrArg (fun head => head.2.2.2) h.grows.head
    rw [hstart] at hb
    exact absurd (begun_lt hbase.good hbase.wired.start) (Nat.not_lt.mpr hb)
  | @step c b l _ hc ih =>
    rcases h.edges c b hc with hc | hc | hc
    · exact absurd (hbase.wired.target_lt c b hc) (Nat.not_lt.mpr hb)
    · rw [hcur] at hc
      exact Option.some.inj hc ▸ List.mem_cons_self
    · exact List.mem_cons_of_mem _ (ih hc)

/-- What was known where the builder wrote is known where it writes now. -/
theorem knows {a b : BlockId} {id : Nat} (h : Leads base.size base s) (hbase : base.Sound)
    (hcur : base.current = some a) (hcur' : s.current = some b) (hk : base.Knows a (base.code a) id) :
    s.Knows b (s.code b) id := by
  have hknown : s.Knows a (s.code a) id := hk.at_end h.grows h.shortcut (Or.inl hcur)
  rcases h.current b hcur' with hb | hb
  · rw [hcur] at hb
    exact Option.some.inj hb ▸ hknown
  · intro l hl
    obtain ⟨l', hl', hsuffix⟩ := hl.prior (h.passes hbase hcur hb hl)
    rcases hknown l' hl' with hid | ⟨c, hc, hid⟩
    · exact Or.inr ⟨a, hsuffix.subset List.mem_cons_self, hid⟩
    · exact Or.inr ⟨c, hsuffix.subset (List.mem_cons_of_mem _ hc), hid⟩

end Leads

/-! ### The two kinds of steps -/

section Steps

variable {s s' : Builder} {a b : BlockId} {tail phis : List Instr} {out : List BlockId} {k : Nat}

theorem edgesTo_append_map (hpend : s'.pending = s.pending ++ out.map fun b => ⟨a, b, s.bindings⟩)
    (hnodup : out.Nodup) (b : BlockId) : (s'.edgesTo b).map Edge.source =
      (s.edgesTo b).map Edge.source ++ if b ∈ out then [a] else [] := by
  unfold edgesTo
  rw [hpend, List.filter_append, List.map_append, List.filter_map, List.map_map]
  have hfilter : (out.filter ((fun e => e.target == b) ∘ fun b => (⟨a, b, s.bindings⟩ : Edge))) =
      if b ∈ out then [b] else [] := by
    have heq : ((fun e => e.target == b) ∘ fun b => (⟨a, b, s.bindings⟩ : Edge)) = fun c => c == b := rfl
    rw [heq, List.filter_beq, List.Nodup.count hnodup]
    split_ifs <;> rfl
  rw [hfilter]
  split_ifs <;> rfl

/-- Code that is no phi is written where control is, and what it uses is known
there. -/
theorem Sound.of_append (hs : s.Sound) (h : Writes a tail out s s') (hcur : s.current = some a)
    (hgood : s'.Good) (hg : Grows s s') (hids : definedIds tail = List.range' s.count k)
    (hcount : s'.count = s.count + k) (hnodup : out.Nodup) (hout : ∀ b ∈ out, s.Unbegun b)
    (htail : ∀ i ∈ tail, i.isPhi = false) (huse : ∀ i ∈ tail, ∀ v ∈ i.operands, s.Knows a (s.code a) v.id)
    (hpend : s'.pending = s.pending ++ out.map fun b => ⟨a, b, s.bindings⟩)
    (hbind : s'.bindings = s.bindings) : s'.Sound ∧ ∀ n, Leads n s s' := by
  have hp : Shortcut s s' := shortcut_of_writes hs.wired h fun b hb hbegun => absurd hbegun (hout b hb).not_begun
  have hnophi : ∀ t es, ¬ Instr.phi t es ∈ tail := fun t es hmem => by cases htail _ hmem
  refine ⟨⟨hgood, hs.wired.of_writes h hnodup (fun b hb => (hout b hb).lt) ?_ ?_ ?_,
    hs.numbered.of_writes h hids hcount,
    hs.informed.of_writes hs.good hs.wired h hg hp (fun i hi _ => ⟨hcur, huse i hi⟩)
      (fun t es hmem => absurd hmem (hnophi t es)) ?_ ?_,
    hs.headed.of_writes hs.wired h (fun b hb => (hout b hb).not_begun) (Or.inl htail)
      fun t es hmem => absurd hmem (hnophi t es)⟩,
    fun n => (Leads.refl n s).of_writes h hg hp (fun b hb => (hout b hb).not_begun) fun hnone => ?_⟩
  · exact fun hb => (hout _ hb).not_begun hs.wired.start
  · exact hs.wired.reached a (Or.inl hcur)
  · exact fun b _ => edgesTo_append_map hpend hnodup b
  · intro b hb j v hv
    rcases h.begun with hcur' | ⟨hcur', -⟩
    · rw [hcur'] at hb
      obtain rfl := Option.some.inj hb
      exact (hs.informed.bound a hcur j v (hbind ▸ hv)).at_end hg hp (Or.inl hcur)
    · rw [hcur'] at hb
      cases hb
  · intro e he
    rw [hpend, List.mem_append] at he
    rcases he with he | he
    · exact Or.inl he
    · obtain ⟨b, -, rfl⟩ := List.mem_map.mp he
      exact Or.inr ⟨hcur, rfl⟩
  · rw [hcur] at hnone
    cases hnone

/-- What is known along every edge that waits for a block is known where the
block begins. -/
theorem knows_of_edges (hs : s.Sound) (h : Writes b phis [] s s') (hg : Grows s s') (hb : s.Unbegun b) {id : Nat}
    (hid : id ∈ definedIds phis ∨ ∀ e ∈ s.edgesTo b, s.Knows e.source (s.code e.source) id) :
    s'.Knows b (s'.code b) id := by
  intro l hl
  rcases hid with hid | hid
  · left
    rw [h.code, if_pos rfl, definedIds_append]
    exact List.mem_append_right _ hid
  · cases hl with
    | start =>
      rw [h.start] at hb
      exact absurd hs.wired.start hb.not_begun
    | @step c _ l hl hc =>
      right
      have hmem : c ∈ s.func.preds b := by
        rw [hs.wired.preds]
        exact (h.mem_targets.mp hc).resolve_right fun hnot => absurd hnot.2 List.not_mem_nil
      rw [hs.wired.waiting b hb] at hmem
      obtain ⟨e, he, rfl⟩ := List.mem_map.mp hmem
      have hp : Shortcut s s' := shortcut_of_writes hs.wired h fun _ hnot => absurd hnot List.not_mem_nil
      have hended : s.Begun e.source := Or.inr (hs.good.sources e (mem_edgesTo.mp he).1)
      rcases (hid e he).at_end hg hp hended l hl with hknown | ⟨d, hd, hknown⟩
      · exact ⟨e.source, List.mem_cons_self, hknown⟩
      · exact ⟨d, List.mem_cons_of_mem _ hd, hknown⟩

/-- A block that edges wait for is begun with phis over them. -/
theorem Sound.of_begin (hs : s.Sound) (h : Writes b phis [] s s') (hb : s.Unbegun b)
    (hne : s.edgesTo b ≠ []) (hgood : s'.Good) (hg : Grows s s')
    (hids : definedIds phis = List.range' s.count k) (hcount : s'.count = s.count + k)
    (hphis : ∀ i ∈ phis, i.isPhi = true)
    (hentries : ∀ t es, .phi t es ∈ phis → es.map Prod.snd = (s.edgesTo b).map Edge.source)
    (hread : ∀ t es, .phi t es ∈ phis → ∀ e ∈ es, s.Begun e.2 ∧ s.Knows e.2 (s.code e.2) e.1.id)
    (hbound : ∀ j v, s'.bindings.get? j = some v →
      v.id ∈ definedIds phis ∨ ∀ e ∈ s.edgesTo b, s.Knows e.source (s.code e.source) v.id)
    (hpend : s'.pending = s.pending.filter fun e => e.target != b) :
    s'.Sound ∧ ∀ n, n ≤ b → Leads n s s' := by
  have hp : Shortcut s s' := shortcut_of_writes hs.wired h fun _ hnot => absurd hnot List.not_mem_nil
  refine ⟨⟨hgood, hs.wired.of_writes h List.nodup_nil (by simp) (by simp) ?_ ?_,
    hs.numbered.of_writes h hids hcount,
    hs.informed.of_writes hs.good hs.wired h hg hp ?_ hread ?_ ?_,
    hs.headed.of_writes hs.wired h (by simp) (Or.inr ⟨hb.code, hphis⟩) fun t es hmem => ?_⟩,
    fun n hn => (Leads.refl n s).of_writes h hg hp (by simp) fun _ => hn⟩
  · obtain ⟨e, he⟩ := List.exists_mem_of_ne_nil _ hne
    have hmem : e.source ∈ s.func.preds b := by
      rw [hs.wired.waiting b hb]
      exact List.mem_map.mpr ⟨e, he, rfl⟩
    obtain ⟨l, hl⟩ := hs.wired.reached e.source (Or.inr (hs.good.sources e (mem_edgesTo.mp he).1))
    exact ⟨e.source :: l, .step hl ((hs.wired.preds _ _).mp hmem)⟩
  · intro c hc
    have hcb : c ≠ b := by
      rintro rfl
      exact hc.not_begun (h.begun_iff.mpr (Or.inl rfl))
    rw [edgesTo_filter hpend, if_neg hcb, if_neg List.not_mem_nil, List.append_nil]
  · intro i hi hnot
    rw [hphis i hi] at hnot
    cases hnot
  · intro c hc j v hv
    obtain rfl : c = b := by
      rcases h.begun with hcur | ⟨hcur, -⟩
      · exact (Option.some.inj (hcur.symm.trans hc)).symm
      · rw [hcur] at hc
        cases hc
    exact knows_of_edges hs h hg hb (hbound j v hv)
  · intro e he
    rw [hpend] at he
    exact Or.inl (List.mem_of_mem_filter he)
  · rw [hs.wired.waiting b hb]
    exact hentries t es hmem

end Steps

/-- A change of neither code nor edges. -/
theorem Sound.congr {s s' : Builder} (hs : s.Sound) (hgood : s'.Good) (hg : Grows s s')
    (hcount : s'.count = s.count) (hcode : ∀ c, s'.code c = s.code c)
    (hpreds : ∀ c, s'.func.preds c = s.func.preds c) (hsuccs : ∀ c, s'.func.succs c = s.func.succs c)
    (hcur : s'.current = s.current) (hpend : s'.pending = s.pending)
    (hbound : ∀ b, s.current = some b → ∀ j v, s'.bindings.get? j = some v → s.Knows b (s.code b) v.id) :
    s'.Sound ∧ ∀ n, Leads n s s' := by
  have htargets : ∀ c, s'.func.targets c = s.func.targets c := fun c => by
    rw [Func.targets_eq_exits, Func.targets_eq_exits]
    exact congrArg exits (hcode c)
  have hp : Shortcut s s' := .of_targets hg.head htargets
  have hbegun : ∀ {c}, s.code c ≠ [] → s.Begun c := fun {c} hne => by
    by_contra hnot
    exact hne (hs.wired.idle c hnot)
  refine ⟨⟨hgood, hs.wired.congr hg.head hg.size_le (fun c => by rw [hcode]; simp) hpreds hsuccs hcur
      (edgesTo_of_pending hpend) fun b => hs.good.edgesTo_of_size_le,
    hs.numbered.congr hcount fun c => by rw [hcode], ⟨fun b hb j v hv => ?_, fun e he j v hv => ?_,
      fun b done i rest h hphi v hv => ?_, fun b t es hmem e he => ?_⟩,
    ⟨fun b t es hmem => ?_, fun b => by rw [hcode]; exact hs.headed.phis_first b⟩⟩,
    fun n => .of_targets n hg htargets hpreds hcur⟩
  · rw [hcur] at hb
    exact (hbound b hb j v hv).at_end hg hp (Or.inl hb)
  · rw [hpend] at he
    exact (hs.informed.carried e he j v hv).at_end hg hp (Or.inr (hs.good.sources e he))
  · rw [hcode] at h
    exact (hs.informed.use b done i rest h hphi v hv).later hg hp (hbegun (by rw [h]; simp)) fun _ h => h
  · rw [hcode] at hmem
    obtain ⟨hb, hk⟩ := hs.informed.phi b t es hmem e he
    exact ⟨hg.begun _ hb, hk.at_end hg hp hb⟩
  · rw [hcode] at hmem
    rw [hpreds]
    exact hs.headed.entries b t es hmem

end Builder
end Chordal.Ssa
