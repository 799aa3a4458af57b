/-
# What a builder keeps in order

`Builder.Good` says what holds of a builder between any two operations: there is
no terminator yet where it writes, edges wait for blocks that are not begun and
leave blocks that are ended, no two edges to one block leave the same block, and
values in use are below the count.

`Builder.Local` compares a builder with an earlier one, the base. In between,
only the block that was being written then and blocks that are newer have
changed, and of the blocks that are older only those in a given set have got
edges.

Key definitions: `Builder.Good`, `Builder.Local`, `Builder.Extends`.
Key theorems: one of each kind for every operation of the builder.
-/
import Mathlib
import Chordal.Proofs.Ssa.Merge

namespace Chordal.Ssa
namespace Builder

/-- What holds of a builder between any two operations. -/
structure Good (s : Builder) : Prop where
  current : ∀ b, s.current = some b → b < s.size ∧ ended (s.code b) = false
  bindings : ∀ j v, s.bindings.get? j = some v → v.id < s.count
  targets : ∀ e ∈ s.pending, s.Unbegun e.target
  sources : ∀ e ∈ s.pending, ended (s.code e.source) = true
  carried : ∀ e ∈ s.pending, ∀ j v, e.bindings.get? j = some v → v.id < s.count
  distinct : ∀ b, ((s.edgesTo b).map Edge.source).Nodup
  loops : ∀ l ∈ s.loops, s.Unbegun l.onContinue ∧ s.Unbegun l.onBreak

/-- A block that `continue` or `break` goes to here. -/
def LoopTarget (s : Builder) (b : BlockId) : Prop :=
  ∃ l, s.loops.head? = some l ∧ (b = l.onContinue ∨ b = l.onBreak)

/-- What has changed since `base`: the block that was being written, newer
blocks, and edges to newer blocks and those in `free`. -/
structure Local (free : BlockId → Prop) (base s : Builder) : Prop where
  size_le : base.size ≤ s.size
  code_eq : ∀ b, b < base.size → base.current ≠ some b → s.code b = base.code b
  code_kept : ∀ b, base.code b <+: s.code b
  current : ∀ b, s.current = some b → base.current = some b ∨ base.size ≤ b
  edges_old : ∀ b, b < base.size → base.edgesTo b <+: s.edgesTo b
  edges_same : ∀ b, b < base.size → ¬ free b → s.edgesTo b = base.edgesTo b

/-- A builder that has built a piece of a tree: it is in order, only the place
where the piece begins and newer blocks have changed, and no newer block waits
to be begun. -/
structure Extends (free : BlockId → Prop) (s s' : Builder) : Prop where
  grows : Grows s s'
  near : Local free s s'
  good : s'.Good
  loops : s'.loops = s.loops
  edges_new : ∀ b, s.size ≤ b → s'.edgesTo b = []

variable {s s' : Builder} {b : BlockId}

theorem code_of_size_le (h : s.size ≤ b) : s.code b = [] :=
  Func.code_of_size_le h

/-! ### Edges -/

theorem mem_edgesTo {e : Edge} : e ∈ s.edgesTo b ↔ e ∈ s.pending ∧ e.target = b := by
  unfold edgesTo
  rw [List.mem_filter, beq_iff_eq]

theorem edgesTo_of_pending (h : s'.pending = s.pending) (b : BlockId) :
    s'.edgesTo b = s.edgesTo b := by
  unfold edgesTo
  rw [h]

theorem edgesTo_append {e : Edge} (h : s'.pending = s.pending ++ [e]) (b : BlockId) :
    s'.edgesTo b = s.edgesTo b ++ if e.target = b then [e] else [] := by
  unfold edgesTo
  rw [h, List.filter_append, List.filter_cons]
  by_cases he : e.target = b
  · simp [he]
  · simp [he]

theorem edgesTo_filter {a : BlockId} (h : s'.pending = s.pending.filter fun e => e.target != a)
    (b : BlockId) : s'.edgesTo b = if b = a then [] else s.edgesTo b := by
  unfold edgesTo
  rw [h, List.filter_filter]
  split_ifs with hb
  · subst hb
    rw [List.filter_eq_nil_iff]
    intro e _
    by_cases he : e.target = b <;> simp [he]
  · refine List.filter_congr fun e _ => ?_
    by_cases he : e.target = b
    · simp [he, hb]
    · simp [he]

/-- No edge waits for a block that is not there. -/
theorem Good.edgesTo_of_size_le (hs : s.Good) (hb : s.size ≤ b) : s.edgesTo b = [] := by
  rw [List.eq_nil_iff_forall_not_mem]
  intro e he
  obtain ⟨hmem, rfl⟩ := mem_edgesTo.mp he
  exact absurd (hs.targets e hmem).lt (Nat.not_lt.mpr hb)

theorem Unbegun.of_eq (h : s.Unbegun b) (hsize : s.size ≤ s'.size) (hcode : s'.code b = s.code b)
    (hcur : s'.current = s.current) : s'.Unbegun b :=
  ⟨h.lt.trans_le hsize, hcode.trans h.code, hcur ▸ h.current⟩

/-- Loops are entered and left. -/
theorem Good.setLoops (hs : s.Good) (loops : List LoopTargets)
    (h : ∀ l ∈ loops, s.Unbegun l.onContinue ∧ s.Unbegun l.onBreak) :
    ({ s with loops } : Builder).Good :=
  ⟨hs.current, hs.bindings, fun e he => (hs.targets e he).of_eq le_rfl rfl rfl, hs.sources, hs.carried,
    hs.distinct, fun l hl => ⟨(h l hl).1.of_eq le_rfl rfl rfl, (h l hl).2.of_eq le_rfl rfl rfl⟩⟩

/-! ### Phis that get entries -/

section Widen

variable {s s' : Builder} (hcur : s'.current = s.current) (hpend : s'.pending = s.pending)
  (hsize : s.size ≤ s'.size) (hcode : ∀ c, Widened (s.code c) (s'.code c))

include hcur hsize hcode

/-- Blocks that are not begun have no phis that could get entries. -/
theorem unbegun_of_widened {c : BlockId} (hc : s.Unbegun c) : s'.Unbegun c := by
  refine ⟨hc.lt.trans_le hsize, ?_, hcur ▸ hc.current⟩
  have := hcode c
  rw [hc.code] at this
  exact List.forall₂_nil_left_iff.mp this

theorem grows_of_widened (hhead : s'.func.head = s.func.head) (hcount : s'.count = s.count) :
    Grows s s' := by
  refine ⟨hhead, hsize, hcount.ge, fun c => .of_widened (hcode c), fun c hc => ?_⟩
  unfold Begun
  rwa [hcur, (hcode c).ended_eq]

include hpend

theorem good_of_widened (hs : s.Good) (hbind : s'.bindings = s.bindings) (hloops : s'.loops = s.loops)
    (hcount : s'.count = s.count) : s'.Good := by
  have hun := fun c => unbegun_of_widened hcur hsize hcode (c := c)
  refine ⟨fun c hc => ?_, fun j v hv => ?_, fun e he => hun _ (hs.targets e (hpend ▸ he)), fun e he => ?_,
    fun e he j v hv => ?_, fun c => ?_, fun l hl => ?_⟩
  · rw [(hcode c).ended_eq]
    obtain ⟨hlt, hopen⟩ := hs.current c (hcur ▸ hc)
    exact ⟨hlt.trans_le hsize, hopen⟩
  · rw [hcount]
    exact hs.bindings j v (hbind ▸ hv)
  · rw [(hcode e.source).ended_eq]
    exact hs.sources e (hpend ▸ he)
  · rw [hcount]
    exact hs.carried e (hpend ▸ he) j v hv
  · rw [edgesTo_of_pending hpend]
    exact hs.distinct c
  · exact ⟨hun _ (hs.loops l (hloops ▸ hl)).1, hun _ (hs.loops l (hloops ▸ hl)).2⟩

end Widen

/-! ### Comparing builders -/

namespace Local

variable {free free' : BlockId → Prop} {base s s' : Builder}

theorem refl (free : BlockId → Prop) (s : Builder) : Local free s s :=
  ⟨le_rfl, fun _ _ _ => rfl, fun _ => List.prefix_rfl, fun _ h => Or.inl h,
    fun _ _ => List.prefix_rfl, fun _ _ _ => rfl⟩

/-- One more change that is local. -/
theorem step (h : Local free base s) (hsize : s.size ≤ s'.size)
    (hcode : ∀ b, b < base.size → s.current ≠ some b → s'.code b = s.code b)
    (hpre : ∀ b, b < base.size → s.code b <+: s'.code b)
    (hcur : ∀ b, s'.current = some b → s.current = some b ∨ base.size ≤ b)
    (hold : ∀ b, b < base.size → s.edgesTo b <+: s'.edgesTo b)
    (hsame : ∀ b, b < base.size → ¬ free b → s'.edgesTo b = s.edgesTo b) : Local free base s' := by
  refine ⟨h.size_le.trans hsize, fun b hb hne => ?_, fun b => ?_, fun b hb => ?_, fun b hb => ?_,
    fun b hb hf => ?_⟩
  · rw [hcode b hb ?_, h.code_eq b hb hne]
    intro hc
    rcases h.current b hc with hc | hc
    · exact hne hc
    · omega
  · rcases Nat.lt_or_ge b base.size with hb | hb
    · exact (h.code_kept b).trans (hpre b hb)
    · rw [code_of_size_le hb]
      exact List.nil_prefix
  · rcases hcur b hb with hc | hc
    · exact h.current b hc
    · exact Or.inr hc
  · exact (h.edges_old b hb).trans (hold b hb)
  · rw [hsame b hb hf, h.edges_same b hb hf]

/-- A piece is built. -/
theorem extend (h : Local free base s) (h' : Extends free' s s')
    (hfree : ∀ b, free' b → base.size ≤ b ∨ free b) : Local free base s' := by
  refine h.step h'.near.size_le (fun b hb hne => h'.near.code_eq b (hb.trans_le h.size_le) hne)
    (fun b _ => h'.near.code_kept b) (fun b hb => ?_)
    (fun b hb => h'.near.edges_old b (hb.trans_le h.size_le)) (fun b hb hf => ?_)
  · rcases h'.near.current b hb with hc | hc
    · exact Or.inl hc
    · exact Or.inr (h.size_le.trans hc)
  · refine h'.near.edges_same b (hb.trans_le h.size_le) fun hb' => ?_
    rcases hfree b hb' with h | h
    · omega
    · exact hf h

/-- A block that is not begun stays so, unless it is newer. -/
theorem unbegun (h : Local free base s) {b : BlockId} (hb : base.Unbegun b) : s.Unbegun b := by
  refine ⟨hb.lt.trans_le h.size_le, ?_, fun hc => ?_⟩
  · rw [h.code_eq b hb.lt hb.current, hb.code]
  · rcases h.current b hc with hc | hc
    · exact hb.current hc
    · exact absurd hb.lt (Nat.not_lt.mpr hc)

end Local

namespace Extends

variable {free free' : BlockId → Prop} {s s' s'' : Builder}

theorem refl (free : BlockId → Prop) {s : Builder} (hs : s.Good) : Extends free s s :=
  ⟨.refl s, .refl free s, hs, rfl, fun _ hb => hs.edgesTo_of_size_le hb⟩

theorem trans (h : Extends free s s') (h' : Extends free' s' s'')
    (hfree : ∀ b, free' b → free b ∧ b < s.size) : Extends free s s'' := by
  refine ⟨h.grows.trans h'.grows, h.near.extend h' fun b hb => Or.inr (hfree b hb).1, h'.good,
    h'.loops.trans h.loops, fun b hb => ?_⟩
  rcases Nat.lt_or_ge b s'.size with hlt | hge
  · rw [h'.near.edges_same b hlt fun hf => absurd (hfree b hf).2 (Nat.not_lt.mpr hb), h.edges_new b hb]
  · exact h'.edges_new b hge

/-- Only blocks in `free` get edges that stay. -/
theorem edgesTo_eq (h : Extends free s s') (hs : s.Good) {b : BlockId} (hb : ¬ free b) :
    s'.edgesTo b = s.edgesTo b := by
  rcases Nat.lt_or_ge b s.size with hlt | hge
  · exact h.near.edges_same b hlt hb
  · rw [h.edges_new b hge, hs.edgesTo_of_size_le hge]

end Extends

/-! ### Writing where control is -/

section Write

variable {s s' : Builder}

/-- The block `b` is written, and no edge and no loop waits for it any more. -/
theorem Good.of_change (b : BlockId) (hs : s.Good) (hsize : s'.size = s.size) (hcount : s.count ≤ s'.count)
    (hcode : ∀ c, c ≠ b → s'.code c = s.code c) (hend : ended (s.code b) = true → ended (s'.code b) = true)
    (hcur : s'.current = none ∨ s'.current = some b ∧ b < s.size ∧ ended (s'.code b) = false)
    (hbind : ∀ j v, s'.bindings.get? j = some v → v.id < s'.count)
    (hpend : ∀ e ∈ s'.pending, e ∈ s.pending ∧ e.target ≠ b)
    (hdistinct : ∀ c, ((s'.edgesTo c).map Edge.source).Nodup) (hloops : s'.loops = s.loops)
    (hfree : ∀ l ∈ s.loops, l.onContinue ≠ b ∧ l.onBreak ≠ b) : s'.Good := by
  have hun : ∀ c, c ≠ b → s.Unbegun c → s'.Unbegun c := by
    intro c hne hc
    refine ⟨hsize ▸ hc.lt, (hcode c hne).trans hc.code, fun h => ?_⟩
    rcases hcur with h' | ⟨h', -⟩
    · rw [h'] at h; cases h
    · rw [h'] at h; exact hne (Option.some.inj h).symm
  refine ⟨fun c hc => ?_, hbind, fun e he => hun _ (hpend e he).2 (hs.targets e (hpend e he).1), fun e he => ?_,
    fun e he j v hv => (hs.carried e (hpend e he).1 j v hv).trans_le hcount, hdistinct, fun l hl => ?_⟩
  · rcases hcur with h | ⟨h, hlt, hopen⟩
    · rw [h] at hc; cases hc
    · rw [h] at hc
      obtain rfl := Option.some.inj hc
      exact ⟨hsize ▸ hlt, hopen⟩
  · have hsource := hs.sources e (hpend e he).1
    by_cases h : e.source = b
    · rw [h] at hsource ⊢
      exact hend hsource
    · rwa [hcode _ h]
  · obtain ⟨h₁, h₂⟩ := hs.loops l (hloops ▸ hl)
    obtain ⟨hn₁, hn₂⟩ := hfree l (hloops ▸ hl)
    exact ⟨hun _ hn₁ h₁, hun _ hn₂ h₂⟩

/-- Code is appended to the block that is being written. -/
theorem Good.of_append (b : BlockId) (tail : List Instr) (hs : s.Good) (hcur : s.current = some b)
    (hsize : s'.size = s.size) (hcount : s.count ≤ s'.count)
    (hcode : ∀ c, s'.code c = if c = b then s.code b ++ tail else s.code c)
    (hcur' : s'.current = none ∨ s'.current = some b ∧ ended tail = false)
    (hbind : ∀ j v, s'.bindings.get? j = some v → v.id < s'.count)
    (hpend : s'.pending = s.pending) (hloops : s'.loops = s.loops) : s'.Good := by
  have hne : ∀ c, s.Unbegun c → c ≠ b := fun c hc h => hc.current (h ▸ hcur)
  obtain ⟨hlt, hopen⟩ := hs.current b hcur
  have hb : ended (s'.code b) = ended tail := by rw [hcode, if_pos rfl, ended_append, hopen, Bool.false_or]
  refine hs.of_change b hsize hcount (fun c hc => (hcode c).trans (if_neg hc)) (fun h => ?_)
    (hcur'.imp_right fun h => ⟨h.1, hlt, hb.trans h.2⟩) hbind
    (fun e he => ⟨hpend ▸ he, hne _ (hs.targets e (hpend ▸ he))⟩) (fun c => ?_) hloops
    fun l hl => ⟨hne _ (hs.loops l hl).1, hne _ (hs.loops l hl).2⟩
  · rw [hopen] at h
    cases h
  · rw [edgesTo_of_pending hpend]
    exact hs.distinct c

/-- Appending code that is no phi builds a piece. -/
theorem Extends.of_append (free : BlockId → Prop) (b : BlockId) (tail : List Instr)
    (hhead : s'.func.head = s.func.head) (hs : s.Good) (hcur : s.current = some b)
    (hsize : s'.size = s.size) (hcount : s.count ≤ s'.count)
    (hcode : ∀ c, s'.code c = if c = b then s.code b ++ tail else s.code c)
    (htail : ∀ i ∈ tail, i.isPhi = false)
    (hcur' : s'.current = none ∧ ended tail = true ∨ s'.current = some b ∧ ended tail = false)
    (hbind : ∀ j v, s'.bindings.get? j = some v → v.id < s'.count)
    (hpend : s'.pending = s.pending) (hloops : s'.loops = s.loops) : Extends free s s' := by
  have hgood : s'.Good := by
    refine hs.of_append b tail hcur hsize hcount hcode ?_ hbind hpend hloops
    rcases hcur' with ⟨h, -⟩ | h
    · exact Or.inl h
    · exact Or.inr h
  refine ⟨.of_append hhead hcur (hs.current b hcur).2 hsize.ge hcount hcode htail ?_,
    ⟨hsize.ge, fun c _ hne => ?_, fun c => ?_, fun c hc => ?_, fun c _ => ?_, fun c _ _ => ?_⟩,
    hgood, hloops, fun c hc => hgood.edgesTo_of_size_le (hsize ▸ hc)⟩
  · rcases hcur' with ⟨-, h⟩ | ⟨h, -⟩
    · exact Or.inr h
    · exact Or.inl h
  · rw [hcode, if_neg]
    rintro rfl
    exact hne hcur
  · rw [hcode]
    split_ifs with h
    · exact h ▸ List.prefix_append _ _
    · exact List.prefix_rfl
  · rcases hcur' with ⟨h, -⟩ | ⟨h, -⟩
    · rw [h] at hc; cases hc
    · rw [h] at hc
      exact Or.inl (hcur.trans hc)
  · rw [edgesTo_of_pending hpend]
  · exact edgesTo_of_pending hpend c

end Write

/-- A value is defined where control is. -/
theorem define_snd (hcur : s.current = some b) (ty : Ty) (make : Value → Instr) : (s.define ty make).2 =
      { s with func := ({ s.func with valueCount := s.count + 1 } : Func).push b (make ⟨s.count, ty⟩) } := by
  unfold define emit
  simp only [Func.newValue, hcur]

theorem code_define (hs : s.Good) (hcur : s.current = some b) (ty : Ty) (make : Value → Instr)
    (c : BlockId) : (s.define ty make).2.code c =
      if c = b then s.code b ++ [make ⟨s.count, ty⟩] else s.code c := by
  rw [define_snd hcur]
  exact Func.code_push _ _ (hs.current b hcur).1 c

theorem extends_define (hs : s.Good) (hcur : s.current = some b) (ty : Ty) (make : Value → Instr)
    (hphi : (make ⟨s.count, ty⟩).isPhi = false) (hterm : (make ⟨s.count, ty⟩).isTerminator = false) :
    Extends (fun _ => False) s (s.define ty make).2 := by
  have hcode := code_define hs hcur ty make
  rw [define_snd hcur] at hcode ⊢
  refine .of_append _ b [make ⟨s.count, ty⟩] rfl hs hcur (Func.size_push ..) (Nat.le_succ _) hcode ?_
    (Or.inr ⟨hcur, ?_⟩) (fun j v hv => ?_) rfl rfl
  · simpa using hphi
  · simpa [ended] using hterm
  · exact (hs.bindings j v hv).trans (Nat.lt_succ_self _)

/-- A variable is held in a value. -/
theorem extends_bind (hs : s.Good) (symbol : Nat) (v : Value) (hv : v.id < s.count) :
    Extends (fun _ => False) s (s.bind symbol v) := by
  have hgood : (s.bind symbol v).Good := by
    refine ⟨hs.current, fun j w hw => ?_, fun e he => (hs.targets e he).of_eq le_rfl rfl rfl,
      hs.sources, hs.carried, hs.distinct, fun l hl => ⟨(hs.loops l hl).1.of_eq le_rfl rfl rfl,
        (hs.loops l hl).2.of_eq le_rfl rfl rfl⟩⟩
    change (s.bindings.insert symbol v).get? j = some w at hw
    rw [IdMap.get?_insert] at hw
    split_ifs at hw
    · exact Option.some.inj hw ▸ hv
    · exact hs.bindings j w hw
  exact ⟨.of_eq rfl le_rfl le_rfl (fun _ => rfl) rfl,
    ⟨le_rfl, fun _ _ _ => rfl, fun _ => List.prefix_rfl, fun _ h => Or.inl h,
      fun _ _ => List.prefix_rfl, fun _ _ _ => rfl⟩,
    hgood, rfl, fun _ hb => hgood.edgesTo_of_size_le hb⟩

/-- The block that is being written gets its terminator. -/
def close (s : Builder) (b : BlockId) (i : Instr) : Builder :=
  { s with func := s.func.push b i, current := none }

theorem code_close (hs : s.Good) (hcur : s.current = some b) (i : Instr) (c : BlockId) :
    (s.close b i).code c = if c = b then s.code b ++ [i] else s.code c :=
  Func.code_push _ _ (hs.current b hcur).1 c

theorem extends_close (hs : s.Good) (hcur : s.current = some b) (i : Instr)
    (hi : i.isTerminator = true) : Extends (fun _ => False) s (s.close b i) := by
  have hphi : i.isPhi = false := by cases i <;> first | rfl | cases hi
  refine .of_append _ b [i] rfl hs hcur (Func.size_push ..) le_rfl (code_close hs hcur i) ?_
    (Or.inl ⟨rfl, ?_⟩) hs.bindings rfl rfl
  · simpa using hphi
  · simpa [ended] using hi

/-- A block is appended. -/
theorem extends_addBlock (hs : s.Good) (kind : String) :
    Extends (fun _ => False) s (s.addBlock kind).2 ∧ (s.addBlock kind).2.Unbegun s.size := by
  have hcode : ∀ c, (s.addBlock kind).2.code c = s.code c := fun c => Func.code_addBlock s.func kind c
  have hsize : (s.addBlock kind).2.size = s.size + 1 := Func.size_addBlock s.func kind
  have hle : s.size ≤ (s.addBlock kind).2.size := by
    rw [hsize]
    exact Nat.le_succ _
  have hgood : (s.addBlock kind).2.Good :=
    good_of_widened (s := s) rfl rfl hle (fun c => by rw [hcode]; exact .refl _) hs rfl rfl rfl
  refine ⟨⟨.of_eq rfl hle le_rfl hcode rfl, ⟨hle, fun c _ _ => hcode c,
    fun c => by rw [hcode], fun _ h => Or.inl h, fun _ _ => List.prefix_rfl, fun _ _ _ => rfl⟩, hgood,
    rfl, fun b hb => ?_⟩, ⟨?_, ?_, ?_⟩⟩
  · exact (hs.edgesTo_of_size_le hb : s.edgesTo b = [])
  · rw [hsize]
    exact Nat.lt_succ_self _
  · rw [hcode, code_of_size_le le_rfl]
  · intro hc
    exact absurd (hs.current _ hc).1 (lt_irrefl _)

/-! ### Edges that are made -/

section Edges

variable {s : Builder} {a b : BlockId}

theorem jump_eq (hcur : s.current = some a) :
    s.jump b = (s.close a (.jump b)).recordEdge a b := by
  unfold jump emit close recordEdge
  simp only [hcur]

theorem branch_eq (hcur : s.current = some a) (c : Value) (b' : BlockId) :
    s.branch c b b' = ((s.close a (.branch c b b')).recordEdge a b).recordEdge a b' := by
  unfold branch emit close recordEdge
  simp only [hcur]

@[simp] theorem code_recordEdge (s : Builder) (a b c : BlockId) :
    (s.recordEdge a b).code c = s.code c := Func.code_addEdge s.func a b c

@[simp] theorem size_recordEdge (s : Builder) (a b : BlockId) : (s.recordEdge a b).size = s.size :=
  Func.size_addEdge s.func a b

@[simp] theorem count_recordEdge (s : Builder) (a b : BlockId) :
    (s.recordEdge a b).count = s.count := Func.valueCount_addEdge s.func a b

theorem unbegun_recordEdge {c : BlockId} (h : s.Unbegun c) : (s.recordEdge a b).Unbegun c :=
  h.of_eq (size_recordEdge s a b).ge (code_recordEdge s a b c) rfl

theorem edgesTo_recordEdge (s : Builder) (a b c : BlockId) : (s.recordEdge a b).edgesTo c =
    s.edgesTo c ++ if b = c then [⟨a, b, s.bindings⟩] else [] :=
  edgesTo_append (s := s) (e := ⟨a, b, s.bindings⟩) rfl c

theorem grows_recordEdge (s : Builder) (a b : BlockId) : Grows s (s.recordEdge a b) :=
  .of_eq (Func.head_addEdge s.func a b) (size_recordEdge s a b).ge (count_recordEdge s a b).ge
    (code_recordEdge s a b) rfl

/-- An edge is made to a block that is not begun, from one that is ended. -/
theorem good_recordEdge (hs : s.Good) (ha : ended (s.code a) = true) (hb : s.Unbegun b)
    (hnew : ∀ e ∈ s.edgesTo b, e.source ≠ a) : (s.recordEdge a b).Good := by
  have hmem : ∀ e, e ∈ (s.recordEdge a b).pending → e ∈ s.pending ∨ e = ⟨a, b, s.bindings⟩ :=
    fun e he => by simpa [recordEdge] using he
  refine ⟨fun c hc => ?_, fun j v hv => ?_, fun e he => ?_, fun e he => ?_, fun e he j v hv => ?_,
    fun c => ?_, fun l hl => ?_⟩
  · rw [size_recordEdge, code_recordEdge]
    exact hs.current c hc
  · rw [count_recordEdge]
    exact hs.bindings j v hv
  · rcases hmem e he with he | rfl
    · exact unbegun_recordEdge (hs.targets e he)
    · exact unbegun_recordEdge hb
  · rw [code_recordEdge]
    rcases hmem e he with he | rfl
    · exact hs.sources e he
    · exact ha
  · rw [count_recordEdge]
    rcases hmem e he with he | rfl
    · exact hs.carried e he j v hv
    · exact hs.bindings j v hv
  · rw [edgesTo_recordEdge]
    split_ifs with h
    · subst h
      rw [List.map_append, List.nodup_append]
      refine ⟨hs.distinct b, by simp, fun x hx y hy => ?_⟩
      obtain ⟨e, he, rfl⟩ := List.mem_map.mp hx
      obtain rfl : y = a := by simpa using hy
      exact hnew e he
    · simpa using hs.distinct c
  · obtain ⟨h₁, h₂⟩ := hs.loops l hl
    exact ⟨unbegun_recordEdge h₁, unbegun_recordEdge h₂⟩

theorem Local.recordEdge {free : BlockId → Prop} {base : Builder} (h : Local free base s)
    (hb : base.size ≤ b ∨ free b) : Local free base (s.recordEdge a b) := by
  refine h.step (size_recordEdge s a b).ge (fun c _ _ => code_recordEdge s a b c)
    (fun c _ => by rw [code_recordEdge]) (fun _ hc => Or.inl hc) (fun c _ => ?_) (fun c hc hf => ?_)
  · rw [edgesTo_recordEdge]
    exact List.prefix_append _ _
  · rw [edgesTo_recordEdge, if_neg, List.append_nil]
    rintro rfl
    rcases hb with hb | hb
    · omega
    · exact hf hb

/-- No edge leaves the block that is being written. -/
theorem Good.source_ne (hs : s.Good) (hcur : s.current = some a) {e : Edge} (he : e ∈ s.edgesTo b) :
    e.source ≠ a := by
  rintro rfl
  have hend := hs.sources e (mem_edgesTo.mp he).1
  rw [(hs.current _ hcur).2] at hend
  cases hend

@[simp] theorem current_jump (s : Builder) (b : BlockId) : (s.jump b).current = none := by
  cases hcur : s.current with
  | none => unfold jump; simp only [hcur]
  | some a => rw [jump_eq hcur]; rfl

@[simp] theorem loops_jump (s : Builder) (b : BlockId) : (s.jump b).loops = s.loops := by
  cases hcur : s.current with
  | none => unfold jump; simp only [hcur]
  | some a => rw [jump_eq hcur]; rfl

@[simp] theorem count_jump (s : Builder) (b : BlockId) : (s.jump b).count = s.count := by
  cases hcur : s.current with
  | none => unfold jump; simp only [hcur]
  | some a => rw [jump_eq hcur, count_recordEdge]; rfl

theorem jump_of_none (hcur : s.current = none) : s.jump b = s := by
  unfold jump
  simp only [hcur]

theorem good_jump (hs : s.Good) (hb : s.Unbegun b) : (s.jump b).Good := by
  cases hcur : s.current with
  | none => rwa [jump_of_none hcur]
  | some a =>
    rw [jump_eq hcur]
    have hx := extends_close hs hcur (.jump b) rfl
    refine good_recordEdge hx.good ?_ (hx.near.unbegun hb) fun e he => hs.source_ne hcur he
    rw [code_close hs hcur, if_pos rfl, ended_append]
    simp [ended, Instr.isTerminator]

theorem grows_jump (hs : s.Good) (b : BlockId) : Grows s (s.jump b) := by
  cases hcur : s.current with
  | none => rw [jump_of_none hcur]; exact .refl s
  | some a =>
    rw [jump_eq hcur]
    exact (extends_close hs hcur (.jump b) rfl).grows.trans (grows_recordEdge _ a b)

theorem Local.jump {free : BlockId → Prop} {base : Builder} (h : Local free base s) (hs : s.Good)
    (hb : base.size ≤ b ∨ free b) : Local free base (s.jump b) := by
  cases hcur : s.current with
  | none => rwa [jump_of_none hcur]
  | some a =>
    rw [jump_eq hcur]
    exact (h.extend (extends_close hs hcur (.jump b) rfl) fun _ hf => hf.elim).recordEdge hb

theorem unbegun_jump (hs : s.Good) {c : BlockId} (hc : s.Unbegun c) : (s.jump b).Unbegun c :=
  (Local.jump (.refl (· = b) s) hs (Or.inr rfl)).unbegun hc

theorem edgesTo_jump (s : Builder) (b c : BlockId) : (s.jump b).edgesTo c =
    s.edgesTo c ++ if b = c then s.current.toList.map fun a => ⟨a, b, s.bindings⟩ else [] := by
  cases hcur : s.current with
  | none => rw [jump_of_none hcur]; simp
  | some a => rw [jump_eq hcur, edgesTo_recordEdge]; rfl

section Branch

variable {b' : BlockId} (c : Value)

@[simp] theorem current_branch (hcur : s.current = some a) : (s.branch c b b').current = none := by
  rw [branch_eq hcur]
  rfl

theorem loops_branch (hcur : s.current = some a) : (s.branch c b b').loops = s.loops := by
  rw [branch_eq hcur]
  rfl

theorem good_branch (hs : s.Good) (hcur : s.current = some a) (hb : s.Unbegun b)
    (hb' : s.Unbegun b') (hne : b ≠ b') : (s.branch c b b').Good := by
  rw [branch_eq hcur]
  have hx := extends_close hs hcur (.branch c b b') rfl
  have hend : ended ((s.close a (.branch c b b')).code a) = true := by
    rw [code_close hs hcur, if_pos rfl, ended_append]
    simp [ended, Instr.isTerminator]
  have hg : ((s.close a (.branch c b b')).recordEdge a b).Good :=
    good_recordEdge hx.good hend (hx.near.unbegun hb) fun e he => hs.source_ne hcur he
  refine good_recordEdge hg (by rwa [code_recordEdge]) (unbegun_recordEdge (hx.near.unbegun hb')) ?_
  intro e he
  rw [edgesTo_recordEdge, if_neg hne, List.append_nil] at he
  exact hs.source_ne hcur he

theorem grows_branch (hs : s.Good) (hcur : s.current = some a) : Grows s (s.branch c b b') := by
  rw [branch_eq hcur]
  exact (extends_close hs hcur (.branch c b b') rfl).grows.trans
    ((grows_recordEdge _ a b).trans (grows_recordEdge _ a b'))

theorem Local.branch {free : BlockId → Prop} {base : Builder} (h : Local free base s) (hs : s.Good)
    (hcur : s.current = some a) (hb : base.size ≤ b) (hb' : base.size ≤ b') :
    Local free base (s.branch c b b') := by
  rw [branch_eq hcur]
  exact ((h.extend (extends_close hs hcur (.branch c b b') rfl) fun _ hf => hf.elim).recordEdge
    (Or.inl hb)).recordEdge (Or.inl hb')

theorem unbegun_branch (hs : s.Good) (hcur : s.current = some a) {d : BlockId} (hd : s.Unbegun d) :
    (s.branch c b b').Unbegun d := by
  rw [branch_eq hcur]
  exact unbegun_recordEdge (unbegun_recordEdge ((extends_close hs hcur _ rfl).near.unbegun hd))

theorem edgesTo_branch (hcur : s.current = some a) (d : BlockId) : (s.branch c b b').edgesTo d =
    (s.edgesTo d ++ if b = d then [⟨a, b, s.bindings⟩] else []) ++
      if b' = d then [⟨a, b', s.bindings⟩] else [] := by
  rw [branch_eq hcur, edgesTo_recordEdge, edgesTo_recordEdge]
  rfl

end Branch
end Edges

/-! ### Beginning a block -/

/-- What a block begins with: its phis, the bindings, and the next unused number. -/
def entry (s : Builder) (b : BlockId) : List Instr × Bindings × Nat :=
  match s.edgesTo b with
  | [] => ([], [], s.count)
  | [e] => ([], e.bindings, s.count)
  | e :: _ => mergeBindings (s.edgesTo b) s.count e.bindings

section Enter

variable {s : Builder} {b : BlockId}

theorem enter_of_nil (h : s.edgesTo b = []) : s.enter b =
    { s with pending := s.pending.filter fun e => e.target != b, current := none, bindings := [] } := by
  unfold enter
  unfold edgesTo at h
  simp only [h]

theorem enter_of_one {e : Edge} (h : s.edgesTo b = [e]) : s.enter b =
    { s with pending := s.pending.filter fun e => e.target != b, current := some b,
             bindings := e.bindings } := by
  unfold enter
  unfold edgesTo at h
  simp only [h]

/-- Beginning a block, however many edges lead to it. -/
theorem enter_eq (s : Builder) (b : BlockId) : s.enter b =
    { s with
      pending := s.pending.filter fun e => e.target != b
      current := if s.edgesTo b = [] then none else some b
      bindings := (s.entry b).2.1
      func := ({ s.func with valueCount := (s.entry b).2.2 } : Func).modifyBlock b fun blk =>
        { blk with code := (s.entry b).1 ++ blk.code } } := by
  have hsame : s.func = s.func.modifyBlock b fun blk => { blk with code := [] ++ blk.code } :=
    (Func.modifyBlock_eq_self fun _ _ => rfl).symm
  match h : s.edgesTo b with
  | [] =>
    rw [enter_of_nil h, entry, h, if_pos rfl]
    exact congrArg (fun func => ({ s with func, pending := _, current := none, bindings := [] } : Builder)) hsame
  | [e] =>
    rw [enter_of_one h, entry, h, if_neg (List.cons_ne_nil _ _)]
    exact congrArg (fun func => ({ s with func, pending := _, current := some b, bindings := e.bindings } : Builder))
      hsame
  | e :: e' :: rest =>
    unfold enter entry
    rw [h]
    unfold edgesTo at h
    simp only [h]
    rfl

section Fields

variable (s b)

theorem pending_enter : (s.enter b).pending = s.pending.filter fun e => e.target != b := by rw [enter_eq]

@[simp] theorem loops_enter : (s.enter b).loops = s.loops := by rw [enter_eq]

@[simp] theorem size_enter : (s.enter b).size = s.size := by
  rw [enter_eq]
  exact Func.size_modifyBlock ..

theorem head_enter : (s.enter b).func.head = s.func.head := by
  rw [enter_eq]
  rfl

theorem edgesTo_enter (c : BlockId) : (s.enter b).edgesTo c = if c = b then [] else s.edgesTo c :=
  edgesTo_filter (pending_enter s b) c

theorem bindings_enter : (s.enter b).bindings = (s.entry b).2.1 := by rw [enter_eq]

theorem count_enter : (s.enter b).count = (s.entry b).2.2 := by
  rw [enter_eq]
  rfl

theorem current_enter : (s.enter b).current = if s.edgesTo b = [] then none else some b := by rw [enter_eq]

theorem current_enter_or : (s.enter b).current = none ∨ (s.enter b).current = some b := by
  rw [current_enter]
  split_ifs
  · exact Or.inl rfl
  · exact Or.inr rfl

end Fields

/-- The phis are all that a block holds where it begins. -/
theorem code_enter (hb : s.Unbegun b) (c : BlockId) :
    (s.enter b).code c = if c = b then (s.entry b).1 else s.code c := by
  rw [enter_eq]
  refine (Func.code_modifyBlock _ (fun blk => (s.entry b).1 ++ blk.code) hb.lt c).trans ?_
  obtain ⟨blk, hblk, hcode⟩ := Func.exists_block hb.lt
  have hnil : blk.code = [] := hcode.symm.trans hb.code
  change (if c = b then ((s.func.block? b).map fun blk => (s.entry b).1 ++ blk.code).getD []
    else s.code c) = _
  rw [hblk, Option.map_some, Option.getD_some, hnil, List.append_nil]

/-- A block begins with phis only, which define values that were not in use. -/
theorem entry_facts (hs : s.Good) (b : BlockId) :
    (∀ i ∈ (s.entry b).1, i.isPhi = true) ∧ s.count ≤ (s.entry b).2.2 ∧
      ∀ j v, (s.entry b).2.1.get? j = some v → v.id < (s.entry b).2.2 := by
  match h : s.edgesTo b with
  | [] =>
    rw [entry, h]
    exact ⟨by simp, le_rfl, by simp⟩
  | [e] =>
    rw [entry, h]
    have he : e ∈ s.edgesTo b := by rw [h]; exact List.mem_cons_self
    exact ⟨by simp, le_rfl, hs.carried e (mem_edgesTo.mp he).1⟩
  | e :: e' :: rest =>
    have hent : s.entry b = mergeBindings (s.edgesTo b) s.count e.bindings := by
      unfold entry
      simp only [h]
    rw [hent]
    have he : e ∈ s.edgesTo b := by rw [h]; exact List.mem_cons_self
    obtain ⟨k, hk, hids, hphis, hget⟩ := mergeBindings_facts (s.edgesTo b) e.bindings s.count
    refine ⟨fun i hi => ?_, by rw [hk]; omega, fun j v hv => ?_⟩
    · obtain ⟨t, entries, symbol, rfl, -⟩ := hphis i hi
      rfl
    · rcases hget j v hv with h | ⟨entries, -, hmem⟩
      · have := hs.carried e (mem_edgesTo.mp he).1 j v (h e he)
        omega
      · have hin : v.id ∈ List.range' s.count k := by
          rw [← hids]
          exact List.mem_map.mpr ⟨v, List.mem_filterMap.mpr ⟨_, hmem, rfl⟩, rfl⟩
        rw [List.mem_range'_1] at hin
        omega

theorem not_ended_of_phis {c : List Instr} (h : ∀ i ∈ c, i.isPhi = true) : ended c = false := by
  unfold ended
  rw [List.any_eq_false]
  intro i hi
  have := h i hi
  cases i <;> simp_all [Instr.isPhi, Instr.isTerminator]

variable {s' : Builder} {phis : List Instr}

/-- A block begins, with some phis, and the edges to it are used up. -/
theorem Good.of_begin (hs : s.Good) (hb : s.Unbegun b)
    (hphis : ∀ i ∈ phis, i.isPhi = true) (hsize : s'.size = s.size) (hcount : s.count ≤ s'.count)
    (hcode : ∀ c, s'.code c = if c = b then phis else s.code c)
    (hcur' : s'.current = none ∨ s'.current = some b)
    (hbind : ∀ j v, s'.bindings.get? j = some v → v.id < s'.count)
    (hpend : s'.pending = s.pending.filter fun e => e.target != b) (hloops : s'.loops = s.loops)
    (hfree : ∀ l ∈ s.loops, l.onContinue ≠ b ∧ l.onBreak ≠ b) : s'.Good := by
  have hopen : ended (s'.code b) = false := by
    rw [hcode, if_pos rfl]
    exact not_ended_of_phis hphis
  refine hs.of_change b hsize hcount (fun c hc => (hcode c).trans (if_neg hc)) (fun h => ?_)
    (hcur'.imp_right fun h => ⟨h, hb.lt, hopen⟩) hbind (fun e he => ?_) (fun c => ?_) hloops hfree
  · rw [hb.code] at h
    cases h
  · rwa [hpend, List.mem_filter, bne_iff_ne] at he
  · rw [edgesTo_filter hpend]
    split_ifs
    · exact List.nodup_nil
    · exact hs.distinct c

variable {free : BlockId → Prop} {base : Builder}

theorem Local.of_begin (h : Local free base s) (hb : base.size ≤ b) (hsize : s'.size = s.size)
    (hcode : ∀ c, s'.code c = if c = b then phis else s.code c)
    (hcur' : s'.current = none ∨ s'.current = some b)
    (hedges : ∀ c, c ≠ b → s'.edgesTo c = s.edgesTo c) : Local free base s' := by
  have hne : ∀ c, c < base.size → c ≠ b := fun c hc => by omega
  refine h.step hsize.ge (fun c hc _ => by rw [hcode, if_neg (hne c hc)])
    (fun c hc => by rw [hcode, if_neg (hne c hc)]) (fun c hc => ?_)
    (fun c hc => by rw [hedges c (hne c hc)]) (fun c hc _ => hedges c (hne c hc))
  rcases hcur' with h' | h'
  · rw [h'] at hc; cases hc
  · rw [h'] at hc
    exact Or.inr (Option.some.inj hc ▸ hb)

theorem good_enter (hs : s.Good) (hb : s.Unbegun b)
    (hfree : ∀ l ∈ s.loops, l.onContinue ≠ b ∧ l.onBreak ≠ b) : (s.enter b).Good := by
  obtain ⟨hphis, hcount, hbind⟩ := entry_facts hs b
  refine hs.of_begin hb hphis (size_enter s b) (by rwa [count_enter]) (code_enter hb)
    (current_enter_or s b) ?_ (pending_enter s b) (loops_enter s b) hfree
  rwa [bindings_enter, count_enter]

theorem grows_enter (hs : s.Good) (hcur : s.current = none) (hb : s.Unbegun b) :
    Grows s (s.enter b) :=
  .of_begin (head_enter s b) hcur hb (size_enter s b).ge (by rw [count_enter]; exact (entry_facts hs b).2.1)
    (code_enter hb)

theorem Local.enter (h : Local free base s) (hb : base.size ≤ b) (hun : s.Unbegun b) :
    Local free base (s.enter b) :=
  h.of_begin hb (size_enter s b) (code_enter hun) (current_enter_or s b)
    fun c hc => by rw [edgesTo_enter, if_neg hc]

theorem unbegun_enter {c : BlockId} (hb : s.Unbegun b) (hc : s.Unbegun c) (hne : c ≠ b) :
    (s.enter b).Unbegun c := by
  refine ⟨by rw [size_enter]; exact hc.lt, by rw [code_enter hb, if_neg hne, hc.code], fun h => ?_⟩
  rcases current_enter_or s b with h' | h'
  · rw [h'] at h; cases h
  · rw [h'] at h; exact hne (Option.some.inj h).symm

/-! ### The phi of a conditional -/

/-- A block begins, with one phi more than its bindings need. -/
def enterPhi (s : Builder) (b : BlockId) (ty : Ty) (entries : List (Value × BlockId)) : Builder :=
  ((s.enter b).insertPhi b ty entries).2

variable (ty : Ty) (entries : List (Value × BlockId))

theorem code_enterPhi (hs : s.Good) (hb : s.Unbegun b) (c : BlockId) :
    (s.enterPhi b ty entries).code c =
      if c = b then (s.entry b).1 ++ [.phi ⟨(s.enter b).count, ty⟩ entries] else s.code c := by
  have hlt : b < (s.enter b).size := by rw [size_enter]; exact hb.lt
  obtain ⟨blk, hblk, hcode⟩ := Func.exists_block hlt
  have hentry : blk.code = (s.entry b).1 := hcode.symm.trans ((code_enter hb b).trans (if_pos rfl))
  have hphis : ∀ i ∈ blk.code, i.isPhi = true := by
    rw [hentry]
    exact (entry_facts hs b).1
  have htake : blk.phis = blk.code := List.takeWhile_eq_self_iff.mpr hphis
  have hdrop : blk.body = [] := List.dropWhile_eq_nil_iff.mpr hphis
  refine (Func.code_modifyBlock _ (fun blk => blk.phis ++ .phi ⟨(s.enter b).count, ty⟩ entries :: blk.body)
    hlt c).trans ?_
  change (if c = b then (((s.enter b).func.block? b).map _).getD [] else (s.enter b).code c) = _
  rw [hblk, Option.map_some, Option.getD_some, htake, hdrop, hentry]
  split_ifs with h
  · rfl
  · rw [code_enter hb, if_neg h]

@[simp] theorem size_enterPhi (s : Builder) (b : BlockId) : (s.enterPhi b ty entries).size = s.size :=
  (Func.size_modifyBlock ..).trans (size_enter s b)

@[simp] theorem count_enterPhi (s : Builder) (b : BlockId) :
    (s.enterPhi b ty entries).count = (s.enter b).count + 1 := rfl

theorem current_enterPhi (s : Builder) (b : BlockId) :
    (s.enterPhi b ty entries).current = (s.enter b).current := rfl

theorem bindings_enterPhi (s : Builder) (b : BlockId) :
    (s.enterPhi b ty entries).bindings = (s.enter b).bindings := rfl

theorem edgesTo_enterPhi (s : Builder) (b c : BlockId) :
    (s.enterPhi b ty entries).edgesTo c = if c = b then [] else s.edgesTo c := edgesTo_enter s b c

theorem loops_enterPhi (s : Builder) (b : BlockId) :
    (s.enterPhi b ty entries).loops = s.loops := loops_enter s b

theorem good_enterPhi (hs : s.Good) (hb : s.Unbegun b)
    (hfree : ∀ l ∈ s.loops, l.onContinue ≠ b ∧ l.onBreak ≠ b) : (s.enterPhi b ty entries).Good := by
  obtain ⟨hphis, hcount, hbind⟩ := entry_facts hs b
  rw [← count_enter] at hcount hbind
  refine hs.of_begin hb (fun i hi => ?_) (size_enterPhi ty entries s b) (hcount.trans (Nat.le_succ _))
    (code_enterPhi ty entries hs hb) (current_enter_or s b) (fun j v hv => ?_) (pending_enter s b)
    (loops_enterPhi ty entries s b) hfree
  · rcases List.mem_append.mp hi with hi | hi
    · exact hphis i hi
    · rw [List.mem_singleton.mp hi]
      rfl
  · rw [bindings_enterPhi, bindings_enter] at hv
    exact (hbind j v hv).trans (Nat.lt_succ_self _)

theorem grows_enterPhi (hs : s.Good) (hcur : s.current = none) (hb : s.Unbegun b) :
    Grows s (s.enterPhi b ty entries) :=
  .of_begin (head_enter s b) hcur hb (size_enterPhi ty entries s b).ge
    ((grows_enter hs hcur hb).count_le.trans (Nat.le_succ _)) (code_enterPhi ty entries hs hb)

theorem Local.enterPhi (h : Local free base s) (hs : s.Good) (hb : base.size ≤ b)
    (hun : s.Unbegun b) : Local free base (s.enterPhi b ty entries) :=
  h.of_begin hb (size_enterPhi ty entries s b) (code_enterPhi ty entries hs hun) (current_enter_or s b)
    fun c hc => by rw [edgesTo_enterPhi, if_neg hc]

end Enter

end Builder
end Chordal.Ssa
