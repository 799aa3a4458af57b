/-
# The head of a loop

A loop is opened by leaving the block before it for the body or the exit, and by
beginning the body with one phi for each variable that the loop may change. It
is closed when the block at its end is known: every phi gets its second entry.

Key definitions: `Builder.headerTargets`, `Builder.headerPhis`, `Builder.closedPhis`,
`Builder.leaveFor`, `Builder.LoopOpened`.
Key theorems: `Builder.openLoop_facts`, `Builder.good_openLoop`, `Builder.closeHeader_facts`.
-/
import Mathlib
import Chordal.Proofs.Ssa.BuilderState

namespace Chordal.Ssa
namespace Builder

/-! ### The head of a loop -/

/-- The phis of the variables that a loop carries, with their numbers from `fresh` on. -/
def headerTargets : (fresh : Nat) → List (Nat × Value) → List (Nat × Value)
  | _, [] => []
  | fresh, (symbol, v) :: rest => (symbol, ⟨fresh, v.ty⟩) :: headerTargets (fresh + 1) rest

/-- The phis at the head of a loop, with the entry from the block before it. -/
def headerPhis (pre : BlockId) : (fresh : Nat) → List (Nat × Value) → List Instr
  | _, [] => []
  | fresh, (_, v) :: rest => .phi ⟨fresh, v.ty⟩ [(v, pre)] :: headerPhis pre (fresh + 1) rest

/-- The bindings in which the given variables are held in the given values. -/
def rebind (bindings : Bindings) (held : List (Nat × Value)) : Bindings :=
  held.foldl (fun m p => m.insert p.1 p.2) bindings

/-- What the head of a loop adds to a builder: `r` are its phis and the builder then. -/
structure HeaderAdded (pre body : BlockId) (carried : List (Nat × Value)) (s : Builder)
    (r : List (Nat × Value) × Builder) : Prop where
  targets : r.1 = headerTargets s.count carried
  current : r.2.current = some body
  head : r.2.func.head = s.func.head
  size : r.2.size = s.size
  count : r.2.count = s.count + carried.length
  pending : r.2.pending = s.pending
  loops : r.2.loops = s.loops
  bindings : r.2.bindings = rebind s.bindings (headerTargets s.count carried)
  code : ∀ c, r.2.code c = if c = body then s.code body ++ headerPhis pre s.count carried else s.code c

theorem header_facts (pre body : BlockId) : ∀ (carried : List (Nat × Value)) (s : Builder),
    s.current = some body → body < s.size → HeaderAdded pre body carried s (header pre carried s)
  | [], s, hcur, _ => by
    refine ⟨rfl, hcur, rfl, rfl, rfl, rfl, rfl, rfl, fun c => ?_⟩
    rw [headerPhis, List.append_nil]
    split_ifs with h
    · rw [h]
      rfl
    · rfl
  | (symbol, v) :: rest, s, hcur, hlt => by
    -- the builder after the first phi
    set s₁ := (s.define v.ty fun target => .phi target [(v, pre)]).2.bind symbol ⟨s.count, v.ty⟩ with hs₁
    have hdef := define_snd hcur v.ty fun target => .phi target [(v, pre)]
    have hstep : header pre ((symbol, v) :: rest) s =
        ((symbol, ⟨s.count, v.ty⟩) :: (header pre rest s₁).1, (header pre rest s₁).2) := by
      rw [header]
      rfl
    have hcur₁ : s₁.current = some body := by rw [hs₁, hdef]; exact hcur
    have hhead₁ : s₁.func.head = s.func.head := by rw [hs₁, hdef]; rfl
    have hsize₁ : s₁.size = s.size := by rw [hs₁, hdef]; exact Func.size_push ..
    have hcount₁ : s₁.count = s.count + 1 := by rw [hs₁, hdef]; rfl
    have hcode₁ : ∀ c, s₁.code c =
        if c = body then s.code body ++ [.phi ⟨s.count, v.ty⟩ [(v, pre)]] else s.code c := by
      rw [hs₁, hdef]
      exact Func.code_push _ _ hlt
    obtain ⟨h₁, h₂, h₀, h₃, h₄, h₅, h₆, h₇, h₈⟩ := header_facts pre body rest s₁ hcur₁ (hsize₁ ▸ hlt)
    rw [hcount₁] at h₁ h₄ h₇ h₈
    rw [hstep]
    refine ⟨?_, h₂, h₀.trans hhead₁, h₃.trans hsize₁, ?_, ?_, ?_, ?_, fun c => ?_⟩
    · rw [h₁, headerTargets]
    · rw [h₄, List.length_cons]
      omega
    · rw [h₅, hs₁, hdef]
      rfl
    · rw [h₆, hs₁, hdef]
      rfl
    · rw [h₇, headerTargets, hs₁, hdef]
      rfl
    · rw [h₈, hcode₁ body, if_pos rfl, hcode₁ c]
      split_ifs with h
      · rw [headerPhis, List.append_assoc]
        rfl
      · rfl

theorem headerPhis_isPhi (pre : BlockId) : ∀ (carried : List (Nat × Value)) (fresh : Nat),
    ∀ i ∈ headerPhis pre fresh carried, i.isPhi = true
  | [], _, i, hi => by cases hi
  | (_, _) :: rest, fresh, i, hi => by
    rw [headerPhis] at hi
    rcases List.mem_cons.mp hi with rfl | hi
    · rfl
    · exact headerPhis_isPhi pre rest (fresh + 1) i hi

theorem headerTargets_lt : ∀ (carried : List (Nat × Value)) (fresh : Nat),
    ∀ p ∈ headerTargets fresh carried, p.2.id < fresh + carried.length
  | [], _, p, hp => by cases hp
  | (_, _) :: rest, fresh, p, hp => by
    rw [headerTargets] at hp
    rw [List.length_cons]
    rcases List.mem_cons.mp hp with rfl | hp
    · simp only
      omega
    · have := headerTargets_lt rest (fresh + 1) p hp
      omega

/-- A variable is held as before, or in one of the given values. -/
theorem get?_rebind : ∀ (held : List (Nat × Value)) (bindings : Bindings) (j : Nat) (v : Value),
    (rebind bindings held).get? j = some v →
      (j, v) ∈ held ∨ bindings.get? j = some v ∧ j ∉ held.map Prod.fst
  | [], _, _, _, h => Or.inr ⟨h, by simp⟩
  | (k, w) :: held, bindings, j, v, h => by
    rcases get?_rebind held (bindings.insert k w) j v h with h | ⟨h, hn⟩
    · exact Or.inl (List.mem_cons_of_mem _ h)
    · rw [IdMap.get?_insert] at h
      split_ifs at h with hj
      · obtain rfl := Option.some.inj h
        subst hj
        exact Or.inl List.mem_cons_self
      · refine Or.inr ⟨h, ?_⟩
        rw [List.map_cons, List.mem_cons]
        rintro (rfl | hmem)
        · exact hj rfl
        · exact hn hmem

theorem get?_rebind_of_notMem : ∀ (held : List (Nat × Value)) (bindings : Bindings) {j : Nat},
    j ∉ held.map Prod.fst → (rebind bindings held).get? j = bindings.get? j
  | [], _, _, _ => rfl
  | (k, w) :: held, bindings, j, h => by
    rw [List.map_cons, List.mem_cons, not_or] at h
    have ih := get?_rebind_of_notMem held (bindings.insert k w) h.2
    rw [IdMap.get?_insert, if_neg h.1] at ih
    exact ih

/-! ### Opening a loop -/

/-- The edge into a loop's body carries no bindings. -/
def wire (s : Builder) (a b : BlockId) : Builder := { s with func := s.func.addEdge a b }

@[simp] theorem code_wire (s : Builder) (a b c : BlockId) : (s.wire a b).code c = s.code c :=
  Func.code_addEdge s.func a b c

@[simp] theorem size_wire (s : Builder) (a b : BlockId) : (s.wire a b).size = s.size :=
  Func.size_addEdge s.func a b

@[simp] theorem count_wire (s : Builder) (a b : BlockId) : (s.wire a b).count = s.count :=
  Func.valueCount_addEdge s.func a b

theorem extends_wire {s : Builder} (hs : s.Good) (a b : BlockId) :
    Extends (fun _ => False) s (s.wire a b) := by
  have hgood : (s.wire a b).Good :=
    good_of_widened (s := s) rfl rfl (size_wire s a b).ge (fun c => by rw [code_wire]; exact .refl _) hs rfl rfl
      (count_wire s a b)
  refine ⟨.of_eq (Func.head_addEdge s.func a b) (size_wire s a b).ge (count_wire s a b).ge (code_wire s a b) rfl,
    ⟨(size_wire s a b).ge, fun c _ _ => code_wire s a b c, fun c => by rw [code_wire],
      fun _ h => Or.inl h, fun _ _ => List.prefix_rfl, fun _ _ _ => rfl⟩, hgood, rfl, fun c hc => ?_⟩
  exact hgood.edgesTo_of_size_le (by rwa [size_wire])

/-- The block `a` is left for a loop's body or its exit. -/
def leaveFor (s : Builder) (l : LoopBlocks) (a : BlockId) (c : Value) : Builder :=
  ((s.close a (.branch c l.body l.exit)).wire a l.body).recordEdge a l.exit

theorem branchLoop_eq {s : Builder} {a : BlockId} (hcur : s.current = some a) (l : LoopBlocks)
    (c : Value) : { s.branchLoop l a c with current := none } = s.leaveFor l a c := by
  unfold branchLoop leaveFor emit close wire recordEdge
  simp only [hcur]

section Leave

variable {s : Builder} {l : LoopBlocks} {a : BlockId} {c : Value}

section

variable (s l a c)

@[simp] theorem size_leaveFor : (s.leaveFor l a c).size = s.size := by
  unfold leaveFor
  rw [size_recordEdge, size_wire]
  exact Func.size_push ..

@[simp] theorem count_leaveFor : (s.leaveFor l a c).count = s.count := by
  unfold leaveFor
  rw [count_recordEdge, count_wire]
  rfl

theorem pending_leaveFor : (s.leaveFor l a c).pending = s.pending ++ [⟨a, l.exit, s.bindings⟩] := rfl

theorem edgesTo_leaveFor (d : BlockId) : (s.leaveFor l a c).edgesTo d =
    s.edgesTo d ++ if l.exit = d then [⟨a, l.exit, s.bindings⟩] else [] :=
  edgesTo_recordEdge _ a l.exit d

end

theorem code_leaveFor (hs : s.Good) (hcur : s.current = some a) (d : BlockId) :
    (s.leaveFor l a c).code d =
      if d = a then s.code a ++ [.branch c l.body l.exit] else s.code d := by
  unfold leaveFor
  rw [code_recordEdge, code_wire, code_close hs hcur]

theorem good_leaveFor (hs : s.Good) (hcur : s.current = some a) (hexit : s.Unbegun l.exit) :
    (s.leaveFor l a c).Good := by
  have hx := extends_close hs hcur (.branch c l.body l.exit) rfl
  have hw := extends_wire hx.good a l.body
  refine good_recordEdge hw.good ?_ (hw.near.unbegun (hx.near.unbegun hexit))
    fun e he => hs.source_ne hcur he
  rw [code_wire, code_close hs hcur, if_pos rfl, ended_append]
  simp [ended, Instr.isTerminator]

theorem grows_leaveFor (hs : s.Good) (hcur : s.current = some a) : Grows s (s.leaveFor l a c) := by
  have hx := extends_close hs hcur (.branch c l.body l.exit) rfl
  exact hx.grows.trans ((extends_wire hx.good a l.body).grows.trans (grows_recordEdge _ a l.exit))

theorem Local.leaveFor {free : BlockId → Prop} {base : Builder} (h : Local free base s) (hs : s.Good)
    (hcur : s.current = some a) (hexit : base.size ≤ l.exit) :
    Local free base (s.leaveFor l a c) := by
  have hx := extends_close hs hcur (.branch c l.body l.exit) rfl
  exact ((h.extend hx fun _ hf => hf.elim).extend (extends_wire hx.good a l.body)
    fun _ hf => hf.elim).recordEdge (Or.inl hexit)

theorem unbegun_leaveFor (hs : s.Good) (hcur : s.current = some a) {d : BlockId} (hd : s.Unbegun d) :
    (s.leaveFor l a c).Unbegun d := by
  have hx := extends_close hs hcur (.branch c l.body l.exit) rfl
  exact unbegun_recordEdge ((extends_wire hx.good a l.body).near.unbegun (hx.near.unbegun hd))

end Leave

section Open

variable {s : Builder} {pre : BlockId} {l : LoopBlocks}

/-- What opening a loop does to a builder: `r` are the phis of the variables and the
builder then, and `phis` is what stands in the block of the body. -/
structure LoopOpened (s : Builder) (l : LoopBlocks) (pre : BlockId) (guard : Value) (symbols : IdSet)
    (phis : List Instr) (r : List (Nat × Value) × Builder) : Prop where
  targets : r.1 = headerTargets s.count (s.carried symbols)
  current : r.2.current = some l.body
  head : r.2.func.head = (s.leaveFor l pre guard).func.head
  size : r.2.size = s.size
  count : r.2.count = s.count + (s.carried symbols).length
  pending : r.2.pending = s.pending ++ [⟨pre, l.exit, s.bindings⟩]
  loops : r.2.loops = ⟨l.next, l.exit⟩ :: s.loops
  bindings : r.2.bindings = rebind s.bindings (headerTargets s.count (s.carried symbols))
  code : ∀ c, r.2.code c = if c = l.body then phis else (s.leaveFor l pre guard).code c

/-- Opening a loop, whatever stands in the block of the body. -/
theorem openLoop_onto (hcur : s.current = some pre) (hlt : l.body < s.size) (guard : Value) (symbols : IdSet) :
    LoopOpened s l pre guard symbols
      ((s.leaveFor l pre guard).code l.body ++ headerPhis pre s.count (s.carried symbols))
      (s.openLoop l pre guard symbols) := by
  set x : Builder := { s.leaveFor l pre guard with current := some l.body } with hx
  have hopen : s.openLoop l pre guard symbols =
      ((header pre (s.carried symbols) x).1,
        { (header pre (s.carried symbols) x).2 with
          loops := ⟨l.next, l.exit⟩ :: (header pre (s.carried symbols) x).2.loops }) := by
    rw [hx, ← branchLoop_eq hcur]
    rfl
  have hsize : x.size = s.size := size_leaveFor s l pre guard
  obtain ⟨h₁, h₂, h₀, h₃, h₄, h₅, h₆, h₇, h₈⟩ :=
    header_facts pre l.body (s.carried symbols) x rfl (by rwa [hsize])
  have hcount : x.count = s.count := count_leaveFor s l pre guard
  have hbind : x.bindings = s.bindings := rfl
  rw [hcount] at h₁ h₄ h₇ h₈
  rw [hopen]
  refine ⟨h₁, h₂, h₀, h₃.trans hsize, h₄, h₅, ?_, ?_, h₈⟩
  · rw [h₆]
    rfl
  · rw [h₇, hbind]

section

variable (hs : s.Good) (hcur : s.current = some pre) (hbody : s.Unbegun l.body)

include hs hcur hbody

/-- Opening a loop at blocks that are not begun. -/
theorem openLoop_facts (guard : Value) (symbols : IdSet) :
    LoopOpened s l pre guard symbols (headerPhis pre s.count (s.carried symbols))
      (s.openLoop l pre guard symbols) := by
  have h := openLoop_onto hcur hbody.lt guard symbols
  rwa [(unbegun_leaveFor (l := l) (c := guard) hs hcur hbody).code, List.nil_append] at h

theorem good_openLoop (hnext : s.Unbegun l.next) (hexit : s.Unbegun l.exit) (hbn : l.body ≠ l.next)
    (hbe : l.body ≠ l.exit) (hedges : s.edgesTo l.body = [])
    (hfree : ∀ t ∈ s.loops, t.onContinue ≠ l.body ∧ t.onBreak ≠ l.body) (guard : Value)
    (symbols : IdSet) : (s.openLoop l pre guard symbols).2.Good := by
  obtain ⟨-, h₂, -, h₃, h₄, h₅, h₆, h₇, h₈⟩ := openLoop_facts hs hcur hbody guard symbols
  have hg : (s.leaveFor l pre guard).Good := good_leaveFor hs hcur hexit
  have hb := unbegun_leaveFor (l := l) (c := guard) hs hcur hbody
  set s' := (s.openLoop l pre guard symbols).2 with hs'
  have hbind : ∀ j v, s'.bindings.get? j = some v → v.id < s'.count := by
    intro j v hv
    rw [h₇] at hv
    rw [h₄]
    rcases get?_rebind _ _ j v hv with h | ⟨h, -⟩
    · exact headerTargets_lt _ _ _ h
    · exact (hs.bindings j v h).trans_le (Nat.le_add_right _ _)
  have hpend : s'.pending = (s.leaveFor l pre guard).pending.filter fun e => e.target != l.body := by
    rw [h₅, pending_leaveFor, eq_comm, List.filter_eq_self]
    intro e he
    rw [bne_iff_ne]
    rcases List.mem_append.mp he with he | he
    · intro heq
      have : e ∈ s.edgesTo l.body := mem_edgesTo.mpr ⟨he, heq⟩
      rw [hedges] at this
      cases this
    · rw [List.mem_singleton.mp he]
      exact hbe.symm
  -- the body is begun, and only then the loop is entered in the list of loops
  have hinner : ({ s' with loops := s.loops } : Builder).Good :=
    hg.of_begin hb
      (headerPhis_isPhi pre (s.carried symbols) s.count) (h₃.trans (size_leaveFor s l pre guard).symm)
      (by rw [count_leaveFor]; exact (Nat.le_add_right _ _).trans_eq h₄.symm) h₈ (Or.inr h₂) hbind
      hpend rfl hfree
  have hun : ∀ c, c ≠ l.body → s.Unbegun c → s'.Unbegun c := by
    intro c hne hc
    have hc' := unbegun_leaveFor (l := l) (c := guard) hs hcur hc
    refine ⟨h₃ ▸ hc.lt, by rw [h₈, if_neg hne, hc'.code], fun h => ?_⟩
    rw [h₂] at h
    exact hne (Option.some.inj h).symm
  have hloops : s' = { ({ s' with loops := s.loops } : Builder) with loops := ⟨l.next, l.exit⟩ :: s.loops } := by
    rw [← h₆]
  rw [hloops]
  refine hinner.setLoops _ fun t ht => ?_
  rcases List.mem_cons.mp ht with rfl | ht
  · exact ⟨(hun _ hbn.symm hnext).of_eq le_rfl rfl rfl, (hun _ hbe.symm hexit).of_eq le_rfl rfl rfl⟩
  · exact hinner.loops t ht

theorem grows_openLoop (guard : Value) (symbols : IdSet) : Grows s (s.openLoop l pre guard symbols).2 := by
  obtain ⟨-, h₂, h₀, h₃, h₄, -, -, -, h₈⟩ := openLoop_facts hs hcur hbody guard symbols
  refine (grows_leaveFor hs hcur).trans (.of_begin h₀ rfl
    (unbegun_leaveFor (l := l) (c := guard) hs hcur hbody) ?_ ?_ h₈)
  · rw [size_leaveFor]
    exact h₃.ge
  · rw [count_leaveFor]
    exact (Nat.le_add_right _ _).trans_eq h₄.symm

end

theorem Local.openLoop {free : BlockId → Prop} {base : Builder} (h : Local free base s) (hs : s.Good)
    (hcur : s.current = some pre) (hbody : s.Unbegun l.body) (hb : base.size ≤ l.body)
    (he : base.size ≤ l.exit) (guard : Value) (symbols : IdSet) :
    Local free base (s.openLoop l pre guard symbols).2 := by
  obtain ⟨-, h₂, -, h₃, -, h₅, -, -, h₈⟩ := openLoop_facts hs hcur hbody guard symbols
  refine (h.leaveFor hs hcur he).of_begin hb (h₃.trans (size_leaveFor s l pre guard).symm) h₈
    (Or.inr h₂) fun c _ => ?_
  exact edgesTo_of_pending (s := s.leaveFor l pre guard) h₅ c

end Open

/-! ### Closing a loop -/

/-- The phis at the head of a loop, with the entries from the block before it
and from the block at its end, where the given bindings hold. -/
def closedPhis (pre latch : BlockId) (bindings : Bindings) :
    (fresh : Nat) → List (Nat × Value) → List Instr
  | _, [] => []
  | fresh, (symbol, v) :: rest =>
    .phi ⟨fresh, v.ty⟩ [(v, pre), ((bindings.get? symbol).getD v, latch)] ::
      closedPhis pre latch bindings (fresh + 1) rest

theorem widened_closedPhis (pre latch : BlockId) (bindings : Bindings) :
    ∀ (carried : List (Nat × Value)) (fresh : Nat),
      Widened (headerPhis pre fresh carried) (closedPhis pre latch bindings fresh carried)
  | [], _ => .nil
  | (_, _) :: rest, fresh =>
    .cons (.phi _ [_] [_]) (widened_closedPhis pre latch bindings rest (fresh + 1))

/-- The phi of a target that no instruction before it defines gets the entry. -/
theorem addPhiEntry_append (target v : Value) (p : BlockId) (entries : List (Value × BlockId))
    (rest : List Instr) : ∀ done : List Instr, (∀ i ∈ done, i.target? ≠ some target) →
      addPhiEntry target v p (done ++ .phi target entries :: rest) =
        done ++ .phi target (entries ++ [(v, p)]) :: rest
  | [], _ => by
    rw [List.nil_append, List.nil_append, addPhiEntry, if_pos rfl]
  | i :: done, h => by
    have ih := addPhiEntry_append target v p entries rest done fun j hj => h j (List.mem_cons_of_mem _ hj)
    have hi := h i List.mem_cons_self
    cases i with
    | phi t es =>
      have hne : t ≠ target := fun heq => hi (congrArg some heq)
      rw [List.cons_append, List.cons_append, addPhiEntry, if_neg hne, ih]
    | const | bool | move | unary | binary | jump | branch | ret =>
      rw [List.cons_append, List.cons_append, addPhiEntry, ih]
      simp

/-- What closing the head of a loop does: every phi gets its second entry. -/
theorem closeHeader_facts (body pre latch : BlockId) (tail : List Instr) :
    ∀ (carried : List (Nat × Value)) (fresh : Nat) (done : List Instr) (s s' : Builder),
      closeHeader body latch (headerTargets fresh carried) s = .ok s' → body < s.size →
      s.code body = done ++ headerPhis pre fresh carried ++ tail →
      (∀ i ∈ done, ∀ t, i.target? = some t → t.id < fresh) →
      (∀ p ∈ carried, ∃ v, s.bindings.get? p.1 = some v) ∧
      s'.func.head = s.func.head ∧ s'.current = s.current ∧ s'.bindings = s.bindings ∧
      s'.pending = s.pending ∧
      s'.loops = s.loops ∧ s'.size = s.size ∧ s'.count = s.count ∧
      ∀ c, s'.code c = if c = body then done ++ closedPhis pre latch s.bindings fresh carried ++ tail
        else s.code c
  | [], fresh, done, s, s', h, _, hcode, _ => by
    obtain rfl : s = s' := by
      rw [headerTargets, closeHeader] at h
      exact Except.ok.inj h
    refine ⟨by simp, rfl, rfl, rfl, rfl, rfl, rfl, rfl, fun c => ?_⟩
    split_ifs with hc
    · rw [hc, hcode]
      rfl
    · rfl
  | (symbol, v) :: rest, fresh, done, s, s', h, hlt, hcode, hdone => by
    rw [headerTargets, closeHeader] at h
    cases hget : s.bindings.get? symbol with
    | none => rw [hget] at h; cases h
    | some w =>
      rw [hget] at h
      simp only at h
      set s₁ : Builder := { s with func := s.func.modifyBlock body fun blk =>
        { blk with code := addPhiEntry ⟨fresh, v.ty⟩ w latch blk.code } } with hs₁
      have hsize₁ : s₁.size = s.size := Func.size_modifyBlock ..
      have hcode₁ : ∀ c, s₁.code c = if c = body then
          (done ++ [.phi ⟨fresh, v.ty⟩ [(v, pre), (w, latch)]]) ++ headerPhis pre (fresh + 1) rest ++ tail
          else s.code c := by
        intro c
        refine (Func.code_modifyBlock s.func (fun blk => addPhiEntry ⟨fresh, v.ty⟩ w latch blk.code)
          hlt c).trans ?_
        obtain ⟨blk, hblk, hblkcode⟩ := Func.exists_block hlt
        have : blk.code = done ++ .phi ⟨fresh, v.ty⟩ [(v, pre)] :: (headerPhis pre (fresh + 1) rest ++ tail) := by
          rw [← hblkcode, ← List.cons_append, ← List.append_assoc]
          exact hcode
        rw [hblk, Option.map_some, Option.getD_some, this, addPhiEntry_append]
        · simp
        · intro i hi heq
          exact absurd (hdone i hi _ heq) (lt_irrefl _)
      obtain ⟨hb, h₀, h₁, h₂, h₃, h₄, h₅, h₆, h₇⟩ := closeHeader_facts body pre latch tail rest (fresh + 1)
        (done ++ [.phi ⟨fresh, v.ty⟩ [(v, pre), (w, latch)]]) s₁ s' h (hsize₁ ▸ hlt)
        (by rw [hcode₁, if_pos rfl]) (by
          intro i hi t ht
          rcases List.mem_append.mp hi with hi | hi
          · exact (hdone i hi t ht).trans (Nat.lt_succ_self _)
          · rw [List.mem_singleton.mp hi] at ht
            cases ht
            exact Nat.lt_succ_self _)
      refine ⟨fun p hp => ?_, h₀, h₁, h₂, h₃, h₄, h₅.trans hsize₁, h₆, fun c => ?_⟩
      · rcases List.mem_cons.mp hp with rfl | hp
        · exact ⟨w, hget⟩
        · exact hb p hp
      · rw [h₇]
        split_ifs with hc
        · have hbind : s₁.bindings = s.bindings := rfl
          rw [closedPhis, hget, hbind]
          simp
        · rw [hcode₁, if_neg hc]

end Builder
end Chordal.Ssa
