/-
# Builders that speak of blocks they have

A builder is proper if every block number in it is that of a block, and its bindings
are maps. Nothing else is asked of it: which blocks are begun or ended, and what its
code is, does not matter. The builder at the beginning of a function is proper, and
every operation keeps builders so.

In a proper builder no edge waits for a block that is not there yet. So when new
blocks are appended, the edges that wait for them are exactly those that are made
from then on, and the list of waiting edges can be written down at every stage of a
piece that control may pass in two ways.

Where edges meet, a variable that all of them bind to one value keeps it; and if all
of them have the same bindings, nothing is added where they meet.

Key definitions: `Builder.Proper`, `Builder.Begins`, `Builder.Kept`, `Older`.
Key theorems: `get?_mergeBindings`, `mergeBindings_of_agree`, `Builder.Proper.enter`,
`Builder.begins_first`, `Builder.begins_second`, `Builder.meet_two`, `Builder.enter_of_agree`.
-/
import Mathlib
import Chordal.Proofs.Finite
import Chordal.Proofs.Ssa.Lowering

namespace Chordal.Ssa

/-- The bindings are a map: their symbols are in ascending order. -/
def Bindings.Ascending (m : Bindings) : Prop := m.keys.Pairwise (· < ·)

/-! ### Merging -/

section Merging

variable {edges : List Edge}

/-- Merging only drops symbols. -/
theorem keys_mergeBindings (edges : List Edge) : ∀ (m : Bindings) (fresh : Nat),
    (mergeBindings edges fresh m).2.1.keys.Sublist m.keys
  | [], _ => List.Sublist.refl _
  | (symbol, first) :: rest, fresh => by
    rw [mergeBindings_cons]
    cases edgeEntries edges symbol with
    | none => exact (keys_mergeBindings edges rest fresh).cons symbol
    | some entries =>
      simp only
      split_ifs
      · exact (keys_mergeBindings edges rest fresh).cons_cons symbol
      · exact (keys_mergeBindings edges rest (fresh + 1)).cons_cons symbol

/-- The entries of a symbol that all edges bind to one value. -/
theorem edgeEntries_of_agree : ∀ {edges : List Edge} {j : Nat} {v : Value},
    (∀ e ∈ edges, e.bindings.get? j = some v) → edgeEntries edges j = some (edges.map fun e => (v, e.source))
  | [], _, _, _ => rfl
  | e :: edges, j, v, h => by
    have ih := edgeEntries_of_agree fun e' he => h e' (List.mem_cons_of_mem _ he)
    unfold edgeEntries at ih ⊢
    rw [List.mapM_cons, h e List.mem_cons_self, ih]
    rfl

theorem all_entries_of_agree (edges : List Edge) (v : Value) :
    (edges.map fun e => (v, e.source)).all (fun e => e.1 == v) = true := by
  simp

/-- A symbol that all edges bind to one value keeps it. -/
theorem get?_mergeBindings {j : Nat} {v : Value} (h : ∀ e ∈ edges, e.bindings.get? j = some v) :
    ∀ (m : Bindings) (fresh : Nat), m.get? j = some v → (mergeBindings edges fresh m).2.1.get? j = some v
  | [], _, hm => by cases hm
  | (symbol, first) :: rest, fresh, hm => by
    rw [mergeBindings_cons]
    rw [IdMap.get?_cons] at hm
    by_cases hj : symbol = j
    · subst hj
      rw [if_pos rfl] at hm
      obtain rfl := Option.some.inj hm
      rw [edgeEntries_of_agree h]
      simp only [all_entries_of_agree, if_true]
      rw [IdMap.get?_cons, if_pos rfl]
    · rw [if_neg hj] at hm
      cases edgeEntries edges symbol with
      | none => exact get?_mergeBindings h rest fresh hm
      | some entries =>
        simp only
        split_ifs
        · rw [IdMap.get?_cons, if_neg hj]
          exact get?_mergeBindings h rest fresh hm
        · rw [IdMap.get?_cons, if_neg hj]
          exact get?_mergeBindings h rest (fresh + 1) hm

/-- Where all edges agree, there are no phis and the bindings stay. -/
theorem mergeBindings_of_agree : ∀ (m : Bindings) (fresh : Nat),
    (∀ p ∈ m, ∀ e ∈ edges, e.bindings.get? p.1 = some p.2) → mergeBindings edges fresh m = ([], m, fresh)
  | [], _, _ => rfl
  | (symbol, first) :: rest, fresh, h => by
    rw [List.forall_mem_cons] at h
    rw [mergeBindings_cons, edgeEntries_of_agree h.1, mergeBindings_of_agree rest fresh h.2]
    simp only [all_entries_of_agree, if_true]

end Merging

/-! ### Lists of edges -/

/-- The edges go to blocks below `n`. -/
def Older (n : Nat) (edges : List Edge) : Prop := ∀ e ∈ edges, e.target < n

namespace Older

variable {n m : Nat} {edges : List Edge} {b : BlockId}

theorem mono (h : Older n edges) (hnm : n ≤ m) : Older m edges := fun e he => (h e he).trans_le hnm

theorem filter_eq (h : Older n edges) (hb : n ≤ b) : edges.filter (fun e => e.target == b) = [] := by
  rw [List.filter_eq_nil_iff]
  intro e he hbeq
  exact absurd (h e he) (Nat.not_lt.mpr (beq_iff_eq.mp hbeq ▸ hb))

theorem filter_ne (h : Older n edges) (hb : n ≤ b) : edges.filter (fun e => e.target != b) = edges := by
  rw [List.filter_eq_self]
  intro e he
  rw [bne_iff_ne]
  exact fun heq => absurd (h e he) (Nat.not_lt.mpr (heq ▸ hb))

end Older

namespace Builder

/-! ### Proper builders -/

/-- Block numbers are those of blocks, and bindings are maps. -/
structure Proper (s : Builder) : Prop where
  current : ∀ b, s.current = some b → b < s.size
  targets : Older s.size s.pending
  loops : ∀ l ∈ s.loops, l.onContinue < s.size ∧ l.onBreak < s.size
  bindings : s.bindings.Ascending
  carried : ∀ e ∈ s.pending, e.bindings.Ascending

theorem proper_start (f : Typed.Func) : (Builder.start f).Proper where
  current b hb := by
    obtain rfl := Option.some.inj hb
    exact Nat.one_pos
  targets := fun _ he => absurd he List.not_mem_nil
  loops := fun _ hl => absurd hl List.not_mem_nil
  bindings := List.Pairwise.nil
  carried := fun _ he => absurd he List.not_mem_nil

namespace Proper

variable {s s' : Builder} {a b : BlockId}

/-- A builder that differs only in its flow graph, which has not lost blocks. -/
theorem congr (hs : s.Proper) (hsize : s.size ≤ s'.size) (hcur : s'.current = s.current)
    (hbind : s'.bindings = s.bindings) (hpend : s'.pending = s.pending) (hloops : s'.loops = s.loops) : s'.Proper where
  current b hb := (hs.current b (hcur ▸ hb)).trans_le hsize
  targets := hpend ▸ hs.targets.mono hsize
  loops l hl := by
    obtain ⟨h₁, h₂⟩ := hs.loops l (hloops ▸ hl)
    exact ⟨h₁.trans_le hsize, h₂.trans_le hsize⟩
  bindings := hbind ▸ hs.bindings
  carried e he := hs.carried e (hpend ▸ he)

/-- Control stops, and an edge to a block may wait. -/
theorem leave (hs : s.Proper) (hsize : s.size ≤ s'.size) (hcur : s'.current = none) (hbind : s'.bindings = s.bindings)
    (hpend : ∀ e ∈ s'.pending, e ∈ s.pending ∨ e.target < s'.size ∧ e.bindings = s.bindings)
    (hloops : s'.loops = s.loops) : s'.Proper where
  current b hb := by
    rw [hcur] at hb
    cases hb
  targets e he := by
    rcases hpend e he with he | ⟨he, -⟩
    · exact (hs.targets e he).trans_le hsize
    · exact he
  loops l hl := by
    obtain ⟨h₁, h₂⟩ := hs.loops l (hloops ▸ hl)
    exact ⟨h₁.trans_le hsize, h₂.trans_le hsize⟩
  bindings := hbind ▸ hs.bindings
  carried e he := by
    rcases hpend e he with he | ⟨-, he⟩
    · exact hs.carried e he
    · exact he ▸ hs.bindings

theorem jump (hs : s.Proper) (hb : b < s.size) : (s.jump b).Proper := by
  cases hcur : s.current with
  | none => rwa [jump_of_none hcur]
  | some a =>
    rw [jump_eq hcur]
    have hsize : ((s.close a (.jump b)).recordEdge a b).size = s.size :=
      (size_recordEdge _ a b).trans (Func.size_push ..)
    refine hs.leave hsize.ge rfl rfl (fun e he => ?_) rfl
    rcases List.mem_append.mp he with he | he
    · exact Or.inl he
    · rw [List.mem_singleton.mp he, hsize]
      exact Or.inr ⟨hb, rfl⟩

theorem ascending_entry (hs : s.Proper) (b : BlockId) : Bindings.Ascending (s.entry b).2.1 := by
  have hmem : ∀ e ∈ s.edgesTo b, e.bindings.Ascending := fun e he => hs.carried e (mem_edgesTo.mp he).1
  rw [entry]
  rcases hedges : s.edgesTo b with _ | ⟨e, _ | ⟨e', rest⟩⟩
  · exact List.Pairwise.nil
  · exact hmem e (by rw [hedges]; exact List.mem_singleton_self e)
  · exact (hmem e (by rw [hedges]; exact List.mem_cons_self)).sublist (keys_mergeBindings _ _ _)

theorem enter (hs : s.Proper) (hb : b < s.size) : (s.enter b).Proper where
  current c hc := by
    rw [size_enter]
    rcases current_enter_or s b with h | h
    · rw [h] at hc
      cases hc
    · rw [h] at hc
      exact Option.some.inj hc ▸ hb
  targets e he := by
    rw [size_enter]
    rw [pending_enter] at he
    exact hs.targets e (List.mem_filter.mp he).1
  loops l hl := by
    rw [size_enter]
    exact hs.loops l (loops_enter s b ▸ hl)
  bindings := by
    rw [bindings_enter]
    exact hs.ascending_entry b
  carried e he := by
    rw [pending_enter] at he
    exact hs.carried e (List.mem_filter.mp he).1

end Proper

/-! ### Writing on -/

section Define

variable (s : Builder) (ty : Ty) (make : Value → Instr)

@[simp] theorem current_define : (s.define ty make).2.current = s.current := by
  unfold define emit
  cases s.current <;> rfl

@[simp] theorem bindings_define_snd : (s.define ty make).2.bindings = s.bindings := by
  unfold define emit
  cases s.current <;> rfl

@[simp] theorem pending_define : (s.define ty make).2.pending = s.pending := by
  unfold define emit
  cases s.current <;> rfl

@[simp] theorem loops_define : (s.define ty make).2.loops = s.loops := by
  unfold define emit
  cases s.current <;> rfl

@[simp] theorem size_define : (s.define ty make).2.size = s.size := by
  unfold define emit
  cases s.current with
  | none => rfl
  | some b => exact Func.size_push ..

variable {s}

theorem Proper.define (hs : s.Proper) : (s.define ty make).2.Proper :=
  hs.congr (size_define s ty make).ge (current_define s ty make) (bindings_define_snd s ty make)
    (pending_define s ty make) (loops_define s ty make)

end Define

@[simp] theorem loops_addBlocks : ∀ (kinds : List String) (s : Builder), (s.addBlocks kinds).loops = s.loops
  | [], _ => rfl
  | kind :: kinds, s => loops_addBlocks kinds (s.addBlock kind).2

theorem Proper.addBlocks {s : Builder} (hs : s.Proper) (kinds : List String) : (s.addBlocks kinds).Proper :=
  hs.congr (by rw [size_addBlocks]; exact Nat.le_add_right _ _) (current_addBlocks kinds s)
    (bindings_addBlocks kinds s) (pending_addBlocks kinds s) (loops_addBlocks kinds s)

theorem Proper.bind {s : Builder} (hs : s.Proper) (symbol : Nat) (v : Value) : (s.bind symbol v).Proper :=
  ⟨hs.current, hs.targets, hs.loops, IdMap.sorted_insert _ _ hs.bindings, hs.carried⟩

/-! ### The edges that wait -/

theorem pending_jump (s : Builder) (b : BlockId) : (s.jump b).pending = s.pending ++ s.exitEdge b := by
  unfold exitEdge
  cases hcur : s.current with
  | none => simp [jump_of_none hcur]
  | some a =>
    rw [jump_eq hcur]
    rfl

@[simp] theorem size_jump (s : Builder) (b : BlockId) : (s.jump b).size = s.size := by
  cases hcur : s.current with
  | none => rw [jump_of_none hcur]
  | some a =>
    rw [jump_eq hcur, size_recordEdge]
    exact Func.size_push ..

theorem filter_eq_exitEdge (s : Builder) (b : BlockId) :
    (s.exitEdge b).filter (fun e => e.target == b) = s.exitEdge b := by
  unfold exitEdge
  cases s.current <;> simp

theorem filter_ne_exitEdge (s : Builder) (b : BlockId) :
    (s.exitEdge b).filter (fun e => e.target != b) = [] := by
  unfold exitEdge
  cases s.current <;> simp

section Ways

variable {s x y : Builder} {a : BlockId} {kinds : List String} {v : Value} {new new' : List Edge}

theorem size_fork (hcur : s.current = some a) : (s.fork kinds v).size = s.size + kinds.length := by
  unfold fork
  rw [branch_eq ((current_addBlocks kinds s).trans hcur), size_recordEdge, size_recordEdge, ← size_addBlocks]
  exact Func.size_push ..

theorem pending_fork (hcur : s.current = some a) : (s.fork kinds v).pending =
    s.pending ++ [⟨a, s.size, s.bindings⟩, ⟨a, (s.size + 1 : Nat), s.bindings⟩] := by
  unfold fork
  rw [branch_eq ((current_addBlocks kinds s).trans hcur)]
  simp [recordEdge, close]

/-- A fork leaves the bindings and the loops as they are. -/
theorem fork_same (hcur : s.current = some a) :
    (s.fork kinds v).bindings = s.bindings ∧ (s.fork kinds v).loops = s.loops := by
  unfold fork
  rw [branch_eq ((current_addBlocks kinds s).trans hcur)]
  exact ⟨bindings_addBlocks kinds s, loops_addBlocks kinds s⟩

theorem Proper.fork (hs : s.Proper) (hcur : s.current = some a) (hk : 2 ≤ kinds.length) :
    (s.fork kinds v).Proper := by
  have hsize : (s.fork kinds v).size = s.size + kinds.length := size_fork hcur
  obtain ⟨hbind, hloops⟩ : (s.fork kinds v).bindings = s.bindings ∧ (s.fork kinds v).loops = s.loops := fork_same hcur
  refine hs.leave (hsize ▸ Nat.le_add_right _ _) (current_fork kinds v hcur) hbind (fun e he => ?_) hloops
  rw [pending_fork hcur] at he
  rw [hsize]
  simp only [List.mem_append, List.mem_cons, List.not_mem_nil, or_false] at he
  rcases he with he | rfl | rfl
  · exact Or.inl he
  · exact Or.inr ⟨Nat.lt_add_of_pos_right (by omega), rfl⟩
  · exact Or.inr ⟨Nat.add_lt_add_left (by omega) _, rfl⟩

/-- The builder `x` is at the beginning of the block `b`, one way through a piece
that began at `s`: the bindings are those there, and some more edges wait. -/
structure Begins (s x : Builder) (b : BlockId) (waiting : List Edge) : Prop where
  proper : x.Proper
  current : x.current = some b
  bindings : x.bindings = s.bindings
  pending : x.pending = s.pending ++ waiting
  loops : x.loops = s.loops

/-- The block of a way that one edge leads to. -/
theorem begins_of_one {b c : BlockId} {waiting : List Edge} (hx : x.Proper) (hb : b < x.size)
    (hedge : x.edgesTo b = [⟨c, b, s.bindings⟩])
    (hpend : (x.pending.filter fun e => e.target != b) = s.pending ++ waiting) (hloops : x.loops = s.loops) :
    Begins s (x.enter b) b waiting ∧ (x.enter b).func = x.func := by
  refine ⟨⟨hx.enter hb, ?_, ?_, (pending_enter x b).trans hpend, (loops_enter x b).trans hloops⟩, ?_⟩
  · rw [enter_of_one hedge]
  · rw [enter_of_one hedge]
  · rw [enter_of_one hedge]

/-- Where the first way of a fork begins, the edge to the second block waits. -/
theorem begins_first (kinds : List String) (v : Value) (hs : s.Proper) (hcur : s.current = some a)
    (hk : 2 ≤ kinds.length) :
    Begins s ((s.fork kinds v).enter s.size) s.size [⟨a, (s.size + 1 : Nat), s.bindings⟩] ∧
      ((s.fork kinds v).enter s.size).func = (s.fork kinds v).func := by
  refine begins_of_one (c := a) (hs.fork hcur hk) ?_ ?_ ?_ (fork_same hcur).2
  · rw [size_fork hcur]
    exact Nat.lt_add_of_pos_right (by omega)
  · unfold edgesTo
    rw [pending_fork hcur, List.filter_append, hs.targets.filter_eq le_rfl]
    simp
  · rw [pending_fork hcur, List.filter_append, hs.targets.filter_ne le_rfl]
    simp

/-- Where the second way of a fork begins, what the first way left behind waits. -/
theorem begins_second (hs : s.Proper) (hx : x.Proper) (hsize : s.size + 3 ≤ x.size)
    (hpend : x.pending = (s.pending ++ [⟨a, (s.size + 1 : Nat), s.bindings⟩]) ++ new)
    (hloops : x.loops = s.loops) (hnew : Older s.size new) :
    Begins s (s.secondWay x) (s.size + 1 : Nat) (new ++ x.exitEdge (s.size + 2 : Nat)) ∧
      (s.secondWay x).func = (x.jump (s.size + 2 : Nat)).func := by
  have hne : ∀ e ∈ x.exitEdge (s.size + 2 : Nat), e.target ≠ (s.size + 1 : Nat) := by
    intro e he
    unfold exitEdge at he
    obtain ⟨b, -, rfl⟩ := List.mem_map.mp he
    exact Nat.ne_of_gt (Nat.lt_succ_self _)
  have hexit : (x.exitEdge (s.size + 2 : Nat)).filter (fun e => e.target == (s.size + 1 : Nat)) = [] := by
    rw [List.filter_eq_nil_iff]
    exact fun e he hbeq => hne e he (beq_iff_eq.mp hbeq)
  have hexit' : (x.exitEdge (s.size + 2 : Nat)).filter (fun e => e.target != (s.size + 1 : Nat)) =
      x.exitEdge (s.size + 2 : Nat) := by
    rw [List.filter_eq_self]
    exact fun e he => bne_iff_ne.mpr (hne e he)
  refine begins_of_one (c := a) (hx.jump ?_) ?_ ?_ ?_ ((loops_jump x _).trans hloops)
  · exact Nat.lt_of_lt_of_le (Nat.lt_succ_self _) hsize
  · rw [size_jump]
    exact Nat.lt_of_lt_of_le (Nat.lt_succ_of_lt (Nat.lt_succ_self _)) hsize
  · unfold edgesTo
    rw [pending_jump, hpend]
    simp only [List.filter_append, hs.targets.filter_eq (Nat.le_succ _), hnew.filter_eq (Nat.le_succ _), hexit]
    simp
  · rw [pending_jump, hpend]
    simp only [List.filter_append, hs.targets.filter_ne (Nat.le_succ _), hnew.filter_ne (Nat.le_succ _), hexit']
    simp

/-- Where the two ways of a fork meet, their ends are the edges. -/
theorem meet_two (hs : s.Proper) (hnew : Older s.size new) (hnew' : Older s.size new')
    (hpend : y.pending = (s.pending ++ (new ++ x.exitEdge (s.size + 2 : Nat))) ++ new') :
    (y.jump (s.size + 2 : Nat)).edgesTo (s.size + 2 : Nat) =
        x.exitEdge (s.size + 2 : Nat) ++ y.exitEdge (s.size + 2 : Nat) ∧
      ((y.jump (s.size + 2 : Nat)).enter (s.size + 2 : Nat)).pending = s.pending ++ (new ++ new') := by
  have hle : s.size ≤ (s.size + 2 : Nat) := Nat.le_add_right _ _
  constructor
  · unfold edgesTo
    rw [pending_jump, hpend]
    simp only [List.filter_append, hs.targets.filter_eq hle, hnew.filter_eq hle, hnew'.filter_eq hle,
      filter_eq_exitEdge]
    simp
  · rw [pending_enter, pending_jump, hpend]
    simp only [List.filter_append, hs.targets.filter_ne hle, hnew.filter_ne hle, hnew'.filter_ne hle,
      filter_ne_exitEdge]
    simp

end Ways

/-- Where edges with the same bindings meet, nothing changes but the place. -/
theorem enter_of_agree {s : Builder} {b : BlockId} {m : Bindings} (hm : m.Ascending)
    (hne : s.edgesTo b ≠ []) (h : ∀ e ∈ s.edgesTo b, e.bindings = m) :
    (s.enter b).func = s.func ∧ (s.enter b).bindings = m ∧ (s.enter b).current = some b := by
  rcases hedges : s.edgesTo b with _ | ⟨e, _ | ⟨e', rest⟩⟩
  · exact absurd hedges hne
  · have he : e.bindings = m := h e (by rw [hedges]; exact List.mem_singleton_self e)
    rw [enter_of_one hedges]
    exact ⟨rfl, he, rfl⟩
  · have he : e.bindings = m := h e (by rw [hedges]; exact List.mem_cons_self)
    have hentry : s.entry b = ([], m, s.count) := by
      have hagree : ∀ p ∈ m, ∀ e' ∈ s.edgesTo b, e'.bindings.get? p.1 = some p.2 := fun p hp e' he' => by
        rw [h e' he']
        exact IdMap.get?_of_mem (hm.imp fun h => Nat.ne_of_lt h) hp
      have hmerge := mergeBindings_of_agree m s.count hagree
      unfold entry
      rw [hedges] at hmerge ⊢
      simp only [he, hmerge]
    rw [enter_eq, hentry]
    exact ⟨Func.modifyBlock_eq_self fun _ _ => rfl, rfl, by rw [hedges]; rfl⟩

/-! ### Code that only gets longer -/

end Builder

theorem Func.prefix_push (f : Func) (b : BlockId) (i : Instr) (c : BlockId) : f.code c <+: (f.push b i).code c := by
  unfold push code
  rw [block?_modifyBlock]
  split_ifs with h
  · subst h
    cases f.block? c with
    | none => exact List.prefix_rfl
    | some blk => exact List.prefix_append blk.code [i]
  · exact List.prefix_rfl

theorem Func.code_modifyBlock_of_ne (f : Func) {b c : BlockId} (h : c ≠ b) (g : Block → Block) :
    (f.modifyBlock b g).code c = f.code c := by
  unfold code
  rw [block?_modifyBlock, if_neg h]

namespace Builder

/-- The code of the blocks in `Q` has only got longer. -/
def Kept (Q : BlockId → Prop) (s s' : Builder) : Prop := ∀ b, Q b → s.code b <+: s'.code b

section Kept

variable {Q R : BlockId → Prop} {s s' s'' : Builder} {b : BlockId}

theorem Kept.refl (Q : BlockId → Prop) (s : Builder) : Kept Q s s := fun _ _ => List.prefix_rfl

theorem Kept.trans (h : Kept Q s s') (h' : Kept R s' s'') (hQ : ∀ b, Q b → R b) : Kept Q s s'' :=
  fun b hb => (h b hb).trans (h' b (hQ b hb))

theorem Kept.next (h : Kept Q s s') (h' : Kept Q s' s'') : Kept Q s s'' := h.trans h' fun _ hb => hb

theorem Kept.of_code (h : ∀ b, Q b → s'.code b = s.code b) : Kept Q s s' := fun b hb => by
  rw [h b hb]

theorem kept_define (s : Builder) (ty : Ty) (make : Value → Instr) : Kept Q s (s.define ty make).2 := by
  intro b _
  unfold define emit
  cases s.current with
  | none => exact List.prefix_rfl
  | some a => exact Func.prefix_push _ a _ b

theorem kept_close (s : Builder) (a : BlockId) (i : Instr) : Kept Q s (s.close a i) :=
  fun b _ => Func.prefix_push s.func a i b

theorem kept_jump (s : Builder) (b : BlockId) : Kept Q s (s.jump b) := by
  cases hcur : s.current with
  | none =>
    rw [jump_of_none hcur]
    exact .refl Q s
  | some a =>
    rw [jump_eq hcur]
    exact (kept_close s a _).next (.of_code fun c _ => code_recordEdge _ a b c)

theorem kept_fork {a : BlockId} (hcur : s.current = some a) (kinds : List String) (v : Value) :
    Kept Q s (s.fork kinds v) := by
  unfold fork
  rw [branch_eq ((current_addBlocks kinds s).trans hcur)]
  intro c hc
  rw [code_recordEdge, code_recordEdge, ← code_addBlocks kinds s]
  exact kept_close (s.addBlocks kinds) a _ c hc

theorem kept_enter (s : Builder) (hb : ¬ Q b) : Kept Q s (s.enter b) := by
  refine .of_code fun c hc => ?_
  have hne : c ≠ b := fun h => hb (h ▸ hc)
  rw [enter_eq]
  exact Func.code_modifyBlock_of_ne _ hne _

theorem kept_enterPhi (s : Builder) (hb : ¬ Q b) (ty : Ty) (entries : List (Value × BlockId)) :
    Kept Q s (s.enterPhi b ty entries) := by
  refine (kept_enter s hb).next (.of_code fun c hc => ?_)
  have hne : c ≠ b := fun h => hb (h ▸ hc)
  exact Func.code_modifyBlock_of_ne _ hne _

end Kept

end Builder
end Chordal.Ssa
