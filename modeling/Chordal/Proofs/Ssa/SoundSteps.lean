/-
# The operations of a builder keep it sound

Every operation of the builder is one of the two kinds of steps, or changes
neither code nor edges. The end of a loop, where phis get entries and an edge goes
back, is no such step.

Key theorems: `Builder.sound_define`, `Builder.sound_jump`, `Builder.sound_branch`,
`Builder.sound_enter`, `Builder.sound_enterPhi`.
-/
import Mathlib
import Chordal.Proofs.Ssa.KnownValues

namespace Chordal.Ssa

/-! ### Edges from one block -/

namespace Func

/-- Makes edges from the block `a`. -/
def addEdges (f : Func) (a : BlockId) (out : List BlockId) : Func := out.foldl (fun g b => g.addEdge a b) f

theorem addEdges_cons (f : Func) (a b : BlockId) (out : List BlockId) :
    f.addEdges a (b :: out) = (f.addEdge a b).addEdges a out := rfl

theorem head_addEdges (a : BlockId) : ∀ (out : List BlockId) (f : Func), (f.addEdges a out).head = f.head
  | [], _ => rfl
  | b :: out, f => (head_addEdges a out (f.addEdge a b)).trans (head_addEdge f a b)

theorem size_addEdges (a : BlockId) : ∀ (out : List BlockId) (f : Func),
    (f.addEdges a out).blocks.size = f.blocks.size
  | [], _ => rfl
  | b :: out, f => (size_addEdges a out (f.addEdge a b)).trans (size_addEdge f a b)

theorem code_addEdges (a : BlockId) : ∀ (out : List BlockId) (f : Func) (c : BlockId),
    (f.addEdges a out).code c = f.code c
  | [], _, _ => rfl
  | b :: out, f, c => (code_addEdges a out (f.addEdge a b) c).trans (code_addEdge f a b c)

/-- The edges stand at the ends of the lists, in their order. -/
theorem edges_addEdges {a : BlockId} : ∀ {out : List BlockId} {f : Func}, a < f.blocks.size → out.Nodup →
    (∀ b ∈ out, b < f.blocks.size ∧ b ∉ f.succs a ∧ a ∉ f.preds b) →
      (∀ c, (f.addEdges a out).succs c = if c = a then f.succs a ++ out else f.succs c) ∧
      ∀ c, (f.addEdges a out).preds c = if c ∈ out then f.preds c ++ [a] else f.preds c
  | [], f, _, _, _ => by
    refine ⟨fun c => ?_, fun c => (if_neg List.not_mem_nil).symm⟩
    rw [List.append_nil]
    split_ifs with hc
    · rw [hc]
      rfl
    · rfl
  | b :: out, f, ha, hnodup, hout => by
    rw [List.nodup_cons] at hnodup
    obtain ⟨hlt, hsucc, hpred⟩ := hout b List.mem_cons_self
    have hsuccs := succs_addEdge ha hsucc
    have hpreds := preds_addEdge ha hlt hpred
    obtain ⟨ihs, ihp⟩ := edges_addEdges (f := f.addEdge a b) (size_addEdge f a b ▸ ha) hnodup.2
      (fun c hc => by
        have hcb : c ≠ b := fun h => hnodup.1 (h ▸ hc)
        obtain ⟨hlt, hs, hp⟩ := hout c (List.mem_cons_of_mem b hc)
        rw [size_addEdge, hsuccs, if_pos rfl, hpreds, if_neg hcb]
        exact ⟨hlt, by simp [hs, hcb], hp⟩)
    refine ⟨fun c => ?_, fun c => ?_⟩
    · rw [addEdges_cons, ihs, hsuccs, hsuccs]
      by_cases hc : c = a
      · simp [hc]
      · simp [hc]
    · rw [addEdges_cons, ihp, hpreds]
      by_cases hcb : c = b
      · subst hcb
        simp [hnodup.1]
      · simp [hcb]

end Func

namespace Builder

/-! ### Writing on -/

section Write

variable {s s' : Builder} {a b : BlockId}

theorem writes_define (hs : s.Good) (hcur : s.current = some a) (ty : Ty) (make : Value → Instr)
    (hterm : (make ⟨s.count, ty⟩).isTerminator = false) :
    Writes a [make ⟨s.count, ty⟩] [] s (s.define ty make).2 := by
  have hcode := code_define hs hcur ty make
  obtain ⟨hlt, hopen⟩ := hs.current a hcur
  have hsnd := define_snd hcur ty make
  refine ⟨by rw [hsnd]; rfl, by rw [hsnd]; exact Func.size_push .., hlt, hcode, fun c => ?_, fun c => ?_,
    Or.inr hcur, hopen, Or.inl (by rw [hsnd]; exact hcur), rfl, ?_⟩
  · rw [hsnd, if_neg List.not_mem_nil]
    exact Func.preds_push ..
  · rw [hsnd, List.append_nil]
    refine (Func.succs_push ..).trans ?_
    split_ifs with hc
    · rw [hc]
      rfl
    · rfl
  · rw [exits_concat]
    exact Instr.successors_of_not_terminator hterm

/-- The block is left by a terminator. -/
theorem writes_leave (hs : s.Good) (hw : s.Wired) (hcur : s.current = some a) (i : Instr)
    (hi : i.isTerminator = true) (hnodup : i.successors.Nodup) (hlt : ∀ b ∈ i.successors, b < s.size)
    (hfunc : s'.func = (s.func.push a i).addEdges a i.successors) (hcur' : s'.current = none) :
    Writes a [i] i.successors s s' := by
  obtain ⟨halt, hopen⟩ := hs.current a hcur
  have hnone : s.func.targets a = [] := by
    rw [Func.targets_eq_exits]
    exact exits_of_not_ended hopen
  obtain ⟨hsuccs, hpreds⟩ := Func.edges_addEdges (f := s.func.push a i)
    (by rw [Func.size_push]; exact halt) hnodup fun b hb => by
      rw [Func.size_push, Func.succs_push, Func.preds_push, hw.succs, hw.preds, hnone]
      exact ⟨hlt b hb, List.not_mem_nil, List.not_mem_nil⟩
  refine ⟨by rw [hfunc, Func.head_addEdges]; rfl, ?_, halt, fun c => ?_, fun c => ?_, fun c => ?_, Or.inr hcur, hopen,
    Or.inr ⟨hcur', by simpa [ended] using hi⟩, rfl, exits_concat _ _⟩
  · unfold size
    rw [hfunc, Func.size_addEdges, Func.size_push]
  · unfold code
    rw [hfunc, Func.code_addEdges]
    exact Func.code_push _ _ halt c
  · rw [hfunc, hpreds, Func.preds_push]
  · rw [hfunc, hsuccs, Func.succs_push, Func.succs_push]

theorem func_jump (hcur : s.current = some a) :
    (s.jump b).func = (s.func.push a (.jump b)).addEdges a [b] := by
  rw [jump_eq hcur]
  rfl

theorem func_branch {b' : BlockId} (hcur : s.current = some a) (c : Value) :
    (s.branch c b b').func = (s.func.push a (.branch c b b')).addEdges a [b, b'] := by
  rw [branch_eq hcur]
  rfl

/-- An instruction defines a value from what is known. -/
theorem sound_define (hs : s.Sound) (hcur : s.current = some a) (ty : Ty) (make : Value → Instr)
    (hphi : (make ⟨s.count, ty⟩).isPhi = false) (hterm : (make ⟨s.count, ty⟩).isTerminator = false)
    (htarget : (make ⟨s.count, ty⟩).target? = some ⟨s.count, ty⟩)
    (huse : ∀ v ∈ (make ⟨s.count, ty⟩).operands, s.Knows a (s.code a) v.id) :
    (s.define ty make).2.Sound ∧ (∀ n, Leads n s (s.define ty make).2) ∧
      (s.define ty make).2.Knows a ((s.define ty make).2.code a) s.count := by
  have hx := extends_define hs.good hcur ty make hphi hterm
  have hids : definedIds [make ⟨s.count, ty⟩] = [s.count] := by
    unfold definedIds
    rw [List.filterMap_cons, htarget]
    rfl
  obtain ⟨hsound, hleads⟩ := hs.of_append (k := 1) (writes_define hs.good hcur ty make hterm) hcur hx.good hx.grows
    hids (by rw [define_snd hcur]; rfl) List.nodup_nil (by simp) (by simpa using hphi) (by simpa using huse)
    (by rw [define_snd hcur]; simp) (by rw [define_snd hcur])
  refine ⟨hsound, hleads, fun l _ => Or.inl ?_⟩
  rw [code_define hs.good hcur, if_pos rfl, definedIds_append, hids]
  exact List.mem_append_right _ (List.mem_singleton_self _)

/-- A variable is held in a value that is known. -/
theorem sound_bind (hs : s.Sound) (symbol : Nat) (v : Value) (hv : v.id < s.count)
    (hknown : ∀ b, s.current = some b → s.Knows b (s.code b) v.id) :
    (s.bind symbol v).Sound ∧ ∀ n, Leads n s (s.bind symbol v) := by
  have hx := extends_bind hs.good symbol v hv
  refine hs.congr hx.good hx.grows rfl (fun _ => rfl) (fun _ => rfl) (fun _ => rfl) rfl rfl fun b hb j w hw => ?_
  change (s.bindings.insert symbol v).get? j = some w at hw
  rw [IdMap.get?_insert] at hw
  split_ifs at hw
  · exact Option.some.inj hw ▸ hknown b hb
  · exact hs.informed.bound b hb j w hw

theorem sound_setLoops (hs : s.Sound) (loops : List LoopTargets)
    (h : ∀ l ∈ loops, s.Unbegun l.onContinue ∧ s.Unbegun l.onBreak) :
    ({ s with loops } : Builder).Sound ∧ ∀ n, Leads n s { s with loops } :=
  hs.congr (hs.good.setLoops loops h) (.of_eq rfl le_rfl le_rfl (fun _ => rfl) rfl) rfl (fun _ => rfl) (fun _ => rfl)
    (fun _ => rfl) rfl rfl fun b hb j v hv => hs.informed.bound b hb j v hv

theorem sound_addBlocks : ∀ (kinds : List String) {s : Builder}, s.Sound →
    (s.addBlocks kinds).Sound ∧ ∀ n, Leads n s (s.addBlocks kinds)
  | [], s, hs => ⟨hs, fun n => .refl n s⟩
  | kind :: kinds, s, hs => by
    have hx := (extends_addBlock hs.good kind).1
    have hstep : (s.addBlock kind).2.Sound ∧ ∀ n, Leads n s (s.addBlock kind).2 :=
      hs.congr hx.good hx.grows rfl (Func.code_addBlock s.func kind) (Func.preds_addBlock s.func kind)
        (Func.succs_addBlock s.func kind) rfl rfl fun b hb j v hv => hs.informed.bound b hb j v hv
    obtain ⟨h₁, hl₁⟩ := hstep
    obtain ⟨h₂, hl₂⟩ := sound_addBlocks kinds h₁
    exact ⟨h₂, fun n => (hl₁ n).trans (hl₂ n)⟩

/-- Control returns a value that is known. -/
theorem sound_ret (hs : s.Sound) (hcur : s.current = some a) {v : Value} (hv : s.Knows a (s.code a) v.id) :
    (s.close a (.ret v)).Sound ∧ ∀ n, Leads n s (s.close a (.ret v)) := by
  have hx := extends_close hs.good hcur (.ret v) rfl
  refine hs.of_append (k := 0) (writes_leave hs.good hs.wired hcur (.ret v) rfl List.nodup_nil
    (by simp [Instr.successors]) rfl rfl) hcur hx.good hx.grows rfl rfl List.nodup_nil
    (by simp [Instr.successors]) (by simp [Instr.isPhi]) ?_ ?_ rfl
  · simpa [Instr.operands] using hv
  · simp [close, Instr.successors]

/-- Control, if it is here, goes to a block that is not begun. -/
theorem sound_jump (hs : s.Sound) (hb : s.Unbegun b) : (s.jump b).Sound ∧ ∀ n, Leads n s (s.jump b) := by
  cases hcur : s.current with
  | none =>
    rw [jump_of_none hcur]
    exact ⟨hs, fun n => .refl n s⟩
  | some a =>
    refine hs.of_append (k := 0) (writes_leave hs.good hs.wired hcur (.jump b) rfl (List.nodup_singleton b)
      (by simpa [Instr.successors] using hb.lt) (func_jump hcur) (current_jump s b)) hcur (good_jump hs.good hb)
      (grows_jump hs.good b) rfl (count_jump s b) (List.nodup_singleton b) (by simpa [Instr.successors] using hb)
      (by simp [Instr.isPhi]) (by simp [Instr.operands]) ?_ ?_
    · rw [jump_eq hcur]
      rfl
    · rw [jump_eq hcur]
      rfl

/-- Control goes to one of two blocks that are not begun. -/
theorem sound_branch {b' : BlockId} (hs : s.Sound) (hcur : s.current = some a) (hb : s.Unbegun b)
    (hb' : s.Unbegun b') (hne : b ≠ b') {c : Value} (hc : s.Knows a (s.code a) c.id) :
    (s.branch c b b').Sound ∧ ∀ n, Leads n s (s.branch c b b') := by
  have hnodup : [b, b'].Nodup := by simpa using hne
  refine hs.of_append (k := 0) (writes_leave hs.good hs.wired hcur (.branch c b b') rfl hnodup
    (by simpa [Instr.successors] using ⟨hb.lt, hb'.lt⟩) (func_branch hcur c) (current_branch c hcur)) hcur
    (good_branch c hs.good hcur hb hb' hne) (grows_branch c hs.good hcur) rfl ?_ hnodup
    (by simpa [Instr.successors] using ⟨hb, hb'⟩) (by simp [Instr.isPhi]) (by simpa [Instr.operands] using hc) ?_ ?_
  · rw [branch_eq hcur, count_recordEdge, count_recordEdge]
    rfl
  · rw [branch_eq hcur]
    simp [recordEdge, close, Instr.successors]
  · rw [branch_eq hcur]
    rfl

end Write

/-! ### Beginning blocks -/

section Begin

variable {s : Builder} {b : BlockId}

theorem preds_enter (s : Builder) (b c : BlockId) : (s.enter b).func.preds c = s.func.preds c := by
  rw [enter_eq]
  exact Func.preds_modifyBlock_code _ b (fun blk => (s.entry b).1 ++ blk.code) c

theorem succs_enter (s : Builder) (b c : BlockId) : (s.enter b).func.succs c = s.func.succs c := by
  rw [enter_eq]
  exact Func.succs_modifyBlock_code _ b (fun blk => (s.entry b).1 ++ blk.code) c

theorem exits_of_phis {c : List Instr} (h : ∀ i ∈ c, i.isPhi = true) : exits c = [] :=
  exits_of_not_ended (not_ended_of_phis h)

/-- A block that is begun with phis. -/
theorem writes_begin {s' : Builder} {phis : List Instr} (hcur : s.current = none) (hb : s.Unbegun b)
    (hhead : s'.func.head = s.func.head) (hsize : s'.size = s.size)
    (hcode : ∀ c, s'.code c = if c = b then phis else s.code c)
    (hpreds : ∀ c, s'.func.preds c = s.func.preds c) (hsuccs : ∀ c, s'.func.succs c = s.func.succs c)
    (hcur' : s'.current = some b) (hphis : ∀ i ∈ phis, i.isPhi = true) : Writes b phis [] s s' := by
  refine ⟨hhead, hsize, hb.lt, fun c => ?_, fun c => ?_, fun c => ?_, Or.inl ⟨hcur, rfl⟩, ?_, Or.inl hcur',
    not_ended_of_phis fun i hi => hphis i ((List.dropLast_sublist phis).subset hi), ?_⟩
  · rw [hcode, hb.code, List.nil_append]
  · rw [hpreds, if_neg List.not_mem_nil]
  · rw [hsuccs, List.append_nil]
    split_ifs with hc
    · rw [hc]
    · rfl
  · rw [hb.code]
    rfl
  · rw [hb.code, List.nil_append]
    exact exits_of_phis hphis

theorem writes_enter (hs : s.Good) (hcur : s.current = none) (hb : s.Unbegun b) (hne : s.edgesTo b ≠ []) :
    Writes b (s.entry b).1 [] s (s.enter b) :=
  writes_begin hcur hb (head_enter s b) (size_enter s b) (code_enter hb) (preds_enter s b) (succs_enter s b)
    (by rw [current_enter, if_neg hne]) (entry_facts hs b).1

/-- Every entry holds what an edge binds. -/
theorem edgeEntries_mem : ∀ {edges : List Edge} {symbol : Nat} {entries : List (Value × BlockId)},
    edgeEntries edges symbol = some entries → ∀ p ∈ entries,
      ∃ e ∈ edges, e.bindings.get? symbol = some p.1 ∧ e.source = p.2
  | [], _, _, h, p, hp => by
    obtain rfl : _ = [] := (Option.some.inj h).symm
    cases hp
  | e :: edges, symbol, entries, h, p, hp => by
    obtain ⟨v, rest, hv, hr, rfl⟩ := edgeEntries_cons_eq_some h
    rcases List.mem_cons.mp hp with rfl | hp
    · exact ⟨e, List.mem_cons_self, hv, rfl⟩
    · obtain ⟨e', he', hbind, hsource⟩ := edgeEntries_mem hr p hp
      exact ⟨e', List.mem_cons_of_mem _ he', hbind, hsource⟩

/-- The phis that a block begins with have an entry for each edge, and what they
read is known along it. -/
theorem entry_known (hs : s.Sound) (b : BlockId) :
    (∃ k, definedIds (s.entry b).1 = List.range' s.count k ∧ (s.entry b).2.2 = s.count + k) ∧
    (∀ t es, .phi t es ∈ (s.entry b).1 → es.map Prod.snd = (s.edgesTo b).map Edge.source) ∧
    (∀ t es, .phi t es ∈ (s.entry b).1 → ∀ e ∈ es, s.Begun e.2 ∧ s.Knows e.2 (s.code e.2) e.1.id) ∧
    ∀ j v, (s.entry b).2.1.get? j = some v →
      v.id ∈ definedIds (s.entry b).1 ∨ ∀ e ∈ s.edgesTo b, s.Knows e.source (s.code e.source) v.id := by
  have hcarried : ∀ e ∈ s.edgesTo b, ∀ j v, e.bindings.get? j = some v →
      s.Knows e.source (s.code e.source) v.id := fun e he => hs.informed.carried e (mem_edgesTo.mp he).1
  match h : s.edgesTo b with
  | [] =>
    rw [entry, h]
    exact ⟨⟨0, rfl, rfl⟩, by simp, by simp, by simp⟩
  | [e] =>
    rw [h] at hcarried
    rw [entry, h]
    refine ⟨⟨0, rfl, rfl⟩, by simp, by simp, fun j v hv => Or.inr fun e' he' => ?_⟩
    obtain rfl := List.mem_singleton.mp he'
    exact hcarried e' List.mem_cons_self j v hv
  | e :: e' :: rest =>
    have hent : s.entry b = mergeBindings (s.edgesTo b) s.count e.bindings := by
      unfold entry
      simp only [h]
    rw [← h, hent]
    obtain ⟨k, hk, hids, hphis, hget⟩ := mergeBindings_facts (s.edgesTo b) e.bindings s.count
    refine ⟨⟨k, ?_, hk⟩, fun t es hmem => ?_, fun t es hmem p hp => ?_, fun j v hv => ?_⟩
    · rw [← hids, List.map_filterMap]
      rfl
    · obtain ⟨t', es', symbol, heq, hentries⟩ := hphis _ hmem
      cases heq
      exact edgeEntries_source hentries
    · obtain ⟨t', es', symbol, heq, hentries⟩ := hphis _ hmem
      cases heq
      obtain ⟨e₀, he₀, hv, hsource⟩ := edgeEntries_mem hentries p hp
      rw [← hsource]
      exact ⟨Or.inr (hs.good.sources e₀ (mem_edgesTo.mp he₀).1), hcarried e₀ he₀ symbol p.1 hv⟩
    · rcases hget j v hv with hall | ⟨entries, -, hmem⟩
      · exact Or.inr fun e₀ he₀ => hcarried e₀ he₀ j v (hall e₀ he₀)
      · exact Or.inl (mem_definedIds.mpr ⟨_, hmem, v, rfl, rfl⟩)

/-- A block is begun, if control comes to it. -/
theorem sound_enter (hs : s.Sound) (hcur : s.current = none) (hb : s.Unbegun b)
    (hfree : ∀ l ∈ s.loops, l.onContinue ≠ b ∧ l.onBreak ≠ b) :
    (s.enter b).Sound ∧ ∀ n, n ≤ b → Leads n s (s.enter b) := by
  have hgood := good_enter hs.good hb hfree
  have hg := grows_enter hs.good hcur hb
  obtain ⟨⟨k, hids, hcount⟩, hentries, hread, hbound⟩ := entry_known hs b
  by_cases hne : s.edgesTo b = []
  · have hpend : (s.enter b).pending = s.pending := by
      rw [pending_enter, List.filter_eq_self]
      intro e he
      rw [bne_iff_ne]
      intro heq
      have hmem : e ∈ s.edgesTo b := mem_edgesTo.mpr ⟨he, heq⟩
      rw [hne] at hmem
      cases hmem
    obtain ⟨hsound, hleads⟩ := hs.congr hgood hg (by rw [count_enter, entry, hne])
      (fun c => by rw [enter_of_nil hne]) (preds_enter s b) (succs_enter s b)
      (by rw [current_enter, if_pos hne, hcur]) hpend fun c hc => by rw [hcur] at hc; cases hc
    exact ⟨hsound, fun n _ => hleads n⟩
  · have hw := writes_enter hs.good hcur hb hne
    exact hs.of_begin hw hb hne hgood hg hids (by rw [count_enter]; exact hcount) (entry_facts hs.good b).1 hentries
      hread (by rw [bindings_enter]; exact hbound) (pending_enter s b)

/-- A block is begun, with a phi more over the same edges. -/
theorem sound_enterPhi (ty : Ty) {entries : List (Value × BlockId)} (hs : s.Sound)
    (hcur : s.current = none) (hb : s.Unbegun b) (hne : s.edgesTo b ≠ [])
    (hfree : ∀ l ∈ s.loops, l.onContinue ≠ b ∧ l.onBreak ≠ b)
    (hsources : entries.map Prod.snd = (s.edgesTo b).map Edge.source)
    (hknown : ∀ e ∈ entries, s.Begun e.2 ∧ s.Knows e.2 (s.code e.2) e.1.id) :
    (s.enterPhi b ty entries).Sound ∧ (∀ n, n ≤ b → Leads n s (s.enterPhi b ty entries)) ∧
      (s.enterPhi b ty entries).Knows b ((s.enterPhi b ty entries).code b) (s.enter b).count := by
  have hgood := good_enterPhi ty entries hs.good hb hfree
  have hg := grows_enterPhi ty entries hs.good hcur hb
  obtain ⟨⟨k, hids, hcount⟩, hentries, hread, hbound⟩ := entry_known hs b
  set phis := (s.entry b).1 ++ [.phi ⟨(s.enter b).count, ty⟩ entries] with hphis
  have hcases : ∀ t es, Instr.phi t es ∈ phis → .phi t es ∈ (s.entry b).1 ∨ es = entries := by
    intro t es hmem
    rcases List.mem_append.mp hmem with hmem | hmem
    · exact Or.inl hmem
    · cases List.mem_singleton.mp hmem
      exact Or.inr rfl
  have hallphi : ∀ i ∈ phis, i.isPhi = true := by
    intro i hi
    rcases List.mem_append.mp hi with hi | hi
    · exact (entry_facts hs.good b).1 i hi
    · rw [List.mem_singleton.mp hi]
      rfl
  have hw : Writes b phis [] s (s.enterPhi b ty entries) :=
    writes_begin hcur hb (head_enter s b) (size_enterPhi ty entries s b) (code_enterPhi ty entries hs.good hb)
      (fun c => (Func.preds_modifyBlock_code _ b _ c).trans (preds_enter s b c))
      (fun c => (Func.succs_modifyBlock_code _ b _ c).trans (succs_enter s b c))
      (by rw [current_enterPhi, current_enter, if_neg hne]) hallphi
  have hids' : definedIds phis = List.range' s.count (k + 1) := by
    rw [hphis, definedIds_append, hids, List.range'_concat]
    unfold definedIds
    rw [List.filterMap_cons, count_enter, hcount]
    simp [Instr.target?]
  have hentries' : ∀ t es, Instr.phi t es ∈ phis → es.map Prod.snd = (s.edgesTo b).map Edge.source := by
    intro t es hmem
    rcases hcases t es hmem with hmem | rfl
    · exact hentries t es hmem
    · exact hsources
  have hread' : ∀ t es, Instr.phi t es ∈ phis → ∀ e ∈ es, s.Begun e.2 ∧ s.Knows e.2 (s.code e.2) e.1.id := by
    intro t es hmem e he
    rcases hcases t es hmem with hmem | rfl
    · exact hread t es hmem e he
    · exact hknown e he
  have hbound' : ∀ j v, (s.enterPhi b ty entries).bindings.get? j = some v →
      v.id ∈ definedIds phis ∨ ∀ e ∈ s.edgesTo b, s.Knows e.source (s.code e.source) v.id := by
    intro j v hv
    rw [bindings_enterPhi, bindings_enter] at hv
    rcases hbound j v hv with hid | hid
    · left
      rw [hphis, definedIds_append]
      exact List.mem_append_left _ hid
    · exact Or.inr hid
  obtain ⟨hsound, hleads⟩ := hs.of_begin hw hb hne hgood hg hids' (by rw [count_enterPhi, count_enter, hcount]; rfl)
    hallphi hentries' hread' hbound' (pending_enter s b)
  refine ⟨hsound, hleads, fun l _ => Or.inl ?_⟩
  rw [code_enterPhi ty entries hs.good hb, if_pos rfl, definedIds_append]
  exact List.mem_append_right _ (mem_definedIds.mpr ⟨_, List.mem_singleton_self _, _, rfl, rfl⟩)

end Begin
end Builder
end Chordal.Ssa
