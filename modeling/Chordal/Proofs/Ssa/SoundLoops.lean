/-
# Loops keep a builder sound

A loop is opened by a branch to its body and its exit, and the body begins with a
phi over that one edge for every variable it may change. When the end of the
loop is reached, every phi gets the entry of the block there, and the edge back
to the body is made. Every path to the end has passed the body, since the only
other way from the block before the loop is to the exit, which is not begun yet.

Key theorems: `Builder.sound_startLoop`, `Builder.mem_of_path_in_loop`,
`Builder.sound_test`.
-/
import Mathlib
import Chordal.Proofs.Ssa.Joins
import Chordal.Proofs.Ssa.SoundSteps

namespace Chordal.Ssa

/-! ### Code with wider phis -/

namespace Widened

theorem exits_eq {c d : List Instr} (h : Widened c d) : exits d = exits c := by
  rcases List.eq_nil_or_concat' c with rfl | ⟨front, i, rfl⟩
  · cases h
    rfl
  · obtain ⟨e, e', rfl, -, he'⟩ := h.split
    cases he' with
    | cons hi hs =>
      cases hs
      rw [exits_concat, exits_concat]
      cases hi <;> rfl

theorem dropLast {c d : List Instr} (h : Widened c d) : Widened c.dropLast d.dropLast := by
  rw [List.dropLast_eq_take, List.dropLast_eq_take, ← h.length_eq]
  exact List.forall₂_take _ h

/-- An instruction that is no phi stands where it stood. -/
theorem of_append_cons {c done rest : List Instr} {i : Instr} (h : Widened c (done ++ i :: rest))
    (hi : i.isPhi = false) : ∃ done' rest', c = done' ++ i :: rest' ∧ definedIds done' = definedIds done := by
  have htake := List.forall₂_take done.length h
  have hdrop := List.forall₂_drop done.length h
  rw [List.take_left] at htake
  rw [List.drop_left] at hdrop
  cases hc : c.drop done.length with
  | nil =>
    rw [hc] at hdrop
    cases hdrop
  | cons j rest' =>
    rw [hc] at hdrop
    cases hdrop with
    | cons hj _ =>
      have hji : i = j := hj.eq_of_not_phi (hj.isPhi_eq ▸ hi)
      refine ⟨c.take done.length, rest', ?_, (Widened.definedIds_eq htake).symm⟩
      rw [hji, ← hc, List.take_append_drop]

end Widened

namespace Builder

/-- A block that has its terminator keeps its edges. -/
theorem Grows.targets_eq {s s' : Builder} (h : Grows s s') {a : BlockId} (ha : ended (s.code a) = true) :
    s'.func.targets a = s.func.targets a := by
  obtain ⟨d, tail, heq, hd, -, htail⟩ := h.code a
  rw [htail ha, List.append_nil] at heq
  rw [Func.targets_eq_exits, Func.targets_eq_exits]
  change exits (s'.code a) = exits (s.code a)
  rw [heq, hd.exits_eq]

/-! ### Opening a loop -/

theorem edges_define (s : Builder) (ty : Ty) (make : Value → Instr) (c : BlockId) :
    (s.define ty make).2.func.preds c = s.func.preds c ∧ (s.define ty make).2.func.succs c = s.func.succs c := by
  cases hcur : s.current with
  | none =>
    unfold define emit
    simp only [Func.newValue, hcur]
    exact ⟨rfl, rfl⟩
  | some b =>
    rw [define_snd hcur]
    exact ⟨Func.preds_push .., Func.succs_push ..⟩

theorem edges_header (pre : BlockId) : ∀ (carried : List (Nat × Value)) (s : Builder) (c : BlockId),
    (header pre carried s).2.func.preds c = s.func.preds c ∧
      (header pre carried s).2.func.succs c = s.func.succs c
  | [], _, _ => ⟨rfl, rfl⟩
  | (symbol, v) :: rest, s, c => by
    obtain ⟨hp, hs⟩ := edges_define s v.ty (fun target => .phi target [(v, pre)]) c
    obtain ⟨ihp, ihs⟩ := edges_header pre rest
      ((s.define v.ty fun target => .phi target [(v, pre)]).2.bind symbol ⟨s.count, v.ty⟩) c
    rw [header]
    exact ⟨ihp.trans hp, ihs.trans hs⟩

section Open

variable {s : Builder} {pre : BlockId} {l : LoopBlocks} {guard : Value}

theorem func_leaveFor (s : Builder) (l : LoopBlocks) (a : BlockId) (c : Value) : (s.leaveFor l a c).func =
    (s.func.push a (.branch c l.body l.exit)).addEdges a [l.body, l.exit] := rfl

theorem edges_openLoop (hcur : s.current = some pre) (symbols : IdSet) (c : BlockId) :
    (s.openLoop l pre guard symbols).2.func.preds c = (s.branch guard l.body l.exit).func.preds c ∧
      (s.openLoop l pre guard symbols).2.func.succs c = (s.branch guard l.body l.exit).func.succs c := by
  have hfunc : (s.branchLoop l pre guard).func = (s.branch guard l.body l.exit).func :=
    (congrArg Builder.func (branchLoop_eq hcur l guard)).trans (func_branch hcur guard).symm
  rw [← hfunc]
  exact edges_header pre (s.carried symbols) _ c

theorem definedIds_headerPhis (pre : BlockId) (carried : List (Nat × Value)) (fresh : Nat) :
    definedIds (headerPhis pre fresh carried) = List.range' fresh carried.length := by
  have htargets : (headerPhis pre fresh carried).filterMap Instr.target? =
      (headerTargets fresh carried).map Prod.snd :=
    forall₂_targets (R := fun _ _ => True) ((forall₂_headerPhis pre carried fresh).imp
      fun _ _ ⟨_, _, h⟩ => ⟨_, h, trivial⟩)
  rw [← map_id_headerTargets, ← htargets, List.map_filterMap]
  rfl

theorem func_leaveFor_eq_branch (hcur : s.current = some pre) :
    (s.leaveFor l pre guard).func = (s.branch guard l.body l.exit).func := (func_branch hcur guard).symm

theorem count_branch (hcur : s.current = some pre) : (s.branch guard l.body l.exit).count = s.count :=
  (congrArg Func.valueCount (func_leaveFor_eq_branch hcur)).symm.trans (count_leaveFor s l pre guard)

/-- Behind the branch to a loop, its body is begun with its phis. -/
theorem writes_openLoop (hs : s.Good) (hcur : s.current = some pre) (hbody : s.Unbegun l.body) (symbols : IdSet) :
    Writes l.body (headerPhis pre s.count (s.carried symbols)) [] (s.branch guard l.body l.exit)
        (s.openLoop l pre guard symbols).2 ∧
      Grows (s.branch guard l.body l.exit) (s.openLoop l pre guard symbols).2 := by
  obtain ⟨-, h₂, h₀, h₃, h₄, -, -, -, h₈⟩ := openLoop_facts hs hcur hbody guard symbols
  have hfunc : (s.leaveFor l pre guard).func = (s.branch guard l.body l.exit).func := func_leaveFor_eq_branch hcur
  have hcur₀ : (s.branch guard l.body l.exit).current = none := current_branch guard hcur
  have hun : (s.branch guard l.body l.exit).Unbegun l.body := unbegun_branch guard hs hcur hbody
  have hcode : ∀ c, (s.openLoop l pre guard symbols).2.code c =
      if c = l.body then headerPhis pre s.count (s.carried symbols) else (s.branch guard l.body l.exit).code c := by
    intro c
    rw [h₈]
    unfold code
    rw [hfunc]
  have hw : Writes l.body (headerPhis pre s.count (s.carried symbols)) [] (s.branch guard l.body l.exit)
      (s.openLoop l pre guard symbols).2 := by
    refine writes_begin hcur₀ hun (h₀.trans (congrArg Func.head hfunc)) ?_ hcode
      (fun c => (edges_openLoop hcur symbols c).1) (fun c => (edges_openLoop hcur symbols c).2) h₂
      (headerPhis_isPhi pre _ _)
    exact h₃.trans ((size_leaveFor s l pre guard).symm.trans (congrArg (fun f => f.blocks.size) hfunc))
  refine ⟨hw, .of_begin hw.head hcur₀ hun hw.size.ge ?_ hcode⟩
  rw [count_branch hcur]
  exact (Nat.le_add_right _ _).trans_eq h₄.symm

/-- The edge to the body no longer waits. -/
theorem pending_openLoop (hs : s.Good) (hcur : s.current = some pre) (hbody : s.Unbegun l.body)
    (hbe : l.body ≠ l.exit) (hedges : s.edgesTo l.body = []) (symbols : IdSet) :
    (s.openLoop l pre guard symbols).2.pending =
      (s.branch guard l.body l.exit).pending.filter fun e => e.target != l.body := by
  obtain ⟨-, -, -, -, -, h₅, -, -, -⟩ := openLoop_facts hs hcur hbody guard symbols
  have hbranch : (s.branch guard l.body l.exit).pending =
      s.pending ++ [⟨pre, l.body, s.bindings⟩, ⟨pre, l.exit, s.bindings⟩] := by
    rw [branch_eq hcur]
    simp [recordEdge, close]
  have hold : (s.pending.filter fun e => e.target != l.body) = s.pending := by
    rw [List.filter_eq_self]
    intro e he
    rw [bne_iff_ne]
    intro heq
    have hmem : e ∈ s.edgesTo l.body := mem_edgesTo.mpr ⟨he, heq⟩
    rw [hedges] at hmem
    cases hmem
  rw [h₅, hbranch, List.filter_append, hold]
  simp [hbe.symm]

theorem mem_headerPhis {symbols : IdSet} {t : Value} {es : List (Value × BlockId)}
    (hmem : .phi t es ∈ headerPhis pre s.count (s.carried symbols)) :
    ∃ j v, s.bindings.get? j = some v ∧ es = [(v, pre)] := by
  obtain ⟨p, -, v, hv, heq⟩ := forall₂_mem_right (forall₂_headerPhis pre (s.carried symbols) s.count) _ hmem
  cases heq
  exact ⟨p.1, v, (mem_carried hv).1, rfl⟩

/-- The body of a loop is begun with phis over the edge into it. -/
theorem sound_openLoop (hs : s.Sound) (hcur : s.current = some pre) (hbody : s.Unbegun l.body)
    (hnext : s.Unbegun l.next) (hexit : s.Unbegun l.exit) (hbn : l.body ≠ l.next) (hbe : l.body ≠ l.exit)
    (hedges : s.edgesTo l.body = [])
    (hfree : ∀ t ∈ s.loops, t.onContinue ≠ l.body ∧ t.onBreak ≠ l.body) (symbols : IdSet)
    (hguard : s.Knows pre (s.code pre) guard.id) :
    (s.openLoop l pre guard symbols).2.Sound ∧
      (∀ n, n ≤ l.body → Leads n s (s.openLoop l pre guard symbols).2) ∧
      (s.openLoop l pre guard symbols).2.func.preds l.body = [pre] := by
  obtain ⟨-, -, -, -, h₄, -, -, h₇, -⟩ := openLoop_facts hs.good hcur hbody guard symbols
  have hgood := good_openLoop hs.good hcur hbody hnext hexit hbn hbe hedges hfree guard symbols
  obtain ⟨hx₀, hl₀⟩ := sound_branch hs hcur hbody hexit hbe hguard
  obtain ⟨hw, hg⟩ := writes_openLoop hs.good hcur hbody symbols
  have hun : (s.branch guard l.body l.exit).Unbegun l.body := unbegun_branch guard hs.good hcur hbody
  have hedge : (s.branch guard l.body l.exit).edgesTo l.body = [⟨pre, l.body, s.bindings⟩] := by
    rw [edgesTo_branch guard hcur, hedges, if_pos rfl, if_neg hbe.symm]
    rfl
  have hknown : ∀ j v, s.bindings.get? j = some v →
      (s.branch guard l.body l.exit).Knows pre ((s.branch guard l.body l.exit).code pre) v.id := fun j v hv =>
    (hs.informed.bound pre hcur j v hv).at_end (hl₀ 0).grows (hl₀ 0).shortcut (Or.inl hcur)
  obtain ⟨hsound, hleads⟩ := hx₀.of_begin hw hun (by rw [hedge]; simp) hgood hg
    (by rw [count_branch hcur]; exact definedIds_headerPhis pre _ _) (by rw [count_branch hcur]; exact h₄)
    (headerPhis_isPhi pre _ _)
    (fun t es hmem => by
      obtain ⟨j, v, -, rfl⟩ := mem_headerPhis hmem
      rw [hedge]
      rfl)
    (fun t es hmem e he => by
      obtain ⟨j, v, hv, rfl⟩ := mem_headerPhis hmem
      obtain rfl := List.mem_singleton.mp he
      exact ⟨(hl₀ 0).grows.begun _ (Or.inl hcur), hknown j v hv⟩)
    (fun j v hv => by
      rw [h₇] at hv
      rcases get?_rebind _ _ j v hv with hmem | ⟨hv, -⟩
      · left
        rw [definedIds_headerPhis, ← map_id_headerTargets]
        exact List.mem_map.mpr ⟨v, List.mem_map.mpr ⟨(j, v), hmem, rfl⟩, rfl⟩
      · right
        rw [hedge]
        intro e he
        obtain rfl := List.mem_singleton.mp he
        exact hknown j v hv)
    (pending_openLoop hs.good hcur hbody hbe hedges symbols)
  refine ⟨hsound, fun n hn => (hl₀ n).trans (hleads n hn), ?_⟩
  rw [(edges_openLoop hcur symbols l.body).1, hx₀.wired.waiting l.body hun, hedge]
  rfl

/-- A loop is opened. -/
theorem sound_startLoop (hs : s.Sound) (hcur : s.current = some pre) (hasStep : Bool) (symbols : IdSet)
    (hguard : s.Knows pre (s.code pre) guard.id) :
    (s.startLoop hasStep pre guard symbols).2.Sound ∧
      Leads s.size s (s.startLoop hasStep pre guard symbols).2 ∧
      (s.startLoop hasStep pre guard symbols).2.func.preds (loopBlocks s.size hasStep).body = [pre] := by
  have hx := extends_addBlocks (loopKinds hasStep) hs.good
  have hcur₁ := (current_addBlocks (loopKinds hasStep) s).trans hcur
  have hl := apart_loopBlocks s.size hasStep
  obtain ⟨hbody, hnext, -, hexit⟩ := unbegun_loopBlocks hs.good hasStep
  obtain ⟨hs₁, hl₁⟩ := sound_addBlocks (loopKinds hasStep) hs
  obtain ⟨hsound, hleads, hpreds⟩ := sound_openLoop hs₁ hcur₁ hbody hnext hexit hl.body_next hl.body_exit
    (hx.edges_new _ hl.body_ge) (fun t ht => hs.good.loops_ne hl.body_ge t (hx.loops ▸ ht)) symbols
    (hguard.at_end (hl₁ 0).grows (hl₁ 0).shortcut (Or.inl hcur))
  exact ⟨hsound, (hl₁ s.size).trans (hleads s.size hl.body_ge), hpreds⟩

end Open

/-! ### Closing a loop -/

theorem edges_closeHeader {body latch : BlockId} : ∀ (targets : List (Nat × Value)) {s s' : Builder},
    closeHeader body latch targets s = .ok s' →
      ∀ c, s'.func.preds c = s.func.preds c ∧ s'.func.succs c = s.func.succs c
  | [], s, s', h, c => by
    rw [closeHeader] at h
    rw [Except.ok.inj h]
    exact ⟨rfl, rfl⟩
  | (symbol, t) :: rest, s, s', h, c => by
    rw [closeHeader] at h
    cases hget : s.bindings.get? symbol with
    | none => rw [hget] at h; cases h
    | some v =>
      rw [hget] at h
      obtain ⟨ihp, ihs⟩ := edges_closeHeader rest h c
      exact ⟨ihp.trans (Func.preds_modifyBlock_code s.func body (fun blk => addPhiEntry t v latch blk.code) c),
        ihs.trans (Func.succs_modifyBlock_code s.func body (fun blk => addPhiEntry t v latch blk.code) c)⟩

section Close

variable {free : BlockId → Prop} {s x y z : Builder} {l : LoopBlocks} {pre latch : BlockId} {guard : Value}
  {symbols : IdSet}

/-- A path to a block of a loop has passed the loop's body, while the exit is not
begun. -/
theorem mem_of_path_in_loop (hs : s.Sound) (hcur : s.current = some pre)
    (ho : Opened s l pre guard symbols x) (hg : Grows x y) (hleads : Leads s.size s y)
    (hexit : y.Unbegun l.exit) {b : BlockId} {path : List BlockId} (hpath : y.func.Path b path)
    (hb : s.size ≤ b) (hbe : b ≠ l.exit) : l.body ∈ b :: path := by
  have hpre : y.func.targets pre = [l.body, l.exit] := by
    rw [hg.targets_eq, Func.targets_eq_exits]
    · change exits (x.code pre) = _
      rw [ho.test, exits_concat]
      rfl
    · rw [ho.test, ended_append]
      simp [ended, Instr.isTerminator]
  induction hpath with
  | start =>
    have hstart : y.func.start = s.func.start := congrArg (fun head => head.2.2.2) hleads.grows.head
    rw [hstart] at hb
    exact absurd (begun_lt hs.good hs.wired.start) (Nat.not_lt.mpr hb)
  | @step c b path _ hc ih =>
    rcases hleads.edges c b hc with hold | hold | hnew
    · exact absurd (hs.wired.target_lt c b hold) (Nat.not_lt.mpr hb)
    · obtain rfl : c = pre := Option.some.inj (hold.symm.trans hcur)
      rw [hpre] at hc
      rcases List.mem_cons.mp hc with rfl | hc
      · exact List.mem_cons_self
      · exact absurd (List.mem_singleton.mp hc) hbe
    · refine List.mem_cons_of_mem _ (ih hnew ?_)
      rintro rfl
      rw [Func.targets_eq_exits] at hc
      have hcode : y.func.code l.exit = [] := hexit.code
      rw [hcode] at hc
      cases hc

/-- Phis that get more entries leave everything known that was, if what the new
entries read is known too. -/
theorem Informed.of_widened (hy : y.Sound) (hg : Grows y z) (hp : Shortcut y z) (hcur : z.current = y.current)
    (hbind : z.bindings = y.bindings) (hpend : z.pending = y.pending) (hwide : ∀ c, Widened (y.code c) (z.code c))
    (hphi : ∀ b t es, .phi t es ∈ z.code b → ∀ e ∈ es, y.Begun e.2 ∧ y.Knows e.2 (y.code e.2) e.1.id) :
    z.Informed where
  bound b hb j v hv := by
    rw [hcur] at hb
    rw [hbind] at hv
    exact (hy.informed.bound b hb j v hv).at_end hg hp (Or.inl hb)
  carried e he j v hv := by
    rw [hpend] at he
    exact (hy.informed.carried e he j v hv).at_end hg hp (Or.inr (hy.good.sources e he))
  use b done i rest heq hi v hv := by
    have hw := hwide b
    rw [heq] at hw
    obtain ⟨done', rest', hold, hids⟩ := hw.of_append_cons hi
    have hbegun : y.Begun b := by
      by_contra hnot
      have hnil := hy.wired.idle b hnot
      rw [hold] at hnil
      simp at hnil
    exact (hy.informed.use b done' i rest' hold hi v hv).later hg hp hbegun fun _ hid => hids ▸ hid
  phi b t es hmem e he := by
    obtain ⟨hb, hk⟩ := hphi b t es hmem e he
    exact ⟨hg.begun _ hb, hk.at_end hg hp hb⟩

/-- The entries of a phi at the head of a loop, where both are there: what the
variable has before the loop, and at its end. -/
theorem mem_closedPhis (hc : Closed s l pre latch symbols y z) {t : Value} {es : List (Value × BlockId)}
    (hmem : .phi t es ∈ closedPhis pre latch y.bindings s.count (s.carried symbols)) :
    ∃ j v v', s.bindings.get? j = some v ∧ y.bindings.get? j = some v' ∧ es = [(v, pre), (v', latch)] := by
  obtain ⟨p, -, v, hv, heq⟩ :=
    forall₂_mem_right (forall₂_closedPhis pre latch y.bindings (s.carried symbols) s.count) _ hmem
  cases heq
  obtain ⟨v', hv'⟩ := hc.bound _ hv
  exact ⟨p.1, v, v', (mem_carried hv).1, hv', by rw [hv']; rfl⟩

/-- The phis at the head of a loop get their second entries: what they read is
known, and they have the edges that the loop will have. -/
structure Doubled (l : LoopBlocks) (pre latch : BlockId) (y z : Builder) : Prop where
  good : z.Good
  grows : Grows y z
  wired : z.Wired
  numbered : z.Numbered
  informed : z.Informed
  leads : ∀ n, Leads n y z
  preds : ∀ c, z.func.preds c = y.func.preds c
  code : ∀ c, c ≠ l.body → z.code c = y.code c
  entries : ∀ t es, .phi t es ∈ z.code l.body → es.map Prod.snd = [pre, latch]
  phis_first : ∀ i ∈ (z.code l.body).dropWhile Instr.isPhi, i.isPhi = false

theorem doubled (hs : s.Sound) (hcur : s.current = some pre) (ho : Opened s l pre guard symbols x)
    (hg : Grows x y) (hin : Inside free s l pre symbols y) (hy : y.Sound) (hleads : Leads s.size s y)
    (hlatch : y.current = some latch)
    (h : closeHeader l.body latch (headerTargets s.count (s.carried symbols)) y = .ok z) :
    Doubled l pre latch y z := by
  have hc := closed hin h
  have hedges := edges_closeHeader _ h
  -- the body holds the phis and then code without phis
  obtain ⟨tail, htail⟩ := hin.phis
  obtain ⟨-, -, -, -, hpend, -, -, -, hcode⟩ := closeHeader_facts l.body pre latch tail (s.carried symbols)
    s.count [] y z h hin.body_lt htail.symm (by simp)
  have hnophi : ∀ i ∈ tail, i.isPhi = false := by
    obtain ⟨-, -, -, hdrop⟩ := hg.phis_eq ho.current ho.phis (headerPhis_isPhi _ _ _)
    intro i hi
    refine hy.headed.phis_first l.body i ?_
    rw [hdrop, ← htail, List.drop_left]
    exact hi
  have hwide : ∀ c, Widened (y.code c) (z.code c) := by
    intro c
    rw [hcode]
    split_ifs with hcb
    · rw [hcb, ← htail]
      exact (widened_closedPhis pre latch y.bindings _ _).append (.refl tail)
    · exact .refl _
  have hbody : z.code l.body = closedPhis pre latch y.bindings s.count (s.carried symbols) ++ tail := by
    rw [hcode, if_pos rfl]
    rfl
  have htargets : ∀ c, z.func.targets c = y.func.targets c := fun c => by
    rw [Func.targets_eq_exits, Func.targets_eq_exits]
    exact (hwide c).exits_eq
  have hp : Shortcut y z := .of_targets hc.grows.head htargets
  -- a phi of the body is one of those that got a second entry
  have hphis : ∀ t es, .phi t es ∈ z.code l.body →
      ∃ j v v', s.bindings.get? j = some v ∧ y.bindings.get? j = some v' ∧ es = [(v, pre), (v', latch)] := by
    intro t es hmem
    rw [hbody, List.mem_append] at hmem
    rcases hmem with hmem | hmem
    · exact mem_closedPhis hc hmem
    · cases hnophi _ hmem
  have hinformed : z.Informed := by
    refine .of_widened hy hc.grows hp hc.current hc.bindings hpend hwide fun b t es hmem e he => ?_
    by_cases hbb : b = l.body
    · obtain ⟨j, v, v', hv, hv', rfl⟩ := hphis t es (hbb ▸ hmem)
      rcases List.mem_cons.mp he with rfl | he
      · exact ⟨hleads.grows.begun _ (Or.inl hcur),
          (hs.informed.bound pre hcur j v hv).at_end hleads.grows hleads.shortcut (Or.inl hcur)⟩
      · obtain rfl := List.mem_singleton.mp he
        exact ⟨Or.inl hlatch, hy.informed.bound latch hlatch j v' hv'⟩
    · rw [hc.code b hbb] at hmem
      exact hy.informed.phi b t es hmem e he
  have hwired : z.Wired := by
    refine hy.wired.congr hc.grows.head hc.grows.size_le (fun c => ⟨(hwide c).exits_eq, fun hnil => ?_,
      (hwide c).ended_eq, (hwide c).dropLast.ended_eq⟩) (fun c => (hedges c).1) (fun c => (hedges c).2) hc.current
      hc.edges fun b => hy.good.edgesTo_of_size_le
    have hw := hwide c
    rw [hnil] at hw
    exact List.forall₂_nil_left_iff.mp hw
  refine ⟨hc.good, hc.grows, hwired, hy.numbered.congr hc.count fun c => (hwide c).definedIds_eq, hinformed,
    fun n => .of_targets n hc.grows htargets (fun c => (hedges c).1) hc.current, fun c => (hedges c).1, hc.code,
    fun t es hmem => ?_, ?_⟩
  · obtain ⟨j, v, v', -, -, rfl⟩ := hphis t es hmem
    rfl
  · rw [hbody, List.dropWhile_append_of_pos ((widened_closedPhis pre latch y.bindings _ _).isPhi_of_mem
      (headerPhis_isPhi pre _ _))]
    exact fun i hi => hnophi i ((List.dropWhile_sublist _).subset hi)

/-- With the edge back, the phis at the head of a loop have one entry for each
edge. -/
theorem Doubled.headed (hd : Doubled l pre latch y z) (hy : y.Headed) (hpreds : y.func.preds l.body = [pre])
    (hexit : z.Unbegun l.exit) {c : Value}
    (hw : Writes latch [.branch c l.body l.exit] [l.body, l.exit] z (z.leaveFor l latch c)) :
    (z.leaveFor l latch c).Headed where
  entries b t es hmem := by
    have hmem' : .phi t es ∈ z.code b := by
      rw [hw.code] at hmem
      split_ifs at hmem with hb
      · subst hb
        simpa using hmem
      · exact hmem
    rw [hw.preds, hd.preds]
    by_cases hbb : b = l.body
    · subst hbb
      rw [if_pos List.mem_cons_self, hpreds]
      exact hd.entries t es hmem'
    · have hbe : b ≠ l.exit := by
        rintro rfl
        rw [hexit.code] at hmem'
        cases hmem'
      rw [if_neg (by simp [hbb, hbe])]
      rw [hd.code b hbb] at hmem'
      exact hy.entries b t es hmem'
  phis_first b := by
    have hz : ∀ i ∈ (z.code b).dropWhile Instr.isPhi, i.isPhi = false := by
      by_cases hbb : b = l.body
      · rw [hbb]
        exact hd.phis_first
      · rw [hd.code b hbb]
        exact hy.phis_first b
    rw [hw.code]
    split_ifs with hb
    · exact mem_dropWhile_append (hb ▸ hz) (by simp [Instr.isPhi])
    · exact hz

/-- The end of a loop is left for its body or its exit. -/
theorem sound_test (hs : s.Sound) (hcur : s.current = some pre) (hl : Apart l s.size)
    (ho : Opened s l pre guard symbols x) (hg : Grows x y) (hin : Inside free s l pre symbols y) (hy : y.Sound)
    (hleads : Leads s.size s y) (hpreds : y.func.preds l.body = [pre]) (hlatch : y.current = some latch)
    (hnew : s.size ≤ latch) {c : Value} (hc : y.Knows latch (y.code latch) c.id)
    (h : closeHeader l.body latch (headerTargets s.count (s.carried symbols)) y = .ok z) :
    (z.leaveFor l latch c).Sound ∧ Leads s.size s (z.leaveFor l latch c) := by
  have hd := doubled hs hcur ho hg hin hy hleads hlatch h
  have hclosed := closed hin h
  have hlatch' : z.current = some latch := hclosed.current.trans hlatch
  have hexit : z.Unbegun l.exit := by
    refine ⟨hclosed.size ▸ hin.exit.lt, ?_, hclosed.current ▸ hin.exit.current⟩
    rw [hd.code _ hl.body_exit.symm, hin.exit.code]
  have hleads' : Leads s.size s z := hleads.trans (hd.leads s.size)
  have hnodup : [l.body, l.exit].Nodup := by simpa using hl.body_exit
  have hbody_lt : l.body < z.size := hclosed.size ▸ hin.body_lt
  have hnot : ∀ b, s.size ≤ b → ¬ s.Begun b := fun b hb hbegun =>
    absurd (begun_lt hs.good hbegun) (Nat.not_lt.mpr hb)
  have hout : ∀ b ∈ [l.body, l.exit], s.size ≤ b := by
    simpa using ⟨hl.body_ge, hl.exit_ge⟩
  have hw : Writes latch [.branch c l.body l.exit] [l.body, l.exit] z (z.leaveFor l latch c) :=
    writes_leave hd.good hd.wired hlatch' (.branch c l.body l.exit) rfl hnodup
      (by simpa [Instr.successors] using ⟨hbody_lt, hexit.lt⟩) (func_leaveFor z l latch c) rfl
  have hgood := good_leaveFor (c := c) hd.good hlatch' hexit
  have hgrows : Grows z (z.leaveFor l latch c) := grows_leaveFor hd.good hlatch'
  have hp : Shortcut z (z.leaveFor l latch c) := by
    refine shortcut_of_writes hd.wired hw fun b hb hbegun path hpath => ?_
    rcases List.mem_cons.mp hb with rfl | hb
    · exact mem_of_path_in_loop hs hcur ho (hg.trans hd.grows) hleads' hexit hpath hnew
        fun heq => hexit.current (heq ▸ hlatch')
    · exact absurd (List.mem_singleton.mp hb ▸ hbegun) hexit.not_begun
  have hstart : z.func.start = s.func.start := congrArg (fun head => head.2.2.2) hleads'.grows.head
  refine ⟨⟨hgood, hd.wired.of_writes hw hnodup (by simpa using ⟨hbody_lt, hexit.lt⟩) ?_
      (hd.wired.reached latch (Or.inl hlatch')) fun b hb => ?_,
    hd.numbered.of_writes (k := 0) hw rfl (count_leaveFor z l latch c),
    hd.informed.of_writes hd.good hd.wired hw hgrows hp (fun i hi _ => ⟨hlatch', ?_⟩) (by simp)
      (fun b hb => by cases hb) fun e he => ?_,
    hd.headed hy.headed hpreds hexit hw⟩, hleads'.of_writes hw hgrows hp (fun b hb => hnot b (hout b hb)) fun _ => hnew⟩
  · rw [hstart]
    exact fun hmem => hnot _ (hout _ hmem) hs.wired.start
  · -- the edge to the body does not wait, since the body is begun
    have hbb : b ≠ l.body := by
      rintro rfl
      refine hb.not_begun (hgrows.begun _ (hd.grows.begun _ (hg.begun _ (Or.inl ho.current))))
    rw [edgesTo_leaveFor]
    by_cases hbe : b = l.exit
    · simp [hbe]
    · simp [hbb, hbe, Ne.symm hbe]
  · obtain rfl := List.mem_singleton.mp hi
    simpa [Instr.operands] using hc.at_end hd.grows (hd.leads 0).shortcut (Or.inl hlatch)
  · rw [pending_leaveFor, List.mem_append] at he
    rcases he with he | he
    · exact Or.inl he
    · obtain rfl := List.mem_singleton.mp he
      exact Or.inr ⟨hlatch', rfl⟩

end Close
end Builder
end Chordal.Ssa
