/-
# Accepted programs compile

Behind the checker every stage has failures of its own. A program that the
checker accepts meets none of them, with any options: its functions are built,
printed, freed of their phis, put in a line, placed and written, and one of them
is the entry function.

Key definitions: `Ssa.Func.Plain`, `Prepares`, `Asm.PlacedFunc.Ready`.
Key theorems: `exists_prepares`, `prepare_ok`, `Asm.placeFuncs_ok`, `Asm.emitUnit_ok`,
`compileProgram_ok`, `compileSource_ok_or_diagnostic`.
-/
import Mathlib
import Chordal.Compiler
import Chordal.Proofs.Asm.CodeMeaning
import Chordal.Proofs.Ssa.Coherence
import Chordal.Proofs.Ssa.PhiRemovalStrict
import Chordal.Proofs.Ssa.Progress

namespace Chordal

/-! ### One function -/

/-- A flow graph that can be placed and written: it has no phis, and no path in it
comes to a use before a definition. -/
structure Ssa.Func.Plain (f : Ssa.Func) : Prop where
  noPhis : ∀ b, ∀ i ∈ f.code b, i.isPhi = false
  linked : f.Linked
  ended : f.Ended
  strict : f.Strict

/-- The graph of a typed function, without its phis. -/
def Prepares (t : Typed.Func) (g : Ssa.Func) : Prop :=
  ∃ f count, Ssa.build t = .ok f ∧ f.removePhis = .ok (g, count)

variable {f : Ssa.Func} {t : Typed.Func} {p : Typed.Program}

/-- A graph that is coherent has agreeing lists of edges, and its blocks end in
terminators. -/
theorem Ssa.Func.Coherent.linked_ended (h : f.Coherent) : f.Linked ∧ f.Ended := by
  refine ⟨⟨h.mem_succs, fun {a b} => ?_⟩, fun {b l} hl => h.ended b ⟨l, hl⟩⟩
  rw [h.mem_preds, h.mem_succs]

/-- The phis of a built graph can be taken out, and what is left can be placed. -/
theorem exists_prepares (h : Ssa.build t = .ok f) :
    f.Ended ∧ ∃ g count, f.removePhis = .ok (g, count) ∧ g.Plain ∧ g.name = t.name ∧ g.isEntry = t.isEntry := by
  obtain ⟨s, hs, rfl, hhead⟩ := Ssa.Builder.finished_of_build h
  have hn : ∀ b, (Ssa.definedIds (s.func.phis b)).Nodup := fun b =>
    (hs.wellFormed.nodup_definedIds b).sublist ((List.takeWhile_sublist _).filterMap _)
  obtain ⟨g, moves, ρ, hg, hremoved⟩ := Ssa.removePhis_shape hs.regular hn
  obtain ⟨hlinked, hended⟩ := (hs.coherent.removePhisOf _ hg).linked_ended
  have hhead' := hremoved.head.trans hhead
  exact ⟨hs.regular.ended, g, _, hg,
    ⟨Ssa.noPhis hs.regular hremoved, hlinked, hended, hremoved.strict hs.regular hs.wellFormed.strict⟩,
    congrArg (fun x => x.1) hhead', congrArg (fun x => x.2.2.1) hhead'⟩

theorem Prepares.facts {g : Ssa.Func} (h : Prepares t g) :
    g.Plain ∧ g.name = t.name ∧ g.isEntry = t.isEntry := by
  obtain ⟨f, count, hf, hg⟩ := h
  obtain ⟨-, g', count', hg', hfacts⟩ := exists_prepares hf
  obtain ⟨rfl, -⟩ := ok_pair_inj (hg.symm.trans hg')
  exact hfacts

/-- The text of a graph whose blocks end in terminators can be printed. -/
theorem Ssa.Func.dump_ok (h : f.Ended) : ∃ text, f.dump = .ok text := by
  obtain ⟨order, horder, -⟩ := Ssa.Func.layout_laidOut h
  exact ⟨_, bind_eq_ok.mpr ⟨order, horder, rfl⟩⟩

/-! ### All functions -/

/-- Functions that are built are prepared, with or without their text. -/
theorem prepare_ok (dump : Bool) : ∀ (ts : List Typed.Func) (s : Statistics), (∀ t ∈ ts, ∃ f, Ssa.build t = .ok f) →
    ∃ p, prepare dump ts s = .ok p ∧ List.Forall₂ Prepares ts p.functions
  | [], s, _ => ⟨_, rfl, .nil⟩
  | t :: ts, s, h => by
    obtain ⟨f, hf⟩ := h t List.mem_cons_self
    obtain ⟨hended, g, count, hg, -⟩ := exists_prepares hf
    have hg' : withoutPhis f = .ok (g, count) := by
      unfold withoutPhis
      rw [hg]
    obtain ⟨text, htext⟩ := Ssa.Func.dump_ok hended
    obtain ⟨p, hp, hall⟩ := prepare_ok dump ts ((s.countFunction f.name f.instrCount).countPhis count)
      fun u hu => h u (List.mem_cons_of_mem t hu)
    refine ⟨⟨g :: p.functions, (if dump then text else "") ++ p.dump, p.statistics⟩, ?_, .cons ⟨f, count, hf, hg⟩ hall⟩
    rw [prepare]
    refine bind_eq_ok.mpr ⟨f, hf, ?_⟩
    cases dump with
    | false => exact bind_eq_ok.mpr ⟨"", rfl, bind_eq_ok.mpr ⟨(g, count), hg', bind_eq_ok.mpr ⟨p, hp, rfl⟩⟩⟩
    | true => exact bind_eq_ok.mpr ⟨text, htext, bind_eq_ok.mpr ⟨(g, count), hg', bind_eq_ok.mpr ⟨p, hp, rfl⟩⟩⟩

namespace Asm

/-- A placed function can be written, whatever labels there are before. -/
def PlacedFunc.Ready (f : PlacedFunc) : Prop :=
  ∃ heads, ∀ names, (⟨f.linear, f.placement, (blockLabels f.linear names).1⟩ : Context).Ready heads

/-- Functions are placed one after another. The registers that may be used stay
the same. -/
theorem placeFuncs_ok : ∀ (fs : List Ssa.Func) {file : RegFile}, file.pool.Nodup → (∀ r ∈ file.pool, r ∈ Reg.pool) →
    (∀ f ∈ fs, f.Plain) → ∃ placed, placeFuncs file fs = .ok placed ∧
      List.Forall₂ (fun f q => f.linear = .ok q.linear ∧ q.linear.func = f ∧ q.Ready) fs placed
  | [], _, _, _, _ => ⟨[], rfl, .nil⟩
  | f :: fs, file, hnd, hpool, h => by
    have hf := h f List.mem_cons_self
    obtain ⟨order, horder, hlaid⟩ := Ssa.Func.layout_laidOut hf.ended
    have hlinear : f.linear = .ok ⟨f, order⟩ := bind_eq_ok.mpr ⟨order, horder, rfl⟩
    obtain ⟨live, g, a, file', hlive, hg, ha, hpool', hsettled, -, hseparates⟩ :=
      RegFile.allocateLinear_ok (l := ⟨f, order⟩) hnd hpool hlaid hf.linked hf.strict hf.noPhis
    have halloc : file.allocateLinear ⟨f, order⟩ = .ok (a, file') :=
      bind_eq_ok.mpr ⟨live, hlive, bind_eq_ok.mpr ⟨g, hg, ha⟩⟩
    have hnd' : file'.pool.Nodup := by rwa [hpool']
    have hsub' : ∀ r ∈ file'.pool, r ∈ Reg.pool := by rwa [hpool']
    obtain ⟨placed, hplaced, hall⟩ := placeFuncs_ok fs hnd' hsub' fun f' hf' => h f' (List.mem_cons_of_mem f hf')
    refine ⟨⟨⟨f, order⟩, a.placement⟩ :: placed, ?_, .cons ⟨hlinear, rfl, live.heads, fun names => ?_⟩ hall⟩
    · rw [placeFuncs]
      exact bind_eq_ok.mpr ⟨_, hlinear, bind_eq_ok.mpr ⟨_, halloc, bind_eq_ok.mpr ⟨placed, hplaced, rfl⟩⟩⟩
    · exact ⟨hlaid, hf.linked, hf.ended, hf.strict, hf.noPhis, hsettled, hseparates,
        fun b => exists_blockLabel hlaid.nodup names⟩

theorem lowerFunc_whole {f : PlacedFunc} (h : f.Ready) (entry : Label) (names : LabelTable) :
    (lowerFunc f.linear f.placement entry names).failure = none := by
  obtain ⟨heads, hready⟩ := h
  exact Context.lowerBlocks_whole (hready names).complete

theorem lowerFuncs_whole : ∀ (fs : List (PlacedFunc × Label)) (names : LabelTable), (∀ p ∈ fs, p.1.Ready) →
    (lowerFuncs names fs).failure = none
  | [], _, _ => rfl
  | (f, l) :: fs, names, h => by
    have hf := lowerFunc_whole (h _ List.mem_cons_self) l names
    have hrest := lowerFuncs_whole fs (blockLabels f.linear names).2 fun p hp => h p (List.mem_cons_of_mem _ hp)
    rw [lowerFuncs, Emission.append, hf]
    exact hrest

theorem length_functionLabels : ∀ (fs : List PlacedFunc) (names : LabelTable),
    (functionLabels fs names).1.length = fs.length
  | [], _ => rfl
  | _ :: fs, _ => congrArg Nat.succ (length_functionLabels fs _)

theorem map_fst_zip_functionLabels (placed : List PlacedFunc) (names : LabelTable) :
    (placed.zip (functionLabels placed names).1).map Prod.fst = placed :=
  List.map_fst_zip (length_functionLabels placed names).ge

/-- Placed functions with an entry function among them are written. -/
theorem emitUnit_ok (source : String) {placed : List PlacedFunc} (h : ∀ q ∈ placed, q.Ready)
    (hentry : ∃ q ∈ placed, q.linear.func.isEntry = true) : ∃ sheet, emitUnit source placed = .ok sheet := by
  obtain ⟨q, hq, hisEntry⟩ := hentry
  obtain ⟨p, hp, rfl⟩ := List.mem_map.mp ((map_fst_zip_functionLabels placed []).symm ▸ hq)
  obtain ⟨found, hfound⟩ : ∃ p, ((placed.zip (functionLabels placed []).1).find?
      fun p => p.1.linear.func.isEntry) = some p :=
    Option.isSome_iff_exists.mp (List.find?_isSome.mpr ⟨p, hp, hisEntry⟩)
  have hwhole : ∀ names, (lowerFuncs names (placed.zip (functionLabels placed []).1)).failure = none := fun names =>
    lowerFuncs_whole _ names fun p hp => h p.1 (List.of_mem_zip hp).1
  unfold emitUnit
  simp only [hfound]
  exact ⟨_, bind_eq_ok.mpr ⟨_, by rw [Emission.eq_whole (hwhole _)]; rfl, rfl⟩⟩

end Asm

/-! ### Programs -/

theorem checkNames_nodup : ∀ (functions : List Syntax.Func) {seen : List String},
    Typed.checkNames seen functions = .ok () →
    (functions.map Syntax.Func.name).Nodup ∧ ∀ f ∈ functions, f.name ∉ seen
  | [], _, _ => ⟨List.nodup_nil, fun _ hf => absurd hf List.not_mem_nil⟩
  | f :: rest, seen, h => by
    rw [Typed.checkNames] at h
    split_ifs at h with hseen
    obtain ⟨hnodup, hnot⟩ := checkNames_nodup rest h
    have hfirst : f.name ∉ seen := by simpa using hseen
    refine ⟨List.nodup_cons.mpr ⟨fun hmem => ?_, hnodup⟩, fun g hg => ?_⟩
    · obtain ⟨g, hg, heq⟩ := List.mem_map.mp hmem
      exact hnot g hg (heq ▸ List.mem_cons_self)
    · rcases List.mem_cons.mp hg with rfl | hg
      · exact hfirst
      · exact fun hmem => hnot g hg (List.mem_cons_of_mem _ hmem)

/-- What is known of an accepted program: its functions are checked one by one,
have different names, and one of them is the entry function. -/
structure Accepted (p : Typed.Program) : Prop where
  checked : ∀ t ∈ p.functions, ∃ f, Typed.checkFunc f = .ok t
  entry : ∃ t ∈ p.functions, t.isEntry = true
  names : (p.functions.map Typed.Func.name).Nodup

theorem checkFunc_head {f : Syntax.Func} (h : Typed.checkFunc f = .ok t) :
    t.name = f.name ∧ t.isEntry = (f.name == Typed.entryName) := by
  obtain ⟨body, ctx, -, -, rfl⟩ := Typed.checkFunc_inv h
  exact ⟨rfl, rfl⟩

theorem check_inv {p : Syntax.Program} {t : Typed.Program} (h : Typed.check p = .ok t) :
    Typed.checkNames [] p.functions = .ok () ∧ Typed.checkEntry p.functions = .ok () ∧
      List.Forall₂ (fun f g => Typed.checkFunc f = .ok g) p.functions t.functions := by
  obtain ⟨_, hnames, h⟩ := bind_eq_ok.mp h
  obtain ⟨_, hentry, h⟩ := bind_eq_ok.mp h
  obtain ⟨functions, hfunctions, rfl⟩ := bind_pure_inj h
  exact ⟨hnames, hentry, mapM_ok_forall₂ hfunctions⟩

theorem checkSource_accepted {source : String} (h : checkSource source = .ok p) : Accepted p := by
  obtain ⟨tokens, -, h⟩ := bind_eq_ok.mp h
  obtain ⟨program, -, h⟩ := bind_eq_ok.mp h
  obtain ⟨hunique, hentry, hall⟩ := check_inv h
  refine ⟨fun t ht => ?_, ?_, ?_⟩
  · obtain ⟨f, -, hf⟩ := forall₂_mem_right hall t ht
    exact ⟨f, hf⟩
  · obtain ⟨f, hmem, hmain, -⟩ := Typed.checkEntry_inv hentry
    obtain ⟨t, ht, hf⟩ := forall₂_mem_left hall f hmem
    refine ⟨t, ht, ?_⟩
    rw [(checkFunc_head hf).2, hmain, beq_self_eq_true]
  · have hnodup := (checkNames_nodup _ hunique).1
    have hnames : p.functions.map Typed.Func.name = program.functions.map Syntax.Func.name :=
      map_eq_of_forall₂ hall fun _ _ hf => (checkFunc_head hf).1
    rwa [← hnames] at hnodup

/-- Every function of an accepted program is built. -/
theorem Accepted.build (h : Accepted p) : ∀ t ∈ p.functions, ∃ f, Ssa.build t = .ok f := by
  intro t ht
  obtain ⟨f, hf⟩ := h.checked t ht
  obtain ⟨flow, new, hflows, hend⟩ := Typed.checkFunc_flows hf
  exact Ssa.build_ok hflows hend

/-- An accepted program compiles, whatever the options are, and its assembly is
the text of its sheet. -/
theorem compileProgram_ok (h : Accepted p) (o : Options) :
    ∃ prepared placed sheet c, prepare o.dump p.functions .zero = .ok prepared ∧
      Asm.placeFuncs (.ofLimit o.registerLimit) prepared.functions = .ok placed ∧
      Asm.emitUnit o.nameOfSource placed = .ok sheet ∧ compileProgram o p = .ok c ∧ c.assembly = sheet.text ∧
      List.Forall₂ Prepares p.functions prepared.functions ∧
      List.Forall₂ (fun f q => f.linear = .ok q.linear ∧ q.linear.func = f ∧ q.Ready) prepared.functions placed := by
  obtain ⟨prepared, hprepared, hall⟩ := prepare_ok o.dump p.functions .zero h.build
  obtain ⟨hnd, hpool⟩ := RegFile.ofLimit_pool o.registerLimit
  have hplain : ∀ g ∈ prepared.functions, g.Plain := by
    intro g hg
    obtain ⟨t, -, ht⟩ := forall₂_mem_right hall g hg
    exact ht.facts.1
  obtain ⟨placed, hplaced, hall'⟩ := Asm.placeFuncs_ok prepared.functions hnd hpool hplain
  obtain ⟨t, ht, htentry⟩ := h.entry
  obtain ⟨g, hg, htg⟩ := forall₂_mem_left hall t ht
  have hgentry : g.isEntry = true := htg.facts.2.2.trans htentry
  obtain ⟨q, hq, hgq⟩ := forall₂_mem_left hall' g hg
  obtain ⟨sheet, hsheet⟩ := Asm.emitUnit_ok o.nameOfSource
    (fun q hq => by
      obtain ⟨g, -, hg⟩ := forall₂_mem_right hall' q hq
      exact hg.2.2)
    ⟨q, hq, by rw [hgq.2.1]; exact hgentry⟩
  have hany : prepared.functions.any (·.isEntry) = true := List.any_eq_true.mpr ⟨g, hg, hgentry⟩
  have hc : compileProgram o p = .ok ⟨sheet.text, (placed.foldl
      (fun s f => s.countPlaces f.placement.used.size f.placement.stackSlots)
      prepared.statistics).countMachineInstrs sheet.lines.instrCount, if o.dump then some prepared.dump else none⟩ := by
    unfold compileProgram
    refine bind_eq_ok.mpr ⟨prepared, hprepared, ?_⟩
    simp only [hany]
    exact bind_eq_ok.mpr ⟨placed, hplaced, bind_eq_ok.mpr ⟨sheet, hsheet, rfl⟩⟩
  exact ⟨prepared, placed, sheet, _, hprepared, hplaced, hsheet, hc, rfl, hall, hall'⟩

/-- A text either is compiled or is rejected with a diagnostic of the lexer, the
parser or the checker: no failure behind the checker is possible, with any
options. -/
theorem compileSource_ok_or_diagnostic (o : Options) (source : String) :
    (∃ p c, checkSource source = .ok p ∧ compileSource o source = .ok c) ∨
      ∃ d, checkSource source = .error d ∧ compileSource o source = .error (.diagnostic d) := by
  unfold compileSource
  cases hcheck : checkSource source with
  | error d => exact Or.inr ⟨d, rfl, rfl⟩
  | ok p =>
    obtain ⟨-, -, -, c, -, -, -, hc, -⟩ := compileProgram_ok (checkSource_accepted hcheck) o
    exact Or.inl ⟨p, c, rfl, by simp only [hc]⟩

end Chordal
