/-
# Accepted programs do not go wrong

The flow graphs of an accepted program are typed, and they stay typed when their phis
are taken out: a copy on an edge has the type of the phi it stands for, and a value
that is saved gets the type of what it saves. A run of a typed graph keeps truth values
apart from integers. Every value of type `bool` that has been written holds zero or
one, because comparisons and literals give such words, negation swaps them, and
everything else that writes a `bool` copies one.

Together with what is known of runs, a function ends with a word or a failed division,
or reaches its step limit; it never reads a value that is not there and never comes to
a place where the graph says nothing.

Key definitions: `WordFits`, `Store.Truthful`, `Func.Reaches`, `Func.Safe`.
Key theorems: `Func.WellTyped.removeBlockPhis`, `Func.Steps.wellTyped`, `Func.safe_of_wellTyped`,
`accepted_runs_safely`.
-/
import Mathlib
import Chordal.Proofs.Compilation
import Chordal.Proofs.Ssa.PhiRemovalMeaning
import Chordal.Proofs.Ssa.ValueTypes
import Chordal.Proofs.Typed.SourceTyping

namespace Chordal.Ssa

/-! ### Taking phis out -/

/-- A copy keeps the type. -/
structure Copy.WellTyped (types : List Ty) (c : Copy) : Prop where
  agree : c.source.ty = c.target.ty
  target : c.target.Fits types
  source : c.source.Fits types

theorem Copy.WellTyped.mono {types types' : List Ty} {c : Copy} (h : c.WellTyped types) (hle : types <+: types') :
    c.WellTyped types' := ⟨h.agree, h.target.mono hle, h.source.mono hle⟩

theorem Copy.WellTyped.move {returns : Ty} {types : List Ty} {c : Copy} (h : c.WellTyped types) :
    (Instr.move c.target c.source).WellTyped returns types := by
  refine ⟨h.agree, ?_, by simpa [Instr.operands] using h.source⟩
  rintro v ⟨⟩
  exact h.target

/-- A number has one type. -/
theorem Value.Fits.ty_eq {types : List Ty} {u v : Value} (hu : u.Fits types) (hv : v.Fits types) (hid : u.id = v.id) :
    u.ty = v.ty := by
  unfold Value.Fits at hu hv
  rw [hid, hv] at hu
  exact (Option.some.inj hu).symm

/-- Copies that are put in order keep the types, also where a target is saved first. -/
theorem Copies.sequenceIn_wellTyped : ∀ (rounds : Nat) {types : List Ty} {pending : List Copy},
    (∀ c ∈ pending, c.WellTyped types) →
    ∃ types', types <+: types' ∧ types'.length = (sequenceIn Nat.succ rounds types.length pending).2 ∧
      ∀ c ∈ (sequenceIn Nat.succ rounds types.length pending).1, c.WellTyped types'
  | 0, types, pending, _ => ⟨types, List.prefix_rfl, rfl, by simp [sequenceIn]⟩
  | _ + 1, types, [], _ => ⟨types, List.prefix_rfl, rfl, by simp [sequenceIn]⟩
  | rounds + 1, types, first :: others, h => by
    cases hfind : (first :: others).find? (isReady (first :: others)) with
    | some c =>
      obtain ⟨types', hle, hlen, hrest⟩ := sequenceIn_wellTyped rounds
        fun d (hd : d ∈ (first :: others).erase c) => h d (List.mem_of_mem_erase hd)
      rw [sequenceIn_of_ready _ rounds _ hfind]
      refine ⟨types', hle, hlen, fun d hd => ?_⟩
      rcases List.mem_cons.mp hd with rfl | hd
      · exact (h d (List.mem_of_find?_eq_some hfind)).mono hle
      · exact hrest d hd
    | none =>
      have hfirst := h first List.mem_cons_self
      have hnext : types <+: types ++ [first.target.ty] := List.prefix_append types [first.target.ty]
      have hsaved := Value.fits_next types first.target.ty
      -- the copies that read the saved target have its type
      have hpending : ∀ d ∈ redirect first.target ⟨types.length, first.target.ty⟩ (first :: others),
          d.WellTyped (types ++ [first.target.ty]) := by
        intro d hd
        rcases mem_redirect.mp hd with ⟨c, hc, hid, rfl⟩ | ⟨hd, -⟩
        · have hty : c.source.ty = first.target.ty := (h c hc).source.ty_eq hfirst.target hid
          exact ⟨hty.symm.trans (h c hc).agree, (h c hc).target.mono hnext, hsaved⟩
        · exact (h d hd).mono hnext
      obtain ⟨types', hle, hlen, hrest⟩ := sequenceIn_wellTyped rounds hpending
      rw [List.length_append, List.length_singleton] at hlen hrest
      rw [sequenceIn_of_wait _ rounds _ hfind]
      refine ⟨types', hnext.trans hle, hlen, fun d hd => ?_⟩
      rcases List.mem_cons.mp hd with rfl | hd
      · exact ⟨rfl, hsaved.mono hle, (hfirst.target.mono hnext).mono hle⟩
      · exact hrest d hd

theorem Instr.WellTyped.retarget {returns : Ty} {types : List Ty} {i : Instr} (h : i.WellTyped returns types)
    (old new : BlockId) : (i.retarget old new).WellTyped returns types := by
  cases i with
  | jump target => exact Instr.wellTyped_jump returns types _
  | branch c a b => exact Instr.wellTyped_branch h.agree (h.operands c List.mem_cons_self) _ _
  | const | bool | move | unary | binary | phi | ret => exact h

namespace Func

variable {returns : Ty} {types : List Ty} {f g : Func}

theorem mem_retargetLast {old new : BlockId} {code : List Instr} {i : Instr} (h : i ∈ retargetLast old new code) :
    i ∈ code ∨ ∃ j ∈ code, i = j.retarget old new := by
  unfold retargetLast at h
  cases hlast : code.getLast? with
  | none => exact Or.inl (by rwa [hlast] at h)
  | some j =>
    rw [hlast] at h
    rcases List.mem_append.mp h with h | h
    · exact Or.inl (List.dropLast_subset code h)
    · exact Or.inr ⟨j, List.mem_of_getLast? hlast, List.mem_singleton.mp h⟩

theorem mem_beforeLast {copies : List Copy} {code : List Instr} {i : Instr} (h : i ∈ beforeLast copies code) :
    i ∈ code ∨ ∃ c ∈ copies, i = .move c.target c.source := by
  unfold beforeLast at h
  rcases List.mem_append.mp h with h | h
  · rcases List.mem_append.mp h with h | h
    · exact Or.inl (List.dropLast_subset code h)
    · obtain ⟨c, hc, rfl⟩ := List.mem_map.mp h
      exact Or.inr ⟨c, hc, rfl⟩
  · exact Or.inl (List.mem_of_getLast? (Option.mem_toList.mp h))

theorem WellTyped.splitEdge (h : f.WellTyped returns types) (a b : BlockId) :
    (f.splitEdge a b).2.WellTyped returns types := by
  refine ⟨h.count.trans (f.valueCount_splitEdge a b).symm, ?_⟩
  have hadd := h.code.addBlock "split"
  have hretarget : ∀ s, ((f.addBlock "split").2.modifyBlock a fun blk =>
      { blk with code := retargetLast b s blk.code, succs := replaceAll b s blk.succs }).AllCode
        (Instr.WellTyped returns types) := by
    intro s
    refine hadd.modifyBlock fun blk hblk i hi => ?_
    rcases mem_retargetLast hi with hi | ⟨j, hj, rfl⟩
    · exact hblk i hi
    · exact (hblk j hj).retarget b s
  unfold Func.splitEdge
  dsimp only
  split_ifs
  · apply AllCode.modifyBlock
    · apply AllCode.modifyBlock (hretarget _)
      intro blk hblk
      exact hblk
    · intro blk hblk i hi
      rcases List.mem_append.mp hi with hi | hi
      · exact hblk i hi
      · rw [List.mem_singleton.mp hi]
        exact Instr.wellTyped_jump returns types b
  · exact hretarget _
  · exact hadd

theorem WellTyped.withCopies (h : f.WellTyped returns types) (into : BlockId) {copies : List Copy}
    (hcopies : ∀ c ∈ copies, c.WellTyped types) :
    ∃ types', types <+: types' ∧ (f.withCopies into copies).WellTyped returns types' := by
  obtain ⟨types', hle, hlen, hordered⟩ := Copies.sequenceIn_wellTyped (3 * copies.length) hcopies
  rw [h.count] at hlen hordered
  have hcode : ({ f with valueCount := (Copies.sequenceFresh f.valueCount copies).2 } : Func).AllCode
      (Instr.WellTyped returns types') := (h.code.imp fun i hi => hi.mono hle).of_blocks rfl
  refine ⟨types', hle, hlen, hcode.modifyBlock fun blk hblk i hi => ?_⟩
  rcases mem_beforeLast hi with hi | ⟨c, hc, rfl⟩
  · exact hblk i hi
  · exact (hordered c hc).move

theorem WellTyped.copyOnEdge (h : f.WellTyped returns types) (b p : BlockId) {copies : List Copy}
    (hcopies : ∀ c ∈ copies, c.WellTyped types) :
    ∃ types', types <+: types' ∧ (f.copyOnEdge b p copies).WellTyped returns types' := by
  unfold Func.copyOnEdge
  dsimp only
  split_ifs
  · exact (h.splitEdge p b).withCopies _ hcopies
  · exact h.withCopies p hcopies

theorem edgeCopies_wellTyped {b p : BlockId} : ∀ {phis : List Instr} {copies : List Copy},
    (∀ i ∈ phis, i.WellTyped returns types) → f.edgeCopies b p phis = .ok copies → ∀ c ∈ copies, c.WellTyped types
  | [], _, _, h => by
    obtain rfl := Except.ok.inj h
    simp
  | i :: rest, _, hphis, h => by
    cases i with
    | phi target entries =>
      have hphi := hphis _ List.mem_cons_self
      rw [Func.edgeCopies] at h
      cases hfind : entries.find? fun e => e.2 == p with
      | none =>
        rw [hfind] at h
        cases h
      | some e =>
        rw [hfind] at h
        obtain ⟨others, hothers, h⟩ := bind_eq_ok.mp h
        have hrest := edgeCopies_wellTyped (fun i hi => hphis i (List.mem_cons_of_mem _ hi)) hothers
        have he : e ∈ entries := List.mem_of_find?_eq_some hfind
        obtain rfl := Except.ok.inj h
        split_ifs
        · exact hrest
        · intro c hc
          rcases List.mem_cons.mp hc with rfl | hc
          · exact ⟨hphi.agree e he, hphi.target target rfl, hphi.operands _ (List.mem_map_of_mem he)⟩
          · exact hrest c hc
    | _ =>
      obtain rfl := Except.ok.inj h
      simp

theorem WellTyped.removeFrom {b : BlockId} {phis : List Instr} :
    ∀ (preds : List BlockId) {types : List Ty} {f g : Func}, (∀ i ∈ phis, i.WellTyped returns types) →
      f.WellTyped returns types → Func.removeFrom b phis preds f = .ok g → ∃ types', g.WellTyped returns types'
  | [], types, f, g, _, h, heq => Except.ok.inj heq ▸ ⟨types, h⟩
  | p :: preds, types, f, g, hphis, h, heq => by
    rw [Func.removeFrom] at heq
    split at heq
    · cases heq
    · exact WellTyped.removeFrom preds hphis h heq
    · next copies hcopies =>
      obtain ⟨types₁, hle₁, h₁⟩ := h.copyOnEdge b p (edgeCopies_wellTyped hphis hcopies)
      exact WellTyped.removeFrom preds (fun i hi => (hphis i hi).mono hle₁) h₁ heq

theorem WellTyped.removeBlockPhis (h : f.WellTyped returns types) {b : BlockId}
    (heq : f.removeBlockPhis b = .ok g) : ∃ types', g.WellTyped returns types' := by
  rcases removeBlockPhis_cases heq with rfl | ⟨blk, hblk, heq⟩
  · exact ⟨types, h⟩
  · have hphis : ∀ i ∈ blk.phis, i.WellTyped returns types := fun i hi =>
      h.code b i (mem_code.mpr ⟨blk, hblk, (List.takeWhile_sublist _).subset hi⟩)
    have hbody : (f.modifyBlock b fun blk => { blk with code := blk.body }).WellTyped returns types :=
      ⟨h.count, h.code.modifyBlock fun blk hblk i hi => hblk i ((List.dropWhile_sublist _).subset hi)⟩
    exact WellTyped.removeFrom _ hphis hbody heq

end Func

/-! ### Stores -/

/-- A word that a value of the type may hold. -/
def WordFits (ty : Ty) (w : Word) : Prop := ty = .bool → w = 0 ∨ w = 1

theorem wordFits_ofBool (ty : Ty) (p : Bool) : WordFits ty (Word.ofBool p) := by
  intro _
  cases p with
  | false => exact Or.inl rfl
  | true => exact Or.inr rfl

theorem wordFits_int (w : Word) : WordFits .int w := fun h => by cases h

theorem wordFits_unary {op : UnaryOp} {w : Word} (h : WordFits op.operandTy w) :
    WordFits op.operandTy (op.apply w) := by
  cases op with
  | neg => exact wordFits_int _
  | bitNot => exact wordFits_int _
  | logicalNot =>
    intro hty
    rcases h hty with rfl | rfl
    · exact Or.inr rfl
    · exact Or.inl rfl

/-- A comparison gives a truth value. -/
theorem wordFits_comparison {op : BinaryOp} {l r w : Word} (hop : op.isComparison = true) (h : op.apply l r = .ok w)
    (ty : Ty) : WordFits ty w := by
  cases op with
  | lt | le | gt | ge | eq | ne =>
    rw [← Except.ok.inj h]
    exact wordFits_ofBool ty _
  | add | sub | mul | div | mod | shl | shr | and | or | xor => cases hop

namespace Store

/-- All values hold words of their types. -/
def Truthful (types : List Ty) (store : Store) : Prop :=
  ∀ v : Value, v.Fits types → ∀ w, store.get? v.id = some w → WordFits v.ty w

variable {types : List Ty} {store : Store}

theorem truthful_undefined (types : List Ty) (n : Nat) : (undefined n).Truthful types := by
  intro v _ w h
  rw [get?_undefined] at h
  cases h

theorem Truthful.read (h : store.Truthful types) {v : Value} {w : Word} (hv : v.Fits types)
    (hr : store.read v = .ok w) : WordFits v.ty w := by
  unfold Store.read at hr
  cases hget : store.get? v.id with
  | none =>
    rw [hget] at hr
    cases hr
  | some u =>
    rw [hget] at hr
    obtain rfl := Except.ok.inj hr
    exact h v hv u hget

theorem Truthful.write (h : store.Truthful types) {v : Value} {w : Word} (hv : v.Fits types) (hw : WordFits v.ty w) :
    (store.write v w).Truthful types := by
  intro u hu x hx
  rw [get?_write] at hx
  split_ifs at hx with hid
  · obtain rfl := Option.some.inj hx
    exact hu.ty_eq hv hid ▸ hw
  · exact h u hu x hx

theorem Truthful.writeAll (h : store.Truthful types) {l : List (Value × Word)}
    (hl : ∀ p ∈ l, p.1.Fits types ∧ WordFits p.1.ty p.2) : (store.writeAll l).Truthful types := by
  induction l generalizing store with
  | nil => exact h
  | cons p l ih =>
    obtain ⟨⟨hp, hw⟩, hrest⟩ := List.forall_mem_cons.mp hl
    exact ih (h.write hp hw) hrest

end Store

/-! ### Runs -/

/-- A point of a run of a typed graph. -/
structure State.WellTyped (returns : Ty) (types : List Ty) (s : State) : Prop where
  code : ∀ i ∈ s.code, i.WellTyped returns types
  store : s.store.Truthful types

section Runs

variable {returns : Ty} {types : List Ty} {f : Func}

/-- Phis choose words of their types. -/
theorem readPhis_fits {origin : Option BlockId} {label : String} {store : Store} (hstore : store.Truthful types) :
    ∀ {phis : List Instr} {l : List (Value × Word)}, (∀ i ∈ phis, i.WellTyped returns types) →
      readPhis origin label store phis = .ok l → ∀ p ∈ l, p.1.Fits types ∧ WordFits p.1.ty p.2
  | [], _, _, h => by
    obtain rfl := Except.ok.inj h
    simp
  | i :: rest, _, hphis, h => by
    cases i with
    | phi target entries =>
      have hphi := hphis _ List.mem_cons_self
      rw [readPhis] at h
      cases hfind : entries.find? fun e => some e.2 == origin with
      | none =>
        rw [hfind] at h
        cases h
      | some e =>
        rw [hfind] at h
        obtain ⟨w, hw, h⟩ := bind_eq_ok.mp h
        obtain ⟨others, hothers, rfl⟩ := bind_pure_inj h
        have he : e ∈ entries := List.mem_of_find?_eq_some hfind
        have hfits : WordFits e.1.ty w := hstore.read (hphi.operands _ (List.mem_map_of_mem he)) hw
        intro p hp
        rcases List.mem_cons.mp hp with rfl | hp
        · exact ⟨hphi.target target rfl, hphi.agree e he ▸ hfits⟩
        · exact readPhis_fits hstore (fun i hi => hphis i (List.mem_cons_of_mem _ hi)) hothers p hp
    | _ =>
      obtain rfl := Except.ok.inj h
      simp

namespace Func

theorem WellTyped.enter (h : f.WellTyped returns types) {origin : Option BlockId} {b : BlockId} {store : Store}
    {s : State} (hstore : store.Truthful types) (heq : f.enter origin b store = .ok s) : s.WellTyped returns types := by
  unfold Func.enter at heq
  cases hblk : f.block? b with
  | none =>
    rw [hblk] at heq
    cases heq
  | some blk =>
    rw [hblk] at heq
    obtain ⟨l, hl, rfl⟩ := bind_pure_inj heq
    have hcode : ∀ i ∈ blk.code, i.WellTyped returns types := fun i hi => h.code b i (mem_code.mpr ⟨blk, hblk, hi⟩)
    have hphis : ∀ i ∈ blk.phis, i.WellTyped returns types := fun i hi => hcode i ((List.takeWhile_sublist _).subset hi)
    exact ⟨fun i hi => hcode i ((List.dropWhile_sublist _).subset hi), hstore.writeAll (readPhis_fits hstore hphis hl)⟩

/-- What a step of a typed graph leads to. -/
def NextFits (returns : Ty) (types : List Ty) : Next → Prop
  | .state s => s.WellTyped returns types
  | .result w => WordFits returns w

/-- One step keeps words and types together. -/
theorem WellTyped.step (h : f.WellTyped returns types) {b : BlockId} {store : Store} {rest : List Instr} {i : Instr}
    {next : Next} (hrest : ∀ j ∈ rest, j.WellTyped returns types) (hi : i.WellTyped returns types)
    (hstore : store.Truthful types) (heq : f.step b store rest i = .ok next) : NextFits returns types next := by
  cases i with
  | const target value =>
    obtain rfl := Except.ok.inj heq
    have hty : target.ty = .int := hi.agree
    exact ⟨hrest, hstore.write (hi.target target rfl) (hty ▸ wordFits_int value)⟩
  | bool target value =>
    obtain rfl := Except.ok.inj heq
    exact ⟨hrest, hstore.write (hi.target target rfl) (wordFits_ofBool _ value)⟩
  | move target source =>
    obtain ⟨w, hw, rfl⟩ := bind_pure_inj heq
    have hty : source.ty = target.ty := hi.agree
    have hfits := hstore.read (hi.operands source List.mem_cons_self) hw
    exact ⟨hrest, hstore.write (hi.target target rfl) (hty ▸ hfits)⟩
  | unary target op operand =>
    obtain ⟨w, hw, rfl⟩ := bind_pure_inj heq
    obtain ⟨htarget, hoperand⟩ : target.ty = op.operandTy ∧ operand.ty = op.operandTy := hi.agree
    have hfits := hstore.read (hi.operands operand List.mem_cons_self) hw
    rw [hoperand] at hfits
    exact ⟨hrest, hstore.write (hi.target target rfl) (htarget ▸ wordFits_unary hfits)⟩
  | binary target op left right =>
    obtain ⟨l, hl, heq⟩ := bind_eq_ok.mp heq
    obtain ⟨r, hr, heq⟩ := bind_eq_ok.mp heq
    have hagree := hi.agree
    rw [Instr.TypesAgree] at hagree
    split at heq
    · next w hw =>
      obtain rfl := Except.ok.inj heq
      refine ⟨hrest, hstore.write (hi.target target rfl) ?_⟩
      split_ifs at hagree with hop
      · exact wordFits_comparison hop hw target.ty
      · exact hagree.1 ▸ wordFits_int w
    · cases heq
  | phi target entries =>
    obtain rfl := Except.ok.inj heq
    exact ⟨hrest, hstore⟩
  | jump target =>
    obtain ⟨s, hs, rfl⟩ := bind_pure_inj heq
    exact h.enter hstore hs
  | branch condition ifTrue ifFalse =>
    obtain ⟨w, -, heq⟩ := bind_eq_ok.mp heq
    obtain ⟨s, hs, rfl⟩ := bind_pure_inj heq
    exact h.enter hstore hs
  | ret value =>
    obtain ⟨w, hw, rfl⟩ := bind_pure_inj heq
    have hty : value.ty = returns := hi.agree
    exact hty ▸ hstore.read (hi.operands value List.mem_cons_self) hw

/-- A run keeps words and types together. -/
theorem Steps.wellTyped (h : f.WellTyped returns types) {n : Nat} {s s' : State} (hsteps : f.Steps n s s')
    (hs : s.WellTyped returns types) : s'.WellTyped returns types := by
  induction hsteps with
  | refl s => exact hs
  | head hstep _ ih =>
    obtain ⟨hi, hrest⟩ := List.forall_mem_cons.mp hs.code
    exact ih (h.step hrest hi hs.store hstep)

/-- A run returns a word of the type it is to return. -/
theorem WellTyped.runFrom_fits (h : f.WellTyped returns types) {limit : Nat} {w : Word} : ∀ {left : Nat} {s : State},
    s.WellTyped returns types → f.runFrom limit left s = .ok w → WordFits returns w
  | left, ⟨b, [], store⟩, _, hrun => by
    rw [Func.runFrom] at hrun
    cases hrun
  | 0, ⟨b, i :: rest, store⟩, _, hrun => by
    rw [Func.runFrom] at hrun
    cases hrun
  | left + 1, ⟨b, i :: rest, store⟩, hs, hrun => by
    obtain ⟨hi, hrest⟩ := List.forall_mem_cons.mp hs.code
    rw [Func.runFrom] at hrun
    split at hrun
    · cases hrun
    · next u hstep =>
      obtain rfl := Except.ok.inj hrun
      exact h.step hrest hi hs.store hstep
    · next s' hstep => exact runFrom_fits h (h.step hrest hi hs.store hstep) hrun

/-! ### Safety -/

/-- A run comes to a state. -/
def Reaches (f : Func) (y : State) : Prop :=
  ∃ x n, f.enter none f.start (.undefined f.valueCount) = .ok x ∧ f.Steps n x y

/-- Runs of the function do not go wrong. -/
structure Safe (f : Func) : Prop where
  /-- A run ends with a word or a failed division, or it reaches its limit. -/
  result : ∀ n, (∃ w, f.run n = .ok w) ∨ (∃ fault, f.run n = .error (.division fault)) ∨ f.run n = .error (.stepLimit n)
  /-- Values of type `bool` that have been written hold zero or one. -/
  truth : ∀ y, f.Reaches y → ∀ b, ∀ i ∈ f.code b, ∀ v ∈ i.target?.toList ++ i.operands, v.ty = .bool →
    ∀ w, y.store.get? v.id = some w → w = 0 ∨ w = 1
  /-- Logical negation gives the other truth value. -/
  negation : ∀ b target operand rest store, f.Reaches ⟨b, .unary target .logicalNot operand :: rest, store⟩ →
    ∃ p, store.read operand = .ok (Word.ofBool p) ∧
      f.step b store rest (.unary target .logicalNot operand) =
        .ok (.state ⟨b, rest, store.write target (Word.ofBool !p)⟩)
  /-- A function that returns a `bool` returns zero or one. -/
  returned : f.returns = .bool → ∀ n w, f.run n = .ok w → w = 0 ∨ w = 1

theorem WellTyped.reaches (h : f.WellTyped returns types) {y : State} (hy : f.Reaches y) :
    y.WellTyped returns types := by
  obtain ⟨x, n, hx, hsteps⟩ := hy
  exact hsteps.wellTyped h (h.enter (Store.truthful_undefined types _) hx)

section

variable {x : State} (hx : f.enter none f.start (.undefined f.valueCount) = .ok x)
  (hend : (∃ r, Halts f x (ofResult r)) ∨ ∀ n, ∃ m y, n < m ∧ f.Steps m x y)

include hx hend

/-- A run that ends with a word or a failed division, or goes on forever, has one of
three outcomes with every limit. -/
theorem run_cases (n : Nat) :
    (∃ w, f.run n = .ok w) ∨ (∃ fault, f.run n = .error (.division fault)) ∨ f.run n = .error (.stepLimit n) := by
  rcases hend with ⟨r, hr⟩ | hlong
  · obtain ⟨m, hm⟩ := run_of_halts hx hr
    by_cases hlt : m < n
    · rw [hm, if_pos hlt]
      cases r with
      | ok w => exact Or.inl ⟨w, rfl⟩
      | error fault => exact Or.inr (Or.inl ⟨fault, rfl⟩)
    · rw [hm, if_neg hlt]
      exact Or.inr (Or.inr rfl)
  · exact Or.inr (Or.inr (run_of_diverges hx hlong n))

/-- In such a run no value is read before it is written. -/
theorem read_of_reaches {b : BlockId} {target operand : Value} {op : UnaryOp} {rest : List Instr} {store : Store}
    (hy : f.Reaches ⟨b, .unary target op operand :: rest, store⟩) : ∃ w, store.read operand = .ok w := by
  obtain ⟨x', n, hx', hsteps⟩ := hy
  unfold Store.read
  cases hget : store.get? operand.id with
  | some w => exact ⟨w, rfl⟩
  | none =>
    have hread : store.read operand = .error (.undefinedValue operand.id) := by rw [Store.read, hget]
    have hstep : f.step b store rest (.unary target op operand) = .error (.undefinedValue operand.id) := by
      rw [Func.step, hread]
      rfl
    have hstops : Halts f x' (.error (.undefinedValue operand.id)) :=
      ⟨n, _, hsteps, _, rest, rfl, Or.inr ⟨_, hstep, rfl⟩⟩
    obtain ⟨m, hm⟩ := run_of_halts hx' hstops
    have hrun : f.run (m + 1) = .error (.undefinedValue operand.id) := by rw [hm, if_pos (Nat.lt_succ_self m)]
    rcases run_cases hx hend (m + 1) with ⟨w, hw⟩ | ⟨fault, hf⟩ | hl
    · cases hrun.symm.trans hw
    · cases hrun.symm.trans hf
    · cases hrun.symm.trans hl

/-- A typed graph whose runs end with a word or a failed division, or go on forever, is
safe. -/
theorem safe_of_wellTyped (h : f.WellTyped f.returns types) : f.Safe where
  result := run_cases hx hend
  truth := by
    intro y hy b i hi v hv hty w hw
    have hinstr := h.code b i hi
    have hfits : v.Fits types := by
      rcases List.mem_append.mp hv with hv | hv
      · exact hinstr.target v (Option.mem_toList.mp hv)
      · exact hinstr.operands v hv
    exact (h.reaches hy).store v hfits w hw hty
  negation := by
    intro b target operand rest store hy
    obtain ⟨w, hw⟩ := read_of_reaches hx hend hy
    have hstate := h.reaches hy
    have hinstr := hstate.code _ List.mem_cons_self
    have hstep : f.step b store rest (.unary target .logicalNot operand) =
        .ok (.state ⟨b, rest, store.write target (w ^^^ 1)⟩) := by
      rw [Func.step, hw]
      rfl
    rcases hstate.store.read (hinstr.operands operand List.mem_cons_self) hw hinstr.agree.2 with rfl | rfl
    · exact ⟨false, hw, hstep⟩
    · exact ⟨true, hw, hstep⟩
  returned := by
    intro hreturns n w hw
    unfold Func.run at hw
    rw [hx] at hw
    exact h.runFrom_fits (h.enter (Store.truthful_undefined types _) hx) hw hreturns

end

end Func

end Runs

/-- The graph of a typed function is safe, with its phis and without them. -/
theorem safe_of_build {t : Typed.Func} {f : Func} (ht : t.WellFormed) (hk : t.KeepsTypes)
    (h : build t = .ok f) :
    f.Safe ∧ ∃ g, f.removePhis = .ok (g, f.phiCount) ∧ g.Safe := by
  have hwf := wellFormed_of_build h
  have hn : ∀ b, (definedIds (f.phis b)).Nodup := fun b =>
    (hwf.nodup_definedIds b).sublist ((List.takeWhile_sublist _).filterMap _)
  obtain ⟨types, htyped⟩ := build_wellTyped ht hk h
  obtain ⟨g, moves, ρ, hg, hremoved, x, y, hx, hy, hout⟩ := removePhis_runs hwf.toRegular hwf.strict hn
  obtain ⟨types', htyped'⟩ := Func.removePhisOf_keeps (P := fun g => ∃ types, g.WellTyped f.returns types)
    (by rintro _ _ _ ⟨_, h⟩ heq; exact h.removeBlockPhis heq) _ ⟨_, htyped⟩ hg
  have hreturns : g.returns = f.returns := congrArg (fun head => head.2.1) hremoved.head
  rw [← hreturns] at htyped'
  refine ⟨Func.safe_of_wellTyped hx ?_ htyped, g, hg, Func.safe_of_wellTyped hy ?_ htyped'⟩
  · exact hout.imp (fun ⟨r, hr⟩ => ⟨r, hr.1⟩) And.left
  · exact hout.imp (fun ⟨r, hr⟩ => ⟨r, hr.2⟩) And.right

end Chordal.Ssa

namespace Chordal

/-- The functions of an accepted program are safe, with their phis and without them. -/
theorem accepted_runs_safely {source : String} {p : Typed.Program} (h : checkSource source = .ok p) :
    ∃ fs, Ssa.buildAll p = .ok fs ∧
      ∀ f ∈ fs, f.Safe ∧ ∃ g, f.removePhis = .ok (g, f.phiCount) ∧ g.Safe := by
  obtain ⟨fs, hfs⟩ := mapM_ok (checkSource_accepted h).build
  refine ⟨fs, hfs, fun f hf => ?_⟩
  obtain ⟨t, ht, hbuild⟩ := forall₂_mem_right (mapM_ok_forall₂ hfs) f hf
  obtain ⟨hwell, hkeeps⟩ := checkSource_wellFormed h t ht
  exact Ssa.safe_of_build hwell hkeeps hbuild

/-- A function that turns a truth value over in a loop, and one that divides. -/
def parity : String :=
  "bool odd() { bool b = false; for (int i = 0; i < 5; i += 1) { b = !b; } return b == true ? b : !b; } " ++
  "int main() { int x = 6; while (x > -2) { x = 7 / x - 3; } return x; }"

theorem parity_runs_safely : ∃ p fs, checkSource parity = .ok p ∧ Ssa.buildAll p = .ok fs ∧ fs.length = 2 ∧
    ∀ f ∈ fs, f.Safe ∧ ∃ g, f.removePhis = .ok (g, f.phiCount) ∧ g.Safe := by
  have hok : (checkSource parity).toOption.map (fun p => p.functions.length) = some 2 := by decide +kernel
  cases hp : checkSource parity with
  | error d =>
    rw [hp] at hok
    cases hok
  | ok p =>
    rw [hp] at hok
    obtain ⟨fs, hfs, hsafe⟩ := accepted_runs_safely hp
    have hlength : p.functions.length = fs.length := (mapM_ok_forall₂ hfs).length_eq
    exact ⟨p, fs, rfl, hfs, hlength.symm.trans (Option.some.inj hok), hsafe⟩

end Chordal
