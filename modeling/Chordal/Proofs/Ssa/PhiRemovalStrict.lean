/-
# Definitions come first without phis too

Taking the phis out of a graph moves definitions: what a phi defined at the head
of a block, copies define on the edges to it, before the terminator of the block
that an edge leaves or in a new block on the edge. Still no path comes to a use
before a definition.

A path of the new graph mirrors a path of the old one that does not visit the new
blocks, and has defined whatever that path has, the phis of the block it has come
to included. A phi that would be copied from itself is an exception: it gets no
copy, but then the old path has defined its value before.

Key definitions: `Uses`, `Mirrors`.
Key theorems: `strict_of_uses`, `Removed.mirrors`, `Removed.strict`.
-/
import Mathlib
import Chordal.Proofs.Ssa.PhiRemovalMeaning

namespace Chordal.Ssa

/-! ### Code that uses what is known -/

/-- Code that uses only what is known or what it has defined before. -/
def Uses (known : Nat → Prop) : List Instr → Prop
  | [] => True
  | i :: rest => (∀ v ∈ i.operands, known v.id) ∧ Uses (fun id => known id ∨ id ∈ definedIds [i]) rest

section Uses

variable {known known' : Nat → Prop} {c d : List Instr}

theorem Uses.mono : ∀ {c : List Instr} {known known' : Nat → Prop}, Uses known c → (∀ id, known id → known' id) →
    Uses known' c
  | [], _, _, _, _ => trivial
  | _ :: _, _, _, h, hsub =>
    ⟨fun v hv => hsub _ (h.1 v hv), h.2.mono fun id hid => hid.imp_left (hsub id)⟩

theorem definedIds_cons (i : Instr) (c : List Instr) : definedIds (i :: c) = definedIds [i] ++ definedIds c :=
  definedIds_append [i] c

theorem uses_append : ∀ {c : List Instr} {known : Nat → Prop},
    Uses known (c ++ d) ↔ Uses known c ∧ Uses (fun id => known id ∨ id ∈ definedIds c) d
  | [], known => by simp [Uses, definedIds]
  | i :: c, known => by
    rw [List.cons_append, Uses, Uses, uses_append, and_assoc, definedIds_cons i c]
    simp only [List.mem_append, or_assoc]

theorem uses_copies : ∀ {moves : List Copy} {known : Nat → Prop},
    Uses known (moves.map Copy.instr) ↔ Copies.Reads known moves
  | [], _ => Iff.rfl
  | m :: moves, known => by
    have hdef : definedIds [m.instr] = [m.target.id] := rfl
    have huse : m.instr.operands = [m.source] := rfl
    rw [List.map_cons, Uses, Copies.Reads, uses_copies, hdef, huse]
    simp

theorem definedIds_copies (moves : List Copy) : definedIds (moves.map Copy.instr) = moves.map fun m => m.target.id := by
  induction moves with
  | nil => rfl
  | cons m moves ih =>
    rw [List.map_cons, definedIds_cons, ih]
    rfl

end Uses

namespace Func

variable {f g : Func}

/-- A graph without phis is strict if no block uses what a path to it has not
defined. -/
theorem strict_of_uses (hnone : ∀ b, ∀ i ∈ g.code b, i.isPhi = false)
    (h : ∀ {b l}, g.Path b l → Uses (g.Known l []) (g.code b)) : g.Strict where
  use := by
    intro b l hl done i rest hcode _ v hv
    have huses := h hl
    rw [hcode, uses_append] at huses
    rcases huses.2.1 v hv with hknown | hdone
    · exact hknown.append done
    · exact Or.inl hdone
  phi := by
    intro a b l _ _ target entries hphi
    have hfalse := hnone b _ hphi
    cases hfalse

/-- The body of a block uses what a path to it, and its phis, have defined. -/
theorem Strict.uses_body (hs : f.Strict) (hfirst : ∀ b, ∀ i ∈ f.body b, i.isPhi = false) {b : BlockId}
    {l : List BlockId} (hl : f.Path b l) : Uses (f.Known l (f.phis b)) (f.body b) := by
  have hall : ∀ (rest done : List Instr), f.body b = done ++ rest → Uses (f.Known l (f.phis b ++ done)) rest := by
    intro rest
    induction rest with
    | nil => exact fun _ _ => trivial
    | cons i rest ih =>
      intro done hbody
      have hcode : f.code b = (f.phis b ++ done) ++ i :: rest := by
        rw [← f.phis_append_body b, hbody, List.append_assoc]
      refine ⟨hs.use hl hcode (hfirst b i (by rw [hbody]; simp)),
        (ih (done ++ [i]) (by simpa using hbody)).mono fun id hid => ?_⟩
      · rw [← List.append_assoc] at hid
        rcases hid with hid | hid
        · rw [definedIds_append, List.mem_append] at hid
          exact hid.imp_left Or.inl
        · exact Or.inl (Or.inr hid)
  simpa using hall (f.body b) [] rfl

end Func

/-! ### Paths of the two graphs -/

section Paths

variable {f g : Func} {moves : BlockId → List Copy} {ρ : BlockId → BlockId → BlockId}

/-- What a path of the new graph that has come to the block `b` has of a path of
the old graph. In a new block it stands for the edge from `a` to `c`, and has made
the copies before the terminator of `a`. -/
inductive Mirrors (f g : Func) (moves : BlockId → List Copy) (b : BlockId) (l : List BlockId) : Prop
  | block {m : List BlockId} : f.Path b m → (∀ id, f.Known m (f.phis b) id → g.Known l [] id) → Mirrors f g moves b l
  | edge {a c : BlockId} {m : List BlockId} {more : List Copy} : f.Path a m → c ∈ f.targets a →
    Copies.Realizes f.valueCount (phiCopies a (f.phis c)) (moves a ++ more) →
    g.code b = more.map Copy.instr ++ [.jump c] →
    (∀ id, f.Known m (f.code a) id ∨ id ∈ (moves a).map (fun k => k.target.id) → g.Known l [] id) →
    Mirrors f g moves b l

/-- A path that has left a block has defined what was defined in it. -/
theorem Func.Known.leave {l : List BlockId} {b : BlockId} {id : Nat} (h : g.Known l (g.code b) id) :
    g.Known (b :: l) [] id := by
  rcases h with h | ⟨a, ha, h⟩
  · exact Or.inr ⟨b, List.mem_cons_self, h⟩
  · exact Or.inr ⟨a, List.mem_cons_of_mem b ha, h⟩

theorem Func.Known.of_nil {l : List BlockId} {done : List Instr} {id : Nat} (h : g.Known l [] id) : g.Known l done id :=
  h.elim (fun h => absurd h List.not_mem_nil) Or.inr

/-- A terminator defines nothing, and has the same operands with other targets. -/
theorem definedIds_terminator {i : Instr} (h : i.isTerminator = true) : definedIds [i] = [] := by
  cases i <;> first | rfl | cases h

theorem Instr.operands_rename (ρ : BlockId → BlockId) (i : Instr) : (i.rename ρ).operands = i.operands := by
  cases i <;> rfl

theorem Instr.successors_rename (ρ : BlockId → BlockId) (i : Instr) : (i.rename ρ).successors = i.successors.map ρ := by
  cases i <;> rfl

variable (hr : f.Regular) (hs : f.Strict) (hg : Removed f g moves ρ)

include hr hg

/-- The code of an old block on a path, before and after. -/
theorem Removed.code_on_path {b : BlockId} {m : List BlockId} (hm : f.Path b m) :
    ∃ front last, f.body b = front ++ [last] ∧ f.code b = f.phis b ++ front ++ [last] ∧ last.isTerminator = true ∧
      g.code b = front ++ (moves b).map Copy.instr ++ [last.rename (ρ b)] := by
  obtain ⟨front, last, hbody⟩ := (List.eq_nil_or_concat' (f.body b)).resolve_left (body_ne_nil hr hm)
  have hcode : f.code b = f.phis b ++ front ++ [last] := by
    rw [← f.phis_append_body b, hbody, List.append_assoc]
  obtain ⟨front', last', hcode', hlast, -⟩ := hr.ended hm
  obtain rfl : last = last' := by
    have heq := congrArg List.getLast? (hcode.symm.trans hcode')
    simpa using heq
  have hlt : b < f.blocks.size := by
    by_contra hge
    rw [Func.code_of_size_le (Nat.not_lt.mp hge)] at hcode
    simp at hcode
  exact ⟨front, last, hbody, hcode, hlast, by rw [hg.code hlt, hbody, reshape_concat]⟩

/-- What the old path has defined at the end of a block, the new path has too. -/
theorem Removed.known_end {b : BlockId} {l m : List BlockId} (hm : f.Path b m)
    (h : ∀ id, f.Known m (f.phis b) id → g.Known l [] id) {id : Nat}
    (hid : f.Known m (f.code b) id ∨ id ∈ (moves b).map fun k => k.target.id) : g.Known l (g.code b) id := by
  obtain ⟨front, last, -, hcode, hlast, hcode'⟩ := hg.code_on_path hr hm
  have hdef : definedIds (g.code b) =
      definedIds front ++ ((moves b).map fun k => k.target.id) ++ definedIds [last.rename (ρ b)] := by
    rw [hcode', definedIds_append, definedIds_append, definedIds_copies]
  rcases hid with (hid | hid) | hid
  · rw [hcode, definedIds_append, definedIds_append, definedIds_terminator hlast, List.append_nil,
      List.mem_append] at hid
    rcases hid with hid | hid
    · exact (h id (Or.inl hid)).of_nil
    · refine Or.inl ?_
      rw [hdef]
      simp [hid]
  · exact (h id (Or.inr hid)).of_nil
  · refine Or.inl ?_
    rw [hdef, List.mem_append, List.mem_append]
    exact Or.inl (Or.inr hid)

include hs

section

variable {m : List BlockId} {a c : BlockId} (hm : f.Path a m) (hc : c ∈ f.targets a)

include hm hc

omit hr hg in
/-- What the phis behind an edge read is known at its end. -/
theorem phiCopies_known : ∀ k ∈ phiCopies a (f.phis c), f.Known m (f.code a) k.source.id := by
  intro k hk
  obtain ⟨entries, hphi, he⟩ := mem_phiCopies hk
  exact hs.phi hm hc (mem_code_of_mem_phis hphi) k.source he

omit hg in
/-- What a phi defines is copied on each edge, or defined before. -/
theorem known_phis {id : Nat} (hid : id ∈ definedIds (f.phis c)) :
    f.Known m (f.code a) id ∨ ∃ k ∈ phiCopies a (f.phis c), k.target.id = id := by
  have hpred : a ∈ f.preds c := hr.linked.mem_preds.mpr (hr.linked.mem_succs.mpr hc)
  have hall : ∀ phis : List Instr, HasEntries a phis → (∀ i ∈ phis, i ∈ f.code c) → id ∈ definedIds phis →
      f.Known m (f.code a) id ∨ ∃ k ∈ phiCopies a phis, k.target.id = id := by
    intro phis
    induction phis with
    | nil => exact fun _ _ h => absurd h List.not_mem_nil
    | cons i phis ih =>
      intro hentries hmem hid
      obtain ⟨target, entries, rfl, -⟩ := hentries i List.mem_cons_self
      obtain ⟨e, he⟩ := hentries.head
      have hentry : (e.1, a) ∈ entries := by
        have heq : e.2 = a := by simpa using List.find?_some he
        exact heq ▸ List.mem_of_find?_eq_some he
      have hrest := ih hentries.of_cons fun j hj => hmem j (List.mem_cons_of_mem _ hj)
      rw [definedIds_cons, List.mem_append] at hid
      simp only [phiCopies, he]
      rcases hid with hid | hid
      · obtain rfl := List.mem_singleton.mp hid
        split_ifs with hself
        · exact Or.inl (hself ▸ hs.phi hm hc (hmem _ List.mem_cons_self) e.1 hentry)
        · exact Or.inr ⟨_, List.mem_cons_self, rfl⟩
      · refine (hrest hid).imp_right ?_
        rintro ⟨k, hk, heq⟩
        split_ifs
        · exact ⟨k, hk, heq⟩
        · exact ⟨k, List.mem_cons_of_mem _ hk, heq⟩
  exact hall (f.phis c) (hasEntries hr hpred) (fun i hi => mem_code_of_mem_phis hi) hid

omit hg in
/-- Once all copies of an edge are made, the new path has defined what the old one
has behind the phis. -/
theorem known_behind {l : List BlockId} {made : List Copy}
    (hreal : Copies.Realizes f.valueCount (phiCopies a (f.phis c)) made)
    (h : ∀ id, f.Known m (f.code a) id ∨ id ∈ made.map (fun k => k.target.id) → g.Known l [] id) :
    ∀ id, f.Known (a :: m) (f.phis c) id → g.Known l [] id := by
  rintro id (hid | ⟨d, hd, hid⟩)
  · rcases known_phis hr hs hm hc hid with hknown | ⟨k, hk, rfl⟩
    · exact h id (Or.inl hknown)
    · obtain ⟨k', hk', heq⟩ := hreal.writes k hk
      exact h _ (Or.inr (List.mem_map.mpr ⟨k', hk', heq⟩))
  · rcases List.mem_cons.mp hd with rfl | hd
    · exact h id (Or.inl (Or.inl hid))
    · exact h id (Or.inl (Or.inr ⟨d, hd, hid⟩))

end

/-- Every path of the new graph mirrors one of the old graph. -/
theorem Removed.mirrors {b : BlockId} {l : List BlockId} (h : g.Path b l) : Mirrors f g moves b l := by
  induction h with
  | start =>
    have hstart : g.start = f.start := congrArg (fun h => h.2.2.2) hg.head
    rw [hstart]
    refine .block .start ?_
    rw [Func.phis_of_noPhis hr.phis_start]
    rintro id (hid | ⟨a, ha, -⟩)
    · cases hid
    · cases ha
  | @step b b' l hl hb' ih =>
    cases ih with
    | @block m hm hknown =>
      obtain ⟨front, last, -, hcode, hlast, hcode'⟩ := hg.code_on_path hr hm
      rw [Func.targets_of_code hcode', Instr.successors_rename] at hb'
      obtain ⟨c, hc, rfl⟩ := List.mem_map.mp hb'
      rw [← Func.targets_of_code hcode] at hc
      have hend : ∀ id, f.Known m (f.code b) id ∨ id ∈ (moves b).map (fun k => k.target.id) → g.Known (b :: l) [] id :=
        fun id hid => (hg.known_end hr hm hknown hid).leave
      obtain ⟨more, hreal, ⟨hto, rfl⟩ | ⟨-, -, hsplit⟩⟩ := hg.way hc
      · rw [hto]
        rw [List.append_nil] at hreal
        exact .block (.step hm hc) (known_behind hr hs hm hc hreal hend)
      · exact .edge hm hc hreal hsplit hend
    | @edge a c m more hm hc hreal hcode hknown =>
      rw [Func.targets_of_code hcode] at hb'
      obtain rfl : b' = c := List.mem_singleton.mp hb'
      refine .block (.step hm hc) (known_behind hr hs hm hc hreal fun id hid => ?_)
      rw [List.map_append, List.mem_append, ← or_assoc] at hid
      rcases hid with hid | hid
      · exact (hknown id hid).of_nil.leave
      · refine Func.Known.leave (Or.inl ?_)
        rw [hcode, definedIds_append, definedIds_copies]
        exact List.mem_append_left _ hid

/-- Without phis, a definition still comes before a use on every path. -/
theorem Removed.strict : g.Strict := by
  refine Func.strict_of_uses (noPhis hr hg) fun {b l} hl => ?_
  cases hg.mirrors hr hs hl with
  | @block m hm hknown =>
    obtain ⟨front, last, hbody, hcode, hlast, hcode'⟩ := hg.code_on_path hr hm
    have huses := hs.uses_body hr.phis_first hm
    rw [hbody, uses_append] at huses
    have hsub : ∀ id, f.Known m (f.phis b) id ∨ id ∈ definedIds front → g.Known l [] id ∨ id ∈ definedIds front :=
      fun id hid => hid.imp_left (hknown id)
    rw [hcode', List.append_assoc, uses_append, uses_append]
    refine ⟨huses.1.mono hknown, uses_copies.mpr ?_, fun v hv => ?_, trivial⟩
    · by_cases hnil : moves b = []
      · rw [hnil]
        exact trivial
      · obtain ⟨c, hc⟩ := hg.moves_ne hnil
        have hc : c ∈ f.targets b := hr.linked.mem_succs.mp (by rw [hc]; exact List.mem_singleton_self c)
        obtain ⟨more, hreal, -⟩ := hg.way hc
        have hreads := hreal.reads _ (phiCopies_known hs hm hc)
        rw [← uses_copies, List.map_append, uses_append] at hreads
        refine uses_copies.mp (hreads.1.mono fun id hid => ?_)
        rcases hid with hid | hid
        · rw [hcode, definedIds_append, definedIds_append, definedIds_terminator hlast, List.append_nil,
            List.mem_append] at hid
          exact hid.imp_left fun h => hknown id (Or.inl h)
        · exact Or.inl (hknown id (Or.inr hid))
    · rw [Instr.operands_rename] at hv
      exact Or.inl (hsub v.id (huses.2.1 v hv))
  | @edge a c m more hm hc hreal hcode hknown =>
    have hreads := hreal.reads _ (phiCopies_known hs hm hc)
    rw [← uses_copies, List.map_append, uses_append] at hreads
    rw [hcode, uses_append]
    refine ⟨hreads.2.mono fun id hid => ?_, fun v hv => ?_, trivial⟩
    · rw [definedIds_copies] at hid
      exact hknown id hid
    · cases hv

end Paths

end Chordal.Ssa
