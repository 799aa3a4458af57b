/-
# Laws of finite sets and maps, of lists, and of computations that may fail

What looking up, inserting and erasing do to the sets and maps of numbers, what
lists have in common that agree place by place, and what the success or the
failure of a computation says of its steps.

Sets that are in order are told apart by their members alone.

Key theorems: `IdMap.get?_insert`, `IdSet.mem_insert`, `IdSet.mem_union`,
`IdSet.eq_of_mem_iff`, `bind_eq_ok`, `bind_eq_error`, `mapM_ok_forall₂`.
-/
import Mathlib
import Chordal.IdMap
import Chordal.IdSet

namespace Chordal

variable {ε α β : Type}

/-- A computation succeeds if its first step does and what follows does. -/
theorem bind_eq_ok {x : Except ε α} {f : α → Except ε β} {b : β} :
    (x >>= f) = .ok b ↔ ∃ a, x = .ok a ∧ f a = .ok b := by
  cases x with
  | error e => simp [bind, Except.bind]
  | ok a => simp [bind, Except.bind]

theorem bind_pair_eq_ok {γ : Type} {x : Except ε (α × β)} {f : α × β → Except ε γ} {c : γ} :
    (x >>= f) = .ok c ↔ ∃ a b, x = .ok (a, b) ∧ f (a, b) = .ok c := by
  rw [bind_eq_ok, Prod.exists]

theorem ok_eq_ok {a b : α} : (.ok a : Except ε α) = .ok b ↔ b = a := by
  rw [Except.ok.injEq, eq_comm]

theorem ok_pair_inj {a c : α} {b d : β} (h : (.ok (a, b) : Except ε (α × β)) = .ok (c, d)) :
    a = c ∧ b = d := Prod.mk.inj (Except.ok.inj h)

section

variable {γ : Type} {x : Except ε γ} {f : γ → α} {g : γ → β} {a : α} {b : β}

/-- The last step of a computation, and what is made of its result. -/
theorem bind_pure_inj (h : (x >>= fun c => pure (f c)) = .ok a) : ∃ c, x = .ok c ∧ f c = a := by
  obtain ⟨c, hc, h⟩ := bind_eq_ok.mp h
  exact ⟨c, hc, Except.ok.inj h⟩

theorem bind_pure_pair (h : (x >>= fun c => pure (f c, g c)) = .ok (a, b)) :
    ∃ c, x = .ok c ∧ f c = a ∧ g c = b := by
  obtain ⟨c, hc, h⟩ := bind_pure_inj h
  exact ⟨c, hc, Prod.mk.inj h⟩

end

/-- A computation fails if its first step does or what follows does. -/
theorem bind_eq_error {x : Except ε α} {f : α → Except ε β} {e : ε} :
    (x >>= f) = .error e ↔ x = .error e ∨ ∃ a, x = .ok a ∧ f a = .error e := by
  cases x with
  | error e => simp [bind, Except.bind]
  | ok a => simp [bind, Except.bind]

/-- A computation that gives something succeeds. -/
theorem eq_ok_of_toOption {x : Except ε α} {a : α} (h : x.toOption = some a) : x = .ok a := by
  cases x with
  | error e => cases h
  | ok b => rw [Option.some.inj h]

/-! ### Lists -/

section Lists

variable {γ : Type} {R : α → β → Prop} {l : List α} {l' : List β}

/-- What holds of the members of two lists place by place holds of each member
of the second and some member of the first. -/
theorem forall₂_mem_right (h : List.Forall₂ R l l') : ∀ b ∈ l', ∃ a ∈ l, R a b := by
  induction h with
  | nil => simp
  | cons hab _ ih =>
    intro b hb
    rcases List.mem_cons.mp hb with rfl | hb
    · exact ⟨_, List.mem_cons_self, hab⟩
    · obtain ⟨a, ha, h⟩ := ih b hb
      exact ⟨a, List.mem_cons_of_mem _ ha, h⟩

theorem forall₂_mem_left (h : List.Forall₂ R l l') : ∀ a ∈ l, ∃ b ∈ l', R a b := by
  intro a ha
  obtain ⟨b, hb, hab⟩ := forall₂_mem_right h.flip a ha
  exact ⟨b, hb, hab⟩

theorem map_eq_of_forall₂ {f : α → γ} {g : β → γ} (h : List.Forall₂ R l l')
    (hR : ∀ a b, R a b → g b = f a) : l'.map g = l.map f := by
  induction h with
  | nil => rfl
  | cons hab _ ih => rw [List.map_cons, List.map_cons, ih, hR _ _ hab]

theorem mapM_ok_forall₂ {f : α → Except ε β} : ∀ {l : List α} {r : List β}, l.mapM f = .ok r →
    List.Forall₂ (fun a b => f a = .ok b) l r
  | [], r, h => by
    rw [List.mapM_nil] at h
    obtain rfl := Except.ok.inj h
    exact .nil
  | a :: l, r, h => by
    rw [List.mapM_cons] at h
    obtain ⟨b, hb, h⟩ := bind_eq_ok.mp h
    obtain ⟨bs, hbs, rfl⟩ := bind_pure_inj h
    exact .cons hb (mapM_ok_forall₂ hbs)

theorem mapM_ok {f : α → Except ε β} :
    ∀ {l : List α}, (∀ a ∈ l, ∃ b, f a = .ok b) → ∃ r, l.mapM f = .ok r
  | [], _ => ⟨[], rfl⟩
  | a :: l, h => by
    obtain ⟨⟨b, hb⟩, hrest⟩ := List.forall_mem_cons.mp h
    obtain ⟨r, hr⟩ := mapM_ok hrest
    refine ⟨b :: r, ?_⟩
    rw [List.mapM_cons]
    exact bind_eq_ok.mpr ⟨b, hb, bind_eq_ok.mpr ⟨r, hr, rfl⟩⟩

theorem mem_zip_flatMap {f : α → List β} {g : α → List γ} (hlen : ∀ a, (g a).length = (f a).length)
    {a : α} {p : β × γ} (hp : p ∈ (f a).zip (g a)) : ∀ {l : List α}, a ∈ l →
    p ∈ (l.flatMap f).zip (l.flatMap g)
  | [], h => by cases h
  | b :: l, h => by
    rw [List.flatMap_cons, List.flatMap_cons, List.zip_append (hlen b).symm, List.mem_append]
    rcases List.mem_cons.mp h with rfl | h
    · exact .inl hp
    · exact .inr (mem_zip_flatMap hlen hp h)

theorem of_mem_zip_flatMap {f : α → List β} {g : α → List γ}
    (hlen : ∀ a, (g a).length = (f a).length) {p : β × γ} : ∀ {l : List α},
    p ∈ (l.flatMap f).zip (l.flatMap g) → ∃ a ∈ l, p ∈ (f a).zip (g a)
  | [], h => by cases h
  | b :: l, h => by
    rw [List.flatMap_cons, List.flatMap_cons, List.zip_append (hlen b).symm, List.mem_append] at h
    rcases h with h | h
    · exact ⟨b, List.mem_cons_self, h⟩
    · obtain ⟨a, ha, hp⟩ := of_mem_zip_flatMap hlen h
      exact ⟨a, List.mem_cons_of_mem b ha, hp⟩

theorem append_cons_inj {a : α} {xs xs' ys ys' : List α} (hy : a ∉ ys) (hy' : a ∉ ys')
    (h : xs ++ a :: ys = xs' ++ a :: ys') : xs = xs' ∧ ys = ys' := by
  rcases List.append_eq_append_iff.mp h with ⟨gap, hxs, htail⟩ | ⟨gap, hxs, htail⟩
  · cases gap with
    | nil => exact ⟨by simpa using hxs.symm, (List.cons.inj htail).2⟩
    | cons c gap => exact absurd ((List.cons.inj htail).2 ▸ List.mem_append_right gap List.mem_cons_self) hy
  · cases gap with
    | nil => exact ⟨by simpa using hxs, (List.cons.inj htail).2.symm⟩
    | cons c gap => exact absurd ((List.cons.inj htail).2 ▸ List.mem_append_right gap List.mem_cons_self) hy'

theorem idxOf_lt_of_append {front rest : List Nat} {x y : Nat} (hx : x ∈ front) (hy : y ∉ front) :
    (front ++ rest).idxOf x < (front ++ rest).idxOf y := by
  have hlt := List.idxOf_lt_length_iff.mpr hx
  rw [List.idxOf_append_of_mem hx, List.idxOf_append_of_notMem hy]
  omega

/-- Numbers that come with all smaller ones are the first so many numbers. -/
theorem toFinset_eq_range (cs : List Nat) (h : ∀ c ∈ cs, ∀ c' < c, c' ∈ cs) :
    cs.toFinset = Finset.range (cs.toFinset.sup (· + 1)) := by
  ext c
  rw [Finset.mem_range, Finset.lt_sup_iff]
  constructor
  · intro hc
    exact ⟨c, hc, Nat.lt_succ_self c⟩
  · rintro ⟨d, hd, hlt⟩
    rw [List.mem_toFinset] at hd ⊢
    rcases Nat.lt_succ_iff_lt_or_eq.mp hlt with hlt | rfl
    · exact h d hd c hlt
    · exact hd

end Lists

/-- No pair comes twice if no key and no member of a key does. -/
theorem nodup_flatMap_pairs {γ : Type} {key : α → β} {members : α → List γ} {l : List α}
    (hkeys : l.Pairwise fun x y => key x ≠ key y) (hmembers : ∀ x ∈ l, (members x).Nodup) :
    (l.flatMap fun x => (members x).map (Prod.mk (key x))).Nodup := by
  rw [List.nodup_flatMap]
  refine ⟨fun x hx => (hmembers x hx).map (Prod.mk_right_injective (key x)), hkeys.imp fun {x y} hne => ?_⟩
  rw [Function.onFun, List.disjoint_left]
  intro pair hx hy
  obtain ⟨c, -, rfl⟩ := List.mem_map.mp hx
  obtain ⟨d, -, heq⟩ := List.mem_map.mp hy
  exact hne (congrArg Prod.fst heq).symm

/-! ### Maxima of lists -/

theorem le_foldl_max : ∀ (l : List Nat) (a : Nat), a ≤ l.foldl max a
  | [], _ => le_rfl
  | b :: l, a => (Nat.le_max_left a b).trans (le_foldl_max l (max a b))

theorem le_foldl_max_of_mem : ∀ {l : List Nat} {a b : Nat}, b ∈ l → b ≤ l.foldl max a
  | [], _, _, h => by cases h
  | c :: l, a, b, h => by
    rcases List.mem_cons.mp h with rfl | h
    · exact (Nat.le_max_right a b).trans (le_foldl_max l _)
    · exact (le_foldl_max_of_mem h : b ≤ l.foldl max (max a c))

theorem foldl_max_le_iff {n : Nat} : ∀ {l : List Nat} {a : Nat}, l.foldl max a ≤ n ↔ a ≤ n ∧ ∀ b ∈ l, b ≤ n
  | [], a => by simp
  | b :: l, a => by
    rw [List.foldl_cons, foldl_max_le_iff, max_le_iff, List.forall_mem_cons, and_assoc]

theorem foldl_max_eq_sup (f : Nat → Nat) (l : List Nat) : (l.map f).foldl max 0 = l.toFinset.sup f :=
  eq_of_forall_ge_iff fun n => by simp [foldl_max_le_iff]

/-! ### Maps -/

namespace IdMap

variable {α : Type}

@[simp] theorem get?_nil (k : Nat) : get? ([] : IdMap α) k = none := rfl

theorem get?_cons (p : Nat × α) (m : IdMap α) (k : Nat) :
    get? (p :: m) k = if p.1 = k then some p.2 else get? m k := by
  unfold get?
  by_cases h : p.1 = k
  · rw [if_pos h, List.find?_cons_of_pos (by simpa using h)]
    rfl
  · rw [if_neg h, List.find?_cons_of_neg (by simpa using h)]

/-- An insertion changes the value at one key. -/
theorem get?_insert (k : Nat) (a : α) : ∀ (m : IdMap α) (j : Nat),
    get? (insert k a m) j = if j = k then some a else get? m j
  | [], j => by
    rw [insert, get?_cons]
    simp [eq_comm]
  | (i, b) :: m, j => by
    have ih := get?_insert k a m j
    rw [insert]
    rcases Nat.lt_trichotomy k i with hlt | rfl | hgt
    · rw [if_pos hlt, get?_cons]
      simp only [eq_comm]
    · rw [if_neg (lt_irrefl k), if_pos rfl, get?_cons, get?_cons]
      by_cases hj : j = k
      · simp [hj]
      · simp [hj, Ne.symm hj]
    · rw [if_neg (by omega), if_neg (by omega), get?_cons, get?_cons, ih]
      by_cases hj : j = k
      · rw [if_pos hj, if_pos hj, if_neg (by simp only; omega)]
      · rw [if_neg hj, if_neg hj]

theorem mem_keys_insert (k : Nat) (a : α) (j : Nat) : ∀ m : IdMap α,
    j ∈ (insert k a m).keys ↔ j = k ∨ j ∈ m.keys
  | [] => by simp [insert, keys]
  | (i, b) :: m => by
    have ih := mem_keys_insert k a j m
    unfold keys at ih ⊢
    rw [insert]
    split_ifs with hlt heq
    · simp
    · simp [heq]
    · rw [List.map_cons, List.mem_cons, ih, List.map_cons, List.mem_cons]
      tauto

/-- An insertion keeps the keys in order. -/
theorem sorted_insert (k : Nat) (a : α) : ∀ {m : IdMap α}, m.keys.Pairwise (· < ·) →
    (insert k a m).keys.Pairwise (· < ·)
  | [], _ => by simp [insert, keys]
  | (i, b) :: m, h => by
    have hm := List.pairwise_cons.mp h
    have ih := sorted_insert k a hm.2
    rw [insert]
    split_ifs with hlt heq
    · refine List.pairwise_cons.mpr ⟨fun j hj => ?_, h⟩
      rcases List.mem_cons.mp hj with rfl | hj
      · exact hlt
      · exact hlt.trans (hm.1 j hj)
    · rw [← heq] at hm
      exact List.pairwise_cons.mpr hm
    · refine List.pairwise_cons.mpr ⟨fun j hj => ?_, ih⟩
      rcases (mem_keys_insert k a j m).mp hj with rfl | hj
      · simp only
        omega
      · exact hm.1 j hj

variable {m : IdMap α} {k : Nat} {a : α}

theorem get?_eq_none_iff : m.get? k = none ↔ k ∉ m.keys := by
  unfold get? keys
  rw [Option.map_eq_none_iff, List.find?_eq_none, List.mem_map]
  constructor
  · rintro h ⟨p, hp, rfl⟩
    exact h p hp (beq_self_eq_true p.1)
  · intro h p hp hk
    exact h ⟨p, hp, beq_iff_eq.mp hk⟩

theorem mem_keys_of_get? (h : m.get? k = some a) : k ∈ m.keys := by
  by_contra hk
  rw [get?_eq_none_iff.mpr hk] at h
  cases h

theorem exists_get? (h : k ∈ m.keys) : ∃ a, m.get? k = some a := by
  cases ha : m.get? k with
  | some a => exact ⟨a, rfl⟩
  | none => exact absurd h (get?_eq_none_iff.mp ha)

theorem contains_iff : m.contains k = true ↔ k ∈ m.keys := by
  unfold contains keys
  rw [List.any_eq_true, List.mem_map]
  simp only [beq_iff_eq]

/-- A change at a key changes the value there, if there is one, and no other. -/
theorem get?_modify (k : Nat) (f : α → α) : ∀ (m : IdMap α) (j : Nat),
    get? (modify k f m) j = if j = k then (get? m k).map f else get? m j
  | [], j => by simp [modify]
  | p :: m, j => by
    have ih := get?_modify k f m j
    rw [modify, get?_cons, get?_cons]
    by_cases hp : p.1 = k
    · by_cases hj : j = k
      · simp [hp, hj, get?_cons]
      · simp [hp, hj, Ne.symm hj, get?_cons]
    · by_cases hj : j = k
      · subst hj
        simpa [hp, get?_cons] using ih
      · by_cases hpj : p.1 = j
        · simp [hj, hpj, get?_cons]
        · simpa [hp, hj, hpj, get?_cons] using ih

@[simp] theorem keys_modify (k : Nat) (f : α → α) : ∀ m : IdMap α, (m.modify k f).keys = m.keys
  | [] => rfl
  | p :: m => by
    have ih := keys_modify k f m
    unfold keys at ih ⊢
    rw [modify]
    split_ifs
    · rfl
    · rw [List.map_cons, ih, List.map_cons]

theorem mem_of_get? (h : m.get? k = some a) : (k, a) ∈ m := by
  obtain ⟨⟨j, b⟩, hp, rfl⟩ := Option.map_eq_some_iff.mp h
  have hj := List.find?_some hp
  simp only [beq_iff_eq] at hj
  subst hj
  exact List.mem_of_find?_eq_some hp

theorem get?_of_mem : ∀ {m : IdMap α} {k : Nat} {a : α}, m.keys.Nodup → (k, a) ∈ m → m.get? k = some a
  | p :: m, k, a, hnd, h => by
    have hnd := List.nodup_cons.mp hnd
    rw [get?_cons]
    rcases List.mem_cons.mp h with rfl | h
    · exact if_pos rfl
    · rw [if_neg, get?_of_mem hnd.2 h]
      rintro rfl
      exact hnd.1 (List.mem_map.mpr ⟨_, h, rfl⟩)

theorem mem_values (h : m.keys.Nodup) : a ∈ m.values ↔ ∃ k, m.get? k = some a := by
  unfold values
  rw [List.mem_map]
  constructor
  · rintro ⟨⟨k, a⟩, hmem, rfl⟩
    exact ⟨k, get?_of_mem h hmem⟩
  · rintro ⟨k, hk⟩
    exact ⟨(k, a), mem_of_get? hk, rfl⟩

end IdMap

/-! ### Sets -/

namespace IdSet

theorem mem_insert (a b : Nat) : ∀ s : IdSet, b ∈ insert a s ↔ b = a ∨ b ∈ s
  | [] => by simp [insert]
  | c :: s => by
    have ih := mem_insert a b s
    rw [insert]
    split_ifs with hlt heq
    · simp
    · subst heq
      simp
    · rw [List.mem_cons, List.mem_cons, ih]
      tauto

theorem mem_union (b : Nat) : ∀ (t s : IdSet), b ∈ union s t ↔ b ∈ s ∨ b ∈ t
  | [], s => by simp [union]
  | a :: t, s => by
    have ih := mem_union b t (insert a s)
    unfold union at ih ⊢
    rw [List.foldl_cons, ih, mem_insert, List.mem_cons]
    tauto

theorem subset_union_left {s t : IdSet} : s ⊆ union s t := fun a h => (mem_union a t s).mpr (Or.inl h)

theorem subset_union_right {s t : IdSet} : t ⊆ union s t := fun a h => (mem_union a t s).mpr (Or.inr h)

theorem mem_erase (a b : Nat) (s : IdSet) : b ∈ erase a s ↔ b ∈ s ∧ b ≠ a := by
  unfold erase
  rw [List.mem_filter, bne_iff_ne]

/-- An insertion keeps a set in order. -/
theorem sorted_insert (a : Nat) : ∀ {s : IdSet}, s.Pairwise (· < ·) → (insert a s).Pairwise (· < ·)
  | [], _ => by simp [insert]
  | b :: s, h => by
    have hs := List.pairwise_cons.mp h
    rw [insert]
    split_ifs with hlt heq
    · refine List.pairwise_cons.mpr ⟨fun c hc => ?_, h⟩
      rcases List.mem_cons.mp hc with rfl | hc
      · exact hlt
      · exact hlt.trans (hs.1 c hc)
    · exact h
    · refine List.pairwise_cons.mpr ⟨fun c hc => ?_, sorted_insert a hs.2⟩
      rcases (mem_insert a c s).mp hc with rfl | hc
      · omega
      · exact hs.1 c hc

theorem sorted_union : ∀ (t : IdSet) {s : IdSet}, s.Pairwise (· < ·) → (union s t).Pairwise (· < ·)
  | [], _, h => h
  | a :: t, _, h => sorted_union t (sorted_insert a h)

theorem sorted_erase (a : Nat) {s : IdSet} (h : s.Pairwise (· < ·)) : (erase a s).Pairwise (· < ·) :=
  h.filter _

/-- Sets in order that have the same members are the same. -/
theorem eq_of_mem_iff {s t : IdSet} (hs : s.Pairwise (· < ·)) (ht : t.Pairwise (· < ·))
    (h : ∀ a, a ∈ s ↔ a ∈ t) : s = t :=
  ((List.perm_ext_iff_of_nodup hs.nodup ht.nodup).mpr h).eq_of_pairwise' hs ht

/-- A larger set that is not the same has more members. -/
theorem length_lt_of_subset {s t : IdSet} (hs : s.Pairwise (· < ·)) (ht : t.Pairwise (· < ·))
    (h : s ⊆ t) (hne : s ≠ t) : s.length < t.length := by
  have hsub : s.Subperm t := hs.nodup.subperm h
  refine lt_of_le_of_ne hsub.length_le fun hlen => hne ?_
  exact (hsub.perm_of_length_le hlen.ge).eq_of_pairwise' hs ht

end IdSet
end Chordal
