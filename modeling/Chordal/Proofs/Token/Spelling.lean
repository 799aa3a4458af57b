/-
# Spelled tokens are read back

Every list of tokens can be written down so that reading gives it back: each token
in its spelling, and between them gaps that begin with a blank character. Such a gap
ends every lexeme: no word or number goes on with a blank, no operator holds one, and
a division sign before one opens no comment.

A number that is not negative is written in decimal without a superfluous zero. A
negative one has no decimal spelling, since a sign is a token of its own; it is
written by the digits of its word in base sixteen.

Key definitions: `Kind.symbol`, `Kind.Writable`, `Spelling`, `WellWritten`, `writtenTokens`.
Key theorems: `numeral_toDigits`, `Spelling.lexeme`, `tokenize_written`.
-/
import Mathlib
import Chordal.Proofs.Token.Decomposition

namespace Chordal.Token

/-! ### Spellings -/

/-- What keywords, operators and punctuation marks are written as. -/
def Kind.symbol : Kind → Option String
  | .int => some "int"
  | .bool => some "bool"
  | .if_ => some "if"
  | .else_ => some "else"
  | .while_ => some "while"
  | .for_ => some "for"
  | .break_ => some "break"
  | .continue_ => some "continue"
  | .return_ => some "return"
  | .true_ => some "true"
  | .false_ => some "false"
  | .ident _ => none
  | .number _ => none
  | .lParen => some "("
  | .rParen => some ")"
  | .lBrace => some "\x7b"
  | .rBrace => some "\x7d"
  | .semi => some ";"
  | .question => some "?"
  | .colon => some ":"
  | .plus => some "+"
  | .minus => some "-"
  | .star => some "*"
  | .slash => some "/"
  | .percent => some "%"
  | .shl => some "<<"
  | .shr => some ">>"
  | .lt => some "<"
  | .le => some "<="
  | .gt => some ">"
  | .ge => some ">="
  | .eqEq => some "=="
  | .ne => some "!="
  | .amp => some "&"
  | .pipe => some "|"
  | .caret => some "^"
  | .ampAmp => some "&&"
  | .pipePipe => some "||"
  | .bang => some "!"
  | .tilde => some "~"
  | .assign => some "="
  | .plusAssign => some "+="
  | .minusAssign => some "-="
  | .starAssign => some "*="
  | .slashAssign => some "/="
  | .percentAssign => some "%="
  | .shlAssign => some "<<="
  | .shrAssign => some ">>="
  | .ampAssign => some "&="
  | .pipeAssign => some "|="
  | .caretAssign => some "^="
  | .plusPlus => some "++"
  | .minusMinus => some "--"
  | .eof => none

/-- Whether a text is a word: a letter or an underscore, then letters, digits and
underscores. -/
def isWord : List Char → Bool
  | [] => false
  | c :: cs => isWordStart c && cs.all isWordChar

/-- A kind that can be written: not the end mark, and a name that is a word and no
keyword. -/
def Kind.Writable : Kind → Prop
  | .eof => False
  | .ident name => isWord name.toList = true ∧ ∀ k : Kind, k.symbol ≠ some name
  | _ => True

/-- A kind may be spelled as the text. -/
inductive Spelling : Kind → List Char → Prop
  | symbol {k s} : k.symbol = some s → Spelling k s.toList
  | name {name} : Spelling (.ident name) name.toList
  | decimal {value} : 0 ≤ value.toInt → Spelling (.number value) (Nat.toDigits 10 value.toInt.toNat)
  | hex {value zeros ds} : value.toInt < 0 →
      ds.map Char.toLower = Nat.toDigits 16 (value.toInt % 2 ^ 32).toNat →
      Spelling (.number value) ('0' :: 'x' :: (List.replicate zeros '0' ++ ds))

/-! ### Digits of a number -/

theorem digit_digitChar : ∀ m < 16, digit (Nat.digitChar m) = m := by decide +kernel

theorem toLower_digitChar : ∀ m < 16, (Nat.digitChar m).toLower = Nat.digitChar m := by decide +kernel

variable {base : Nat} {k : Kind} {rest s : List Char}

theorem digitChar_of_mem_toDigits (hbase : 1 < base) (n : Nat) :
    ∀ d ∈ Nat.toDigits base n, ∃ m < base, d = Nat.digitChar m := by
  induction n using Nat.strong_induction_on with
  | _ n ih =>
    intro d hd
    rw [Nat.toDigits_eq_if hbase] at hd
    split_ifs at hd with hlt
    · exact ⟨n, hlt, List.mem_singleton.mp hd⟩
    · rcases List.mem_append.mp hd with hd | hd
      · exact ih (n / base) (Nat.div_lt_self (by omega) hbase) d hd
      · exact ⟨n % base, Nat.mod_lt n (by omega), List.mem_singleton.mp hd⟩

theorem digit_of_mem_toDigits (hbase : 1 < base) (hle : base ≤ 16) {n : Nat} {d : Char}
    (hd : d ∈ Nat.toDigits base n) : digit d < base := by
  obtain ⟨m, hm, rfl⟩ := digitChar_of_mem_toDigits hbase n d hd
  rwa [digit_digitChar m (hm.trans_le hle)]

theorem numeral_concat (base : Nat) (ds : List Char) (d : Char) :
    numeral base (ds ++ [d]) = digit d + base * numeral base ds := by
  rw [numeral, List.reverse_append, List.reverse_singleton, List.singleton_append, List.map_cons,
    Nat.ofDigits_cons, ← numeral]

/-- The digits that a number is written with have that number as their value. -/
theorem numeral_toDigits (base : Nat) (hbase : 1 < base) (hle : base ≤ 16) (n : Nat) :
    numeral base (Nat.toDigits base n) = n := by
  induction n using Nat.strong_induction_on with
  | _ n ih =>
    rw [Nat.toDigits_eq_if hbase]
    split_ifs with hlt
    · simp [numeral, digit_digitChar n (hlt.trans_le hle)]
    · have hmod := (Nat.mod_lt n (by omega : base > 0)).trans_le hle
      rw [numeral_concat, ih (n / base) (Nat.div_lt_self (by omega) hbase), digit_digitChar _ hmod]
      exact Nat.mod_add_div n base

/-- No number but zero is written with a zero in front. -/
theorem toDigits_of_head {n : Nat} (h : (Nat.toDigits 10 n).head? = some '0') : Nat.toDigits 10 n = ['0'] := by
  induction n using Nat.strong_induction_on with
  | _ n ih =>
    by_cases hlt : n < 10
    · have hall : ∀ m < 10, Nat.digitChar m = '0' → m = 0 := by decide +kernel
      rw [Nat.toDigits_of_lt_base hlt] at h ⊢
      rw [hall n hlt (Option.some.inj h)]
      rfl
    · rw [Nat.toDigits_of_base_le (by decide) (not_lt.mp hlt), List.head?_append_of_ne_nil _ Nat.toDigits_ne_nil] at h
      -- what stands before the last digit would be zero
      have hvalue := numeral_toDigits 10 (by decide) (by decide) (n / 10)
      rw [ih (n / 10) (by omega) h] at hvalue
      have hzero : numeral 10 ['0'] = 0 := by decide +kernel
      omega

theorem numeral_congr {ds ds' : List Char} (h : ds.map Char.toLower = ds'.map Char.toLower) :
    numeral base ds = numeral base ds' := by
  have hmap : ∀ l : List Char, l.reverse.map digit = ((l.map Char.toLower).map digits.idxOf).reverse := fun l => by
    rw [List.map_map, List.map_reverse]
    rfl
  rw [numeral, numeral, hmap, hmap, h]

theorem numeral_zeros (base zeros : Nat) (ds : List Char) :
    numeral base (List.replicate zeros '0' ++ ds) = numeral base ds := by
  have hzero : digit '0' = 0 := by decide +kernel
  have hzeros : Nat.ofDigits base (List.replicate zeros 0) = 0 := by
    induction zeros with
    | zero => rfl
    | succ zeros ih => rw [List.replicate_succ, Nat.ofDigits_cons, ih, Nat.mul_zero]
  rw [numeral, List.reverse_append, List.map_append, List.reverse_replicate, List.map_replicate, hzero,
    Nat.ofDigits_append, hzeros, Nat.mul_zero, Nat.add_zero, ← numeral]

/-! ### Every spelling is a lexeme -/

theorem toNat_toInt_emod (value : Word) : (value.toInt % 2 ^ 32).toNat = value.toNat := by
  have hlt := value.isLt
  rw [BitVec.toInt_eq_toNat_bmod]
  change ((value.toNat : Int).bmod (2 ^ 32) % ((2 ^ 32 : Nat) : Int)).toNat = value.toNat
  rw [Int.bmod_emod]
  omega

theorem map_toLower_toDigits (n : Nat) : (Nat.toDigits 16 n).map Char.toLower = Nat.toDigits 16 n := by
  refine (List.map_congr_left fun d hd => ?_).trans (List.map_id _)
  obtain ⟨m, hm, rfl⟩ := digitChar_of_mem_toDigits (by decide) n d hd
  exact toLower_digitChar m hm

/-- Every kind that can be written has a spelling. -/
theorem exists_spelling (h : k.Writable) : ∃ s, Spelling k s := by
  cases k with
  | eof => exact absurd h id
  | ident name => exact ⟨_, .name⟩
  | number value =>
    by_cases hneg : value.toInt < 0
    · exact ⟨'0' :: 'x' :: (List.replicate 0 '0' ++ _), .hex hneg (map_toLower_toDigits _)⟩
    · exact ⟨_, .decimal (not_lt.mp hneg)⟩
  | _ => exact ⟨_, .symbol rfl⟩

/-- A text that is empty or begins with a blank. -/
def Apart (rest : List Char) : Prop := ∀ c ∈ rest.head?, Source.isBlank c = true

theorem Apart.endsWord (h : Apart rest) : EndsWord rest := by
  intro c hc
  by_contra hword
  have hblank := (not_gap_of_isWordChar (Bool.eq_true_of_not_eq_false hword)).1
  rw [h c hc] at hblank
  cases hblank

/-- What holds no blank does not reach into a text that begins with one. -/
theorem Apart.prefix_left {mark : List Char} (h : Apart rest)
    (hmark : mark.all (!Source.isBlank ·) = true) (hpre : mark <+: s ++ rest) : mark <+: s := by
  rcases Nat.le_total mark.length s.length with hle | hle
  · exact List.prefix_of_prefix_length_le hpre (List.prefix_append s rest) hle
  · obtain ⟨more, rfl⟩ := List.prefix_of_prefix_length_le (List.prefix_append s rest) hpre hle
    rw [List.prefix_append_right_inj] at hpre
    cases more with
    | nil => rw [List.append_nil]
    | cons c more =>
      obtain ⟨behind, rfl⟩ := hpre
      have hblank := h c rfl
      have hnot := List.all_eq_true.mp hmark c (by simp)
      rw [hblank] at hnot
      cases hnot

theorem operators_closed : ∀ o ∈ operators, o.1.all (!Source.isBlank ·) = true ∧
    ¬ ['/', '/'] <+: o.1 ∧ ¬ ['/', '*'] <+: o.1 := by decide +kernel

theorem lexeme_operator (h : (s, k) ∈ operators) (hrest : Apart rest) : Lexeme s rest k := by
  refine .operator h (fun o ho hpre => ?_) ?_
  · exact (hrest.prefix_left (operators_closed o ho).1 hpre).length_le
  · rintro (hpre | hpre)
    · exact (operators_closed _ h).2.1 (hrest.prefix_left (by decide) hpre)
    · exact (operators_closed _ h).2.2 (hrest.prefix_left (by decide) hpre)

theorem lexeme_word {s : String} (h : isWord s.toList = true) (hrest : Apart rest) :
    Lexeme s.toList rest (.ofWord s) := by
  cases hs : s.toList with
  | nil => simp [hs, isWord] at h
  | cons c cs =>
    rw [hs, isWord, Bool.and_eq_true, List.all_eq_true] at h
    have hword := Lexeme.word h.1 h.2 hrest.endsWord
    rwa [← hs, String.ofList_toList, hs] at hword

/-- A symbol is a keyword or stands in the table of operators. -/
theorem symbol_cases {s : String} (h : k.symbol = some s) :
    (isWord s.toList = true ∧ Kind.ofWord s = k) ∨ (s.toList, k) ∈ operators := by
  cases k with
  | ident | number | eof => cases h
  | int | bool | if_ | else_ | while_ | for_ | break_ | continue_ | return_ | true_ | false_ =>
    obtain rfl := Option.some.inj h
    exact Or.inl (by decide +kernel)
  | _ =>
    obtain rfl := Option.some.inj h
    exact Or.inr (by decide +kernel)

theorem symbol_of_keyword {word : String} (h : keyword? word = some k) : k.symbol = some word := by
  unfold keyword? at h
  split at h
  all_goals cases h
  all_goals rfl

/-- A spelling is a lexeme before the end of a text and before a blank. -/
theorem Spelling.lexeme (h : Spelling k s) (hk : k.Writable) (hrest : Apart rest) :
    Lexeme s rest k := by
  cases h with
  | symbol hsymbol =>
    rcases symbol_cases hsymbol with ⟨hword, hkind⟩ | hmem
    · exact hkind ▸ lexeme_word hword hrest
    · exact lexeme_operator hmem hrest
  | @name name =>
    have hnone : keyword? name = none := by
      cases hkeyword : keyword? name with
      | none => rfl
      | some k => exact absurd (symbol_of_keyword hkeyword) (hk.2 k)
    have hword := lexeme_word hk.1 hrest
    rwa [Kind.ofWord, hnone] at hword
  | @decimal value hpos =>
    have hnumeral := numeral_toDigits 10 (by decide) (by decide) value.toInt.toNat
    have hlt := BitVec.toInt_lt (x := value)
    refine .decimal Nat.toDigits_ne_nil (fun d hd => digit_of_mem_toDigits (by decide) (by decide) hd) toDigits_of_head
      ?_ ?_ hrest.endsWord
    · omega
    · rw [hnumeral, Int.toNat_of_nonneg hpos, BitVec.toInt_eq_toNat_bmod, Int.bmod_bmod]
  | @hex value zeros ds hneg hds =>
    rw [toNat_toInt_emod] at hds
    have hlower : ds.map Char.toLower = (Nat.toDigits 16 value.toNat).map Char.toLower := by
      rw [map_toLower_toDigits, hds]
    have hnumeral : numeral 16 (List.replicate zeros '0' ++ ds) = value.toNat := by
      rw [numeral_zeros, numeral_congr hlower, numeral_toDigits 16 (by decide) le_rfl]
    have hne : ds ≠ [] := fun hnil => by
      rw [hnil, List.map_nil] at hds
      exact Nat.toDigits_ne_nil hds.symm
    refine .hex (by simp [hexMarks]) (by simp [hne]) (fun d hd => ?_) ?_ ?_ hrest.endsWord
    · rcases List.mem_append.mp hd with hd | hd
      · rw [List.eq_of_mem_replicate hd]
        decide +kernel
      · obtain ⟨m, hm, hdm⟩ := digitChar_of_mem_toDigits (by decide) _ _ (hds ▸ List.mem_map_of_mem hd)
        have hvalue := digit_digitChar m hm
        rw [digit, toLower_digitChar m hm, ← hdm, ← digit] at hvalue
        omega
    · have hlt := value.isLt
      omega
    · rw [hnumeral, BitVec.toInt_eq_toNat_bmod]

/-! ### Written tokens -/

/-- A token as it is written: its kind, its spelling, and the gap behind it. -/
structure Written where
  kind : Kind
  spelling : List Char
  gap : List Char

/-- A gap that begins with a blank. -/
def Separates (g : List Char) : Prop := GapText g ∧ ∃ c rest, g = c :: rest ∧ Source.isBlank c = true

/-- Tokens in their spellings, with gaps that separate them; behind the last there may be
nothing. -/
inductive WellWritten : List Written → Prop
  | nil : WellWritten []
  | cons {w ws} : Spelling w.kind w.spelling → Separates w.gap ∨ w.gap = [] ∧ ws = [] → WellWritten ws →
      WellWritten (w :: ws)

/-- The text of written tokens. -/
def writtenText (ws : List Written) : List Char := ws.flatMap fun w => w.spelling ++ w.gap

/-- Written tokens and the end mark, each at the place of its first character, when the
text of the first of them stands behind `before`. -/
def writtenTokens : (before : List Char) → List Written → List Token
  | before, [] => [⟨.eof, placeAfter before⟩]
  | before, w :: ws => ⟨w.kind, placeAfter before⟩ :: writtenTokens (before ++ w.spelling ++ w.gap) ws

theorem map_kind_writtenTokens : ∀ (ws : List Written) (before : List Char),
    (writtenTokens before ws).map Token.kind = ws.map Written.kind ++ [.eof]
  | [], _ => rfl
  | w :: ws, before => by
    rw [writtenTokens, List.map_cons, map_kind_writtenTokens ws]
    rfl

theorem Separates.apart {g : List Char} (h : Separates g) (cs : List Char) : Apart (g ++ cs) := by
  obtain ⟨-, c, rest, rfl, hblank⟩ := h
  simpa [Apart] using hblank

/-- Written tokens behind a gap are what the text decomposes into. -/
theorem WellWritten.decomposes {ws : List Written} (h : WellWritten ws) (hkinds : ∀ w ∈ ws, w.kind.Writable) :
    ∀ before g : List Char, GapText g → Decomposes before (g ++ writtenText ws) (writtenTokens (before ++ g) ws) := by
  induction h with
  | nil =>
    intro before g hg
    rw [writtenText, List.flatMap_nil, List.append_nil]
    exact .last (.closed hg)
  | @cons w ws hspelling hgap _ ih =>
    intro before g hg
    obtain ⟨hkind, hkinds⟩ := List.forall_mem_cons.mp hkinds
    obtain ⟨hgapText, hapart⟩ : GapText w.gap ∧ Apart (w.gap ++ writtenText ws) := by
      rcases hgap with hsep | ⟨hnil, rfl⟩
      · exact ⟨hsep.1, hsep.apart _⟩
      · rw [hnil]
        exact ⟨.nil, by simp [Apart, writtenText]⟩
    have hnext := Decomposes.next hg (hspelling.lexeme hkind hapart) (ih hkinds (before ++ g ++ w.spelling) _ hgapText)
    rwa [← List.append_assoc w.spelling] at hnext

/-- **Spelled tokens are read back.** Kinds that can be written have spellings. However
they are written, with gaps between them that begin with a blank, a gap or nothing
before them and such a gap or nothing behind them, reading succeeds and gives these
kinds and the end mark, each at the place where it is written. -/
theorem tokenize_written (ks : List Kind) (h : ∀ k ∈ ks, k.Writable) :
    (∃ ws, ws.map Written.kind = ks ∧ WellWritten ws) ∧
    ∀ lead ws, GapText lead → ws.map Written.kind = ks → WellWritten ws →
      tokenize (String.ofList (lead ++ writtenText ws)) = .ok (writtenTokens lead ws) ∧
      (writtenTokens lead ws).map Token.kind = ks ++ [.eof] := by
  refine ⟨?_, fun lead ws hlead hkinds hws => ⟨?_, ?_⟩⟩
  · induction ks with
    | nil => exact ⟨[], rfl, .nil⟩
    | cons k ks ih =>
      obtain ⟨hk, hks⟩ := List.forall_mem_cons.mp h
      obtain ⟨s, hs⟩ := exists_spelling hk
      obtain ⟨ws, rfl, hws⟩ := ih hks
      exact ⟨⟨k, s, [' ']⟩ :: ws, rfl, .cons hs (Or.inl ⟨.blank (by decide) .nil, ' ', [], rfl, by decide⟩) hws⟩
  · have hwritable : ∀ w ∈ ws, w.kind.Writable := fun w hw => h _ (hkinds ▸ List.mem_map_of_mem hw)
    refine tokenize_of_decomposes ?_
    rw [String.toList_ofList]
    exact hws.decomposes hwritable [] lead hlead
  · rw [map_kind_writtenTokens, hkinds]

/-- A name that begins like a keyword, the least word behind a division sign, and a
shift that assigns, with comments that look like operators between them. -/
def halved : List Written :=
  [⟨.ident "if_", "if_".toList, " /* / ** */".toList⟩, ⟨.slash, "/".toList, "\n  ".toList⟩,
    ⟨.number (-2 ^ 31), "0x0080000000".toList, "\t// <<=\n".toList⟩, ⟨.shlAssign, "<<=".toList, " ".toList⟩,
    ⟨.number 0, "0".toList, []⟩]

theorem halved_wellWritten : WellWritten halved := by
  have hblank : ∀ {c rest}, Source.isBlank c = true → GapText rest → Separates (c :: rest) := fun hc hrest =>
    ⟨.blank hc hrest, _, _, rfl, hc⟩
  refine .cons .name (Or.inl (hblank (by decide) ?_)) (.cons (.symbol rfl) (Or.inl (hblank (by decide) ?_))
    (.cons ?_ (Or.inl (hblank (by decide) ?_)) (.cons (.symbol rfl) (Or.inl (hblank (by decide) .nil))
    (.cons ?_ (Or.inr ⟨rfl, rfl⟩) .nil))))
  · change GapText ('/' :: '*' :: (" / ** ".toList ++ '*' :: '/' :: []))
    exact .blockComment (by decide +kernel) .nil
  · exact .blank (by decide) (.blank (by decide) .nil)
  · change Spelling (.number (-2 ^ 31)) ('0' :: 'x' :: (List.replicate 2 '0' ++ "80000000".toList))
    exact .hex (by decide) (by decide +kernel)
  · change GapText ('/' :: '/' :: (" <<=".toList ++ '\n' :: []))
    exact .lineComment (by decide +kernel) .nil
  · change Spelling (.number 0) (Nat.toDigits 10 (BitVec.toInt (0 : Word)).toNat)
    exact .decimal (by decide)

theorem halved_read_back : (∀ k ∈ halved.map Written.kind, k.Writable) ∧ WellWritten halved ∧
    tokenize "if_ /* / ** *//\n  0x0080000000\t// <<=\n<<= 0" = .ok [⟨.ident "if_", ⟨1, 1⟩⟩, ⟨.slash, ⟨1, 15⟩⟩,
      ⟨.number (-2 ^ 31), ⟨2, 3⟩⟩, ⟨.shlAssign, ⟨3, 1⟩⟩, ⟨.number 0, ⟨3, 5⟩⟩, ⟨.eof, ⟨3, 6⟩⟩] := by
  have hwritable : ∀ k ∈ halved.map Written.kind, k.Writable := by
    have hname : ∀ k : Kind, k.symbol ≠ some "if_" := fun k => by cases k <;> simp [Kind.symbol]
    simp only [halved, List.map_cons, List.map_nil, List.forall_mem_cons]
    exact ⟨⟨by decide +kernel, hname⟩, trivial, trivial, trivial, trivial, by simp⟩
  refine ⟨hwritable, halved_wellWritten, ?_⟩
  have hread := ((tokenize_written _ hwritable).2 [] halved .nil rfl halved_wellWritten).1
  have htext : [] ++ writtenText halved = "if_ /* / ** *//\n  0x0080000000\t// <<=\n<<= 0".toList := by decide +kernel
  have htokens : writtenTokens [] halved = [⟨.ident "if_", ⟨1, 1⟩⟩, ⟨.slash, ⟨1, 15⟩⟩,
      ⟨.number (-2 ^ 31), ⟨2, 3⟩⟩, ⟨.shlAssign, ⟨3, 1⟩⟩, ⟨.number 0, ⟨3, 5⟩⟩, ⟨.eof, ⟨3, 6⟩⟩] := by decide +kernel
  rwa [htext, String.ofList_toList, htokens] at hread

end Chordal.Token
