import ExprLang.Proofs.GrammarSoundness

namespace ExprLang

open Parse

/-- Whether the next token is read as part of a statement or passed over: up to the semicolon of
a binding, or as one of the tokens after the word of a result. -/
inductive Scan where
  | reading
  | binding
  | result
  | resultValue
deriving DecidableEq, Repr

namespace Scan

def next : Scan → Kind → Scan
  | reading, .letWord => binding
  | reading, .returnWord => result
  | binding, .semicolon | binding, .endOfInput => reading
  | binding, _ => binding
  | result, .semicolon => reading
  | result, _ => resultValue
  | reading, _ | resultValue, _ => reading

/-- Where the braces that are read close one more than they open. The end of the input closes like
a brace, and braces that are passed over do not count. -/
def closing : Scan → Nat → Cursor → Option Cursor
  | _, _, [] => none
  | reading, depth, token :: c =>
    match token.kind with
    | .lBrace => closing reading (depth + 1) c
    | .rBrace | .endOfInput =>
      if depth = 0 then some (token :: c) else closing reading (depth - 1) c
    | kind => closing (next reading kind) depth c
  | scan, depth, token :: c => closing (scan.next token.kind) depth c

/-- No brace is passed over. -/
def Spares : Scan → List Token → Prop
  | _, [] => True
  | reading, token :: tokens => Spares (next reading token.kind) tokens
  | scan, token :: tokens =>
    (token.kind ≠ .lBrace ∧ token.kind ≠ .rBrace) ∧ Spares (scan.next token.kind) tokens

end Scan

namespace Cursor

/-- The brace that closes one more than the braces before it open, if it comes before the end of
the input. -/
def matching? : Nat → Cursor → Option Cursor
  | _, [] => none
  | depth, token :: c =>
    match token.kind with
    | .lBrace => matching? (depth + 1) c
    | .rBrace => if depth = 0 then some (token :: c) else matching? (depth - 1) c
    | .endOfInput => none
    | _ => matching? depth c

end Cursor

variable {token : Token} {c d rest m : Cursor} {scan : Scan} {depth n : Nat} {phrase : Phrase}

/-- Neither a brace or the end of the input nor the word of a binding or a result. -/
def Kind.Plain (kind : Kind) : Prop :=
  kind ∉ [.lBrace, .rBrace, .endOfInput, .letWord, .returnWord]

instance (kind : Kind) : Decidable kind.Plain := inferInstanceAs (Decidable (kind ∉ _))

namespace Scan

@[simp] theorem closing_nil : closing scan depth [] = none := by
  cases scan <;> rfl

theorem closing_plain {kind : Kind} (h : token.kind = kind) (hplain : kind.Plain := by decide) :
    closing .reading depth (token :: c) = closing .reading depth c := by
  rw [closing, h]
  cases kind <;> first | rfl | exact absurd hplain (by decide)

theorem closing_of_not_brace (hl : token.kind ≠ .lBrace) (hr : token.kind ≠ .rBrace)
    (hend : token.kind ≠ .endOfInput) :
    closing .reading depth (token :: c) = closing (next .reading token.kind) depth c := by
  rw [closing]
  split <;> first | contradiction | rfl

theorem closing_lBrace (h : token.kind = .lBrace) :
    closing .reading depth (token :: c) = closing .reading (depth + 1) c := by
  rw [closing, h]

/-- The end of a block inside the one that is scanned. -/
theorem closing_tail (h : rest.current.kind = .rBrace ∨ rest.current.kind = .endOfInput) :
    closing .reading (depth + 1) rest = closing .reading depth rest.tail := by
  cases rest with
  | nil => simp
  | cons token rest =>
    rw [closing]
    rcases h with h | h <;> rw [Cursor.current_cons] at h <;> rw [h] <;> rfl

/-- The end of the block that is scanned. -/
theorem getD_closing_zero (h : rest.current.kind = .rBrace ∨ rest.current.kind = .endOfInput) :
    (closing .reading 0 rest).getD [] = rest := by
  cases rest with
  | nil => simp
  | cons token rest =>
    rw [closing]
    rcases h with h | h <;> rw [Cursor.current_cons] at h <;> rw [h] <;> rfl

theorem closing_binding {skipped : List Token}
    (hskipped : ∀ token ∈ skipped, token.kind ≠ .semicolon ∧ token.kind ≠ .endOfInput)
    (hrest : rest.current.kind = .semicolon ∨ rest.current.kind = .endOfInput) :
    closing .binding depth (skipped ++ rest) = closing .reading depth rest.tail := by
  induction skipped with
  | nil =>
    cases rest with
    | nil => simp
    | cons token rest =>
      rw [Cursor.current_cons] at hrest
      rcases hrest with h | h <;> simp [closing, next, h]
  | cons token skipped ih =>
    obtain ⟨htoken, hskipped⟩ := List.forall_mem_cons.1 hskipped
    have hnext : next .binding token.kind = .binding := by
      cases hkind : token.kind <;> first | rfl | simp [hkind] at htoken
    rw [List.cons_append, closing, hnext, ih hskipped]
    simp

theorem closing_result (h : token.kind = .returnWord) (hrest : rest.current.kind = .semicolon) :
    closing .reading depth (token :: rest) = closing .reading depth rest.tail := by
  obtain ⟨semicolon, rest, rfl⟩ := Cursor.exists_of_current_eq hrest
  rw [Cursor.current_cons] at hrest
  simp [closing, next, h, hrest]

theorem closing_resultValue (h : token.kind = .returnWord)
    (hrest : rest.current.kind ≠ .semicolon) :
    closing .reading depth (token :: rest) = closing .reading depth rest.tail.tail := by
  match rest, hrest with
  | [], _ => simp [closing, h]
  | [first], _ => simp [closing, next, h]
  | first :: second :: rest, hrest =>
    have hnext : next .result first.kind = .resultValue := by
      cases hkind : first.kind <;> first | rfl | exact absurd hkind hrest
    have hfirst : closing .reading depth (token :: first :: second :: rest) =
        closing (next .result first.kind) depth (second :: rest) := by
      rw [closing, h]
      rfl
    rw [hfirst, hnext]
    rfl

end Scan

theorem Kind.plain_of_ofOperator? {kind : Kind} {l : Layer} (h : Layer.ofOperator? kind = some l) :
    kind.Plain := by
  cases kind <;> first | decide | cases h

theorem Names.closing_eq {ids : List Identifier} (h : Names c ids rest) (depth : Nat) :
    Scan.closing .reading depth c = Scan.closing .reading depth rest := by
  induction h with
  | last hname hclosing =>
    rw [Scan.closing_plain hname, Scan.closing_plain hclosing]
  | more hname hcomma _ ih =>
    rw [Scan.closing_plain hname, Scan.closing_plain hcomma, ih]

theorem Parameters.closing_eq {ids : List Identifier} (h : Parameters c ids rest) (depth : Nat) :
    Scan.closing .reading depth c = Scan.closing .reading depth rest := by
  cases h with
  | none hclosing => rw [Scan.closing_plain hclosing]
  | some hnames => exact hnames.closing_eq depth

/-- A phrase closes what it opens, apart from what its bindings and results pass over. -/
theorem Derives.closing_eq (h : Derives phrase c rest n) (depth : Nat) :
    Scan.closing .reading depth c = Scan.closing .reading depth rest := by
  induction h generalizing depth with
  | identifier h | integer h | yes h | no h => exact Scan.closing_plain h
  | group hopening _ hclosing ih =>
    rw [Scan.closing_plain hopening, ih,
      Scan.closing_plain hclosing]
  | conditional hword hopening _ hclosing _ _ ih ihb =>
    rw [Scan.closing_plain hword, Scan.closing_plain hopening,
      ih, Scan.closing_plain hclosing, ihb]
  | alternative hword hopening _ hclosing _ hother _ ih ihb ihb' =>
    rw [Scan.closing_plain hword, Scan.closing_plain hopening,
      ih, Scan.closing_plain hclosing, ihb,
      Scan.closing_plain hother, ihb']
  | function hword hopening hnames _ ihb =>
    rw [Scan.closing_plain hword, Scan.closing_plain hopening,
      hnames.closing_eq, ihb]
  | unary hoperator _ ih =>
    rcases hoperator with h | h
    · rw [Scan.closing_plain h, ih]
    · rw [Scan.closing_plain h, ih]
  | binary hoperator _ _ ihleft ihright =>
    rw [ihleft, Scan.closing_plain rfl (Kind.plain_of_ofOperator? hoperator), ihright]
  | loosen _ ih => exact ih depth
  | @binding word name assign skipped rest hword hname hassign hskipped hrest =>
    -- the scan passes over the name and the assignment as it does over the value
    have hpassed : ∀ token ∈ name :: assign :: skipped,
        token.kind ≠ .semicolon ∧ token.kind ≠ .endOfInput := by
      simpa [hname, hassign] using hskipped
    have hbinding : Scan.closing .binding depth (name :: assign :: skipped ++ rest) =
        Scan.closing .reading depth rest.tail := Scan.closing_binding hpassed hrest
    rw [Scan.closing, hword]
    exact hbinding
  | result hword hrest => exact Scan.closing_result hword hrest
  | resultValue hword hrest => exact Scan.closing_resultValue hword hrest
  | terminated _ hsemicolon ih => rw [ih, Scan.closing_plain hsemicolon]
  | unterminated _ _ _ ih => exact ih depth
  | nil => rfl
  | cons _ _ ihs ihbody => rw [ihs, ihbody]
  | block hopening _ hrest ih =>
    rw [Scan.closing_lBrace hopening, ih, Scan.closing_tail hrest]

/-- A block that is read without a diagnostic ends where the braces that are read close it, or at
the end of the input. -/
theorem cursor_block_of_clean {reader : Reader} {levels : Nat} (hR : reader.Sound levels)
    (h : (block reader c).Clean) :
    (block reader c).cursor = (Scan.closing .reading 0 c.tail).getD [] := by
  rw [block, current_bind, advance_bind] at h ⊢
  rw [Outcome.clean_after_advanced, clean_bind] at h
  obtain ⟨hcloser, n, -, hbody⟩ := statements_of_clean hR h.1
  rw [hbody.closing_eq, Scan.getD_closing_zero hcloser]
  rfl

/-- The way to a matching brace. -/
inductive Cursor.Matches : Nat → Cursor → Cursor → Prop
  | found {token : Token} {c : Cursor} (hkind : token.kind = .rBrace) :
      Matches 0 (token :: c) (token :: c)
  | opened {token : Token} {c m : Cursor} {depth : Nat} (hkind : token.kind = .lBrace)
      (h : Matches (depth + 1) c m) : Matches depth (token :: c) m
  | closed {token : Token} {c m : Cursor} {depth : Nat} (hkind : token.kind = .rBrace)
      (h : Matches depth c m) : Matches (depth + 1) (token :: c) m
  | other {token : Token} {c m : Cursor} {depth : Nat} (hl : token.kind ≠ .lBrace)
      (hr : token.kind ≠ .rBrace) (hend : token.kind ≠ .endOfInput) (h : Matches depth c m) :
      Matches depth (token :: c) m

theorem Cursor.matches_of_matching? (h : matching? depth c = some m) : Matches depth c m := by
  induction c generalizing depth with
  | nil => cases h
  | cons token c ih =>
    rw [matching?] at h
    split at h
    · next hkind => exact .opened hkind (ih h)
    · next hkind =>
      cases depth with
      | zero =>
        cases h
        exact .found hkind
      | succ depth => exact .closed hkind (ih h)
    · cases h
    · next hl hr hend => exact .other hl hr hend (ih h)

theorem Cursor.Matches.length_le (h : Matches depth c m) : m.length ≤ c.length := by
  induction h with
  | found => exact Nat.le_refl _
  | opened _ _ ih | closed _ _ ih | other _ _ _ _ ih => exact Nat.le_succ_of_le ih

theorem Cursor.Matches.ne_nil (h : Matches depth c m) : m ≠ [] := by
  induction h with
  | found => exact List.cons_ne_nil _ _
  | opened _ _ ih | closed _ _ ih | other _ _ _ _ ih => exact ih

/-- A token before the matching brace is inside the block. -/
theorem Cursor.Matches.exists_inside {inside : List Token} (h : Matches depth c m)
    (hc : token :: c = inside ++ m) : ∃ others, inside = token :: others ∧ c = others ++ m := by
  cases inside with
  | nil =>
    have hlength := h.length_le
    rw [← show token :: c = m from hc] at hlength
    exact absurd hlength (Nat.not_succ_le_self _)
  | cons first others =>
    cases hc
    exact ⟨others, rfl, rfl⟩

/-- Where no brace is passed over, the matching brace closes the block. -/
theorem Cursor.Matches.closing_eq {inside : List Token} (h : Matches depth c m)
    (hc : c = inside ++ m) (hspares : scan.Spares (inside ++ [m.current])) :
    scan.closing depth c = some m := by
  induction h generalizing scan inside with
  | @found token c hkind =>
    obtain rfl : inside = [] := List.self_eq_append_left.1 hc
    cases scan with
    | reading =>
      rw [Scan.closing, hkind]
      rfl
    | binding | result | resultValue => exact absurd hkind hspares.1.2
  | @opened token c m depth hkind h ih =>
    obtain ⟨others, rfl, rfl⟩ := h.exists_inside hc
    cases scan with
    | reading =>
      have hnext : Scan.next .reading token.kind = .reading := by rw [hkind]; rfl
      rw [Scan.closing_lBrace hkind]
      exact ih rfl (hnext ▸ hspares)
    | binding | result | resultValue => exact absurd hkind hspares.1.1
  | @closed token c m depth hkind h ih =>
    obtain ⟨others, rfl, rfl⟩ := h.exists_inside hc
    cases scan with
    | reading =>
      have hnext : Scan.next .reading token.kind = .reading := by rw [hkind]; rfl
      have hclosing : (Cursor.current (token :: (others ++ m))).kind = .rBrace := hkind
      rw [Scan.closing_tail (.inl hclosing)]
      exact ih rfl (hnext ▸ hspares)
    | binding | result | resultValue => exact absurd hkind hspares.1.2
  | other hl hr hend h ih =>
    obtain ⟨others, rfl, rfl⟩ := h.exists_inside hc
    cases scan with
    | reading =>
      rw [Scan.closing_of_not_brace hl hr hend]
      exact ih rfl hspares
    | binding | result | resultValue => exact ih rfl hspares.2

/-- A block that is read without a diagnostic ends where the braces that bindings and results do
not pass over close it, or else at the end of the input. So it ends at its matching brace exactly
when these braces match as all braces do, which they do where none is passed over. -/
theorem Parser.block_ends (parser : Parser) (hgrammar : parser.grammar = .standard)
    (hclean : parser.block.2.diagnostics = parser.diagnostics)
    (hmatching : Cursor.matching? 0 parser.cursor.tail = some m) :
    parser.block.2.cursor = (Scan.closing .reading 0 parser.cursor.tail).getD [] ∧
      (parser.block.2.cursor = m ↔ Scan.closing .reading 0 parser.cursor.tail = some m) ∧
      (∀ inside, parser.cursor.tail = inside ++ m → Scan.Spares .reading (inside ++ [m.current]) →
        parser.block.2.cursor = m) := by
  have hsound : parser.reader.Sound (maxNesting - parser.depth) := by
    rw [Parser.reader, hgrammar]
    exact Reader.sound_ofLevels _
  have hend := cursor_block_of_clean hsound ((parser.diagnostics_run_eq_iff _).1 hclean)
  have hiff : parser.block.2.cursor = m ↔
      Scan.closing .reading 0 parser.cursor.tail = some m := by
    have hne := (Cursor.matches_of_matching? hmatching).ne_nil
    rw [Parser.block, Parser.cursor_run, hend]
    cases Scan.closing .reading 0 parser.cursor.tail with
    | none => simp [hne.symm]
    | some d => simp
  refine ⟨hend, hiff, fun inside hinside hspares => hiff.2 ?_⟩
  exact (Cursor.matches_of_matching? hmatching).closing_eq hinside hspares

theorem Parser.block_ends_result :
    let parser := Parser.ofTokens [.ofSymbol '{', .ofWord "return", .ofSymbol ';', .ofSymbol '}',
      .ofWord "a"]
    parser.grammar = .standard ∧ parser.block.2.diagnostics = parser.diagnostics ∧
      Cursor.matching? 0 parser.cursor.tail = some [.ofSymbol '}', .ofWord "a"] ∧
      parser.block.2.cursor = [.ofSymbol '}', .ofWord "a"] := by
  intro parser
  have hclean : parser.block.2.diagnostics = parser.diagnostics := by decide +kernel
  have hmatching : Cursor.matching? 0 parser.cursor.tail = some [.ofSymbol '}', .ofWord "a"] := rfl
  have hspares : Scan.Spares .reading
      ([.ofWord "return", .ofSymbol ';'] ++ [Cursor.current [.ofSymbol '}', .ofWord "a"]]) :=
    ⟨⟨by decide, by decide⟩, trivial⟩
  exact ⟨rfl, hclean, hmatching, (parser.block_ends rfl hclean hmatching).2.2 _ rfl hspares⟩

/-- A result without a semicolon passes over the brace that matches the block's own. -/
theorem Parser.exists_block_past_matching :
    ∃ (parser : Parser) (m : Cursor), parser.grammar = .standard ∧
      parser.current.kind = .lBrace ∧ parser.block.2.diagnostics = parser.diagnostics ∧
      Cursor.matching? 0 parser.cursor.tail = some m ∧ parser.block.2.cursor ≠ m := by
  refine ⟨.ofTokens [.ofSymbol '{', .ofWord "return", .ofSymbol '}', .ofWord "a"],
    [.ofSymbol '}', .ofWord "a"], rfl, rfl, ?_, rfl, ?_⟩
  · decide +kernel
  · decide +kernel

end ExprLang
