import ExprLang.Proofs.HoleAccount
import ExprLang.Proofs.UniqueReading
import ExprLang.Proofs.BuiltTree
import ExprLang.Tree.Render

namespace ExprLang

/-- Nothing but ASCII characters on one line. -/
def IsPlain (text : String) : Prop := ∀ c ∈ text.toList, c ≠ '\n' ∧ c.toNat < 128

-- goes over the characters of the text, where instance search may go over all that there are
instance (text : String) : Decidable (IsPlain text) := List.decidableBAll _ _

def Node.text : Node → String
  | .expression e => e.text
  | .statement _ s => s.text
  | .block b => b.text

variable {a b : String} {token : Token} {id : Identifier} {e : Expression} {s : Statement}
  {node : Node} {closer : Kind} {n : Nat}

@[simp] theorem isPlain_append : IsPlain (a ++ b) ↔ IsPlain a ∧ IsPlain b := by
  simp only [IsPlain, String.toList_append, List.forall_mem_append]

theorem IsPlain.intercalate {texts : List String} (ha : IsPlain a)
    (h : ∀ text ∈ texts, IsPlain text) : IsPlain (a.intercalate texts) := by
  induction texts with
  | nil => exact (by decide : IsPlain "")
  | cons text texts ih =>
    obtain ⟨htext, htexts⟩ := List.forall_mem_cons.1 h
    cases texts with
    | nil => rwa [String.intercalate_singleton]
    | cons next texts =>
      rw [String.intercalate_cons_cons, isPlain_append, isPlain_append]
      exact ⟨⟨htext, ha⟩, ih htexts⟩

theorem toNat_lt_of_isWordPart {c : Char} (h : isWordPart c = true) : c.toNat < 128 := by
  have hrange {z : Char} (hz : z.toNat < 128) (hc : c.val ≤ z.val) : c.toNat < 128 :=
    Nat.lt_of_le_of_lt hc hz
  simp only [isWordPart, Char.isAlphanum, Bool.or_eq_true, beq_iff_eq] at h
  rcases h with (halpha | hdigit) | rfl
  · rcases Bool.or_eq_true_iff.1 halpha with hupper | hlower
    · exact hrange (z := 'Z') (by decide) (of_decide_eq_true hupper).2
    · exact hrange (z := 'z') (by decide) (of_decide_eq_true (Bool.and_eq_true_iff.1 hlower).2)
  · exact hrange (z := '9') (by decide) (of_decide_eq_true (Bool.and_eq_true_iff.1 hdigit).2)
  · decide

/-- The only tokens of a text that need not be ASCII are the illegal ones. -/
theorem Token.Lexed.isPlain (h : token.Lexed) (hkind : token.kind ≠ .illegal) :
    IsPlain token.literal := by
  have hword (hword : token.kind.isWord = true ∨ token.kind = .integer) :
      IsPlain token.literal := by
    intro c hc
    refine ⟨?_, toNat_lt_of_isWordPart (h.forall_isWordPart hword c hc)⟩
    rintro rfl
    cases h.isBlank_eq_false _ hc
  cases h.wellFormed with
  | proper hproper =>
    cases hproper with
    | @spelt kind literal hspelt => cases kind <;> cases hspelt <;> decide
    | identifier => exact hword (.inl rfl)
    | integer => exact hword (.inr rfl)
  | illegal => exact absurd rfl hkind

theorem Identifier.Known.isPlain (h : id.Known Token.Lexed) : IsPlain id.name := by
  obtain ⟨name, hname, hkind, rfl⟩ := h
  exact hname.isPlain (by simp [hkind])

theorem Statement.isPlain_joinedText {statements : List Statement}
    (h : ∀ s ∈ statements, IsPlain s.text) : IsPlain (joinedText statements) := by
  induction statements with
  | nil => exact (by decide : IsPlain "")
  | cons s statements ih =>
    obtain ⟨hs, hstatements⟩ := List.forall_mem_cons.1 h
    exact isPlain_append.2 ⟨hs, ih hstatements⟩

theorem Block.isPlain_alternativeText {alternative : Option Block}
    (h : ∀ block ∈ alternative, IsPlain block.text) : IsPlain (alternativeText alternative) := by
  cases alternative with
  | none => exact (by decide : IsPlain "")
  | some block => exact isPlain_append.2 ⟨by decide, h block rfl⟩

/-- A node that is read from the tokens of a text is written as plain text. -/
theorem Node.Built.isPlain (h : node.Built Token.Lexed n) : IsPlain node.text := by
  induction h with
  | absent => exact (by decide : IsPlain "")
  | identifier hid _ => exact hid.isPlain
  | integer hnumeral hkind _ _ => exact hnumeral.isPlain (by simp [hkind])
  | boolean hword hkind _ =>
    apply hword.isPlain
    rcases hkind with hkind | hkind <;> simp [hkind]
  | unary hoperator hkind _ _ ih =>
    have hliteral := hoperator.isPlain (by rcases hkind with hkind | hkind <;> simp [hkind])
    simp only [text, Expression.text, isPlain_append, and_assoc]
    exact ⟨by decide, hliteral, ih, by decide⟩
  | binary hoperator hkind _ _ _ ihleft ihright =>
    have hliteral := hoperator.isPlain fun hillegal => hkind (by rw [hillegal]; rfl)
    simp only [text, Expression.text, isPlain_append, and_assoc]
    exact ⟨by decide, ihleft, by decide, hliteral, by decide, ihright, by decide⟩
  | conditional _ _ _ _ _ _ ihcondition ihconsequence ihalternative =>
    simp only [text, Expression.text, isPlain_append, and_assoc]
    exact ⟨by decide, ihcondition, by decide, ihconsequence,
      Block.isPlain_alternativeText ihalternative⟩
  | function hword hkind hids _ _ ihbody =>
    have hliteral := hword.isPlain (by simp [hkind])
    have hnames : IsPlain (", ".intercalate _) :=
      .intercalate (by decide) (List.forall_mem_map.2 fun id hid => (hids id hid).isPlain)
    simp only [text, Expression.text, isPlain_append, and_assoc]
    exact ⟨hliteral, by decide, hnames, by decide, ihbody⟩
  | binding hword hkind hid =>
    have hliteral := hword.isPlain (by simp [hkind])
    simp only [text, Statement.text, Expression.text, isPlain_append, and_assoc]
    exact ⟨hliteral, by decide, hid.isPlain, by decide, by decide, by decide⟩
  | result hword hkind =>
    have hliteral := hword.isPlain (by simp [hkind])
    simp only [text, Statement.text, Expression.text, isPlain_append, and_assoc]
    exact ⟨hliteral, by decide, by decide, by decide⟩
  | statement _ _ ih => exact ih
  | block _ _ _ ih => exact Statement.isPlain_joinedText ih

theorem Token.Lexed.literal_ne_empty (h : token.Lexed) : token.literal ≠ "" := by
  intro hempty
  exact h.literal_ne_nil (by rw [hempty]; rfl)

/-- Whatever is read as an expression has a text, unless it is absent. -/
theorem Node.Built.text_ne_empty (h : Node.Built Token.Lexed n (.expression e))
    (he : e ≠ .absent) : e.text ≠ "" := by
  cases h with
  | absent => exact absurd rfl he
  | identifier hid _ =>
    obtain ⟨name, hname, -, rfl⟩ := hid
    exact hname.literal_ne_empty
  | integer hnumeral _ _ _ => exact hnumeral.literal_ne_empty
  | boolean hword _ _ => exact hword.literal_ne_empty
  | unary | binary | conditional => simp [Expression.text]
  | function hword => simp [Expression.text, hword.literal_ne_empty]

/-- A statement without holes has a text. -/
theorem Node.Built.statement_text_ne_empty
    (h : Node.Built Token.Lexed n (.statement closer s)) (hholes : s.holes = 0) : s.text ≠ "" := by
  cases h with
  | binding => simp [Statement.text]
  | result => simp [Statement.text]
  | @statement _ _ token value _ hvalue =>
    apply hvalue.text_ne_empty
    rintro rfl
    cases hholes

end ExprLang
