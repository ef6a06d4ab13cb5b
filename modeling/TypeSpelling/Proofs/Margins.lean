import TypeSpelling.Proofs.Trimming

/-!
# White space around phrases

A phrase begins with a character that is no white space, and so it ends once the
blanks behind it are left out.  Which blanks stand behind it makes no difference,
so a text is read as before when the white space around it is trimmed, and blanks
may stand behind an operand.
-/

namespace TypeSpelling.Source

open TypeSpelling.Text

/-! ## Tokens -/

/-- A token neither begins nor ends with white space. -/
theorem Token.solid (own : Token) : Solid (String.ofList own.text) := by
  obtain ⟨rule, text, shape⟩ := own
  have booleans : ∀ word ∈ wordsOf .boolean,
      word.toList ≠ [] ∧ word.toList.any isWhiteSpace = false := by decide
  have nulls : ∀ word ∈ wordsOf .null,
      word.toList ≠ [] ∧ word.toList.any isWhiteSpace = false := by decide
  cases shape with
  | name name => exact solid_of_isWords (by rw [String.toList_ofList]; exact name.isWords)
  | wildcard => exact solid_of_any (by decide) (by decide)
  | ellipsis => exact solid_of_any (by decide) (by decide)
  | string quoted => exact solid_of_isQuoted (by rwa [String.toList_ofList])
  | bytes quoted => exact solid_of_bytes ⟨_, String.toList_ofList, quoted⟩
  | integer integer => exact solid_of_isInteger (by rwa [String.toList_ofList])
  | boolean mem =>
      rw [String.ofList_toList]
      exact solid_of_any (booleans _ mem).1 (booleans _ mem).2
  | null mem =>
      rw [String.ofList_toList]
      exact solid_of_any (nulls _ mem).1 (nulls _ mem).2

/-! ## Both ends of a phrase -/

/-- Characters that begin with one that is no white space. -/
def SolidStart (chars : List Char) : Prop :=
  ∃ c rest, chars = c :: rest ∧ isWhiteSpace c = false

/-- Characters that end with one that is no white space. -/
def SolidEnd (chars : List Char) : Prop :=
  ∃ front c, chars = front ++ [c] ∧ isWhiteSpace c = false

theorem SolidStart.append {chars : List Char} (start : SolidStart chars) (more : List Char) :
    SolidStart (chars ++ more) := by
  obtain ⟨c, rest, rfl, solid⟩ := start
  exact ⟨c, rest ++ more, rfl, solid⟩

theorem SolidEnd.append {chars : List Char} (ends : SolidEnd chars) (before : List Char) :
    SolidEnd (before ++ chars) := by
  obtain ⟨front, c, rfl, solid⟩ := ends
  exact ⟨before ++ front, c, by simp, solid⟩

namespace Phrase

/-- Every phrase but a list of items begins with a character that is no white space. -/
theorem solidStart {category : Category} (phrase : Phrase category) :
    (∀ repetition, category ≠ .items repetition) → SolidStart phrase.text := by
  induction phrase with
  | expression first others ih =>
      intro _
      rw [text_expression]
      exact (ih (by simp)).append _
  | operand prefixes apart primary mark ih =>
      intro _
      rw [text_operand]
      cases prefixes with
      | nil => exact (ih (by simp)).append _
      | cons first others =>
          obtain ⟨keyword, behind⟩ := first
          have start : SolidStart keyword.text := by
            cases keyword <;> exact ⟨_, _, rfl, by decide⟩
          rw [Prefixes.text, List.flatMap_cons, List.append_assoc, List.append_assoc]
          exact start.append _
  | bare atom behind ih =>
      intro _
      rw [text_bare]
      exact (ih (by simp)).append _
  | subscripted atom before inside first others behind ih =>
      intro _
      rw [text_subscripted]
      exact (ih (by simp)).append _
  | token own =>
      intro _
      obtain ⟨c, rest, whole, solid⟩ := own.solid.begins
      rw [String.toList_ofList] at whole
      exact ⟨c, rest, by rw [text_token, whole], solid⟩
  | parens => exact fun _ => ⟨_, _, text_parens .., by decide⟩
  | mapping => exact fun _ => ⟨_, _, text_mapping .., by decide⟩
  | set => exact fun _ => ⟨_, _, text_set .., by decide⟩
  | brackets => exact fun _ => ⟨_, _, text_brackets .., by decide⟩
  | bar => exact fun _ => ⟨_, _, text_bar .., by decide⟩
  | comma => exact fun _ => ⟨_, _, text_comma .., by decide⟩
  | entry => exact fun _ => ⟨_, _, text_entry .., by decide⟩
  | nil => exact fun notItems => absurd rfl (notItems _)
  | cons first others ih => exact fun notItems => absurd rfl (notItems _)

/-- A phrase ends without white space in front of the blanks behind it, and other blanks
may stand there. -/
def HasCore {category : Category} (phrase : Phrase category) : Prop :=
  ∃ (core : List Char) (behind : Blanks), phrase.text = core ++ behind.chars ∧ SolidEnd core ∧
    ∀ other : Blanks, Composes category (core ++ other.chars) phrase.trees

/-- How a phrase of the category ends. -/
def Ends : {category : Category} → Phrase category → Prop
  | .atom _, phrase => SolidEnd phrase.text
  | .items _, phrase => phrase.isNil = false → phrase.HasCore
  | .expression, phrase | .operand, phrase | .primary _, phrase | .item _, phrase => phrase.HasCore

/-- A phrase that ends with another one ends like it. -/
theorem HasCore.behind {category outer : Category} {inner : Phrase category}
    (hasCore : inner.HasCore) {whole : Phrase outer} (before : List Char)
    (text : whole.text = before ++ inner.text)
    (composes : ∀ chars, Composes category chars inner.trees →
      Composes outer (before ++ chars) whole.trees) : whole.HasCore := by
  obtain ⟨core, behind, split, solid, others⟩ := hasCore
  refine ⟨before ++ core, behind, ?_, solid.append before, fun other => ?_⟩
  · rw [text, split, List.append_assoc]
  · rw [List.append_assoc]
    exact composes _ (others other)

theorem solidEnd_mark (mark : Char) (solid : isWhiteSpace mark = false) : SolidEnd [mark] :=
  ⟨[], mark, rfl, solid⟩

theorem ends {category : Category} (phrase : Phrase category) : phrase.Faultless → phrase.Ends := by
  induction phrase with
  | expression first others firstIh othersIh =>
      rintro ⟨firstFaultless, othersFaultless⟩
      cases nil : others.isNil with
      | true =>
          obtain rfl := (isNil_eq_true_iff others).mp nil
          refine (firstIh firstFaultless).behind [] (by simp) ?_
          rintro _ ⟨phrase, rfl, faultless, same⟩
          exact ⟨.expression phrase .nil, by simp, ⟨faultless, trivial⟩, by rw [trees, same]; rfl⟩
      | false =>
          refine (othersIh othersFaultless nil).behind first.text (by simp) ?_
          rintro _ ⟨phrase, rfl, faultless, same⟩
          exact ⟨.expression first phrase, by simp, ⟨firstFaultless, faultless⟩,
            by rw [trees, same]; rfl⟩
  | operand prefixes apart primary mark ih =>
      intro faultless
      cases mark with
      | some behind =>
          refine ⟨prefixes.text ++ (primary.text ++ ['?']), behind, by simp [markText], ?_,
            fun other => ?_⟩
          · exact ((solidEnd_mark '?' (by decide)).append _).append _
          · exact ⟨.operand prefixes apart primary (some other), by simp [markText], faultless, rfl⟩
      | none =>
          refine (ih faultless).behind prefixes.text (by simp [markText]) ?_
          rintro _ ⟨phrase, rfl, faultless', same⟩
          exact ⟨.operand prefixes apart phrase none, by simp [markText], faultless',
            by rw [trees, same]; rfl⟩
  | bare atom behind ih =>
      intro faultless
      exact ⟨atom.text, behind, text_bare .., ih faultless, fun other =>
        ⟨.bare atom other, text_bare .., faultless, rfl⟩⟩
  | subscripted atom before inside first others behind =>
      intro faultless
      refine ⟨atom.text ++ (before.chars ++ ('[' :: (inside.chars ++ (first.text ++ (others.text ++
        [']']))))), behind, by simp, ?_, fun other => ?_⟩
      · have closed := ((solidEnd_mark ']' (by decide)).append others.text).append first.text
        exact (((closed.append inside.chars).append ['[']).append before.chars).append atom.text
      · exact ⟨.subscripted atom before inside first others other, by simp, faultless, rfl⟩
  | token own =>
      intro _
      obtain ⟨front, c, whole, solid⟩ := own.solid.ends
      rw [String.toList_ofList] at whole
      exact ⟨front, c, by rw [text_token, whole], solid⟩
  | parens inside first others closing =>
      intro _
      have closed := (((solidEnd_mark ')' (by decide)).append (closingComma closing)).append
        others.text).append first.text
      rw [Ends, text_parens]
      exact (closed.append inside.chars).append ['(']
  | mapping inside key between value others =>
      intro _
      have closed := (((solidEnd_mark '\x7d' (by decide)).append others.text).append
        value.text).append between.chars
      rw [Ends, text_mapping]
      exact (((closed.append [':']).append key.text).append inside.chars).append ['\x7b']
  | set inside first others =>
      intro _
      have closed := ((solidEnd_mark '\x7d' (by decide)).append others.text).append first.text
      rw [Ends, text_set]
      exact (closed.append inside.chars).append ['\x7b']
  | brackets inside first others =>
      intro _
      have closed := ((solidEnd_mark ']' (by decide)).append others.text).append first.text
      rw [Ends, text_brackets]
      exact (closed.append inside.chars).append ['[']
  | bar behind next ih =>
      intro faultless
      refine (ih faultless).behind ('|' :: behind.chars) (by simp) ?_
      rintro _ ⟨phrase, rfl, faultless', same⟩
      exact ⟨.bar behind phrase, by simp, faultless', same⟩
  | comma behind next ih =>
      intro faultless
      refine (ih faultless).behind (',' :: behind.chars) (by simp) ?_
      rintro _ ⟨phrase, rfl, faultless', same⟩
      exact ⟨.comma behind phrase, by simp, faultless', same⟩
  | entry behind key between value keyIh valueIh =>
      rintro ⟨keyFaultless, valueFaultless⟩
      refine (valueIh valueFaultless).behind
        (',' :: (behind.chars ++ (key.text ++ ':' :: between.chars))) (by simp) ?_
      rintro _ ⟨phrase, rfl, faultless', same⟩
      exact ⟨.entry behind key between phrase, by simp, ⟨keyFaultless, faultless'⟩,
        by rw [trees, same]; rfl⟩
  | nil => exact fun _ nonempty => by cases nonempty
  | cons first others firstIh othersIh =>
      rintro ⟨firstFaultless, othersFaultless⟩ -
      cases nil : others.isNil with
      | true =>
          obtain rfl := (isNil_eq_true_iff others).mp nil
          refine (firstIh firstFaultless).behind [] (by simp) ?_
          rintro _ ⟨phrase, rfl, faultless, same⟩
          exact ⟨.cons phrase .nil, by simp, ⟨faultless, trivial⟩, by rw [trees, same]; rfl⟩
      | false =>
          refine (othersIh othersFaultless nil).behind first.text (by simp) ?_
          rintro _ ⟨phrase, rfl, faultless, same⟩
          exact ⟨.cons first phrase, by simp, ⟨firstFaultless, faultless⟩,
            by rw [trees, same]; rfl⟩

end Phrase

/-! ## Texts -/

/-- Blanks may stand behind an operand. -/
theorem ReadsAsOperand.append_blanks {text : String} {tree : TypeExpr}
    (reads : ReadsAsOperand text tree) (blanks : Blanks) :
    Composes .operand (text.toList ++ blanks.chars) [tree] := by
  obtain ⟨phrase, whole, faultless, trees⟩ := reads
  obtain ⟨core, behind, split, -, composes⟩ := phrase.ends faultless
  have longer := composes (behind.append blanks)
  rwa [Blanks.append, ← List.append_assoc, ← split, whole, trees] at longer

theorem isWhiteSpace_of_isBlank {c : Char} (blank : isBlank c = true) :
    isWhiteSpace c = true := by
  simp only [isBlank, Bool.or_eq_true, decide_eq_true_eq] at blank
  rcases blank with ((rfl | rfl) | rfl) | rfl <;> decide

theorem trimEndChars_append {white : List Char} (all : ∀ c ∈ white, isWhiteSpace c = true)
    (chars : List Char) : trimEndChars (chars ++ white) = trimEndChars chars := by
  induction chars with
  | nil =>
      induction white with
      | nil => rfl
      | cons c rest ih =>
          obtain ⟨first, others⟩ := List.forall_mem_cons.mp all
          have behind : trimEndChars rest = [] := ih others
          change trimEndChars (c :: rest) = []
          simp only [trimEndChars, behind, first, if_true]
  | cons c rest ih => rw [List.cons_append, trimEndChars, ih, trimEndChars]

/-- The white space around a text is all that is trimmed. -/
theorem trim_eq_of_append {source : String} {before core behind : List Char}
    (whole : source.toList = before ++ (core ++ behind))
    (beforeWhite : ∀ c ∈ before, isWhiteSpace c = true)
    (behindWhite : ∀ c ∈ behind, isWhiteSpace c = true)
    (start : SolidStart core) (ends : SolidEnd core) : trim source = String.ofList core := by
  have begins : (core ++ behind).dropWhile isWhiteSpace = core ++ behind := by
    obtain ⟨c, rest, rfl, solid⟩ := start
    rw [List.cons_append, List.dropWhile_cons_of_neg (by simp [solid])]
  obtain ⟨front, c, rfl, solid⟩ := ends
  rw [trim, whole, List.dropWhile_append_of_pos beforeWhite, begins,
    trimEndChars_append behindWhite, trimEndChars_append_singleton front solid]

/-- A text is read as before when the white space around it is trimmed. -/
theorem ReadsAsExpression.trim {source : String} {tree : TypeExpr}
    (reads : ReadsAsExpression source tree) : ReadsAsExpression (Text.trim source) tree := by
  obtain ⟨before, _, ⟨phrase, rfl, faultless, trees⟩, whole⟩ := reads
  obtain ⟨core, behind, split, solid, composes⟩ := phrase.ends faultless
  have start : SolidStart core := by
    obtain ⟨c, rest, begins, notWhite⟩ := phrase.solidStart (by simp)
    obtain ⟨front, last, rfl, -⟩ := solid
    cases front with
    | nil => exact ⟨last, [], rfl, by rw [split] at begins; cases begins; exact notWhite⟩
    | cons first more =>
        exact ⟨first, _, rfl, by rw [split] at begins; cases begins; exact notWhite⟩
  rw [split] at whole
  rw [trim_eq_of_append whole (fun c mem => isWhiteSpace_of_isBlank (before.blank c mem))
    (fun c mem => isWhiteSpace_of_isBlank (behind.blank c mem)) start solid]
  have own := composes .none
  rw [trees, Blanks.none, List.append_nil] at own
  exact ⟨.none, core, own, String.toList_ofList⟩

end TypeSpelling.Source
