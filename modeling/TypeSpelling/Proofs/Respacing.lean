import Mathlib.Data.List.Forall2
import TypeSpelling.Proofs.TokenTexts

/-!
# Blanks between tokens

Two texts are spaced differently if they have the same tokens in the same order and
differ in the blanks around them.  Blanks that are put into a text which is read as a
tree leave the tree as it is.  The tokens of a phrase stay its tokens, so every part of
the phrase is found again in the text with more blanks: a token as it is, and blanks
with more blanks among them.  A keyword stays apart from a word behind it, since blanks
that are there stay there.
-/

namespace TypeSpelling.Source

open TypeSpelling.Peg
open TypeSpelling.Text

/-! ## More blanks -/

/-- Blanks with blanks put in anywhere among them. -/
structure Widened (gap wider : List Char) : Prop where
  keeps : gap.Sublist wider
  blank : ∀ c ∈ wider, isBlank c = true

/-- The first text has the tokens in a row, with blanks between them and at both ends,
perhaps none.  The second is the first with blanks put in at these places. -/
inductive Respaced : List (List Char) → List Char → List Char → Prop where
  | ends {gap wider : List Char} (widened : Widened gap wider) : Respaced [] gap wider
  | token {gap wider token : List Char} {tokens : List (List Char)} {rest other : List Char}
      (widened : Widened gap wider) (behind : Respaced tokens rest other) :
      Respaced (token :: tokens) (gap ++ (token ++ rest)) (wider ++ (token ++ other))

theorem Widened.refl {gap : List Char} (blank : ∀ c ∈ gap, isBlank c = true) : Widened gap gap :=
  ⟨List.Sublist.refl gap, blank⟩

theorem Widened.ne_nil {gap wider : List Char} (widened : Widened gap wider) (some : gap ≠ []) :
    wider ≠ [] := by
  rintro rfl
  exact some (List.sublist_nil.mp widened.keeps)

theorem Widened.blank_gap {gap wider : List Char} (widened : Widened gap wider) :
    ∀ c ∈ gap, isBlank c = true :=
  fun c mem => widened.blank c (widened.keeps.subset mem)

theorem eq_nil_of_startsWithout {test : Char → Bool} {run rest : List Char}
    (passes : ∀ c ∈ run, test c = true) (stops : StartsWithout test (run ++ rest)) :
    run = [] := by
  cases run with
  | nil => rfl
  | cons c others =>
      have fails := startsWithout_cons.mp stops
      rw [passes c List.mem_cons_self] at fails
      cases fails

theorem SolidStart.startsWithout_blank {chars : List Char} (start : SolidStart chars) :
    StartsWithout isBlank chars := by
  obtain ⟨c, rest, rfl, solid⟩ := start
  rw [startsWithout_cons, Bool.eq_false_iff]
  intro blank
  rw [isWhiteSpace_of_isBlank blank] at solid
  cases solid

/-! ## Taking both texts apart -/

/-- Two texts that differ in the blanks around their tokens, none of which begins with
white space. -/
structure Aligned (tokens : List (List Char)) (text other : List Char) : Prop where
  respaced : Respaced tokens text other
  solid : ∀ token ∈ tokens, SolidStart token

section

variable {tokens : List (List Char)} {token rest other : List Char}

/-- A token at the beginning of both texts. -/
theorem Aligned.exists_behind_token (aligned : Aligned (token :: tokens) (token ++ rest) other)
    (starts : StartsWithout isBlank other) :
    ∃ behind, other = token ++ behind ∧ Aligned tokens rest behind := by
  obtain ⟨respaced, solid⟩ := aligned
  obtain ⟨first, others⟩ := List.forall_mem_cons.mp solid
  have stops : ∀ chars, StartsWithout isBlank (token ++ chars) :=
    fun chars => (first.append chars).startsWithout_blank
  generalize whole : token ++ rest = text at respaced
  cases respaced with
  | @token gap wider _ _ inner behind widened respaced =>
      have begins : StartsWithout isBlank (gap ++ (token ++ inner)) := whole ▸ stops rest
      obtain rfl := eq_nil_of_startsWithout widened.blank_gap begins
      obtain rfl := eq_nil_of_startsWithout widened.blank starts
      obtain rfl := List.append_cancel_left whole
      exact ⟨behind, rfl, respaced, others⟩

/-- Blanks at the beginning of both texts. -/
theorem Aligned.exists_behind_blanks {gap : Blanks}
    (aligned : Aligned tokens (gap.chars ++ rest) other) (stops : StartsWithout isBlank rest) :
    ∃ (wider : Blanks) (behind : List Char), Widened gap.chars wider.chars ∧
      other = wider.chars ++ behind ∧ Aligned tokens rest behind ∧
        StartsWithout isBlank behind := by
  obtain ⟨respaced, solid⟩ := aligned
  generalize whole : gap.chars ++ rest = text at respaced
  have none : Widened [] [] := .refl (List.forall_mem_nil _)
  cases respaced with
  | @ends _ wider widened =>
      -- No token is left, so there is nothing behind the blanks.
      have split : gap.chars ++ rest = text ++ [] := by rw [whole, List.append_nil]
      obtain ⟨rfl, rfl⟩ := append_inj_of_startsWithout gap.blank stops widened.blank_gap
        (startsWithout_nil _) split
      exact ⟨⟨other, widened.blank⟩, [], widened, (List.append_nil _).symm, ⟨.ends none, solid⟩,
        startsWithout_nil _⟩
  | @token before wider first others inner behind widened respaced =>
      -- In both texts the blanks end where the next token begins.
      have firstStops : ∀ chars, StartsWithout isBlank (first ++ chars) := fun chars =>
        ((solid first List.mem_cons_self).append chars).startsWithout_blank
      obtain ⟨rfl, rfl⟩ := append_inj_of_startsWithout gap.blank stops widened.blank_gap
        (firstStops inner) whole
      exact ⟨⟨wider, widened.blank⟩, first ++ behind, widened, rfl, ⟨.token none respaced, solid⟩,
        firstStops behind⟩

/-- A mark at the beginning of both texts. -/
theorem Aligned.exists_behind_mark {mark : Char}
    (aligned : Aligned ([mark] :: tokens) (mark :: rest) other)
    (starts : StartsWithout isBlank other) :
    ∃ behind, other = mark :: behind ∧ Aligned tokens rest behind :=
  aligned.exists_behind_token starts

/-- A mark at the beginning of both texts with blanks behind it. -/
theorem Aligned.exists_behind_mark_blanks {mark : Char} {gap : Blanks}
    (aligned : Aligned ([mark] :: tokens) (mark :: (gap.chars ++ rest)) other)
    (starts : StartsWithout isBlank other) (stops : StartsWithout isBlank rest) :
    ∃ (wider : Blanks) (behind : List Char), other = mark :: (wider.chars ++ behind) ∧
      Aligned tokens rest behind ∧ StartsWithout isBlank behind := by
  obtain ⟨_, rfl, later⟩ := aligned.exists_behind_mark starts
  obtain ⟨wider, behind, -, rfl, found⟩ := later.exists_behind_blanks stops
  exact ⟨wider, behind, rfl, found⟩

/-- A mark that may stand at the beginning of both texts, with blanks behind it. -/
theorem Aligned.exists_behind_optional {mark : Char} {present : Option Blanks}
    (aligned : Aligned (markTokens mark present.isSome ++ tokens)
      ((present.map fun behind => mark :: behind.chars).getD [] ++ rest) other)
    (starts : StartsWithout isBlank other) (stops : StartsWithout isBlank rest) :
    ∃ (found : Option Blanks) (behind : List Char), found.isSome = present.isSome ∧
      other = (found.map fun behind => mark :: behind.chars).getD [] ++ behind ∧
        Aligned tokens rest behind ∧ StartsWithout isBlank behind := by
  cases present with
  | none => exact ⟨none, other, rfl, rfl, aligned, starts⟩
  | some gap =>
      obtain ⟨wider, behind, rfl, found⟩ := aligned.exists_behind_mark_blanks starts stops
      exact ⟨some wider, behind, rfl, rfl, found⟩

end

/-! ## Keywords -/

section

variable {tokens : List (List Char)} {rest other : List Char}

/-- Two words at the beginning of both texts with blanks between them. -/
theorem Aligned.exists_behind_words {first second : List Char} {between : Blanks}
    (aligned : Aligned (first :: second :: tokens)
      (first ++ (between.chars ++ (second ++ rest))) other)
    (starts : StartsWithout isBlank other) :
    ∃ (wider : Blanks) (behind : List Char), Widened between.chars wider.chars ∧
      other = first ++ (wider.chars ++ (second ++ behind)) ∧ Aligned tokens rest behind := by
  obtain ⟨_, rfl, later⟩ := aligned.exists_behind_token starts
  have next : SolidStart (second ++ rest) := (later.solid second List.mem_cons_self).append rest
  obtain ⟨wider, _, widened, rfl, later, starts⟩ :=
    later.exists_behind_blanks next.startsWithout_blank
  obtain ⟨behind, rfl, found⟩ := later.exists_behind_token starts
  exact ⟨wider, behind, widened, rfl, found⟩

/-- A keyword at the beginning of both texts.  There may be more blanks between its two
words. -/
theorem Aligned.exists_behind_keyword {keyword : Keyword}
    (aligned : Aligned (keyword.tokens ++ tokens) (keyword.text ++ rest) other)
    (starts : StartsWithout isBlank other) :
    ∃ (found : Keyword) (behind : List Char), found.container = keyword.container ∧
      other = found.text ++ behind ∧ Aligned tokens rest behind := by
  cases keyword with
  | await =>
      obtain ⟨behind, rfl, found⟩ := aligned.exists_behind_token starts
      exact ⟨.await, behind, rfl, rfl, found⟩
  | iter =>
      obtain ⟨behind, rfl, found⟩ := aligned.exists_behind_token starts
      exact ⟨.iter, behind, rfl, rfl, found⟩
  | «with» =>
      obtain ⟨behind, rfl, found⟩ := aligned.exists_behind_token starts
      exact ⟨.with, behind, rfl, rfl, found⟩
  | asyncIter between apart =>
      rw [Keyword.text_asyncIter, List.append_assoc, List.append_assoc] at aligned
      obtain ⟨wider, behind, widened, rfl, found⟩ := aligned.exists_behind_words starts
      exact ⟨.asyncIter wider (widened.ne_nil apart), behind, rfl, by simp, found⟩
  | asyncWith between apart =>
      rw [Keyword.text_asyncWith, List.append_assoc, List.append_assoc] at aligned
      obtain ⟨wider, behind, widened, rfl, found⟩ := aligned.exists_behind_words starts
      exact ⟨.asyncWith wider (widened.ne_nil apart), behind, rfl, by simp, found⟩

/-- Keywords in a row that wrap in the same containers, with blanks put in behind them. -/
def Prefixes.WidenedTo : Prefixes → Prefixes → Prop :=
  List.Forall₂ fun (keyword, behind) (found, wider) =>
    found.container = keyword.container ∧ Widened behind.chars wider.chars

theorem Prefixes.WidenedTo.containers {prefixes found : Prefixes}
    (widened : prefixes.WidenedTo found) :
    found.map (fun (keyword, _) => keyword.container) =
      prefixes.map fun (keyword, _) => keyword.container := by
  induction widened with
  | nil => rfl
  | cons first _ ih => exact congrArg₂ List.cons first.1 ih

/-- Keywords stay apart from what is behind them. -/
theorem Prefixes.WidenedTo.apart {prefixes found : Prefixes} (widened : prefixes.WidenedTo found)
    {word : Bool} (apart : prefixes.Apart word) : found.Apart word := by
  induction widened with
  | nil => trivial
  | cons first others ih =>
      cases others with
      | nil => exact fun follows => first.2.ne_nil (apart follows)
      | cons => exact ⟨first.2.ne_nil apart.1, ih apart.2⟩

/-- Keywords at the beginning of both texts. -/
theorem Aligned.exists_behind_prefixes {prefixes : Prefixes}
    (aligned : Aligned (prefixes.tokens ++ tokens) (prefixes.text ++ rest) other)
    (starts : StartsWithout isBlank other) (opens : Opens rest) :
    ∃ (found : Prefixes) (behind : List Char), prefixes.WidenedTo found ∧
      other = found.text ++ behind ∧ Aligned tokens rest behind ∧
        StartsWithout isBlank behind := by
  induction prefixes generalizing other with
  | nil => exact ⟨[], other, .nil, rfl, aligned, starts⟩
  | cons first others ih =>
      obtain ⟨keyword, gap⟩ := first
      simp only [Prefixes.tokens, Prefixes.text, List.flatMap_cons, List.append_assoc] at aligned
      have next := (Prefixes.opens_append others opens).startsWithout_blank
      obtain ⟨foundKeyword, _, container, rfl, later⟩ := aligned.exists_behind_keyword starts
      obtain ⟨wider, _, widened, rfl, later, starts⟩ := later.exists_behind_blanks next
      obtain ⟨found, behind, row, rfl, last⟩ := ih later starts
      exact ⟨(foundKeyword, wider) :: found, behind, .cons ⟨container, widened⟩ row,
        by simp [Prefixes.text], last⟩

end

/-! ## Phrases -/

/-- Two phrases of a category that are read alike. -/
structure ReadAlike {category : Category} (phrase found : Phrase category) : Prop where
  trees : found.trees = phrase.trees
  faultless : phrase.Faultless → found.Faultless
  isNil : found.isNil = phrase.isNil
  isName : found.isName = phrase.isName

/-- What stands behind a phrase of the category.  The blanks behind an atom are not part
of it. -/
def Category.Stops : Category → List Char → Prop
  | .atom _, _ => True
  | _, rest => StartsWithout isBlank rest

namespace Phrase

/-- A text that begins with the phrase begins with a phrase that is read like it when
blanks are put in. -/
def Respaces {category : Category} (phrase : Phrase category) : Prop :=
  ∀ {tokens : List (List Char)} {rest other : List Char}, category.Stops rest →
    Aligned (phrase.tokens ++ tokens) (phrase.text ++ rest) other →
      StartsWithout isBlank other →
        ∃ (found : Phrase category) (behind : List Char), ReadAlike phrase found ∧
          other = found.text ++ behind ∧ Aligned tokens rest behind ∧ category.Stops behind

theorem startsWithout_blank_items {repetition : Repetition} (items : Phrase (.items repetition))
    {rest : List Char} (stops : StartsWithout isBlank rest) :
    StartsWithout isBlank (items.text ++ rest) := by
  cases items with
  | nil => exact stops
  | cons first others =>
      rw [text_cons, List.append_assoc]
      exact opens_item first _

/-- A phrase with items behind it. -/
theorem Respaces.exists_items {category : Category} {first : Phrase category}
    {repetition : Repetition} {others : Phrase (.items repetition)} (firstIh : first.Respaces)
    (othersIh : others.Respaces)
    (spaced : ∀ chars, category.Stops chars ↔ StartsWithout isBlank chars)
    {tokens : List (List Char)} {rest other : List Char} (stops : StartsWithout isBlank rest)
    (aligned : Aligned (first.tokens ++ (others.tokens ++ tokens))
      (first.text ++ (others.text ++ rest)) other) (starts : StartsWithout isBlank other) :
    ∃ (foundFirst : Phrase category) (foundOthers : Phrase (.items repetition))
      (behind : List Char), ReadAlike first foundFirst ∧ ReadAlike others foundOthers ∧
        other = foundFirst.text ++ (foundOthers.text ++ behind) ∧ Aligned tokens rest behind ∧
          StartsWithout isBlank behind := by
  have next := others.startsWithout_blank_items stops
  obtain ⟨foundFirst, _, firstAlike, rfl, later, begins⟩ :=
    firstIh ((spaced _).mpr next) aligned starts
  obtain ⟨foundOthers, behind, othersAlike, rfl, found⟩ :=
    othersIh stops later ((spaced _).mp begins)
  exact ⟨foundFirst, foundOthers, behind, firstAlike, othersAlike, rfl, found⟩

/-- A mark with blanks, an expression and items behind it. -/
theorem Respaces.exists_contents {repetition : Repetition} {first : Phrase .expression}
    {others : Phrase (.items repetition)} (firstIh : first.Respaces) (othersIh : others.Respaces)
    {mark : Char} {inside : Blanks} {tokens : List (List Char)} {rest other : List Char}
    (aligned : Aligned ([mark] :: (first.tokens ++ (others.tokens ++ tokens)))
      (mark :: (inside.chars ++ (first.text ++ (others.text ++ rest)))) other)
    (starts : StartsWithout isBlank other) (stops : StartsWithout isBlank rest) :
    ∃ (foundInside : Blanks) (foundFirst : Phrase .expression)
      (foundOthers : Phrase (.items repetition)) (behind : List Char),
        ReadAlike first foundFirst ∧ ReadAlike others foundOthers ∧
          other = mark ::
            (foundInside.chars ++ (foundFirst.text ++ (foundOthers.text ++ behind))) ∧
          Aligned tokens rest behind ∧ StartsWithout isBlank behind := by
  obtain ⟨foundInside, _, rfl, later, begins⟩ := aligned.exists_behind_mark_blanks starts
    (first.opens_expression.append _).startsWithout_blank
  obtain ⟨foundFirst, foundOthers, behind, firstAlike, othersAlike, rfl, found⟩ :=
    firstIh.exists_items othersIh (fun _ => .rfl) stops later begins
  exact ⟨foundInside, foundFirst, foundOthers, behind, firstAlike, othersAlike, rfl, found⟩

/-- Blanks that are put in between the tokens of a phrase leave a phrase that is read
like it. -/
theorem respaces {category : Category} (phrase : Phrase category) : phrase.Respaces := by
  induction phrase with
  | expression first others firstIh othersIh =>
      intro tokens rest other stops aligned starts
      simp only [Phrase.tokens, text_expression, List.append_assoc] at aligned
      obtain ⟨foundFirst, foundOthers, behind, firstAlike, othersAlike, rfl, found⟩ :=
        firstIh.exists_items othersIh (fun _ => .rfl) stops aligned starts
      refine ⟨.expression foundFirst foundOthers, behind, ⟨?_, ?_, rfl, rfl⟩, by simp, found⟩
      · rw [trees, trees, firstAlike.trees, othersAlike.trees]
      · exact And.imp firstAlike.faultless othersAlike.faultless
  | operand prefixes apart primary mark ih =>
      intro tokens rest other stops aligned starts
      simp only [Phrase.tokens, text_operand, List.append_assoc] at aligned
      have marked : StartsWithout isBlank (markText mark ++ rest) := by
        cases mark with
        | none => exact stops
        | some behind => exact startsWithout_cons.mpr (by decide)
      obtain ⟨foundPrefixes, _, widened, rfl, later, starts⟩ :=
        aligned.exists_behind_prefixes starts (primary.opens_primary.append _)
      obtain ⟨foundPrimary, _, alike, rfl, later, starts⟩ := ih marked later starts
      obtain ⟨foundMark, behind, same, rfl, found⟩ := later.exists_behind_optional starts stops
      refine ⟨.operand foundPrefixes (widened.apart apart) foundPrimary foundMark, behind,
        ⟨?_, alike.faultless, rfl, rfl⟩, by simp [markText], found⟩
      rw [trees, trees, alike.trees, widened.containers, same]
  | bare atom behind ih =>
      intro tokens rest other stops aligned starts
      simp only [Phrase.tokens, text_bare, List.append_assoc] at aligned
      obtain ⟨foundAtom, _, alike, rfl, later, -⟩ := ih trivial aligned starts
      obtain ⟨wider, behind, -, rfl, found⟩ := later.exists_behind_blanks stops
      exact ⟨.bare foundAtom wider, behind, ⟨alike.trees, alike.faultless, rfl, rfl⟩, by simp,
        found⟩
  | subscripted atom before inside first others behind atomIh firstIh othersIh =>
      intro tokens rest other stops aligned starts
      simp only [Phrase.tokens, text_subscripted, List.cons_append, List.append_assoc,
        List.nil_append] at aligned
      obtain ⟨foundAtom, _, atomAlike, rfl, later, -⟩ := atomIh trivial aligned starts
      obtain ⟨foundBefore, _, -, rfl, later, starts⟩ :=
        later.exists_behind_blanks (startsWithout_cons.mpr (by decide))
      obtain ⟨foundInside, foundFirst, foundOthers, _, firstAlike, othersAlike, rfl, later,
        starts⟩ := firstIh.exists_contents othersIh later starts
          (startsWithout_cons.mpr (by decide))
      obtain ⟨foundBehind, behind, rfl, found⟩ := later.exists_behind_mark_blanks starts stops
      refine ⟨.subscripted foundAtom foundBefore foundInside foundFirst foundOthers foundBehind,
        behind, ⟨?_, ?_, rfl, rfl⟩, by simp, found⟩
      · rw [trees, trees, atomAlike.trees, firstAlike.trees, othersAlike.trees]
      · rintro ⟨isName, inner, left, right⟩
        exact ⟨atomAlike.isName ▸ isName, atomAlike.faultless inner, firstAlike.faultless left,
          othersAlike.faultless right⟩
  | token own =>
      intro tokens rest other _ aligned starts
      simp only [Phrase.tokens, text_token, List.cons_append, List.nil_append] at aligned
      obtain ⟨behind, rfl, found⟩ := aligned.exists_behind_token starts
      exact ⟨.token own, behind, ⟨rfl, id, rfl, rfl⟩, by simp, found, trivial⟩
  | parens inside first others closing firstIh othersIh =>
      intro tokens rest other _ aligned starts
      simp only [Phrase.tokens, text_parens, List.cons_append, List.append_assoc,
        List.nil_append] at aligned
      have comma : StartsWithout isBlank (closingComma closing ++ ')' :: rest) := by
        cases closing <;> exact startsWithout_cons.mpr (by decide)
      obtain ⟨foundInside, foundFirst, foundOthers, _, firstAlike, othersAlike, rfl, later,
        starts⟩ := firstIh.exists_contents othersIh aligned starts comma
      obtain ⟨foundClosing, _, same, rfl, later, starts⟩ :=
        later.exists_behind_optional starts (startsWithout_cons.mpr (by decide))
      obtain ⟨behind, rfl, found⟩ := later.exists_behind_mark starts
      refine ⟨.parens foundInside foundFirst foundOthers foundClosing, behind,
        ⟨?_, ?_, rfl, rfl⟩, by simp [closingComma], found, trivial⟩
      · rw [trees, trees, firstAlike.trees, othersAlike.trees, othersAlike.isNil,
          ← Option.not_isSome, ← Option.not_isSome, same]
      · exact And.imp firstAlike.faultless othersAlike.faultless
  | mapping inside key between value others keyIh valueIh othersIh =>
      intro tokens rest other _ aligned starts
      simp only [Phrase.tokens, text_mapping, List.cons_append, List.append_assoc,
        List.nil_append] at aligned
      obtain ⟨foundInside, _, rfl, later, starts⟩ := aligned.exists_behind_mark_blanks starts
        (key.opens_expression.append _).startsWithout_blank
      obtain ⟨foundKey, _, keyAlike, rfl, later, starts⟩ :=
        keyIh (startsWithout_cons.mpr (by decide)) later starts
      obtain ⟨foundBetween, foundValue, foundOthers, _, valueAlike, othersAlike, rfl, later,
        starts⟩ := valueIh.exists_contents othersIh later starts
          (startsWithout_cons.mpr (by decide))
      obtain ⟨behind, rfl, found⟩ := later.exists_behind_mark starts
      refine ⟨.mapping foundInside foundKey foundBetween foundValue foundOthers, behind,
        ⟨?_, ?_, rfl, rfl⟩, by simp, found, trivial⟩
      · rw [trees, trees, keyAlike.trees, valueAlike.trees, othersAlike.trees]
      · exact And.imp keyAlike.faultless (And.imp valueAlike.faultless othersAlike.faultless)
  | set inside first others firstIh othersIh =>
      intro tokens rest other _ aligned starts
      simp only [Phrase.tokens, text_set, List.cons_append, List.append_assoc,
        List.nil_append] at aligned
      obtain ⟨foundInside, foundFirst, foundOthers, _, firstAlike, othersAlike, rfl, later,
        starts⟩ := firstIh.exists_contents othersIh aligned starts
          (startsWithout_cons.mpr (by decide))
      obtain ⟨behind, rfl, found⟩ := later.exists_behind_mark starts
      refine ⟨.set foundInside foundFirst foundOthers, behind, ⟨?_, ?_, rfl, rfl⟩, by simp,
        found, trivial⟩
      · rw [trees, trees, firstAlike.trees, othersAlike.trees]
      · exact And.imp firstAlike.faultless othersAlike.faultless
  | brackets inside first others firstIh othersIh =>
      intro tokens rest other _ aligned starts
      simp only [Phrase.tokens, text_brackets, List.cons_append, List.append_assoc,
        List.nil_append] at aligned
      obtain ⟨foundInside, foundFirst, foundOthers, _, firstAlike, othersAlike, rfl, later,
        starts⟩ := firstIh.exists_contents othersIh aligned starts
          (startsWithout_cons.mpr (by decide))
      obtain ⟨behind, rfl, found⟩ := later.exists_behind_mark starts
      refine ⟨.brackets foundInside foundFirst foundOthers, behind, ⟨?_, ?_, rfl, rfl⟩, by simp,
        found, trivial⟩
      · rw [trees, trees, firstAlike.trees, othersAlike.trees]
      · exact And.imp firstAlike.faultless othersAlike.faultless
  | bar gap next ih =>
      intro tokens rest other stops aligned starts
      simp only [Phrase.tokens, text_bar, List.cons_append, List.append_assoc] at aligned
      obtain ⟨wider, _, rfl, later, starts⟩ := aligned.exists_behind_mark_blanks starts
        (next.opens_operand.append _).startsWithout_blank
      obtain ⟨foundNext, behind, alike, rfl, found⟩ := ih stops later starts
      exact ⟨.bar wider foundNext, behind, ⟨alike.trees, alike.faultless, rfl, rfl⟩, by simp,
        found⟩
  | comma gap next ih =>
      intro tokens rest other stops aligned starts
      simp only [Phrase.tokens, text_comma, List.cons_append, List.append_assoc] at aligned
      obtain ⟨wider, _, rfl, later, starts⟩ := aligned.exists_behind_mark_blanks starts
        (next.opens_expression.append _).startsWithout_blank
      obtain ⟨foundNext, behind, alike, rfl, found⟩ := ih stops later starts
      exact ⟨.comma wider foundNext, behind, ⟨alike.trees, alike.faultless, rfl, rfl⟩, by simp,
        found⟩
  | entry gap key between value keyIh valueIh =>
      intro tokens rest other stops aligned starts
      simp only [Phrase.tokens, text_entry, List.cons_append, List.append_assoc] at aligned
      obtain ⟨wider, _, rfl, later, starts⟩ := aligned.exists_behind_mark_blanks starts
        (key.opens_expression.append _).startsWithout_blank
      obtain ⟨foundKey, _, keyAlike, rfl, later, starts⟩ :=
        keyIh (startsWithout_cons.mpr (by decide)) later starts
      obtain ⟨foundBetween, _, rfl, later, starts⟩ := later.exists_behind_mark_blanks starts
        (value.opens_expression.append _).startsWithout_blank
      obtain ⟨foundValue, behind, valueAlike, rfl, found⟩ := valueIh stops later starts
      refine ⟨.entry wider foundKey foundBetween foundValue, behind, ⟨?_, ?_, rfl, rfl⟩, by simp,
        found⟩
      · rw [trees, trees, keyAlike.trees, valueAlike.trees]
      · exact And.imp keyAlike.faultless valueAlike.faultless
  | nil =>
      intro tokens rest other _ aligned starts
      exact ⟨.nil, other, ⟨rfl, id, rfl, rfl⟩, rfl, aligned, starts⟩
  | cons first others firstIh othersIh =>
      intro tokens rest other stops aligned starts
      simp only [Phrase.tokens, text_cons, List.append_assoc] at aligned
      obtain ⟨foundFirst, foundOthers, behind, firstAlike, othersAlike, rfl, found⟩ :=
        firstIh.exists_items othersIh (fun _ => .rfl) stops aligned starts
      refine ⟨.cons foundFirst foundOthers, behind, ⟨?_, ?_, rfl, rfl⟩, by simp, found⟩
      · rw [trees, trees, firstAlike.trees, othersAlike.trees]
      · exact And.imp firstAlike.faultless othersAlike.faultless

end Phrase

/-! ## The tokens of a text -/

section

variable {tokens : List (List Char)} {rest other : List Char}

/-- Blanks in front of both texts. -/
theorem Respaced.blanks (respaced : Respaced tokens rest other) (gap : Blanks) :
    Respaced tokens (gap.chars ++ rest) (gap.chars ++ other) := by
  have more : ∀ {inner wider}, Widened inner wider →
      Widened (gap.chars ++ inner) (gap.chars ++ wider) := fun widened =>
    ⟨widened.keeps.append_left _, List.forall_mem_append.mpr ⟨gap.blank, widened.blank⟩⟩
  cases respaced with
  | ends widened => exact .ends (more widened)
  | token widened behind =>
      rw [← List.append_assoc, ← List.append_assoc gap.chars]
      exact .token (more widened) behind

/-- A token in front of both texts. -/
theorem Respaced.cons (respaced : Respaced tokens rest other) (token : List Char) :
    Respaced (token :: tokens) (token ++ rest) (token ++ other) :=
  .token (.refl (List.forall_mem_nil _)) respaced

/-- A mark that may stand in front of both texts, with blanks behind it. -/
theorem Respaced.optional (respaced : Respaced tokens rest other) (mark : Char)
    (present : Option Blanks) :
    Respaced (markTokens mark present.isSome ++ tokens)
      ((present.map fun behind => mark :: behind.chars).getD [] ++ rest)
      ((present.map fun behind => mark :: behind.chars).getD [] ++ other) := by
  cases present with
  | none => exact respaced
  | some gap => exact (respaced.blanks gap).cons [mark]

/-- Keywords in front of both texts. -/
theorem Respaced.prefixes (respaced : Respaced tokens rest other) (prefixes : Prefixes) :
    Respaced (prefixes.tokens ++ tokens) (prefixes.text ++ rest) (prefixes.text ++ other) := by
  induction prefixes with
  | nil => exact respaced
  | cons first others ih =>
      obtain ⟨keyword, gap⟩ := first
      have later := ih.blanks gap
      simp only [Prefixes.tokens, Prefixes.text, List.flatMap_cons, List.append_assoc] at later ⊢
      cases keyword with
      | await | iter | «with» => exact later.cons _
      | asyncIter between | asyncWith between =>
          simp only [Keyword.text_asyncIter, Keyword.text_asyncWith, List.append_assoc]
          exact ((later.cons _).blanks between).cons _

/-- A phrase is its tokens with blanks between them. -/
theorem Phrase.respaced {category : Category} (phrase : Phrase category) :
    ∀ {tokens : List (List Char)} {rest other : List Char}, Respaced tokens rest other →
      Respaced (phrase.tokens ++ tokens) (phrase.text ++ rest) (phrase.text ++ other) := by
  induction phrase with
  | expression first others firstIh othersIh =>
      intro tokens rest other behind
      simpa [Phrase.tokens] using firstIh (othersIh behind)
  | operand prefixes apart primary mark ih =>
      intro tokens rest other behind
      simpa [Phrase.tokens, markText] using (ih (behind.optional '?' mark)).prefixes prefixes
  | bare atom gap ih =>
      intro tokens rest other behind
      simpa [Phrase.tokens] using ih (behind.blanks gap)
  | subscripted atom before inside first others gap atomIh firstIh othersIh =>
      intro tokens rest other behind
      have arguments := firstIh (othersIh ((behind.blanks gap).cons [']']))
      simpa [Phrase.tokens] using atomIh (((arguments.blanks inside).cons ['[']).blanks before)
  | token own =>
      intro tokens rest other behind
      simpa [Phrase.tokens] using behind.cons own.text
  | parens inside first others closing firstIh othersIh =>
      intro tokens rest other behind
      have contents := firstIh (othersIh ((behind.cons [')']).optional ',' closing))
      simpa [Phrase.tokens, closingComma] using (contents.blanks inside).cons ['(']
  | mapping inside key between value others keyIh valueIh othersIh =>
      intro tokens rest other behind
      have values := valueIh (othersIh (behind.cons ['\x7d']))
      have contents := keyIh ((values.blanks between).cons [':'])
      simpa [Phrase.tokens] using (contents.blanks inside).cons ['\x7b']
  | set inside first others firstIh othersIh =>
      intro tokens rest other behind
      have contents := firstIh (othersIh (behind.cons ['\x7d']))
      simpa [Phrase.tokens] using (contents.blanks inside).cons ['\x7b']
  | brackets inside first others firstIh othersIh =>
      intro tokens rest other behind
      have contents := firstIh (othersIh (behind.cons [']']))
      simpa [Phrase.tokens] using (contents.blanks inside).cons ['[']
  | bar gap next ih =>
      intro tokens rest other behind
      simpa [Phrase.tokens] using ((ih behind).blanks gap).cons ['|']
  | comma gap next ih =>
      intro tokens rest other behind
      simpa [Phrase.tokens] using ((ih behind).blanks gap).cons [',']
  | entry gap key between value keyIh valueIh =>
      intro tokens rest other behind
      have keys := keyIh (((valueIh behind).blanks between).cons [':'])
      simpa [Phrase.tokens] using (keys.blanks gap).cons [',']
  | nil => exact fun behind => behind
  | cons first others firstIh othersIh =>
      intro tokens rest other behind
      simpa [Phrase.tokens] using firstIh (othersIh behind)

end

/-! ## Whole texts -/

/-- A text that is a phrase behind blanks is read as the tree of the phrase with more
blanks between its tokens. -/
theorem readsAsExpression_of_respaced {text : String} {before : Blanks}
    {phrase : Phrase .expression} {tree : TypeExpr} (faultless : phrase.Faultless)
    (trees : phrase.trees = [tree])
    (respaced : Respaced phrase.tokens (before.chars ++ phrase.text) text.toList) :
    ReadsAsExpression text tree := by
  have aligned : Aligned (phrase.tokens ++ []) (before.chars ++ (phrase.text ++ []))
      text.toList := by
    rw [List.append_nil, List.append_nil]
    exact ⟨respaced, phrase.solidStart_of_mem_tokens⟩
  have opens : StartsWithout isBlank (phrase.text ++ []) :=
    (phrase.opens_expression.append []).startsWithout_blank
  obtain ⟨first, _, -, split, later, starts⟩ := aligned.exists_behind_blanks opens
  obtain ⟨found, behind, alike, rfl, ends, stops⟩ :=
    phrase.respaces (startsWithout_nil _) later starts
  -- The blanks at the end belong to the phrase, so nothing is behind it.
  have nothing : behind = [] := by
    obtain ⟨⟨widened⟩, -⟩ := ends
    exact eq_nil_of_startsWithout widened.blank (by rwa [List.append_nil])
  rw [nothing, List.append_nil] at split
  exact ⟨first, _, ⟨found, rfl, alike.faultless faultless, alike.trees.trans trees⟩, split⟩

/-- A text that is read as a tree is its tokens with blanks between them.  With blanks put
in between the tokens and at both ends it is read as the same tree, at every limit that is
no smaller than it. -/
theorem parseWithin_respaced {limit : Nat} {source : String} {tree : TypeExpr}
    (parsed : parseWithin limit source = .ok tree) :
    ∃ found, grammar.match? .main source.toList = some found ∧
      Respaced (tokenTexts found.nodes) source.toList source.toList ∧
        ∀ respaced : String, Respaced (tokenTexts found.nodes) source.toList respaced.toList →
          ∀ enough, respaced.utf8ByteSize ≤ enough → parseWithin enough respaced = .ok tree := by
  obtain ⟨-, before, phrase, whole, faultless, trees⟩ := parseChars_eq_ok_iff.mp parsed
  refine ⟨_, match?_main_eq_some_iff.mpr ⟨before, phrase, whole, rfl⟩, ?_⟩
  rw [tokenTexts_mainNode, whole]
  constructor
  · have spaced := phrase.respaced (.ends (.refl (List.forall_mem_nil _)))
    simp only [List.append_nil] at spaced
    exact spaced.blanks before
  · intro respaced wider enough fits
    exact (readsAsExpression_of_respaced faultless trees wider).parseWithin fits

/-- Blanks are put in at both ends, between words and around marks, but a string keeps the
one that it has. -/
theorem parseWithin_respaced_of_keywords :
    parseWithin 1 "async iter a?|' '" =
        .ok (.union [.optional (.container .asyncIterable [.name "a"]), .literal [.str "' '"]]) ∧
      parseWithin 23 "\nasync \titer a ?| ' '\r " =
        .ok (.union [.optional (.container .asyncIterable [.name "a"]),
          .literal [.str "' '"]]) := by
  have parsed : parseWithin 1 "async iter a?|' '" =
      .ok (.union [.optional (.container .asyncIterable [.name "a"]), .literal [.str "' '"]]) := by
    decide +kernel
  obtain ⟨found, matched, -, respaces⟩ := parseWithin_respaced parsed
  have tokens : (grammar.match? .main "async iter a?|' '".toList).map
      (fun found => tokenTexts found.nodes) =
        some (["async", "iter", "a", "?", "|", "' '"].map String.toList) := by
    decide +kernel
  rw [matched, Option.map_some, Option.some.injEq] at tokens
  refine ⟨parsed, respaces _ ?_ 23 (by decide)⟩
  rw [tokens]
  exact @Respaced.token [] ['\n'] _ _ _ _ ⟨by decide, List.all_eq_true.mp rfl⟩ <|
    @Respaced.token [' '] [' ', '\t'] _ _ _ _ ⟨by decide, List.all_eq_true.mp rfl⟩ <|
    @Respaced.token [' '] [' '] _ _ _ _ ⟨by decide, List.all_eq_true.mp rfl⟩ <|
    @Respaced.token [] [' '] _ _ _ _ ⟨by decide, List.all_eq_true.mp rfl⟩ <|
    @Respaced.token [] [] _ _ _ _ ⟨by decide, List.all_eq_true.mp rfl⟩ <|
    @Respaced.token [] [' '] _ _ _ _ ⟨by decide, List.all_eq_true.mp rfl⟩ <|
    @Respaced.ends [] ['\r', ' '] ⟨by decide, List.all_eq_true.mp rfl⟩

end TypeSpelling.Source
