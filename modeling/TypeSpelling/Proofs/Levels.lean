import TypeSpelling.Proofs.Accepting
import TypeSpelling.Proofs.Scanning

/-!
# The levels of phrases

The count of the nesting goes by pieces, the grammar by phrases.  A phrase has a
level for each bracket and for each keyword around its deepest part, and the
count finds as many: it leaves a bracket at the depth at which it entered it,
and it resets the depth where the grammar ends an operand and nowhere else.
-/

namespace TypeSpelling.Source

open TypeSpelling.Peg
open TypeSpelling.Text

/-! ## Levels -/

/-- The levels that keywords open, where an ellipsis follows or does not.  A
keyword that touches an ellipsis opens none. -/
def Prefixes.levels (ellipsis : Bool) : Prefixes → Nat
  | [] => 0
  | [(_, behind)] => if ellipsis && behind.chars.isEmpty then 0 else 1
  | _ :: second :: others => levels ellipsis (second :: others) + 1

namespace Phrase

/-- Whether a phrase is an ellipsis, perhaps with a subscript. -/
def beginsEllipsis : {category : Category} → Phrase category → Bool
  | _, .token own => own.rule = .ellipsis
  | _, .bare atom _ => atom.beginsEllipsis
  | _, .subscripted atom _ _ _ _ _ => atom.beginsEllipsis
  | _, _ => false

/-- The brackets and keywords around the deepest part of a phrase. -/
def levels : {category : Category} → Phrase category → Nat
  | _, .expression first others => max first.levels others.levels
  | _, .operand prefixes _ primary _ => prefixes.levels primary.beginsEllipsis + primary.levels
  | _, .bare atom _ => atom.levels
  | _, .subscripted atom _ _ first others _ =>
      max atom.levels (max first.levels others.levels + 1)
  | _, .token _ => 0
  | _, .parens _ first others _ => max first.levels others.levels + 1
  | _, .mapping _ key _ value others => max key.levels (max value.levels others.levels) + 1
  | _, .set _ first others => max first.levels others.levels + 1
  | _, .brackets _ first others => max first.levels others.levels + 1
  | _, .bar _ next => next.levels
  | _, .comma _ next => next.levels
  | _, .entry _ key _ value => max key.levels value.levels
  | _, .nil => 0
  | _, .cons first others => max first.levels others.levels

end Phrase

/-! ## What may stand behind a word -/

theorem Blanks.stops_append (blanks : Blanks) {rest : List Char}
    (stops : StartsWithout isNameChar rest) : StartsWithout isNameChar (blanks.chars ++ rest) := by
  by_cases nothing : blanks.chars = []
  · rwa [nothing]
  · exact Blanks.startsWithout_isNameChar nothing rest

namespace Phrase

theorem stops_markText (mark : Option Blanks) {rest : List Char}
    (stops : StartsWithout isNameChar rest) : StartsWithout isNameChar (markText mark ++ rest) := by
  cases mark with
  | none => exact stops
  | some behind => exact startsWithout_cons.mpr (by decide)

theorem stops_closingComma (closing : Option Blanks) {rest : List Char}
    (stops : StartsWithout isNameChar rest) :
    StartsWithout isNameChar (closingComma closing ++ rest) := by
  cases closing with
  | none => exact stops
  | some behind => exact startsWithout_cons.mpr (by decide)

/-- Items begin with their separators. -/
theorem stops_items {repetition : Repetition} (items : Phrase (.items repetition))
    {rest : List Char} (stops : StartsWithout isNameChar rest) :
    StartsWithout isNameChar (items.text ++ rest) := by
  cases items with
  | nil => exact stops
  | cons first others =>
      rw [text_cons]
      cases first <;> exact startsWithout_cons.mpr (by decide)

/-- An atom that begins with no word begins with a dot only if it is an ellipsis. -/
theorem stops_atom {word : Bool} (atom : Phrase (.atom word)) (notWord : word = false)
    (other : atom.beginsEllipsis = false) (rest : List Char) :
    StartsWithout isNameChar (atom.text ++ rest) := by
  cases atom with
  | token own =>
      obtain ⟨c, tail, whole⟩ := List.exists_cons_of_ne_nil own.shape.ne_nil
      have noWord : isWordChar c = false := by simpa [whole, beginsWord] using notWord
      have noDot : c ≠ '.' := by
        rintro rfl
        have leads := leadingRule?_token own (startsWithout_nil carriesOn)
        rw [whole] at leads
        exact of_decide_eq_false other (Option.some.inj leads).symm
      rw [text_token, whole, List.cons_append, startsWithout_cons]
      simp [isNameChar, noWord, noDot]
  | _ => exact startsWithout_cons.mpr (by decide)

theorem stops_primary {word : Bool} (primary : Phrase (.primary word)) (notWord : word = false)
    (other : primary.beginsEllipsis = false) (rest : List Char) :
    StartsWithout isNameChar (primary.text ++ rest) := by
  cases primary with
  | bare atom behind =>
      rw [text_bare, List.append_assoc]
      exact atom.stops_atom notWord other _
  | subscripted atom before inside first others behind =>
      rw [text_subscripted, List.append_assoc]
      exact atom.stops_atom notWord other _

theorem text_of_beginsEllipsis {word : Bool} (atom : Phrase (.atom word))
    (ellipsis : atom.beginsEllipsis = true) : atom.text = "...".toList := by
  cases atom with
  | token own =>
      obtain ⟨rule, text, shape⟩ := own
      cases of_decide_eq_true ellipsis
      cases shape
      exact text_token _
  | _ => cases ellipsis

/-- An ellipsis is three dots, and nothing that carries on a word stands behind. -/
theorem exists_append_of_beginsEllipsis {word : Bool} (primary : Phrase (.primary word))
    (ellipsis : primary.beginsEllipsis = true) :
    ∃ behind, primary.text = "...".toList ++ behind ∧
      ∀ {rest}, StartsWithout isNameChar rest → StartsWithout isNameChar (behind ++ rest) := by
  cases primary with
  | bare atom behind =>
      refine ⟨behind.chars, ?_, fun stops => behind.stops_append stops⟩
      rw [text_bare, atom.text_of_beginsEllipsis ellipsis]
  | subscripted atom before inside first others behind =>
      rw [text_subscripted, atom.text_of_beginsEllipsis ellipsis]
      refine ⟨_, rfl, fun {rest} _ => ?_⟩
      rw [List.append_assoc]
      exact before.stops_append (startsWithout_cons.mpr (by decide))

end Phrase

/-! ## Counting -/

namespace Nesting

/-- The nesting some levels further in. -/
def deeper (nesting : Nesting) (levels : Nat) : Nesting :=
  ⟨nesting.outer, nesting.depth + levels⟩

/-- A text leaves the brackets that are open and reaches a certain depth.  Where it
ends, the depth is between that of the innermost bracket and the one reached. -/
def Raises (nesting : Nesting) (text : List Char) (top : Nat) : Prop :=
  ∃ depth, nesting.base ≤ depth ∧ depth ≤ top ∧
    ∀ rest, StartsWithout isNameChar rest →
      nesting.reach (text ++ rest) = max top ((⟨nesting.outer, depth⟩ : Nesting).reach rest)

variable {nesting : Nesting} {text more : List Char} {top : Nat}

theorem raises_nil (settled : nesting.base ≤ nesting.depth) : nesting.Raises [] nesting.depth := by
  refine ⟨nesting.depth, settled, Nat.le_refl _, fun rest _ => ?_⟩
  exact (Nat.max_eq_right (nesting.depth_le_reach rest)).symm

theorem Raises.append {whole : Nat} (raises : nesting.Raises text top)
    (stops : ∀ {rest}, StartsWithout isNameChar rest → StartsWithout isNameChar (more ++ rest))
    (next : ∀ depth, nesting.base ≤ depth → depth ≤ top → ∃ moreTop,
      (⟨nesting.outer, depth⟩ : Nesting).Raises more moreTop ∧ max top moreTop = whole) :
    nesting.Raises (text ++ more) whole := by
  obtain ⟨depth, settled, atMost, reaches⟩ := raises
  obtain ⟨moreTop, ⟨last, lastSettled, lastAtMost, moreReaches⟩, rfl⟩ := next depth settled atMost
  refine ⟨last, lastSettled, Nat.le_trans lastAtMost (Nat.le_max_right _ _), ?_⟩
  intro rest restStops
  rw [List.append_assoc, reaches _ (stops restStops), moreReaches rest restStops, Nat.max_assoc]

theorem Raises.behind_blanks (raises : nesting.Raises text top) (blanks : Blanks) :
    nesting.Raises (blanks.chars ++ text) top := by
  obtain ⟨depth, settled, atMost, reaches⟩ := raises
  refine ⟨depth, settled, atMost, fun rest stops => ?_⟩
  rw [List.append_assoc, reach_blanks, reaches rest stops]

/-- A separator goes back to the depth of the innermost bracket. -/
theorem raises_separated (separator : Char) (isSeparator : separator ∈ ['|', ',', ':'])
    (blanks : Blanks)
    (raises : (⟨nesting.outer, nesting.base⟩ : Nesting).Raises text top) :
    nesting.Raises (separator :: (blanks.chars ++ text)) (max nesting.depth top) := by
  obtain ⟨depth, depthSettled, atMost, reaches⟩ := raises.behind_blanks blanks
  refine ⟨depth, depthSettled, Nat.le_trans atMost (Nat.le_max_right _ _), fun rest stops => ?_⟩
  rw [List.cons_append, reach_separator _ isSeparator, Nat.max_assoc]
  exact congrArg (max nesting.depth) (reaches rest stops)

/-- A bracket is left at the depth at which it was entered. -/
theorem reach_bracketed (opening closing : Char) (opens : opening ∈ ['(', '[', '\x7b'])
    (closes : closing ∈ [')', ']', '\x7d']) {levels : Nat}
    (raises : (nesting.after .opening).Raises text (nesting.depth + 1 + levels))
    (rest : List Char) :
    nesting.reach (opening :: (text ++ closing :: rest)) =
      max (nesting.depth + (levels + 1)) (nesting.reach rest) := by
  obtain ⟨depth, -, atMost, reaches⟩ := raises
  have stops : StartsWithout isNameChar (closing :: rest) := by
    have nowhere : [')', ']', '\x7d'].any isNameChar = false := by decide
    exact startsWithout_cons.mpr (Bool.eq_false_iff.mpr (List.any_eq_false.mp nowhere _ closes))
  rw [reach_opening _ opens, reaches _ stops, reach_closing _ closes]
  change max _ (max depth (nesting.reach rest)) = _
  omega

theorem reach_markText (nesting : Nesting) (mark : Option Blanks) (rest : List Char) :
    nesting.reach (Phrase.markText mark ++ rest) = nesting.reach rest := by
  cases mark with
  | none => rfl
  | some behind =>
      have question : nesting.reach (['?'] ++ (behind.chars ++ rest)) = _ :=
        nesting.reach_inert (List.forall_mem_singleton.mpr (by decide)) _
      exact question.trans (nesting.reach_blanks behind rest)

/-- Keywords open the levels that they have, unless one touches an ellipsis. -/
theorem reach_prefixes {word : Bool} (prefixes : Prefixes) (apart : prefixes.Apart word)
    (primary : Phrase (.primary word)) {rest : List Char} (stops : StartsWithout isNameChar rest) :
    ∀ nesting : Nesting, nesting.reach (prefixes.text ++ (primary.text ++ rest)) =
      (nesting.deeper (prefixes.levels primary.beginsEllipsis)).reach (primary.text ++ rest) := by
  induction prefixes with
  | nil => exact fun nesting => rfl
  | cons first others ih =>
      obtain ⟨keyword, behind⟩ := first
      intro nesting
      rw [Prefixes.text, List.flatMap_cons, List.append_assoc, List.append_assoc]
      cases others with
      | nil =>
          rw [List.flatMap_nil, List.nil_append, Prefixes.levels]
          split
          · rename_i touching
            rw [Bool.and_eq_true, List.isEmpty_iff] at touching
            obtain ⟨tail, whole, tailStops⟩ :=
              primary.exists_append_of_beginsEllipsis touching.1
            rw [touching.2, List.nil_append, whole, List.append_assoc,
              nesting.reach_keyword_ellipsis keyword (tailStops stops)]
            exact (nesting.reach_token .ellipsis (tailStops stops)).symm
          · rename_i apartFrom
            have keywordStops :
                StartsWithout isNameChar (behind.chars ++ (primary.text ++ rest)) := by
              by_cases nothing : behind.chars = []
              · rw [nothing, List.nil_append]
                have notWord : word = false :=
                  Bool.eq_false_iff.mpr fun begins => apart begins nothing
                exact primary.stops_primary notWord (by simpa [nothing] using apartFrom) rest
              · exact Blanks.startsWithout_isNameChar nothing _
            rw [nesting.reach_keyword keyword keywordStops, reach_blanks]
            rfl
      | cons second others =>
          obtain ⟨nonempty, othersApart⟩ := apart
          have further : (nesting.after .keyword).deeper
              (Prefixes.levels primary.beginsEllipsis (second :: others)) =
                nesting.deeper (Prefixes.levels primary.beginsEllipsis
                  ((keyword, behind) :: second :: others)) := by
            simp only [deeper, after, Prefixes.levels, Nesting.mk.injEq, true_and]
            omega
          rw [nesting.reach_keyword keyword (Blanks.startsWithout_isNameChar nonempty _),
            reach_blanks, ← further]
          exact ih othersApart (nesting.after .keyword)

end Nesting

/-! ## Phrases -/

open Nesting

/-- What the count finds in a text of a category that has a number of levels.
Atoms and primaries leave the depth as it is.  An expression stands where a
bracket has been opened or a separator has gone back to it. -/
def Category.Counts : Category → Nat → List Char → Prop
  | .atom _, levels, text | .primary _, levels, text => ∀ (nesting : Nesting) {rest},
      StartsWithout isNameChar rest →
        nesting.reach (text ++ rest) = max (nesting.depth + levels) (nesting.reach rest)
  | .operand, levels, text => ∀ nesting : Nesting, nesting.base ≤ nesting.depth →
      nesting.Raises text (nesting.depth + levels)
  | .expression, levels, text => ∀ nesting : Nesting, nesting.depth = nesting.base →
      nesting.Raises text (nesting.depth + levels)
  | .item _, levels, text | .items _, levels, text => ∀ nesting : Nesting,
      nesting.base ≤ nesting.depth →
        nesting.Raises text (max nesting.depth (nesting.base + levels))

namespace Nesting

variable {nesting : Nesting} {text : List Char} {levels : Nat}

/-- Items begin again at the depth of the innermost bracket. -/
theorem Raises.before_items (raises : nesting.Raises text (nesting.depth + levels))
    (between : nesting.depth = nesting.base) {repetition : Repetition} {items : List Char}
    {itemLevels : Nat}
    (stops : ∀ {rest}, StartsWithout isNameChar rest → StartsWithout isNameChar (items ++ rest))
    (counts : (Category.items repetition).Counts itemLevels items) :
    nesting.Raises (text ++ items) (nesting.depth + max levels itemLevels) := by
  refine raises.append stops
    fun depth settled atMost => ⟨_, counts ⟨nesting.outer, depth⟩ settled, ?_⟩
  change max _ (max depth (nesting.base + itemLevels)) = _
  omega

theorem Raises.before_closingComma {top : Nat} (raises : nesting.Raises text top)
    (closing : Option Blanks) : nesting.Raises (text ++ Phrase.closingComma closing) top := by
  cases closing with
  | none =>
      rw [Phrase.closingComma, Option.map_none, Option.getD_none, List.append_nil]
      exact raises
  | some behind =>
      refine raises.append (Phrase.stops_closingComma (some behind)) fun depth settled atMost =>
        ⟨_, ?_, Nat.max_eq_left (Nat.max_le.mpr ⟨atMost, Nat.le_trans settled atMost⟩)⟩
      have comma : (⟨nesting.outer, depth⟩ : Nesting).Raises (',' :: (behind.chars ++ []))
          (max depth nesting.base) :=
        raises_separated ',' (by decide) behind (raises_nil (Nat.le_refl _))
      rwa [List.append_nil] at comma

/-- A key and a value reach as deep as the deeper of them. -/
theorem raises_pair (nesting : Nesting) (between : nesting.depth = nesting.base) (blanks : Blanks)
    {key value : List Char} {keyLevels valueLevels : Nat}
    (keyCounts : Category.expression.Counts keyLevels key)
    (valueCounts : Category.expression.Counts valueLevels value) :
    nesting.Raises (key ++ ':' :: (blanks.chars ++ value))
      (nesting.depth + max keyLevels valueLevels) := by
  refine (keyCounts nesting between).append (fun {_} _ => startsWithout_cons.mpr (by decide))
    fun depth settled atMost => ⟨_, raises_separated ':' (by decide) blanks
      (valueCounts ⟨nesting.outer, nesting.base⟩ rfl), ?_⟩
  change max _ (max depth (nesting.base + valueLevels)) = _
  omega

end Nesting

/-- The count finds the levels of every phrase. -/
theorem counts {category : Category} (phrase : Phrase category) :
    category.Counts phrase.levels phrase.text := by
  induction phrase with
  | expression first others firstIh othersIh =>
      intro nesting between
      rw [Phrase.text_expression, Phrase.levels]
      refine (firstIh nesting (Nat.le_of_eq between.symm)).append others.stops_items
        fun depth settled atMost => ⟨_, othersIh ⟨nesting.outer, depth⟩ settled, ?_⟩
      change max _ (max depth (nesting.base + others.levels)) = _
      omega
  | operand prefixes apart primary mark ih =>
      intro nesting settled
      refine ⟨nesting.depth + prefixes.levels primary.beginsEllipsis, by omega, ?_,
        fun rest stops => ?_⟩
      · rw [Phrase.levels]
        omega
      · have markStops := Phrase.stops_markText mark stops
        rw [Phrase.text_operand, List.append_assoc, List.append_assoc,
          reach_prefixes prefixes apart primary markStops, ih _ markStops, reach_markText,
          Phrase.levels, ← Nat.add_assoc]
        rfl
  | bare atom behind ih =>
      intro nesting rest stops
      rw [Phrase.text_bare, List.append_assoc, ih nesting (behind.stops_append stops),
        reach_blanks]
      rfl
  | subscripted atom before inside first others behind atomIh firstIh othersIh =>
      intro nesting rest stops
      have inner := ((firstIh (nesting.after .opening) rfl).before_items rfl
        others.stops_items othersIh).behind_blanks inside
      have bracketed :=
        reach_bracketed '[' ']' (by decide) (by decide) inner (behind.chars ++ rest)
      have bracketStops : ∀ tail, StartsWithout isNameChar ('[' :: tail) :=
        fun tail => startsWithout_cons.mpr (by decide)
      simp only [Phrase.text_subscripted, List.append_assoc, List.cons_append] at bracketed ⊢
      rw [atomIh nesting (before.stops_append (bracketStops _)), reach_blanks, bracketed,
        reach_blanks, Phrase.levels]
      omega
  | token own =>
      intro nesting rest stops
      rw [Phrase.text_token, nesting.reach_token own.shape stops]
      exact (Nat.max_eq_right (nesting.depth_le_reach rest)).symm
  | parens inside first others closing firstIh othersIh =>
      intro nesting rest stops
      have inner := (((firstIh (nesting.after .opening) rfl).before_items rfl
        others.stops_items othersIh).behind_blanks inside).before_closingComma closing
      have bracketed := reach_bracketed '(' ')' (by decide) (by decide) inner rest
      simpa only [Phrase.levels, Phrase.text_parens, List.append_assoc, List.cons_append,
        List.nil_append] using bracketed
  | mapping inside key between value others keyIh valueIh othersIh =>
      intro nesting rest stops
      have pair := raises_pair (nesting.after .opening) rfl between keyIh valueIh
      have inner := (pair.before_items rfl others.stops_items othersIh).behind_blanks inside
      have bracketed := reach_bracketed '\x7b' '\x7d' (by decide) (by decide) inner rest
      simpa only [Phrase.levels, Phrase.text_mapping, Nat.max_assoc, List.append_assoc,
        List.cons_append, List.nil_append] using bracketed
  | set inside first others firstIh othersIh =>
      intro nesting rest stops
      have inner := ((firstIh (nesting.after .opening) rfl).before_items rfl
        others.stops_items othersIh).behind_blanks inside
      have bracketed := reach_bracketed '\x7b' '\x7d' (by decide) (by decide) inner rest
      simpa only [Phrase.levels, Phrase.text_set, List.append_assoc, List.cons_append,
        List.nil_append] using bracketed
  | brackets inside first others firstIh othersIh =>
      intro nesting rest stops
      have inner := ((firstIh (nesting.after .opening) rfl).before_items rfl
        others.stops_items othersIh).behind_blanks inside
      have bracketed := reach_bracketed '[' ']' (by decide) (by decide) inner rest
      simpa only [Phrase.levels, Phrase.text_brackets, List.append_assoc, List.cons_append,
        List.nil_append] using bracketed
  | bar behind next ih =>
      intro nesting settled
      rw [Phrase.text_bar]
      exact raises_separated '|' (by decide) behind
        (ih ⟨nesting.outer, nesting.base⟩ (Nat.le_refl _))
  | comma behind next ih =>
      intro nesting settled
      rw [Phrase.text_comma]
      exact raises_separated ',' (by decide) behind (ih ⟨nesting.outer, nesting.base⟩ rfl)
  | entry behind key between value keyIh valueIh =>
      intro nesting settled
      rw [Phrase.text_entry]
      exact raises_separated ',' (by decide) behind
        (raises_pair ⟨nesting.outer, nesting.base⟩ rfl between keyIh valueIh)
  | nil =>
      intro nesting settled
      rw [Phrase.levels, Nat.add_zero, Nat.max_eq_left settled]
      exact raises_nil settled
  | cons first others firstIh othersIh =>
      intro nesting settled
      rw [Phrase.text_cons, Phrase.levels]
      refine (firstIh nesting settled).append others.stops_items
        fun depth settled atMost => ⟨_, othersIh ⟨nesting.outer, depth⟩ settled, ?_⟩
      change max _ (max depth (nesting.base + others.levels)) = _
      omega

theorem nestingOf_eq_of_counts {levels : Nat} {text : List Char}
    (counts : Category.expression.Counts levels text) : nestingOf text = levels := by
  obtain ⟨depth, -, atMost, reaches⟩ := counts Nesting.start rfl
  have whole := reaches [] (startsWithout_nil isNameChar)
  rw [List.append_nil, reach_nil, Nat.max_eq_left atMost] at whole
  rw [nestingOf, whole]
  exact Nat.zero_add _

/-- A text that the grammar accepts nests as deep as its phrase has levels. -/
theorem nestingOf_text (before : Blanks) (phrase : Phrase .expression) :
    nestingOf (before.chars ++ phrase.text) = phrase.levels :=
  nestingOf_eq_of_counts fun nesting between =>
    (counts phrase nesting between).behind_blanks before

/-- The limit refuses exactly the texts whose phrases have more levels. -/
theorem depthError?_eq_none_iff_levels {limit : Nat} (before : Blanks)
    (phrase : Phrase .expression) :
    depthError? limit (before.chars ++ phrase.text) = none ↔ phrase.levels ≤ limit := by
  rw [depthError?_eq_none_iff, nestingOf_text]

end TypeSpelling.Source
