import TypeSpelling.Proofs.Accepting
import TypeSpelling.Source.Parse

/-!
# Parsing

A text is read as a tree exactly if it is a phrase with blanks in front of it
whose nesting the limit allows and which has no fault, and a limit that is no
smaller than the text allows every nesting.
-/

namespace TypeSpelling.Source

open TypeSpelling.Peg
open TypeSpelling.Text

/-! ## Whole texts -/

/-- The node of a whole text that is a phrase behind blanks. -/
def mainNode (before : Blanks) (phrase : Phrase .expression) : Node Rule :=
  ⟨.main, 0, before.chars ++ phrase.text, phrase.nodes (utf8Length before.chars) ++
    [⟨.endOfInput, utf8Length (before.chars ++ phrase.text), [], []⟩]⟩

/-- The grammar matches the texts that are phrases behind blanks. -/
theorem match?_main_eq_some_iff {input : List Char} {found : Match Rule} :
    grammar.match? .main input = some found ↔
      ∃ (before : Blanks) (phrase : Phrase .expression), input = before.chars ++ phrase.text ∧
        found = ⟨input, [], [mainNode before phrase]⟩ := by
  have ends : ∀ {position} {rest : List Char} {found : Match Rule},
      (Expr.spaced [.call Rule.endOfInput]).match? isBlank (grammar.call? false) position rest =
        some found ↔ rest = [] ∧ found = ⟨[], [], [⟨.endOfInput, position, [], []⟩]⟩ := by
    intro position rest found
    change grammar.call? false .endOfInput position rest = some found ↔ _
    rw [call?_node_eq_some_iff rfl]
    cases rest with
    | nil => simp [Rule.body, Expr.match?, Match.empty]
    | cons c rest => simp [Rule.body, Expr.match?]
  rw [Grammar.match?_eq_call?, call?_node_eq_some_iff rfl]
  constructor
  · rintro ⟨inner, matched, rfl⟩
    obtain ⟨_, right, skips, spaced, rfl⟩ := match?_seq_eq_some_iff.mp matched
    obtain ⟨before, rest, stops, rfl⟩ := Blanks.exists_append input
    rw [match?_skip_append before.blank stops] at skips
    cases skips
    have reads : ∀ left, (Expr.call Rule.expression).match? isBlank (grammar.call? false)
        (0 + utf8Length before.chars) rest = some left →
          Reads .expression (0 + utf8Length before.chars) left :=
      fun left called => reads_expression stops called
    obtain ⟨phrase, left, right, rfl, -, atEnd, rfl⟩ := exists_of_match?_phrase reads spaced
    obtain ⟨rfl, rfl⟩ := ends.mp atEnd
    refine ⟨before, phrase, by simp, ?_⟩
    simp [Match.append, mainNode, Phrase.text]
  · rintro ⟨before, phrase, rfl, rfl⟩
    have opens : StartsWithout isBlank phrase.text := phrase.opens_expression.startsWithout_blank
    have taken : (Expr.call Rule.expression).match? isBlank (grammar.call? false)
        (0 + utf8Length before.chars) (phrase.text ++ []) = some _ :=
      accepts phrase (0 + utf8Length before.chars) [] (follows_nil _)
    rw [List.append_nil] at taken
    have spaced := match?_spaced_cons taken phrase.blank_trail (startsWithout_nil _)
      (ends.mpr ⟨rfl, rfl⟩)
    refine ⟨_, match?_seq_eq_some_iff.mpr
      ⟨_, _, match?_skip_append before.blank opens 0, spaced, rfl⟩, ?_⟩
    simp [Match.append, mainNode, Phrase.text, Nat.add_assoc]

/-! ## Nesting within the length of the text -/

/-- Every level that is open, or was open outside an open bracket, has been
opened by at least one byte before the position. -/
def Nesting.Within (nesting : Nesting) (position : Nat) : Prop :=
  nesting.depth ≤ position ∧ ∀ outside ∈ nesting.outer, outside + 1 ≤ position

theorem Nesting.Within.after {nesting : Nesting} {position : Nat}
    (within : nesting.Within position) (mark : Mark) {stop : Nat} (later : position < stop) :
    (nesting.after mark).Within stop := by
  obtain ⟨depth, outer⟩ := within
  have outerLater : ∀ outside ∈ nesting.outer, outside + 1 ≤ stop := fun outside mem =>
    Nat.le_trans (outer outside mem) (Nat.le_of_lt later)
  have depthLater := Nat.lt_of_le_of_lt depth later
  cases mark with
  | opening => exact ⟨depthLater, List.forall_mem_cons.mpr ⟨depthLater, outerLater⟩⟩
  | closing =>
      refine ⟨?_, fun outside mem => outerLater outside (List.mem_of_mem_tail mem)⟩
      cases open? : nesting.outer with
      | nil => simp [Nesting.after, open?]
      | cons outside others =>
          have bound := outerLater outside (by simp [open?])
          simp only [Nesting.after, open?, List.headD_cons]
          omega
  | separator =>
      refine ⟨?_, outerLater⟩
      cases open? : nesting.outer with
      | nil => simp [Nesting.after, Nesting.base, open?]
      | cons outside others =>
          simpa [Nesting.after, Nesting.base, open?] using outerLater outside (by simp [open?])
  | keyword => exact ⟨depthLater, outerLater⟩
  | neutral => exact ⟨Nat.le_of_lt depthLater, outerLater⟩

theorem text_ne_nil_of_mem_pieces (input : List Char) :
    ∀ piece ∈ pieces input, piece.text ≠ [] := by
  fun_induction pieces input with
  | case1 => simp
  | case2 c rest ih => exact List.forall_mem_cons.mpr ⟨nextPiece_text_ne_nil c rest, ih⟩

theorem utf8Length_pos {text : List Char} (nonempty : text ≠ []) : 0 < utf8Length text := by
  cases text with
  | nil => exact absurd rfl nonempty
  | cons c rest =>
      have positive := c.utf8Size_pos
      rw [utf8Length_cons]
      omega

theorem utf8Length_eq_zero_iff {text : List Char} : utf8Length text = 0 ↔ text = [] := by
  refine ⟨fun zero => ?_, fun empty => empty ▸ rfl⟩
  cases text with
  | nil => rfl
  | cons c rest => exact absurd zero (Nat.ne_of_gt (utf8Length_pos (List.cons_ne_nil c rest)))

theorem firstExcess?_eq_none {limit : Nat} {pieces : List Piece}
    (nonempty : ∀ piece ∈ pieces, piece.text ≠ []) :
    ∀ {position : Nat} {nesting : Nesting}, nesting.Within position →
      position + utf8Length (pieces.flatMap Piece.text) ≤ limit →
        firstExcess? limit position nesting pieces = none := by
  induction pieces with
  | nil => exact fun _ _ => rfl
  | cons piece others ih =>
      intro position nesting within fits
      rw [List.forall_mem_cons] at nonempty
      have positive := utf8Length_pos nonempty.1
      rw [List.flatMap_cons, utf8Length_append] at fits
      have inner := within.after piece.mark (Nat.lt_add_of_pos_right positive)
      have depth := inner.1
      rw [firstExcess?, if_neg (by omega)]
      exact ih nonempty.2 inner (by omega)

/-- No text nests deeper than it is long. -/
theorem depthError?_eq_none {limit : Nat} {input : List Char} (fits : utf8Length input ≤ limit) :
    depthError? limit input = none := by
  have start : Nesting.start.Within 0 := ⟨Nat.le_refl 0, by simp [Nesting.start]⟩
  refine firstExcess?_eq_none (text_ne_nil_of_mem_pieces input) start ?_
  rwa [flatMap_text_pieces, Nat.zero_add]

/-! ## Trees -/

/-- The tree of a text is that of its phrase. -/
theorem treeOf_eq_ok_iff {input : List Char} {before : Blanks} {phrase : Phrase .expression}
    {tree : TypeExpr} :
    treeOf input [mainNode before phrase] = .ok tree ↔
      phrase.Faultless ∧ phrase.trees = [tree] := by
  have types : typesOfAll [mainNode before phrase] = phrase.trees := by
    simp [mainNode, typesOfAll, typesOf, combine, typesOfAll_append, Phrase.typesOfAll_nodes]
  have faults : firstFaultOf? [mainNode before phrase] = none ↔ phrase.Faultless := by
    simp [mainNode, firstFaultOf?, firstFault?, fault?, firstFaultOf?_append,
      Phrase.firstFaultOf?_nodes_eq_none_iff]
  rw [treeOf, types, ← faults]
  cases firstFaultOf? [mainNode before phrase] with
  | some error => simp
  | none =>
      simp only [true_and]
      rcases phrase.trees with _ | ⟨first, _ | ⟨second, others⟩⟩ <;> simp

/-- A text is read as the tree of the phrase it is, if it nests within the limit
and the phrase has no fault. -/
theorem parseChars_eq_ok_iff {limit : Nat} {input : List Char} {tree : TypeExpr} :
    parseChars limit input = .ok tree ↔
      depthError? limit input = none ∧
        ∃ (before : Blanks) (phrase : Phrase .expression), input = before.chars ++ phrase.text ∧
          phrase.Faultless ∧ phrase.trees = [tree] := by
  unfold parseChars
  cases depthError? limit input with
  | some error => simp
  | none =>
      cases matched : grammar.match? .main input with
      | none =>
          simp only [reduceCtorEq, true_and, false_iff, not_exists, not_and]
          intro before phrase whole
          have found := match?_main_eq_some_iff.mpr ⟨before, phrase, whole, rfl⟩
          rw [matched] at found
          cases found
      | some found =>
          obtain ⟨before, phrase, whole, rfl⟩ := match?_main_eq_some_iff.mp matched
          simp only [treeOf_eq_ok_iff, true_and]
          constructor
          · exact fun ⟨faultless, trees⟩ => ⟨before, phrase, whole, faultless, trees⟩
          · rintro ⟨before', phrase', whole', faultless, trees⟩
            -- Two phrases of one text have the same nodes, so the same tree.
            have again := match?_main_eq_some_iff.mpr ⟨before', phrase', whole', rfl⟩
            rw [matched] at again
            have same : [mainNode before phrase] = [mainNode before' phrase'] :=
              congrArg Match.nodes (Option.some.inj again)
            rw [← @treeOf_eq_ok_iff input, same, treeOf_eq_ok_iff]
            exact ⟨faultless, trees⟩

end TypeSpelling.Source
