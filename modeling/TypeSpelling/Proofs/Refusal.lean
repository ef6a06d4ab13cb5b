import TypeSpelling.Proofs.Parsing
import TypeSpelling.Proofs.Places
import TypeSpelling.Proofs.Scanning

/-!
# Why a text is refused

A text is refused for the first of three reasons that it gives: a bracket or a
keyword that goes deeper than the limit, a form that the grammar does not have,
or a construct that has no tree.  The count of the nesting rises by one at a time,
so the first excess is one level.  Of several constructs without a tree the
leftmost is reported, and of those that begin at one place the outermost.
-/

namespace TypeSpelling.Source

open TypeSpelling.Peg
open TypeSpelling.Peg.Node
open TypeSpelling.Text

/-! ## The first excess -/

namespace Nesting

/-- The nesting behind some pieces. -/
def behind (nesting : Nesting) (pieces : List Piece) : Nesting :=
  pieces.foldl (fun inner piece => inner.after piece.mark) nesting

@[simp]
theorem behind_nil (nesting : Nesting) : nesting.behind [] = nesting := rfl

@[simp]
theorem behind_cons (nesting : Nesting) (piece : Piece) (rest : List Piece) :
    nesting.behind (piece :: rest) = (nesting.after piece.mark).behind rest := rfl

theorem behind_concat (nesting : Nesting) (before : List Piece) (piece : Piece) :
    nesting.behind (before ++ [piece]) = (nesting.behind before).after piece.mark := by
  simp [behind]

/-- No place behind some of the pieces is deeper than the limit. -/
def StaysWithin (nesting : Nesting) (limit : Nat) (pieces : List Piece) : Prop :=
  ∀ before, before <+: pieces → (nesting.behind before).depth ≤ limit

theorem staysWithin_nil {nesting : Nesting} {limit : Nat} :
    nesting.StaysWithin limit [] ↔ nesting.depth ≤ limit := by
  simp [StaysWithin]

theorem staysWithin_cons {nesting : Nesting} {limit : Nat} {piece : Piece} {rest : List Piece} :
    nesting.StaysWithin limit (piece :: rest) ↔
      nesting.depth ≤ limit ∧ (nesting.after piece.mark).StaysWithin limit rest := by
  constructor
  · intro within
    refine ⟨within [] List.nil_prefix, fun before initial => ?_⟩
    exact within (piece :: before) (List.cons_prefix_cons.mpr ⟨rfl, initial⟩)
  · rintro ⟨depth, within⟩ before initial
    cases before with
    | nil => exact depth
    | cons head before =>
        obtain ⟨rfl, further⟩ := List.cons_prefix_cons.mp initial
        exact within before further

/-- Every level that is open lies within the limit. -/
def Fits (nesting : Nesting) (limit : Nat) : Prop :=
  nesting.depth ≤ limit ∧ ∀ outside ∈ nesting.outer, outside < limit

theorem Fits.after {nesting : Nesting} {limit : Nat} (fits : nesting.Fits limit) {mark : Mark}
    (within : (nesting.after mark).depth ≤ limit) : (nesting.after mark).Fits limit := by
  obtain ⟨depth, outer⟩ := fits
  cases mark with
  | opening => exact ⟨within, List.forall_mem_cons.mpr ⟨within, outer⟩⟩
  | closing => exact ⟨within, fun outside mem => outer outside (List.mem_of_mem_tail mem)⟩
  | separator | keyword | neutral => exact ⟨within, outer⟩

theorem Fits.behind {limit : Nat} {pieces : List Piece} :
    ∀ {nesting : Nesting}, nesting.Fits limit → nesting.StaysWithin limit pieces →
      (nesting.behind pieces).Fits limit := by
  induction pieces with
  | nil => exact fun fits _ => fits
  | cons piece rest ih =>
      intro nesting fits within
      have later := (staysWithin_cons.mp within).2
      exact ih (fits.after (later [] List.nil_prefix)) later

/-- Only what opens a level goes beyond the limit, and by one level. -/
theorem Fits.of_exceeds {nesting : Nesting} {limit : Nat} (fits : nesting.Fits limit) {mark : Mark}
    (exceeds : limit < (nesting.after mark).depth) :
    (mark = .opening ∨ mark = .keyword) ∧ (nesting.after mark).depth = limit + 1 := by
  obtain ⟨depth, outer⟩ := fits
  cases mark with
  | opening => exact ⟨.inl rfl, Nat.le_antisymm (Nat.succ_le_succ depth) exceeds⟩
  | keyword => exact ⟨.inr rfl, Nat.le_antisymm (Nat.succ_le_succ depth) exceeds⟩
  | neutral => exact absurd depth (Nat.not_le.mpr exceeds)
  | closing =>
      cases open? : nesting.outer with
      | nil => simp [Nesting.after, open?] at exceeds
      | cons outside others =>
          have bound := outer outside (by simp [open?])
          simp only [Nesting.after, open?, List.headD_cons] at exceeds
          omega
  | separator =>
      cases open? : nesting.outer with
      | nil => simp [Nesting.after, base, open?] at exceeds
      | cons outside others =>
          have bound := outer outside (by simp [open?])
          simp only [Nesting.after, base, open?] at exceeds
          omega

end Nesting

/-- The first of some pieces behind which the nesting exceeds the limit, with the
pieces before it. -/
def FirstExcess (nesting : Nesting) (limit : Nat) (pieces before : List Piece)
    (piece : Piece) : Prop :=
  before ++ [piece] <+: pieces ∧ nesting.StaysWithin limit before ∧
    limit < (nesting.behind (before ++ [piece])).depth

/-- The first excess is reported with its place. -/
theorem firstExcess?_eq_some_iff {limit : Nat} {pieces : List Piece} {error : ParseError} :
    ∀ {position : Nat} {nesting : Nesting}, nesting.Fits limit →
      (firstExcess? limit position nesting pieces = some error ↔
        ∃ before piece, FirstExcess nesting limit pieces before piece ∧
          (piece.mark = .opening ∨ piece.mark = .keyword) ∧
          error = ⟨.maxDepthExceeded (limit + 1) limit,
            ⟨position + utf8Length (before.flatMap Piece.text),
              position + utf8Length (before.flatMap Piece.text) + utf8Length piece.text⟩⟩) := by
  induction pieces with
  | nil => intro position nesting fits; simp [firstExcess?, FirstExcess]
  | cons first rest ih =>
      intro position nesting fits
      rw [firstExcess?]
      by_cases exceeded : limit < (nesting.after first.mark).depth
      · rw [if_pos exceeded]
        obtain ⟨marks, depth⟩ := fits.of_exceeds exceeded
        constructor
        · intro found
          cases found
          refine ⟨[], first, ⟨by simp, ?_, exceeded⟩, marks, by simp [depth]⟩
          exact Nesting.staysWithin_nil.mpr fits.1
        · rintro ⟨before, piece, ⟨initial, within, -⟩, -, rfl⟩
          cases before with
          | nil =>
              obtain ⟨rfl, -⟩ := List.cons_prefix_cons.mp initial
              simp [depth]
          | cons head before =>
              obtain ⟨rfl, -⟩ := List.cons_prefix_cons.mp initial
              have later := (Nesting.staysWithin_cons.mp within).2 [] List.nil_prefix
              exact absurd exceeded (Nat.not_lt.mpr later)
      · rw [if_neg exceeded, ih (fits.after (Nat.not_lt.mp exceeded))]
        constructor
        · rintro ⟨before, piece, ⟨initial, within, exceeds⟩, marks, rfl⟩
          refine ⟨first :: before, piece, ⟨?_, ?_, exceeds⟩, marks, by simp [Nat.add_assoc]⟩
          · exact List.cons_prefix_cons.mpr ⟨rfl, initial⟩
          · exact Nesting.staysWithin_cons.mpr ⟨fits.1, within⟩
        · rintro ⟨before, piece, ⟨initial, within, exceeds⟩, marks, rfl⟩
          cases before with
          | nil =>
              obtain ⟨rfl, -⟩ := List.cons_prefix_cons.mp initial
              exact absurd exceeds exceeded
          | cons head before =>
              obtain ⟨rfl, further⟩ := List.cons_prefix_cons.mp initial
              refine ⟨before, piece, ⟨further, (Nesting.staysWithin_cons.mp within).2, exceeds⟩,
                marks, by simp [Nat.add_assoc]⟩

/-- The brackets that open a level. -/
def openingBrackets : List (List Char) :=
  [['('], ['['], ['\x7b']]

theorem text_mem_of_opens {c : Char} {rest : List Char} :
    ((nextPiece c rest).1.mark = .opening → (nextPiece c rest).1.text ∈ openingBrackets) ∧
      ((nextPiece c rest).1.mark = .keyword → (nextPiece c rest).1.text ∈ levelWords) := by
  unfold nextPiece
  split
  · rename_i opening
    simpa [openingBrackets, or_assoc] using opening
  split
  · simp
  split
  · simp
  split
  · simp
  split
  · simp only
    split
    · rename_i word
      simpa [levelWords, or_assoc] using word
    · simp
  · simp

/-- Pieces that open a level are brackets and keywords. -/
theorem text_mem_of_mem_pieces {input : List Char} : ∀ piece ∈ pieces input,
    piece.mark = .opening ∨ piece.mark = .keyword →
      piece.text ∈ openingBrackets ++ levelWords := by
  fun_induction pieces input with
  | case1 => simp
  | case2 c rest ih =>
      refine List.forall_mem_cons.mpr ⟨fun opens => List.mem_append.mpr ?_, ih⟩
      exact opens.imp text_mem_of_opens.1 text_mem_of_opens.2

/-- The scan stops at the bracket or keyword that goes beyond the limit, and it
reports one level more than the limit. -/
theorem depthError?_eq_some_iff {limit : Nat} {input : List Char} {error : ParseError} :
    depthError? limit input = some error ↔
      ∃ before piece, FirstExcess .start limit (pieces input) before piece ∧
        piece.text ∈ openingBrackets ++ levelWords ∧
        error = ⟨.maxDepthExceeded (limit + 1) limit,
          ⟨utf8Length (before.flatMap Piece.text),
            utf8Length (before.flatMap Piece.text) + utf8Length piece.text⟩⟩ := by
  have fits : Nesting.start.Fits limit := ⟨Nat.zero_le limit, by simp [Nesting.start]⟩
  rw [depthError?, firstExcess?_eq_some_iff fits]
  simp only [Nat.zero_add]
  constructor
  · rintro ⟨before, piece, first, opens, rfl⟩
    have mem : piece ∈ pieces input := first.1.subset (by simp)
    exact ⟨before, piece, first, text_mem_of_mem_pieces piece mem opens, rfl⟩
  · rintro ⟨before, piece, first, -, rfl⟩
    refine ⟨before, piece, first, ?_, rfl⟩
    obtain ⟨initial, within, exceeds⟩ := first
    rw [Nesting.behind_concat] at exceeds
    exact ((fits.behind within).of_exceeds exceeds).1

/-- What is wrong with a node: an integer below -2^63 or above 2^63 - 1, or a subscript
behind an atom that is not a name. -/
inductive Offends : Node Rule → ParseError → Prop where
  | number {start : Nat} {text : List Char} {children : List (Node Rule)}
      (outside : ¬(-9223372036854775808 ≤ integerValue text ∧
        integerValue text ≤ 9223372036854775807)) :
      Offends ⟨.integer, start, text, children⟩
        ⟨.invalidNumber (String.ofList text), ⟨start, start + utf8Length text⟩⟩
  | subscript {start : Nat} {text : List Char} {atom subscript : Node Rule}
      {others : List (Node Rule)} (unnamed : atom.rule ≠ .name) :
      Offends ⟨.subscripted, start, text, atom :: subscript :: others⟩
        ⟨.subscriptOnNonName (String.ofList atom.text), ⟨atom.start, subscript.stop⟩⟩

theorem fitsInt64_iff {value : Int} :
    fitsInt64 value = true ↔ -9223372036854775808 ≤ value ∧ value ≤ 9223372036854775807 := by
  simp [fitsInt64]

example : fitsInt64 (integerValue "-0009223372036854775808".toList) = true ∧
    fitsInt64 (integerValue "0009223372036854775808".toList) = false := by
  decide

/-- The fault of a node is what is wrong with it. -/
theorem fault?_eq_some_iff {node : Node Rule} {error : ParseError} :
    fault? node = some error ↔ Offends node error := by
  constructor
  · intro found
    obtain ⟨rule, start, text, children⟩ := node
    unfold fault? at found
    split at found
    · rename_i integer
      cases integer
      split at found
      · cases found
      · rename_i outside
        cases found
        exact .number (fun fits => outside (fitsInt64_iff.mpr fits))
    · rename_i subscripted arguments
      cases subscripted
      cases arguments
      split at found
      · cases found
      · rename_i unnamed
        cases found
        exact .subscript unnamed
    · cases found
  · intro offends
    cases offends with
    | number outside => exact if_neg fun fits => outside (fitsInt64_iff.mp fits)
    | subscript unnamed => exact if_neg unnamed

theorem Offends.mayTakeNothing {node : Node Rule} {error : ParseError}
    (offends : Offends node error) : node.rule.mayTakeNothing = false := by
  cases offends <;> rfl

mutual

theorem firstFault?_eq_findSome? : ∀ node : Node Rule,
    firstFault? node = (preorder node).findSome? fault?
  | ⟨rule, start, text, children⟩ => by
      rw [firstFault?, preorder, List.findSome?_cons, firstFaultOf?_eq_findSome?]
      cases fault? ⟨rule, start, text, children⟩ <;> rfl

/-- The first fault is the first that a walk through the nodes meets. -/
theorem firstFaultOf?_eq_findSome? : ∀ nodes : List (Node Rule),
    firstFaultOf? nodes = (preorderAll nodes).findSome? fault?
  | [] => rfl
  | first :: rest => by
      rw [firstFaultOf?, preorderAll, List.findSome?_append, firstFault?_eq_findSome?,
        firstFaultOf?_eq_findSome?]

end

/-- Nodes have no fault if nothing is wrong with any node of a walk through them. -/
theorem firstFaultOf?_eq_none_iff {nodes : List (Node Rule)} :
    firstFaultOf? nodes = none ↔ ∀ node ∈ preorderAll nodes, ∀ error, ¬ Offends node error := by
  rw [firstFaultOf?_eq_findSome?, List.findSome?_eq_none_iff]
  simp only [Option.eq_none_iff_forall_ne_some, ne_eq, fault?_eq_some_iff]

/-- Of the nodes with which something is wrong the one furthest to the left.  All
others lie below it or behind it. -/
def LeftmostOffence (nodes : List (Node Rule)) (node : Node Rule) (error : ParseError) : Prop :=
  node ∈ preorderAll nodes ∧ Offends node error ∧
    ∀ other ∈ preorderAll nodes, other ≠ node → ∀ error', Offends other error' →
      other ∈ preorderAll node.children ∨ node.stop ≤ other.start

section

variable {low high : Nat} {nodes : List (Node Rule)} {node other : Node Rule}
  {error error' : ParseError}

/-- No offending node lies both before and behind another. -/
theorem LeftmostOffence.unique (placed : Placed Rule.mayTakeNothing low nodes high)
    (left : LeftmostOffence nodes node error) (right : LeftmostOffence nodes other error') :
    node = other := by
  have taking : ∀ {node error}, node ∈ preorderAll nodes → Offends node error →
      node.start < node.stop := by
    intro node error mem offends
    have nonempty : node.text ≠ [] := fun empty => by
      have := (placed.of_mem mem).2.2 empty
      rw [offends.mayTakeNothing] at this
      cases this
    exact Nat.lt_add_of_pos_right (utf8Length_pos nonempty)
  obtain ⟨mem, offends, first⟩ := left
  obtain ⟨mem', offends', first'⟩ := right
  refine Classical.byContradiction fun different => ?_
  have takes := taking mem offends
  have takes' := taking mem' offends'
  rcases first other mem' (Ne.symm different) error' offends' with below | behind
  · have within := ((placed.children mem).of_mem below).1
    rcases first' node mem different error offends with above | before
    · exact not_mem_below_of_mem_below below above
    · omega
  · rcases first' node mem different error offends with above | before
    · have within := ((placed.children mem').of_mem above).1
      omega
    · omega

/-- The first fault of nodes that stand in order is the leftmost offence. -/
theorem firstFaultOf?_eq_some_iff (placed : Placed Rule.mayTakeNothing low nodes high) :
    firstFaultOf? nodes = some error ↔ ∃ node, LeftmostOffence nodes node error := by
  have leftmost : ∀ {error}, firstFaultOf? nodes = some error →
      ∃ node, LeftmostOffence nodes node error := by
    intro error found
    rw [firstFaultOf?_eq_findSome?, List.findSome?_eq_some_iff] at found
    obtain ⟨before, node, after, walk, fault, none⟩ := found
    refine ⟨node, walk ▸ by simp, fault?_eq_some_iff.mp fault, ?_⟩
    intro other mem different error' offends
    rw [walk, List.mem_append, List.mem_cons] at mem
    rcases mem with mem | rfl | mem
    · have faultless := none other mem
      rw [fault?_eq_some_iff.mpr offends] at faultless
      cases faultless
    · exact absurd rfl different
    · exact placed.below_or_behind walk mem
  refine ⟨leftmost, fun ⟨node, own⟩ => ?_⟩
  cases found : firstFaultOf? nodes with
  | none => exact absurd own.2.1 (firstFaultOf?_eq_none_iff.mp found node own.1 error)
  | some error' =>
      obtain ⟨node', own'⟩ := leftmost found
      obtain rfl := own.unique placed own'
      have same := (fault?_eq_some_iff.mpr own'.2.1).symm.trans (fault?_eq_some_iff.mpr own.2.1)
      exact same

end

/-! ## Refused texts -/

/-- The nodes of a whole text have a tree if none of them has a fault. -/
theorem exists_treeOf_eq_elim {input : List Char} {found : Match Rule}
    (matched : grammar.match? .main input = some found) :
    ∃ tree, treeOf input found.nodes = (firstFaultOf? found.nodes).elim (.ok tree) .error := by
  obtain ⟨before, phrase, -, rfl⟩ := match?_main_eq_some_iff.mp matched
  obtain ⟨tree, single⟩ := phrase.exists_trees_expression
  have types : typesOfAll [mainNode before phrase] = [tree] := by
    simp [mainNode, typesOfAll, typesOf, combine, typesOfAll_append, Phrase.typesOfAll_nodes,
      single]
  refine ⟨tree, ?_⟩
  rw [treeOf, types]
  cases firstFaultOf? [mainNode before phrase] <;> rfl

theorem treeOf_eq_error_iff {input : List Char} {found : Match Rule}
    (matched : grammar.match? .main input = some found) {error : ParseError} :
    treeOf input found.nodes = .error error ↔ ∃ node, LeftmostOffence found.nodes node error := by
  rw [← firstFaultOf?_eq_some_iff (Grammar.placed_of_match? ranking matched)]
  obtain ⟨tree, outcome⟩ := exists_treeOf_eq_elim matched
  rw [outcome]
  cases firstFaultOf? found.nodes <;> simp

end TypeSpelling.Source
