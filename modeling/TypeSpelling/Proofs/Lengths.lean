import TypeSpelling.Proofs.Stages
import TypeSpelling.Proofs.StandardTable

/-!
# How long the spellings are

Lengths are counted in bytes.  The shorthand of a node adds to the shorthand of its
children no more than the canonical spelling adds to theirs, whatever the shape of
the node and whatever the table, so no tree is shorter in its canonical spelling.
-/

namespace TypeSpelling

/-! ## Lists of texts -/

/-- Shorter texts with a shorter separator between them are shorter. -/
theorem utf8ByteSize_intercalate_le {α : Type} {separator other : String}
    (separators : separator.utf8ByteSize ≤ other.utf8ByteSize) {left right : α → String}
    (items : List α) (each : ∀ item ∈ items, (left item).utf8ByteSize ≤ (right item).utf8ByteSize) :
    (separator.intercalate (items.map left)).utf8ByteSize ≤
      (other.intercalate (items.map right)).utf8ByteSize := by
  induction items with
  | nil => simp
  | cons first rest ih =>
      obtain ⟨firstLe, restLe⟩ := List.forall_mem_cons.mp each
      have tails := ih restLe
      cases rest with
      | nil => simpa using firstLe
      | cons second others =>
          simp only [List.map_cons, String.intercalate_cons_cons,
            String.utf8ByteSize_append] at tails ⊢
          omega

theorem utf8ByteSize_intercalate_tail_le (separator : String) (texts : List String) :
    (separator.intercalate texts.tail).utf8ByteSize ≤
      (separator.intercalate texts).utf8ByteSize := by
  match texts with
  | [] => exact Nat.le_refl _
  | [_] => simp
  | first :: second :: rest =>
      rw [String.intercalate_cons_cons, String.utf8ByteSize_append, List.tail_cons]
      exact Nat.le_add_left _ _

/-! ## Names -/

namespace AliasTable

theorem utf8ByteSize_le_of_shortest? {spellings : List String} {shortest : String}
    (found : shortest? spellings = some shortest) :
    ∀ spelling ∈ spellings, shortest.utf8ByteSize ≤ spelling.utf8ByteSize := by
  induction spellings generalizing shortest with
  | nil => cases found
  | cons first rest ih =>
      unfold shortest? at found
      split at found
      · rename_i none
        cases found
        cases rest with
        | nil => exact List.forall_mem_singleton.mpr (Nat.le_refl _)
        | cons second others =>
            unfold shortest? at none
            split at none <;> cases none
      · rename_i other inRest
        cases found
        have others := ih inRest
        refine List.forall_mem_cons.mpr ⟨?_, fun spelling mem => ?_⟩
        · split
          · exact Nat.le_refl _
          · omega
        · have behind := others spelling mem
          split
          · omega
          · exact behind

/-- No spelling of the same entry is shorter than the shortest one. -/
theorem utf8ByteSize_shortestSpelling_le_of_resolve? {entries : List Entry}
    {name spelling : String}
    (same : (ofEntries entries).resolve? name = (ofEntries entries).resolve? spelling)
    (known : ((ofEntries entries).resolve? spelling).isSome = true) :
    ((ofEntries entries).shortestSpelling name).utf8ByteSize ≤ spelling.utf8ByteSize := by
  obtain ⟨entry, resolved⟩ := Option.isSome_iff_exists.mp known
  have declared := (exists_entry_of_resolve? resolved).2
  have mem : spelling ∈ entry.spellings.filter fun spelling =>
      (ofEntries entries).resolve? spelling = some entry :=
    List.mem_filter.mpr ⟨declared, decide_eq_true resolved⟩
  rw [shortestSpelling, same, resolved]
  cases found : shortest? (entry.spellings.filter fun spelling =>
      (ofEntries entries).resolve? spelling = some entry) with
  | none =>
      obtain ⟨first, rest, split⟩ := List.exists_cons_of_ne_nil (List.ne_nil_of_mem mem)
      rw [split] at found
      unfold shortest? at found
      split at found <;> cases found
  | some shortest =>
      simp only [found, Option.getD_some]
      exact utf8ByteSize_le_of_shortest? found spelling mem

/-- The shortest spelling of a name is no longer than the name. -/
theorem utf8ByteSize_shortestSpelling_le (entries : List Entry) (name : String) :
    ((ofEntries entries).shortestSpelling name).utf8ByteSize ≤ name.utf8ByteSize := by
  cases resolved : (ofEntries entries).resolve? name with
  | none => exact Nat.le_of_eq (by rw [shortestSpelling_eq_self resolved])
  | some entry => exact utf8ByteSize_shortestSpelling_le_of_resolve? rfl (by rw [resolved]; rfl)

end AliasTable

/-! ## Trees -/

namespace TypeExpr

theorem utf8ByteSize_operandText_le (node : TypeExpr) (text : String) :
    (operandText node text).utf8ByteSize ≤ text.utf8ByteSize + 2 := by
  have brackets : ("(" ++ text ++ ")").utf8ByteSize = text.utf8ByteSize + 2 := by
    rw [String.utf8ByteSize_append, String.utf8ByteSize_append, Nat.add_comm "(".utf8ByteSize]
    rfl
  cases node <;> simp [operandText, brackets]

theorem utf8ByteSize_subscriptText (base : String) (args : List String) :
    (subscriptText base args).utf8ByteSize =
      base.utf8ByteSize + (", ".intercalate args).utf8ByteSize + 2 := by
  have opening : "[".utf8ByteSize = 1 := rfl
  have closing : "]".utf8ByteSize = 1 := rfl
  simp only [subscriptText, String.utf8ByteSize_append, opening, closing]
  omega

theorem utf8ByteSize_keyword_lt {kind : Container} {word : String}
    (keyword? : kind.keyword? = some word) :
    word.utf8ByteSize + 1 ≤ kind.canonicalName.utf8ByteSize := by
  cases kind <;> cases keyword? <;> decide

/-- Marks of one byte in front of a text, behind it and inside it. -/
theorem utf8ByteSize_marks :
    " ".utf8ByteSize = 1 ∧ "[".utf8ByteSize = 1 ∧ "]".utf8ByteSize = 1 ∧
      "(".utf8ByteSize = 1 ∧ ")".utf8ByteSize = 1 ∧ "\x7b".utf8ByteSize = 1 ∧
      "\x7d".utf8ByteSize = 1 ∧ ":".utf8ByteSize = 1 ∧ ",".utf8ByteSize = 1 ∧
      "|".utf8ByteSize = 1 ∧ "?".utf8ByteSize = 1 := by
  decide

theorem utf8ByteSize_containerText_le (kind : Container) (args : List TypeExpr)
    {short long : TypeExpr → String}
    (each : ∀ arg ∈ args, (short arg).utf8ByteSize ≤ (long arg).utf8ByteSize) :
    (containerText kind args (args.map short)).utf8ByteSize ≤
      (subscriptText kind.canonicalName (args.map long)).utf8ByteSize := by
  have lists := utf8ByteSize_intercalate_le (by decide : ",".utf8ByteSize ≤ ", ".utf8ByteSize)
    args each
  rw [utf8ByteSize_subscriptText]
  unfold containerText
  split
  · rename_i pair
    rw [pair] at lists
    simp only [String.intercalate_cons_cons, String.intercalate_singleton,
      String.utf8ByteSize_append, utf8ByteSize_marks] at lists ⊢
    omega
  · rename_i keyword arg text keyword? single
    have name := utf8ByteSize_keyword_lt keyword?
    have inside := utf8ByteSize_operandText_le arg text
    rw [single] at lists
    simp only [String.intercalate_singleton, String.utf8ByteSize_append, utf8ByteSize_marks]
      at lists ⊢
    omega
  · rename_i keyword? _ _
    have name := utf8ByteSize_keyword_lt keyword?
    simp only [String.utf8ByteSize_append, utf8ByteSize_marks]
    omega
  · simp only [String.utf8ByteSize_append, utf8ByteSize_marks]
    omega
  · simp only [String.utf8ByteSize_append, utf8ByteSize_marks]
    omega

theorem utf8ByteSize_unionText_le (members : List TypeExpr) {short long : TypeExpr → String}
    (each : ∀ member ∈ members, (short member).utf8ByteSize ≤ (long member).utf8ByteSize) :
    (unionText members (members.map short)).utf8ByteSize ≤
      (canonicalUnionText members (members.map long)).utf8ByteSize := by
  have names : "typing.Optional".utf8ByteSize = 15 ∧ "typing.Union".utf8ByteSize = 12 := by decide
  have bars : "|".utf8ByteSize ≤ ", ".utf8ByteSize := by decide
  unfold unionText canonicalUnionText
  cases members with
  | nil => exact Nat.zero_le _
  | cons first rest =>
      have whole := utf8ByteSize_intercalate_le bars _ each
      have others := utf8ByteSize_intercalate_le bars rest fun member mem =>
        each member (List.mem_cons_of_mem _ mem)
      have shorter := utf8ByteSize_intercalate_tail_le ", " ((first :: rest).map long)
      simp only [List.map_cons, List.tail_cons] at whole others shorter ⊢
      by_cases null : first.isNull = true
      · match rest with
        | [single] =>
            have inside := utf8ByteSize_operandText_le single ("|".intercalate [short single])
            have nullable : isNullable [first, single] = true := null
            rw [if_pos null, if_pos nullable, utf8ByteSize_subscriptText]
            simp only [List.map_cons, List.map_nil, String.utf8ByteSize_append,
              utf8ByteSize_marks] at others inside ⊢
            omega
        | [] =>
            rw [if_pos null, if_neg (by simp [isNullable]), utf8ByteSize_subscriptText]
            simp only [List.map_nil, String.utf8ByteSize_append, String.intercalate_nil]
            exact Nat.le_trans (by decide : _ ≤ 12) (by omega)
        | second :: third :: rest =>
            rw [if_pos null, if_neg (by simp [isNullable]), utf8ByteSize_subscriptText]
            have close : ")?".utf8ByteSize = 2 := by decide
            simp only [String.utf8ByteSize_append, utf8ByteSize_marks, close]
            omega
      · have notNullable : isNullable (first :: rest) = false := by
          match rest with
          | [] => rfl
          | [_] => exact Bool.eq_false_iff.mpr null
          | _ :: _ :: _ => rfl
        rw [if_neg null, if_neg (Bool.eq_false_iff.mp notNullable), utf8ByteSize_subscriptText]
        omega

theorem utf8ByteSize_shorthandToken (value : LiteralValue) :
    value.shorthandToken.utf8ByteSize = value.canonicalToken.utf8ByteSize := by
  cases value with
  | bool value => cases value <;> rfl
  | _ => rfl

theorem utf8ByteSize_literal_le (entries : List Entry) (values : List LiteralValue) :
    ((literal values).shorthandText (.ofEntries entries)).utf8ByteSize ≤
      (literal values).canonicalText.utf8ByteSize := by
  have lists := utf8ByteSize_intercalate_le (by decide : ",".utf8ByteSize ≤ ", ".utf8ByteSize)
    values fun value _ => Nat.le_of_eq (utf8ByteSize_shorthandToken value)
  have name := AliasTable.utf8ByteSize_shortestSpelling_le entries "typing.Literal"
  by_cases isNull : values = [.null]
  · cases isNull
    exact Nat.le_refl 4
  · rw [canonicalText, if_neg isNull, utf8ByteSize_subscriptText]
    unfold shorthandText
    split
    · simp only [List.map_singleton, String.intercalate_singleton] at lists ⊢
      omega
    · simp only [String.utf8ByteSize_append, utf8ByteSize_marks]
      omega

/-- No tree is shorter in its canonical spelling. -/
theorem utf8ByteSize_shorthandText_le (entries : List Entry) (tree : TypeExpr) :
    (tree.shorthandText (.ofEntries entries)).utf8ByteSize ≤
      tree.canonicalText.utf8ByteSize := by
  have names := AliasTable.utf8ByteSize_shortestSpelling_le entries
  have commas : ",".utf8ByteSize ≤ ", ".utf8ByteSize := by decide
  induction tree using inductionOnChildren with
  | step tree ih =>
      cases tree with
      | name path => exact names path
      | wildcard => exact (by decide : 1 ≤ 10)
      | generic base args =>
          have lists := utf8ByteSize_intercalate_le commas args ih
          have name := names base
          simp only [shorthandText, canonicalText, shorthandTexts_eq_map, canonicalTexts_eq_map,
            utf8ByteSize_subscriptText, String.utf8ByteSize_append, utf8ByteSize_marks]
          omega
      | container kind args =>
          rw [shorthandText, canonicalText, shorthandTexts_eq_map, canonicalTexts_eq_map]
          exact utf8ByteSize_containerText_le kind args ih
      | tuple elements =>
          have lists := utf8ByteSize_intercalate_le commas elements ih
          have name : "typing.Tuple".utf8ByteSize = 12 := by decide
          rw [shorthandText, canonicalText, shorthandTexts_eq_map, canonicalTexts_eq_map,
            utf8ByteSize_subscriptText]
          split
          · simp only [String.utf8ByteSize_append, utf8ByteSize_marks]
            omega
          · simp only [String.utf8ByteSize_append, utf8ByteSize_marks, String.utf8ByteSize_empty]
            omega
      | union members =>
          rw [shorthandText, canonicalText, shorthandTexts_eq_map, canonicalTexts_eq_map]
          exact utf8ByteSize_unionText_le members ih
      | optional inner =>
          have inside := ih inner (List.mem_singleton_self _)
          have operand :=
            utf8ByteSize_operandText_le inner (inner.shorthandText (.ofEntries entries))
          have name : "typing.Optional".utf8ByteSize = 15 := by decide
          simp only [shorthandText, canonicalText, utf8ByteSize_subscriptText,
            String.intercalate_singleton, String.utf8ByteSize_append, utf8ByteSize_marks]
          omega
      | literal values => exact utf8ByteSize_literal_le entries values
      | ellipsis => exact Nat.le_refl _

end TypeExpr

/-! ## Texts -/

namespace AliasTable

open TypeSpelling.TypeExpr

/-- Under every table the shorthand of a tree that can be spelled out is no longer than
its canonical spelling, and neither is the shorthand of a text that has both. -/
theorem shorthand_le_canonical (entries : List Entry) :
    (∀ tree : TypeExpr, tree.checkCanonical = .ok () →
      ∃ short long, tree.renderShorthand (ofEntries entries) = .ok short ∧
        tree.renderCanonical = .ok long ∧ short.utf8ByteSize ≤ long.utf8ByteSize) ∧
    ∀ source short long, (ofEntries entries).shorten source = .ok short →
      (ofEntries entries).canonicalize source = .ok long →
      short.text.utf8ByteSize ≤ long.utf8ByteSize := by
  refine ⟨fun tree accepted => ?_, fun source short long shortened canonical => ?_⟩
  · refine ⟨_, _, ?_, ?_, utf8ByteSize_shorthandText_le entries tree⟩
    · rw [renderShorthand, accepted]
      rfl
    · rw [renderCanonical, accepted]
      rfl
  · obtain ⟨tree, normalized, rendered⟩ := bind_eq_ok_iff.mp canonical
    have accepted : tree.checkCanonical = .ok () := by
      obtain ⟨_, accepted, _⟩ := bind_eq_ok_iff.mp (mapError_eq_ok_iff.mp rendered)
      exact accepted
    rw [shorten_of_accepted normalized accepted] at shortened
    rw [canonicalize_of_accepted normalized accepted] at canonical
    cases shortened
    cases canonical
    exact utf8ByteSize_shorthandText_le entries tree

/-- Parentheses, a question mark and a spelling that belongs to another entry stay
within what the canonical spelling takes. -/
theorem shorthand_le_canonical_of_shared_spelling :
    let entries : List Entry :=
      [⟨"typing.List", ["it"], .plain, .exactly 1⟩, ⟨"it", ["iterator"], .plain, .exactly 0⟩]
    let tree : TypeExpr := .container .awaitable [.union [null, .name "iterator", .wildcard]]
    (tree.checkCanonical = .ok () ∧
      ∃ short long, tree.renderShorthand (ofEntries entries) = .ok short ∧
        tree.renderCanonical = .ok long ∧ short.utf8ByteSize ≤ long.utf8ByteSize) ∧
    (ofEntries entries).shorten "await ((iterator|_)?)" = .ok ⟨"await ((it|_)?)", true⟩ ∧
      (ofEntries entries).canonicalize "await ((iterator|_)?)" =
        .ok "typing.Awaitable[typing.Union[None, it, typing.Any]]" ∧
      "await ((it|_)?)".utf8ByteSize ≤
        "typing.Awaitable[typing.Union[None, it, typing.Any]]".utf8ByteSize := by
  intro entries tree
  have bounds := shorthand_le_canonical entries
  have accepted : tree.checkCanonical = .ok () := rfl
  have normalized : (ofEntries entries).normalized "await ((iterator|_)?)" =
      .ok (.container .awaitable [.union [null, .name "it", .wildcard]]) := by
    have parsed : Source.parse "await ((iterator|_)?)" =
        .ok (.container .awaitable [.optional (.union [.name "iterator", .wildcard])]) := by
      decide +kernel
    exact normalized_eq_ok_iff.mpr ⟨_, parsed, rfl⟩
  have shortened : (ofEntries entries).shorten "await ((iterator|_)?)" =
      .ok ⟨"await ((it|_)?)", true⟩ := by
    have text : shorthandText (ofEntries entries)
        (.container .awaitable [.union [null, .name "it", .wildcard]]) = "await ((it|_)?)" := by
      decide +kernel
    have changed : ("await ((it|_)?)" != Text.trim "await ((iterator|_)?)") = true := by
      decide +kernel
    rw [shorten_of_accepted normalized rfl, text, changed]
  have canonical : (ofEntries entries).canonicalize "await ((iterator|_)?)" =
      .ok "typing.Awaitable[typing.Union[None, it, typing.Any]]" :=
    (canonicalize_of_accepted normalized rfl).trans (congrArg Except.ok (by decide +kernel))
  exact ⟨⟨accepted, bounds.1 tree accepted⟩, shortened, canonical,
    bounds.2 _ _ _ shortened canonical⟩

end AliasTable

end TypeSpelling
