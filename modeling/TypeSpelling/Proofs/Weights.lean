import Mathlib.Data.Nat.Digits.Defs
import TypeSpelling.Proofs.Composing

/-!
# What the texts of a tree weigh at least

Characters weigh their bytes, but a blank weighs as much as is said, so that blanks
can be left out of the count.  A tree has a least weight: that of its tokens and of
the punctuation between them, with parentheses around a union or an optional that
an operator would tear apart, and with a blank behind a keyword that a word follows.
No text of the tree weighs less.
-/

namespace TypeSpelling

open TypeSpelling.Source
open TypeSpelling.Text

namespace Source

/-! ## Weights of texts -/

/-- The bytes of characters, where a blank weighs as much as is said. -/
def weightOf (blank : Nat) : List Char → Nat
  | [] => 0
  | c :: rest => (if isBlank c then blank else c.utf8Size) + weightOf blank rest

variable (blank : Nat)

@[simp]
theorem weightOf_nil : weightOf blank [] = 0 := rfl

theorem weightOf_cons (c : Char) (rest : List Char) :
    weightOf blank (c :: rest) = (if isBlank c then blank else c.utf8Size) + weightOf blank rest :=
  rfl

@[simp]
theorem weightOf_append (left right : List Char) :
    weightOf blank (left ++ right) = weightOf blank left + weightOf blank right := by
  induction left with
  | nil => rw [List.nil_append, weightOf_nil, Nat.zero_add]
  | cons c rest ih => rw [List.cons_append, weightOf_cons, ih, weightOf_cons, Nat.add_assoc]

/-- A blank takes one byte. -/
theorem weightOf_one (chars : List Char) : weightOf 1 chars = utf8Length chars := by
  have blanks : ∀ c, isBlank c = true → c.utf8Size = 1 := by
    intro c blank
    simp only [isBlank, Bool.or_eq_true, decide_eq_true_eq] at blank
    rcases blank with ((rfl | rfl) | rfl) | rfl <;> rfl
  induction chars with
  | nil => rfl
  | cons c rest ih =>
      rw [weightOf_cons, ih, utf8Length_cons]
      by_cases isBlank : isBlank c = true
      · rw [if_pos isBlank, blanks c isBlank]
      · rw [if_neg isBlank]

theorem weightOf_toList (text : String) : weightOf 1 text.toList = text.utf8ByteSize := by
  rw [weightOf_one, utf8Length_toList]

/-- Where there are blanks, one of them weighs something. -/
theorem Blanks.le_weightOf {blanks : Blanks} (some : blanks.chars ≠ []) :
    blank ≤ weightOf blank blanks.chars := by
  obtain ⟨c, rest, split⟩ := List.exists_cons_of_ne_nil some
  have isBlank := blanks.blank c (by simp [split])
  rw [split, weightOf_cons, if_pos isBlank]
  exact Nat.le_add_right _ _

/-- Each mark of punctuation weighs one byte. -/
theorem weightOf_mark (rest : List Char) :
    weightOf blank ('(' :: rest) = 1 + weightOf blank rest ∧
      weightOf blank (')' :: rest) = 1 + weightOf blank rest ∧
      weightOf blank ('[' :: rest) = 1 + weightOf blank rest ∧
      weightOf blank (']' :: rest) = 1 + weightOf blank rest ∧
      weightOf blank ('\x7b' :: rest) = 1 + weightOf blank rest ∧
      weightOf blank ('\x7d' :: rest) = 1 + weightOf blank rest ∧
      weightOf blank (',' :: rest) = 1 + weightOf blank rest ∧
      weightOf blank (':' :: rest) = 1 + weightOf blank rest ∧
      weightOf blank ('|' :: rest) = 1 + weightOf blank rest ∧
      weightOf blank ('?' :: rest) = 1 + weightOf blank rest :=
  ⟨rfl, rfl, rfl, rfl, rfl, rfl, rfl, rfl, rfl, rfl⟩

/-- A separator stands between any two texts of a list. -/
theorem weightOf_intercalate (separator : String) {texts : List String} (some : texts ≠ []) :
    weightOf blank (separator.intercalate texts).toList + weightOf blank separator.toList =
      (texts.map fun text => weightOf blank text.toList + weightOf blank separator.toList).sum := by
  induction texts with
  | nil => exact absurd rfl some
  | cons first rest ih =>
      cases rest with
      | nil => simp
      | cons second others =>
          rw [String.intercalate_cons_cons, List.map_cons, List.sum_cons,
            ← ih (List.cons_ne_nil _ _)]
          simp only [String.toList_append, weightOf_append]
          omega

end Source

namespace TypeExpr

/-! ## Least weights of trees -/

/-- Whether a keyword or a question mark would tear the text of a tree apart. -/
def isLoose : TypeExpr → Bool
  | .union _ | .optional _ => true
  | _ => false

theorem isLoose_of_isUnion {tree : TypeExpr} (isUnion : tree.isUnion = true) :
    tree.isLoose = true := by
  cases tree with
  | union => rfl
  | _ => cases isUnion

/-- Whether the text of a tree begins with a word where it needs no parentheses. -/
def isWordy : TypeExpr → Bool
  | .name _ | .wildcard | .generic _ _ => true
  | .container kind _ => kind.keyword?.isSome
  | .literal values => values.head?.any fun value => Source.beginsWord value.shorthandToken.toList
  | .tuple _ | .union _ | .optional _ | .ellipsis => false

/-- What parentheses weigh where some are needed. -/
def parentheses (needed : Bool) : Nat :=
  if needed then 2 else 0

theorem parentheses_le (needed : Bool) : parentheses needed ≤ 2 := by
  cases needed <;> decide

theorem parentheses_le_of_imp {inner outer : Bool} (imp : inner = true → outer = true) :
    parentheses inner ≤ parentheses outer := by
  cases inner with
  | false => exact Nat.zero_le _
  | true => rw [imp rfl]

/-- What stands between a keyword and its operand at least, and behind the operand. -/
def operandMargin (blank : Nat) (operand : TypeExpr) : Nat :=
  if operand.isLoose then 2 else if operand.isWordy then blank else 0

/-- What stands around a member of a union at least, its bar included. -/
def memberMargin (member : TypeExpr) : Nat :=
  parentheses member.isUnion + 1

mutual

/-- The least weight of a text of a tree, where each blank weighs as much as is said. -/
def leastWeight (blank : Nat) : TypeExpr → Nat
  | .name path => weightOf blank path.toList
  | .wildcard => 1
  | .generic base args => weightOf blank base.toList + 1 + totalWeight blank (fun _ => 1) args
  | .container kind args =>
      match kind.keyword? with
      | some keyword =>
          weightOf blank keyword.toList + totalWeight blank (operandMargin blank) args
      | none => 1 + totalWeight blank (fun _ => 1) args
  | .tuple elements =>
      totalWeight blank (fun _ => 1) elements + (if elements.length = 1 then 2 else 1)
  | .union members => totalWeight blank memberMargin members - 1
  | .optional inner => leastWeight blank inner + parentheses inner.isLoose + 1
  | .literal values => (values.map fun value => weightOf blank value.shorthandToken.toList).sum
  | .ellipsis => 3

/-- The least weights of trees together, each with what stands around it. -/
def totalWeight (blank : Nat) (margin : TypeExpr → Nat) : List TypeExpr → Nat
  | [] => 0
  | first :: rest => leastWeight blank first + margin first + totalWeight blank margin rest

end

theorem totalWeight_eq_sum (blank : Nat) (margin : TypeExpr → Nat) (trees : List TypeExpr) :
    totalWeight blank margin trees =
      (trees.map fun tree => tree.leastWeight blank + margin tree).sum := by
  induction trees with
  | nil => rfl
  | cons first rest ih => rw [totalWeight, ih, List.map_cons, List.sum_cons]

theorem totalWeight_singleton (blank : Nat) (margin : TypeExpr → Nat) (tree : TypeExpr) :
    totalWeight blank margin [tree] = tree.leastWeight blank + margin tree :=
  Nat.add_zero _

@[simp]
theorem totalWeight_append (blank : Nat) (margin : TypeExpr → Nat) (left right : List TypeExpr) :
    totalWeight blank margin (left ++ right) =
      totalWeight blank margin left + totalWeight blank margin right := by
  simp only [totalWeight_eq_sum, List.map_append, List.sum_append]

@[simp]
theorem leastWeight_literal (blank : Nat) (value : LiteralValue) :
    leastWeight blank (.literal [value]) = weightOf blank value.shorthandToken.toList :=
  Nat.add_zero _

@[simp]
theorem isWordy_literal (value : LiteralValue) :
    isWordy (.literal [value]) = Source.beginsWord value.shorthandToken.toList := rfl

theorem leastWeight_keyword (blank : Nat) {kind : Container} {word : String}
    (keyword? : kind.keyword? = some word) (inner : TypeExpr) :
    leastWeight blank (.container kind [inner]) =
      weightOf blank word.toList + (inner.leastWeight blank + operandMargin blank inner) := by
  rw [leastWeight, keyword?]
  rfl

end TypeExpr

/-! ## Tokens -/

namespace Source

open TypeExpr

theorem digitValue_lt {c : Char} (digit : isDigit c = true) : digitValue c < 10 := by
  simp only [isDigit, Bool.and_eq_true, decide_eq_true_eq, Char.le_def] at digit
  have upper : c.toNat ≤ 57 := digit.2
  have zero : '0'.toNat = 48 := rfl
  rw [digitValue, zero]
  omega

/-- A number with so many digits lies below the power of ten. -/
theorem naturalValue_lt {digits : List Char} (all : ∀ c ∈ digits, isDigit c = true) :
    naturalValue digits < 10 ^ digits.length := by
  have fold : ∀ start, digits.foldl (fun value digit => 10 * value + digitValue digit) start <
      (start + 1) * 10 ^ digits.length := by
    induction digits with
    | nil => exact fun start => by simp
    | cons c rest ih =>
        intro start
        obtain ⟨first, others⟩ := List.forall_mem_cons.mp all
        have small := digitValue_lt first
        refine Nat.lt_of_lt_of_le (ih others (10 * start + digitValue c)) ?_
        rw [List.length_cons, Nat.pow_succ, Nat.mul_comm (10 ^ rest.length), ← Nat.mul_assoc]
        exact Nat.mul_le_mul_right _ (by omega)
  simpa [naturalValue] using fold 0

/-- Digits weigh one byte each. -/
theorem weightOf_digits (blank : Nat) {digits : List Char}
    (all : ∀ c ∈ digits, isDigit c = true) : weightOf blank digits = digits.length := by
  induction digits with
  | nil => rfl
  | cons c rest ih =>
      obtain ⟨first, others⟩ := List.forall_mem_cons.mp all
      have notBlank : isBlank c = false := by
        rw [Bool.eq_false_iff]
        intro blank
        simp only [isBlank, Bool.or_eq_true, decide_eq_true_eq] at blank
        rcases blank with ((rfl | rfl) | rfl) | rfl <;> cases first
      have size : c.utf8Size = 1 := by
        simp only [isDigit, Bool.and_eq_true, decide_eq_true_eq, Char.le_def] at first
        exact Char.utf8Size_eq_one_iff.mpr (UInt32.le_trans first.2 (by decide))
      rw [weightOf_cons, notBlank, size, ih others, List.length_cons, Nat.add_comm]
      rfl

/-- A number weighs no more than digits that have it as their value. -/
theorem weightOf_toDigits_le (blank : Nat) {digits : List Char} (nonempty : digits ≠ [])
    (all : ∀ c ∈ digits, isDigit c = true) :
    weightOf blank (Nat.toDigits 10 (naturalValue digits)) ≤ weightOf blank digits := by
  rw [weightOf_digits blank all, weightOf_digits blank fun _ => isDigit_of_mem_toDigits]
  exact Nat.toDigits_length _ _ _ (List.length_pos_iff.mpr nonempty) (naturalValue_lt all)

theorem integerValue_digits {digits : List Char} (all : ∀ c ∈ digits, isDigit c = true) :
    integerValue digits = naturalValue digits := by
  unfold integerValue
  split
  · exact absurd (all '-' (List.mem_cons_self ..)) (by decide)
  · rfl

theorem toList_repr_natCast (n : Nat) : (n : Int).repr.toList = Nat.toDigits 10 n := by
  change (Int.ofNat n).repr.toList = _
  rw [Int.repr, Nat.toList_repr]

/-- An integer weighs no more than a token of it, and less than a token that begins with
a sign if it begins with none itself. -/
theorem weightOf_repr_le (blank : Nat) {text : List Char} (integer : IsInteger text) :
    weightOf blank (integerValue text).repr.toList +
      (if beginsWord (integerValue text).repr.toList && !beginsWord text then 1 else 0) ≤
        weightOf blank text := by
  obtain ⟨digits, nonempty, all, rfl | rfl⟩ := integer
  · have begins : beginsWord text = true := by
      obtain ⟨c, rest, rfl⟩ := List.exists_cons_of_ne_nil nonempty
      exact isWordChar_of_isDigit (all c (List.mem_cons_self ..))
    rw [begins, integerValue_digits all, toList_repr_natCast]
    simpa using weightOf_toDigits_le blank nonempty all
  · have bound := weightOf_toDigits_le blank nonempty all
    have sign : ∀ rest, weightOf blank ('-' :: rest) = 1 + weightOf blank rest := fun _ => rfl
    have value : integerValue ('-' :: digits) = -(naturalValue digits : Int) := rfl
    rw [sign, value]
    cases number : naturalValue digits with
    | zero =>
        have some := List.length_pos_iff.mpr nonempty
        have zero : weightOf blank (-((0 : Nat) : Int)).repr.toList = 1 := rfl
        rw [weightOf_digits blank all, zero]
        split <;> omega
    | succ n =>
        rw [number] at bound
        have text : (-((n + 1 : Nat) : Int)).repr.toList = '-' :: Nat.toDigits 10 (n + 1) := by
          change (Int.negSucc n).repr.toList = _
          rw [Int.repr, String.toList_append, Nat.toList_repr]
          rfl
        rw [text, sign]
        have begins : beginsWord ('-' :: Nat.toDigits 10 (n + 1)) = false := rfl
        rw [begins]
        simpa using bound

/-- What stands around a tree at least in a text that has no operator outside of
brackets.  A tree that begins with a word stands in parentheses where its text begins
with none. -/
def atomMargin (word : Bool) (tree : TypeExpr) : Nat :=
  if tree.isLoose then 2 else if tree.isWordy && !word then 1 else 0

/-- What stands around a tree at least in a phrase of the category. -/
def Category.margin : Category → TypeExpr → Nat
  | .expression, _ => 0
  | .operand, tree => parentheses tree.isUnion
  | .primary word, tree | .atom word, tree => atomMargin word tree
  | .item .bar, tree | .items .bar, tree => memberMargin tree
  | .item _, _ | .items _, _ => 1

theorem beginsWord_name {text : List Char} (name : IsName text) : beginsWord text = true := by
  obtain ⟨first, others, rfl, ⟨c, rest, rfl, starts, -⟩, -⟩ := name
  exact isWordChar_of_isWordStart starts

/-- The tree of a token weighs no more than the token. -/
theorem Token.totalWeight_le (blank : Nat) (own : Token) :
    totalWeight blank (Category.atom (beginsWord own.text)).margin
      (combine own.rule own.text [] []) ≤ weightOf blank own.text := by
  obtain ⟨rule, text, shape⟩ := own
  have single : ∀ tree, totalWeight blank (Category.atom (beginsWord text)).margin [tree] =
      tree.leastWeight blank + atomMargin (beginsWord text) tree := fun _ => rfl
  -- Only an integer may begin with a word where its token begins with none.
  have wordy : ∀ tree, combine rule text [] [] = [tree] → tree.isLoose = false →
      (tree.isWordy = true → beginsWord text = true) →
      tree.leastWeight blank ≤ weightOf blank text →
      totalWeight blank (Category.atom (beginsWord text)).margin (combine rule text [] []) ≤
        weightOf blank text := by
    intro tree trees tight begins bound
    rw [trees, single, atomMargin, tight]
    cases isWordy : tree.isWordy with
    | false => exact bound
    | true =>
        rw [begins isWordy]
        exact bound
  cases shape with
  | name name =>
      refine wordy (.name (String.ofList text)) rfl rfl (fun _ => beginsWord_name name) ?_
      rw [leastWeight, String.toList_ofList]
  | wildcard => exact wordy .wildcard rfl rfl (fun _ => rfl) (Nat.le_refl 1)
  | ellipsis => exact wordy .ellipsis rfl rfl Bool.noConfusion (Nat.le_refl 3)
  | string quoted =>
      refine wordy (.literal [.str (String.ofList text)]) rfl rfl (fun isWordy => ?_) ?_
      · rwa [isWordy_literal, LiteralValue.shorthandToken, String.toList_ofList] at isWordy
      · rw [leastWeight_literal, LiteralValue.shorthandToken, String.toList_ofList]
  | bytes quoted =>
      refine wordy (.literal [.bytes (String.ofList _)]) rfl rfl (fun _ => rfl) ?_
      rw [leastWeight_literal, LiteralValue.shorthandToken, String.toList_ofList]
  | integer integer =>
      have bound := weightOf_repr_le blank integer
      have trees : combine .integer text [] [] = [.literal [.int (integerValue text)]] := rfl
      have tight : (literal [.int (integerValue text)]).isLoose = false := rfl
      rw [trees, single, atomMargin, tight, isWordy_literal, leastWeight_literal]
      exact bound
  | boolean mem =>
      simp only [wordsOf, List.mem_cons, List.not_mem_nil, or_false] at mem
      rcases mem with rfl | rfl | rfl | rfl
      · exact wordy (.literal [.bool true]) rfl rfl (fun _ => rfl) (Nat.le_refl 4)
      · exact wordy (.literal [.bool false]) rfl rfl (fun _ => rfl) (Nat.le_refl 5)
      · exact wordy (.literal [.bool true]) rfl rfl (fun _ => rfl) (Nat.le_refl 4)
      · exact wordy (.literal [.bool false]) rfl rfl (fun _ => rfl) (Nat.le_refl 5)
  | null mem =>
      simp only [wordsOf, List.mem_cons, List.not_mem_nil, or_false] at mem
      rcases mem with rfl | rfl
      · exact wordy TypeExpr.null rfl rfl (fun _ => rfl) (Nat.le_refl 4)
      · exact wordy TypeExpr.null rfl rfl (fun _ => rfl) (Nat.le_refl 4)

/-! ## Keywords -/

theorem Keyword.exists_keyword? (blank : Nat) (keyword : Keyword) :
    ∃ word, keyword.container.keyword? = some word ∧
      weightOf blank word.toList ≤ weightOf blank keyword.text := by
  -- The two words of a double keyword have one space between them in its name.
  have double : ∀ (between : Blanks), between.chars ≠ [] → ∀ second : List Char,
      weightOf blank ("async".toList ++ (Blanks.space.chars ++ second)) ≤
        weightOf blank ("async".toList ++ (between.chars ++ second)) := by
    intro between apart second
    have gap := between.le_weightOf blank apart
    have space : weightOf blank Blanks.space.chars = blank := Nat.add_zero _
    simp only [weightOf_append, space]
    omega
  cases keyword with
  | await => exact ⟨_, rfl, Nat.le_refl _⟩
  | iter => exact ⟨_, rfl, Nat.le_refl _⟩
  | «with» => exact ⟨_, rfl, Nat.le_refl _⟩
  | asyncIter between apart => exact ⟨_, rfl, double between apart "iter".toList⟩
  | asyncWith between apart => exact ⟨_, rfl, double between apart "with".toList⟩

section

variable {blank : Nat} (small : blank ≤ 1)

include small

omit small in
theorem parentheses_le_atomMargin (word : Bool) (tree : TypeExpr) :
    parentheses tree.isLoose ≤ atomMargin word tree := by
  unfold parentheses atomMargin
  split <;> omega

/-- A keyword and the blanks behind it give its operand the room that it needs. -/
theorem operandMargin_le {word : Bool} {behind : Blanks} (apart : word = true → behind.chars ≠ [])
    (tree : TypeExpr) :
    operandMargin blank tree ≤ weightOf blank behind.chars + atomMargin word tree := by
  unfold operandMargin atomMargin
  split
  · omega
  split
  · rename_i isWordy
    cases word with
    | true =>
        have gap := behind.le_weightOf blank (apart rfl)
        omega
    | false =>
        simp only [isWordy, Bool.not_false, Bool.and_self, if_true]
        omega
  · omega

/-- Keywords in front of an operand weigh what the containers that they make of it add. -/
theorem Prefixes.leastWeight_wrap_le {word : Bool} (prefixes : Prefixes)
    (apart : prefixes.Apart word) (inner : TypeExpr) :
    let wrapped := wrap (prefixes.map fun (keyword, _) => keyword.container) inner
    wrapped.leastWeight blank + parentheses wrapped.isLoose ≤
      weightOf blank prefixes.text + (inner.leastWeight blank + atomMargin word inner) := by
  induction prefixes with
  | nil =>
      have margin := parentheses_le_atomMargin word inner
      change inner.leastWeight blank + parentheses inner.isLoose ≤ 0 + _
      omega
  | cons first others ih =>
      obtain ⟨keyword, behind⟩ := first
      obtain ⟨name, keyword?, nameLe⟩ := keyword.exists_keyword? blank
      have text : weightOf blank (Prefixes.text ((keyword, behind) :: others)) =
          weightOf blank keyword.text + weightOf blank behind.chars +
            weightOf blank (Prefixes.text others) := by
        simp only [Prefixes.text, List.flatMap_cons, weightOf_append]
      have whole := leastWeight_keyword blank keyword?
        (wrap (others.map fun (keyword, _) => keyword.container) inner)
      change leastWeight blank (.container keyword.container [wrap _ inner]) + 0 ≤ _
      rw [whole, text]
      cases others with
      | nil =>
          have gap := operandMargin_le small apart inner
          change weightOf blank name.toList + (inner.leastWeight blank +
            operandMargin blank inner) + 0 ≤ _
          omega
      | cons second more =>
          have inside := ih apart.2
          have gap := behind.le_weightOf blank apart.1
          have margin : ∀ kind args, operandMargin blank (.container kind args) ≤ blank := by
            intro kind args
            unfold operandMargin
            split
            · cases ‹isLoose (.container kind args) = true›
            split <;> omega
          have own := margin second.1.container
            [wrap (more.map fun (keyword, _) => keyword.container) inner]
          simp only [List.map_cons, wrap, List.foldr_cons] at inside own ⊢
          omega

namespace Phrase

omit small in
theorem totalWeight_joined_le (first : TypeExpr) (others : List TypeExpr) :
    totalWeight blank Category.expression.margin (joined (first :: others)) ≤
      first.leastWeight blank + parentheses first.isUnion +
        totalWeight blank memberMargin others := by
  cases others with
  | nil => exact Nat.add_le_add_right (Nat.add_le_add_left (Nat.zero_le _) _) _
  | cons second more =>
      change totalWeight blank memberMargin (first :: second :: more) - 1 + 0 + 0 ≤ _
      rw [totalWeight, memberMargin]
      omega

variable (blank) in
/-- The trees of a phrase without a fault weigh no more than its text. -/
def Covers {category : Category} (phrase : Phrase category) : Prop :=
  phrase.Faultless → totalWeight blank category.margin phrase.trees ≤ weightOf blank phrase.text

omit small in
/-- An argument of a list takes a mark. -/
theorem Covers.argument {phrase : Phrase .expression} (covers : phrase.Covers blank)
    (faultless : phrase.Faultless) :
    totalWeight blank (fun _ => 1) phrase.trees ≤ weightOf blank phrase.text + 1 := by
  obtain ⟨tree, single⟩ := phrase.exists_trees_expression
  have bound := covers faultless
  rw [single, totalWeight_singleton] at bound ⊢
  exact Nat.succ_le_succ bound

omit small in
/-- An expression in parentheses is an atom. -/
theorem Covers.parenthesized {phrase : Phrase .expression} (covers : phrase.Covers blank)
    (faultless : phrase.Faultless) :
    totalWeight blank (Category.atom false).margin phrase.trees ≤
      weightOf blank phrase.text + 2 := by
  obtain ⟨tree, single⟩ := phrase.exists_trees_expression
  have bound := covers faultless
  rw [single, totalWeight_singleton] at bound ⊢
  have margin : atomMargin false tree ≤ 2 := by
    unfold atomMargin
    split
    · exact Nat.le_refl 2
    · split <;> omega
  exact Nat.add_le_add bound margin

omit small in
theorem totalWeight_bracketed {kind : Container} (keyword? : kind.keyword? = none)
    (args : List TypeExpr) :
    totalWeight blank (Category.atom false).margin [.container kind args] =
      1 + totalWeight blank (fun _ => 1) args := by
  have margin : atomMargin false (.container kind args) = 0 := by
    simp [atomMargin, isLoose, isWordy, keyword?]
  rw [totalWeight_singleton, Category.margin, margin, leastWeight, keyword?]
  rfl

theorem covers_operand {word : Bool} (prefixes : Prefixes) (apart : prefixes.Apart word)
    {primary : Phrase (.primary word)} (mark : Option Blanks) (covers : primary.Covers blank) :
    (Phrase.operand prefixes apart primary mark).Covers blank := by
  intro faultless
  obtain ⟨tree, single⟩ := primary.exists_trees_primary faultless
  have bound := covers faultless
  have wrapped := prefixes.leastWeight_wrap_le small apart tree
  rw [single, totalWeight_singleton] at bound
  rw [trees, single, text_operand, weightOf_append, weightOf_append]
  cases mark with
  | none =>
      have margin := parentheses_le_of_imp
        (@isLoose_of_isUnion (wrap (prefixes.map fun (keyword, _) => keyword.container) tree))
      simp only [List.map_cons, List.map_nil, Option.isSome_none, Bool.false_eq_true, if_false,
        totalWeight_singleton, Category.margin] at bound wrapped margin ⊢
      omega
  | some behind =>
      simp only [List.map_cons, List.map_nil, Option.isSome_some, if_true,
        totalWeight_singleton, Category.margin, leastWeight, markText, Option.map_some,
        Option.getD_some, weightOf_mark, isUnion] at bound wrapped ⊢
      have none : parentheses false = 0 := rfl
      omega

omit small in
theorem covers_subscripted {word : Bool} {atom : Phrase (.atom word)} (before inside : Blanks)
    {first : Phrase .expression} {others : Phrase (.items .comma)} (behind : Blanks)
    (atomCovers : atom.Covers blank) (firstCovers : first.Covers blank)
    (othersCovers : others.Covers blank) :
    (Phrase.subscripted atom before inside first others behind).Covers blank := by
  rintro ⟨isName, atomFaultless, firstFaultless, othersFaultless⟩
  obtain ⟨base, name⟩ := atom.exists_name_of_isName isName
  obtain ⟨tree, single⟩ := first.exists_trees_expression
  have atomLe := atomCovers atomFaultless
  have firstLe := firstCovers.argument firstFaultless
  have othersLe := othersCovers othersFaultless
  have commas : (Category.items .comma).margin = fun _ => 1 := rfl
  have margins : atomMargin word (.generic base (tree :: others.trees)) =
      atomMargin word (.name base) := rfl
  rw [commas] at othersLe
  rw [name, totalWeight_singleton] at atomLe
  rw [single, totalWeight_singleton] at firstLe
  simp only [trees, name, single, List.singleton_append, applied, totalWeight_singleton,
    Category.margin, leastWeight, totalWeight, text_subscripted, weightOf_append,
    weightOf_mark, margins] at atomLe ⊢
  omega

omit small in
theorem covers_parens (inside : Blanks) {first : Phrase .expression}
    {others : Phrase (.items .comma)} (closing : Option Blanks) (firstCovers : first.Covers blank)
    (othersCovers : others.Covers blank) :
    (Phrase.parens inside first others closing).Covers blank := by
  rintro ⟨firstFaultless, othersFaultless⟩
  have firstLe := firstCovers.argument firstFaultless
  have othersLe := othersCovers othersFaultless
  have commas : (Category.items .comma).margin = fun _ => 1 := rfl
  rw [commas] at othersLe
  rw [trees, text_parens]
  split
  · have alone := firstCovers.parenthesized firstFaultless
    simp only [weightOf_append, weightOf_mark]
    omega
  · rename_i several
    have margin : atomMargin false (.tuple (first.trees ++ others.trees)) = 0 := rfl
    have closes : (first.trees ++ others.trees).length = 1 →
        1 ≤ weightOf blank (closingComma closing) := by
      intro one
      obtain ⟨tree, single⟩ := first.exists_trees_expression
      have nil : others.isNil = true := by
        rw [isNil_iff_trees_eq_nil]
        simpa [single] using one
      cases closing with
      | none => exact absurd (by rw [nil]; rfl) several
      | some behind => exact Nat.le_add_right 1 _
    rw [totalWeight_singleton, Category.margin, margin]
    simp only [leastWeight, totalWeight_append, weightOf_append, weightOf_mark]
    split
    · rename_i one
      have comma := closes one
      omega
    · omega

theorem covers {category : Category} (phrase : Phrase category) : phrase.Covers blank := by
  have commas : (Category.items .comma).margin = fun _ => 1 := rfl
  have entries : (Category.items .entry).margin = fun _ => 1 := rfl
  induction phrase with
  | expression first others firstCovers othersCovers =>
      rintro ⟨firstFaultless, othersFaultless⟩
      obtain ⟨tree, single⟩ := first.exists_trees_operand firstFaultless
      have firstLe := firstCovers firstFaultless
      rw [single, totalWeight_singleton] at firstLe
      rw [trees, single, text_expression, weightOf_append]
      exact Nat.le_trans (totalWeight_joined_le tree others.trees)
        (Nat.add_le_add firstLe (othersCovers othersFaultless))
  | operand prefixes apart primary mark primaryCovers =>
      exact covers_operand small prefixes apart mark primaryCovers
  | bare atom behind atomCovers =>
      intro faultless
      rw [text_bare, weightOf_append]
      exact Nat.le_add_right_of_le (atomCovers faultless)
  | subscripted atom before inside first others behind atomCovers firstCovers othersCovers =>
      exact covers_subscripted before inside behind atomCovers firstCovers othersCovers
  | token own =>
      intro _
      rw [text_token]
      exact own.totalWeight_le blank
  | parens inside first others closing firstCovers othersCovers =>
      exact covers_parens inside closing firstCovers othersCovers
  | mapping inside key between value others keyCovers valueCovers othersCovers =>
      rintro ⟨keyFaultless, valueFaultless, othersFaultless⟩
      have keyLe := keyCovers.argument keyFaultless
      have valueLe := valueCovers.argument valueFaultless
      have othersLe := othersCovers othersFaultless
      rw [entries] at othersLe
      rw [trees, totalWeight_bracketed rfl, totalWeight_append, totalWeight_append]
      simp only [text_mapping, weightOf_append, weightOf_mark]
      omega
  | set inside first others firstCovers othersCovers =>
      rintro ⟨firstFaultless, othersFaultless⟩
      have firstLe := firstCovers.argument firstFaultless
      have othersLe := othersCovers othersFaultless
      rw [commas] at othersLe
      rw [trees, totalWeight_bracketed rfl, totalWeight_append]
      simp only [text_set, weightOf_append, weightOf_mark]
      omega
  | brackets inside first others firstCovers othersCovers =>
      rintro ⟨firstFaultless, othersFaultless⟩
      have firstLe := firstCovers.argument firstFaultless
      have othersLe := othersCovers othersFaultless
      rw [commas] at othersLe
      rw [trees, totalWeight_bracketed rfl, totalWeight_append]
      simp only [text_brackets, weightOf_append, weightOf_mark]
      omega
  | bar behind next nextCovers =>
      intro faultless
      obtain ⟨tree, single⟩ := next.exists_trees_operand faultless
      have bound := nextCovers faultless
      simp only [trees, single, totalWeight_singleton, Category.margin, memberMargin, text_bar,
        weightOf_append, weightOf_mark] at bound ⊢
      omega
  | comma behind next nextCovers =>
      intro faultless
      have bound := nextCovers.argument faultless
      change totalWeight blank (fun _ => 1) next.trees ≤ _
      simp only [text_comma, weightOf_append, weightOf_mark]
      omega
  | entry behind key between value keyCovers valueCovers =>
      rintro ⟨keyFaultless, valueFaultless⟩
      have keyLe := keyCovers.argument keyFaultless
      have valueLe := valueCovers.argument valueFaultless
      change totalWeight blank (fun _ => 1) (key.trees ++ value.trees) ≤ _
      simp only [totalWeight_append, text_entry, weightOf_append, weightOf_mark]
      omega
  | nil => exact fun _ => Nat.le_refl _
  | @cons repetition first others firstCovers othersCovers =>
      rintro ⟨firstFaultless, othersFaultless⟩
      have margins : (Category.item repetition).margin = (Category.items repetition).margin := by
        cases repetition <;> rfl
      rw [trees, text_cons, totalWeight_append, weightOf_append, ← margins]
      exact Nat.add_le_add (firstCovers firstFaultless) (margins ▸ othersCovers othersFaultless)

end Phrase

/-- A text of a tree weighs no less than the tree at least. -/
theorem ReadsAsExpression.leastWeight_le {text : String} {tree : TypeExpr}
    (reads : ReadsAsExpression text tree) :
    tree.leastWeight blank ≤ weightOf blank text.toList := by
  obtain ⟨before, _, ⟨phrase, rfl, faultless, trees⟩, chars⟩ := reads
  have bound := phrase.covers small faultless
  rw [trees, totalWeight_singleton] at bound
  rw [chars, weightOf_append]
  exact Nat.le_add_left_of_le bound

end

end Source

end TypeSpelling
