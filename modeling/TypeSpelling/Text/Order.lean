/-!
# The order of texts

Texts are ordered like words in a dictionary, character by character, where a
character comes before another if its code point is smaller.  Any two texts can
be compared, and texts that come before each other are equal.
-/

namespace TypeSpelling.Text

/-- Whether the first run of characters comes before the second or equals it. -/
def charsLe : List Char → List Char → Bool
  | [], _ => true
  | _ :: _, [] => false
  | left :: lefts, right :: rights =>
      left.toNat < right.toNat || (left.toNat = right.toNat && charsLe lefts rights)

theorem charsLe_total : ∀ left right, charsLe left right = false → charsLe right left = true
  | [], _ => by simp [charsLe]
  | _ :: _, [] => by simp [charsLe]
  | left :: lefts, right :: rights => by
      have ih := charsLe_total lefts rights
      simp only [charsLe, Bool.or_eq_false_iff, Bool.or_eq_true, Bool.and_eq_true,
        Bool.and_eq_false_iff, decide_eq_true_eq, decide_eq_false_iff_not]
      rintro ⟨notLess, notSame | notBefore⟩
      · exact .inl (by omega)
      · by_cases same : right.toNat = left.toNat
        · exact .inr ⟨same, ih notBefore⟩
        · exact .inl (by omega)

theorem charsLe_trans : ∀ left middle right,
    charsLe left middle = true → charsLe middle right = true → charsLe left right = true
  | [], _, _ => by simp [charsLe]
  | _ :: _, [], _ => by simp [charsLe]
  | _ :: _, _ :: _, [] => by simp [charsLe]
  | left :: lefts, middle :: middles, right :: rights => by
      have ih := charsLe_trans lefts middles rights
      simp only [charsLe, Bool.or_eq_true, Bool.and_eq_true, decide_eq_true_eq]
      rintro (less | ⟨same, before⟩) (nextLess | ⟨nextSame, nextBefore⟩)
      · exact .inl (by omega)
      · exact .inl (by omega)
      · exact .inl (by omega)
      · exact .inr ⟨by omega, ih before nextBefore⟩

theorem charsLe_antisymm : ∀ left right,
    charsLe left right = true → charsLe right left = true → left = right
  | [], [] => by simp
  | [], _ :: _ => by simp [charsLe]
  | _ :: _, [] => by simp [charsLe]
  | left :: lefts, right :: rights => by
      have ih := charsLe_antisymm lefts rights
      simp only [charsLe, Bool.or_eq_true, Bool.and_eq_true, decide_eq_true_eq]
      rintro (less | ⟨same, before⟩) (nextLess | ⟨nextSame, nextBefore⟩)
      · omega
      · omega
      · omega
      · rw [ih before nextBefore, Char.ext (UInt32.toNat_inj.mp same)]

/-- Whether the first text comes before the second or equals it. -/
def textLe (left right : String) : Bool :=
  charsLe left.toList right.toList

theorem textLe_total (left right : String) :
    textLe left right = false → textLe right left = true :=
  charsLe_total _ _

theorem textLe_trans (left middle right : String) :
    textLe left middle = true → textLe middle right = true → textLe left right = true :=
  charsLe_trans _ _ _

theorem textLe_antisymm (left right : String) :
    textLe left right = true → textLe right left = true → left = right :=
  fun before after => String.toList_inj.mp (charsLe_antisymm _ _ before after)

end TypeSpelling.Text
