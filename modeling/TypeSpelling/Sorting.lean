/-!
# Stable sorting

A list is sorted by inserting each item, from the last to the first, in front of
everything that it may stand in front of.  Items that the order does not tell
apart therefore keep their places among each other, and a list that is in order
stays as it is.
-/

namespace TypeSpelling.Sorting

variable {α : Type}

/-- Inserts an item in front of the first one that it may stand in front of. -/
def insert (le : α → α → Bool) (item : α) : List α → List α
  | [] => [item]
  | first :: rest =>
      if le item first then item :: first :: rest else first :: insert le item rest

/-- The items in order. -/
def sort (le : α → α → Bool) : List α → List α
  | [] => []
  | first :: rest => insert le first (sort le rest)

theorem insert_perm (le : α → α → Bool) (item : α) (items : List α) :
    (insert le item items).Perm (item :: items) := by
  induction items with
  | nil => exact List.Perm.refl _
  | cons first rest ih =>
      unfold insert
      split
      · exact List.Perm.refl _
      · exact (ih.cons first).trans (List.Perm.swap item first rest)

/-- Sorting neither loses nor invents items. -/
theorem sort_perm (le : α → α → Bool) (items : List α) : (sort le items).Perm items := by
  induction items with
  | nil => exact List.Perm.refl _
  | cons first rest ih => exact (insert_perm le first _).trans (ih.cons first)

theorem mem_sort {le : α → α → Bool} {item : α} {items : List α} :
    item ∈ sort le items ↔ item ∈ items :=
  (sort_perm le items).mem_iff

theorem length_sort (le : α → α → Bool) (items : List α) :
    (sort le items).length = items.length :=
  (sort_perm le items).length_eq

theorem pairwise_insert {le : α → α → Bool}
    (total : ∀ left right, le left right = false → le right left = true)
    (trans : ∀ left middle right, le left middle = true → le middle right = true →
      le left right = true)
    (item : α) {items : List α} (ordered : items.Pairwise (le · · = true)) :
    (insert le item items).Pairwise (le · · = true) := by
  induction items with
  | nil => exact List.pairwise_singleton _ _
  | cons first rest ih =>
      obtain ⟨before, restOrdered⟩ := List.pairwise_cons.mp ordered
      unfold insert
      split
      · rename_i here
        refine List.pairwise_cons.mpr ⟨fun other mem => ?_, ordered⟩
        rcases List.mem_cons.mp mem with rfl | later
        · exact here
        · exact trans _ _ _ here (before other later)
      · rename_i later
        refine List.pairwise_cons.mpr ⟨fun other mem => ?_, ih restOrdered⟩
        rcases List.mem_cons.mp ((insert_perm le item rest).mem_iff.mp mem) with rfl | inRest
        · exact total _ _ (by simpa using later)
        · exact before other inRest

/-- Under a total and transitive order the items come out in order. -/
theorem pairwise_sort {le : α → α → Bool}
    (total : ∀ left right, le left right = false → le right left = true)
    (trans : ∀ left middle right, le left middle = true → le middle right = true →
      le left right = true)
    (items : List α) : (sort le items).Pairwise (le · · = true) := by
  induction items with
  | nil => exact List.Pairwise.nil
  | cons first rest ih => exact pairwise_insert total trans first ih

/-- A list that is in order stays as it is. -/
theorem sort_eq_self {le : α → α → Bool} {items : List α}
    (ordered : items.Pairwise (le · · = true)) : sort le items = items := by
  induction items with
  | nil => rfl
  | cons first rest ih =>
      obtain ⟨before, restOrdered⟩ := List.pairwise_cons.mp ordered
      rw [sort, ih restOrdered]
      cases rest with
      | nil => rfl
      | cons second others => simp [insert, before second (List.mem_cons_self ..)]

end TypeSpelling.Sorting
