/-!
# Sorting by insertion

`sortBy` puts a list into the order of a test. It is a permutation of the list.
-/

namespace BlockTensor

variable {α : Type}

def insertBy (precedes : α → α → Bool) (item : α) : List α → List α
  | [] => [item]
  | head :: rest =>
    if precedes item head then item :: head :: rest else head :: insertBy precedes item rest

def sortBy (precedes : α → α → Bool) : List α → List α
  | [] => []
  | item :: rest => insertBy precedes item (sortBy precedes rest)

theorem perm_insertBy (precedes : α → α → Bool) (item : α) (items : List α) :
    (insertBy precedes item items).Perm (item :: items) := by
  induction items with
  | nil => exact .refl _
  | cons head rest ih =>
    simp only [insertBy]
    split
    · exact .refl _
    · exact (ih.cons head).trans (.swap item head rest)

theorem perm_sortBy (precedes : α → α → Bool) (items : List α) :
    (sortBy precedes items).Perm items := by
  induction items with
  | nil => exact .refl _
  | cons item rest ih => exact (perm_insertBy precedes item _).trans (ih.cons item)

end BlockTensor
