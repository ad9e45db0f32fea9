/-!
# Values by name

A finite map from names to values, kept in ascending order of the names. Names
are compared by code points, which is the order of their UTF-8 bytes.
`find?_insert` says what insertion changes.
-/

namespace BlockTensor

def insertNamed {α : Type} (name : String) (value : α) : List (String × α) → List (String × α)
  | [] => [(name, value)]
  | (other, old) :: rest =>
    if name < other then (name, value) :: (other, old) :: rest
    else if name = other then (name, value) :: rest
    else (other, old) :: insertNamed name value rest

theorem mem_insertNamed {α : Type} {name : String} {value : α} {items : List (String × α)}
    {item : String × α} (h : item ∈ insertNamed name value items) :
    item = (name, value) ∨ item ∈ items := by
  induction items with
  | nil => simpa [insertNamed] using h
  | cons head rest ih =>
    obtain ⟨other, old⟩ := head
    simp only [insertNamed] at h
    split at h
    · simpa using h
    · split at h
      · simp only [List.mem_cons] at h ⊢
        rcases h with h | h
        · exact .inl h
        · exact .inr (.inr h)
      · simp only [List.mem_cons] at h ⊢
        rcases h with h | h
        · exact .inr (.inl h)
        · rcases ih h with h | h
          · exact .inl h
          · exact .inr (.inr h)

def Ascending {α : Type} (items : List (String × α)) : Prop :=
  items.Pairwise fun left right => left.1 < right.1

theorem Ascending.insertNamed {α : Type} {items : List (String × α)} (h : Ascending items)
    (name : String) (value : α) : Ascending (insertNamed name value items) := by
  induction items with
  | nil => simp [Ascending, BlockTensor.insertNamed]
  | cons head rest ih =>
    obtain ⟨other, old⟩ := head
    obtain ⟨hhead, hrest⟩ := List.pairwise_cons.mp h
    simp only [BlockTensor.insertNamed]
    split
    next hlt =>
      refine List.pairwise_cons.mpr ⟨fun item hitem => ?_, h⟩
      rcases List.mem_cons.mp hitem with rfl | hitem
      · exact hlt
      · exact String.lt_trans hlt (hhead item hitem)
    next hlt =>
      split
      next heq =>
        subst heq
        exact List.pairwise_cons.mpr ⟨hhead, hrest⟩
      next hne =>
        have hgt : other < name := Std.lt_of_le_of_ne (String.not_lt.mp hlt) (Ne.symm hne)
        refine List.pairwise_cons.mpr ⟨fun item hitem => ?_, ih hrest⟩
        rcases mem_insertNamed hitem with rfl | hitem
        · exact hgt
        · exact hhead item hitem

theorem lookup_cons_eq {α : Type} (name key : String) (value : α) (items : List (String × α)) :
    ((name, value) :: items).lookup key = if key = name then some value else items.lookup key := by
  by_cases h : key = name
  · simp [h]
  · have hne : (key == name) = false := beq_false_of_ne h
    simp [List.lookup_cons, hne, h]

theorem lookup_insertNamed {α : Type} (name key : String) (value : α) (items : List (String × α)) :
    (insertNamed name value items).lookup key =
      if key = name then some value else items.lookup key := by
  induction items with
  | nil => simp only [BlockTensor.insertNamed, lookup_cons_eq]
  | cons head rest ih =>
    obtain ⟨other, old⟩ := head
    simp only [BlockTensor.insertNamed]
    split
    · simp only [lookup_cons_eq]
    · split
      next heq =>
        subst heq
        simp only [lookup_cons_eq]
        split <;> rfl
      next hne =>
        simp only [lookup_cons_eq, ih]
        by_cases h : key = name
        · have hother : key ≠ other := fun heq => hne (h.symm.trans heq)
          simp [h, h ▸ hother]
        · simp [h]

structure Named (α : Type) where
  items : List (String × α)
  ascending : Ascending items

namespace Named

variable {α : Type}

def empty : Named α := ⟨[], .nil⟩

/-- Puts a value under a name, over an older one. -/
def insert (map : Named α) (name : String) (value : α) : Named α :=
  ⟨insertNamed name value map.items, map.ascending.insertNamed name value⟩

/-- The map of a list; of two values under one name the later counts. -/
def ofList (items : List (String × α)) : Named α :=
  items.foldl (fun map item => map.insert item.1 item.2) empty

def find? (map : Named α) (name : String) : Option α := map.items.lookup name

theorem find?_insert (map : Named α) (name key : String) (value : α) :
    (map.insert name value).find? key = if key = name then some value else map.find? key :=
  lookup_insertNamed name key value map.items

def contains (map : Named α) (name : String) : Bool := (map.find? name).isSome

end Named

end BlockTensor
