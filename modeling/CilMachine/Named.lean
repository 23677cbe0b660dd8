/-
CilMachine/Named.lean

Finite maps from names: each name once, in the order in which the names were first given.  Objects
keep their fields in one and types their instance layout.
-/

namespace CilMachine

/-- Named things, in the order in which their names were first given. -/
abbrev Named (α : Type) := List (String × α)

namespace Named

variable {α : Type}

/-- What a name stands for. -/
def get? (xs : Named α) (name : String) : Option α := xs.lookup name

/-- Makes a name stand for something: in its place if the name is there, else at the end. -/
def put (xs : Named α) (name : String) (a : α) : Named α :=
  match xs with
  | [] => [(name, a)]
  | (n, b) :: rest => if n = name then (n, a) :: rest else (n, b) :: put rest name a

/-- Collects pairs; a later pair of a name replaces an earlier one. -/
def ofPairs (pairs : List (String × α)) : Named α :=
  pairs.foldl (fun xs p => put xs p.1 p.2) []

/-- The names, in order. -/
def names (xs : Named α) : List String := xs.map Prod.fst

theorem get?_cons (p : String × α) (xs : Named α) (name : String) :
    get? (p :: xs) name = if name = p.1 then some p.2 else get? xs name := by
  rw [get?, List.lookup_cons, get?]
  by_cases h : name = p.1
  · simp [h]
  · rw [if_neg h, beq_false_of_ne h]

theorem get?_put_self (xs : Named α) (name : String) (a : α) :
    (xs.put name a).get? name = some a := by
  induction xs with
  | nil => simp [put, get?_cons]
  | cons p rest ih =>
    rw [put]
    split
    · next h => simp [get?_cons, h]
    · next h => rw [get?_cons, if_neg fun e => h e.symm, ih]

theorem get?_put_of_ne {xs : Named α} {name other : String} (a : α) (hne : other ≠ name) :
    (xs.put name a).get? other = xs.get? other := by
  induction xs with
  | nil => simp [put, get?_cons, hne]
  | cons p rest ih =>
    rw [put]
    split
    · next h => rw [get?_cons, get?_cons, if_neg (h ▸ hne), if_neg (h ▸ hne)]
    · rw [get?_cons, get?_cons, ih]

theorem mem_of_get? {xs : Named α} {name : String} {a : α} (h : xs.get? name = some a) :
    (name, a) ∈ xs := by
  obtain ⟨l₁, l₂, rfl, -⟩ := List.lookup_eq_some_iff.1 h
  simp

theorem isSome_get? {xs : Named α} {name : String} :
    (xs.get? name).isSome ↔ name ∈ xs.names := by
  simp [get?, names, List.lookup_isSome_iff]

/-- Putting adds the pair that is put, and no other. -/
theorem mem_put {xs : Named α} {name : String} {a : α} {p : String × α}
    (h : p ∈ xs.put name a) : p ∈ xs ∨ p = (name, a) := by
  induction xs with
  | nil => exact .inr (List.mem_singleton.1 h)
  | cons q rest ih =>
    rw [put] at h
    split at h
    · next hname =>
      rcases List.mem_cons.1 h with rfl | h
      · exact .inr (by rw [hname])
      · exact .inl (List.mem_cons_of_mem q h)
    · rcases List.mem_cons.1 h with rfl | h
      · exact .inl List.mem_cons_self
      · exact (ih h).imp (List.mem_cons_of_mem q) id

/-- A name that is there keeps its place. -/
theorem names_put {xs : Named α} {name : String} (a : α) (h : (xs.get? name).isSome) :
    (xs.put name a).names = xs.names := by
  induction xs with
  | nil => cases h
  | cons p rest ih =>
    rw [put]
    split
    · simp [names]
    · next hne =>
      rw [get?_cons, if_neg fun e => hne e.symm] at h
      have hrest := ih h
      simp only [names, List.map_cons] at hrest ⊢
      rw [hrest]

end Named

end CilMachine
