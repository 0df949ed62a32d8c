import DeltaBlue.Solver

/-!
# What a look-up finds after a change

An arena is a map from keys to values as far as look-ups can tell. Each lemma says what every key
finds after one operation: `get?_modify`, `get?_erase` and `get?_of_insert` for arenas, and the
lemmas on `variableAt?` and `constraintAt?` for solvers. After this module no proof opens a slot.
-/

namespace DeltaBlue

namespace Arena

variable {k : Kind} {α : Type}

/-- Two keys for one slot that is occupied under the generation of the first are equal as soon as
the second has that generation too. -/
theorem get?_eq_none_of_ne {a : Arena k α} {key key' : Key k} {x : α} (h : a.get? key = some x)
    (hindex : key'.index = key.index) (hne : key' ≠ key) : a.get? key' = none := by
  obtain ⟨slot, hslot, hgen, hx⟩ := get?_eq_some_iff.1 h
  cases hk : a.get? key' with
  | none => rfl
  | some y =>
    obtain ⟨slot', hslot', hgen', _⟩ := get?_eq_some_iff.1 hk
    rw [hindex, hslot] at hslot'
    obtain rfl := Option.some.inj hslot'
    exact absurd (Key.ext hindex (hgen'.symm.trans hgen)) hne

/-- After a change under `key`, that key finds the changed value, and every other key finds what it
found before. -/
theorem get?_modify (a : Arena k α) (key key' : Key k) (f : α → α) :
    (a.modify key f).get? key' = if key' = key then (a.get? key).map f else a.get? key' := by
  unfold modify
  split
  · next h =>
    by_cases hk : key' = key
    · rw [if_pos hk, hk, h]
      rfl
    · rw [if_neg hk]
  · next x h =>
    obtain ⟨slot, hslot, hgen, _⟩ := get?_eq_some_iff.1 h
    by_cases hk : key' = key
    · have hnew : (if key' = key then (a.get? key).map f else a.get? key') = some (f x) := by
        rw [if_pos hk, h, Option.map_some]
      rw [hnew, get?_eq_some_iff, hk]
      refine ⟨⟨slot.vacated, some (f x)⟩, ?_, hgen, rfl⟩
      simp [Array.getElem?_modify, hslot]
    · rw [if_neg hk]
      -- a key for the same slot has another generation, and found nothing before either
      by_cases hindex : key'.index = key.index
      · rw [get?_eq_none_of_ne h hindex hk]
        unfold get?
        simp only [Array.getElem?_modify, hindex, hslot, if_true, Option.map_some]
        rw [if_neg]
        intro hgen'
        exact hk (Key.ext hindex (hgen'.symm.trans hgen))
      · unfold get?
        rw [Array.getElem?_modify, if_neg fun e => hindex e.symm]

/-- After `key` is erased it finds nothing, and every other key finds what it found before. -/
theorem get?_erase (a : Arena k α) (key key' : Key k) :
    (a.erase key).get? key' = if key' = key then none else a.get? key' := by
  unfold erase
  split
  · next h =>
    by_cases hk : key' = key
    · rw [if_pos hk, hk, h]
    · rw [if_neg hk]
  · next x h =>
    obtain ⟨slot, hslot, hgen, _⟩ := get?_eq_some_iff.1 h
    -- whatever generation a key for the slot has, the slot is vacant now
    by_cases hindex : key'.index = key.index
    · have hnone : (if key' = key then none else a.get? key') = none := by
        by_cases hk : key' = key
        · rw [if_pos hk]
        · rw [if_neg hk, get?_eq_none_of_ne h hindex hk]
      rw [hnone]
      unfold get?
      simp [Array.getElem?_modify, hindex, hslot]
    · rw [if_neg fun e => hindex (congrArg Key.index e)]
      unfold get?
      rw [Array.getElem?_modify, if_neg fun e => hindex e.symm]

/-- An inserted value gets a key that found nothing before; afterwards that key finds the value and
every other key finds what it found before. -/
theorem get?_of_insert {a a' : Arena k α} {x : α} {key : Key k} (h : a.insert x = .ok (key, a')) :
    a.get? key = none ∧ ∀ key', a'.get? key' = if key' = key then some x else a.get? key' := by
  unfold insert at h
  split at h
  · next i rest hfree =>
    -- a slot that was vacated is filled again under its present generation
    obtain ⟨n, hslot⟩ := (a.mem_free i).1 (by rw [hfree]; exact List.mem_cons_self)
    simp only [hslot, Except.ok.injEq, Prod.mk.injEq] at h
    obtain ⟨rfl, rfl⟩ := h
    refine ⟨by unfold get?; simp [hslot], fun key' => ?_⟩
    by_cases hindex : key'.index = i
    · have hold : a.get? key' = none := by
        unfold get?
        simp [hindex, hslot]
      rw [hold]
      unfold get? fill
      simp only [Array.getElem?_modify, hindex, hslot, if_true, Option.map_some]
      by_cases hgen : (⟨n, some x⟩ : Slot α).generation = key'.generation
      · rw [if_pos hgen, if_pos (Key.ext hindex hgen.symm)]
      · rw [if_neg hgen, if_neg]
        rintro rfl
        exact hgen rfl
    · rw [if_neg fun e => hindex (congrArg Key.index e)]
      unfold get? fill
      rw [Array.getElem?_modify, if_neg fun e => hindex e.symm]
  · split at h
    · next hsize =>
      -- no slot is vacant, and a new one is added at the end
      simp only [Except.ok.injEq, Prod.mk.injEq] at h
      obtain ⟨rfl, rfl⟩ := h
      refine ⟨by unfold get?; simp, fun key' => ?_⟩
      by_cases hindex : key'.index = a.slots.size
      · have hold : a.get? key' = none := by
          unfold get?
          simp [hindex]
        rw [hold]
        unfold get? grow
        simp only [Array.getElem?_push, hindex, if_true]
        by_cases hgen : (⟨0, some x⟩ : Slot α).generation = key'.generation
        · rw [if_pos hgen, if_pos (Key.ext hindex hgen.symm)]
        · rw [if_neg hgen, if_neg]
          rintro rfl
          exact hgen rfl
      · rw [if_neg fun e => hindex (congrArg Key.index e)]
        unfold get? grow
        rw [Array.getElem?_push, if_neg hindex]
    · cases h

/-- A change under a key that finds nothing changes nothing. -/
theorem modify_eq_self {a : Arena k α} {key : Key k} (h : a.get? key = none) (f : α → α) :
    a.modify key f = a := by
  unfold modify
  split
  · rfl
  · next hsome => cases h.symm.trans hsome

/-- Nothing is erased under a key that finds nothing. -/
theorem erase_eq_self {a : Arena k α} {key : Key k} (h : a.get? key = none) : a.erase key = a := by
  unfold erase
  split
  · rfl
  · next hsome => cases h.symm.trans hsome

/-- Where nothing was inserted nothing is found. -/
@[simp] theorem get?_empty (key : Key k) : (empty : Arena k α).get? key = none := by
  unfold get? empty
  simp

/-- The occupied slots of a list, by position. -/
theorem mem_occupied {i : Nat} {slots : List (Slot α)} {key : Key k} {x : α} :
    (key, x) ∈ occupied i slots ↔
      ∃ j slot, slots[j]? = some slot ∧ key.index = i + j ∧ slot.generation = key.generation ∧
        slot.value = some x := by
  induction slots generalizing i with
  | nil => simp [occupied]
  | cons head rest ih =>
    -- position zero is the head, and position `j + 1` is position `j` of the rest
    have hsplit : (∃ j slot, (head :: rest)[j]? = some slot ∧ key.index = i + j ∧
        slot.generation = key.generation ∧ slot.value = some x) ↔
        (key.index = i ∧ head.generation = key.generation ∧ head.value = some x) ∨
          (key, x) ∈ occupied (i + 1) rest := by
      rw [ih]
      constructor
      · rintro ⟨j, slot, hslot, hindex, hgen, hx⟩
        cases j with
        | zero =>
          obtain rfl := Option.some.inj hslot
          exact .inl ⟨hindex, hgen, hx⟩
        | succ j => exact .inr ⟨j, slot, hslot, by omega, hgen, hx⟩
      · rintro (⟨hindex, hgen, hx⟩ | ⟨j, slot, hslot, hindex, hgen, hx⟩)
        · exact ⟨0, head, rfl, hindex, hgen, hx⟩
        · exact ⟨j + 1, slot, hslot, by omega, hgen, hx⟩
    rw [hsplit]
    -- only an occupied head contributes a pair
    cases hv : head.value with
    | none => simp [occupied, hv]
    | some y =>
      simp only [occupied, hv, List.mem_cons, Prod.mk.injEq, Option.some.injEq]
      constructor
      · rintro (⟨rfl, rfl⟩ | h)
        · exact .inl ⟨rfl, rfl, rfl⟩
        · exact .inr h
      · rintro (⟨hindex, hgen, rfl⟩ | h)
        · exact .inl ⟨Key.ext hindex hgen.symm, rfl⟩
        · exact .inr h

/-- An arena lists exactly the pairs that look-ups find. -/
theorem mem_toList {a : Arena k α} {key : Key k} {x : α} :
    (key, x) ∈ a.toList ↔ a.get? key = some x := by
  rw [toList, mem_occupied, get?_eq_some_iff]
  constructor
  · rintro ⟨j, slot, hslot, hindex, hgen, hx⟩
    rw [Nat.zero_add] at hindex
    subst hindex
    exact ⟨slot, by simpa using hslot, hgen, hx⟩
  · rintro ⟨slot, hslot, hgen, hx⟩
    exact ⟨key.index, slot, by simpa using hslot, (Nat.zero_add _).symm, hgen, hx⟩

/-- The keys that are listed are those that find a value. -/
theorem mem_keys {a : Arena k α} {key : Key k} : key ∈ a.keys ↔ (a.get? key).isSome := by
  rw [Option.isSome_iff_exists, keys, List.mem_map]
  constructor
  · rintro ⟨⟨key, x⟩, hmem, rfl⟩
    exact ⟨x, mem_toList.1 hmem⟩
  · exact fun ⟨x, hx⟩ => ⟨(key, x), mem_toList.2 hx, rfl⟩

end Arena

namespace Solver

variable {W T : Type} (s : Solver W T)

/-- A new solver has no variables. -/
@[simp] theorem variableAt?_empty (config : Config) (v : VarId) :
    (empty config : Solver W T).variableAt? v = none :=
  Arena.get?_empty v

/-- A new solver has no constraints. -/
@[simp] theorem constraintAt?_empty (config : Config) (c : ConstraintId) :
    (empty config : Solver W T).constraintAt? c = none :=
  Arena.get?_empty c

/-- A change of a variable is a change of this variable alone. -/
@[simp] theorem variableAt?_modifyVariable (v u : VarId) (f : Variable T → Variable T) :
    (s.modifyVariable v f).variableAt? u =
      if u = v then (s.variableAt? v).map f else s.variableAt? u :=
  Arena.get?_modify s.vars v u f

/-- A change of a variable leaves the constraints. -/
@[simp] theorem constraintAt?_modifyVariable (v : VarId) (f : Variable T → Variable T)
    (c : ConstraintId) : (s.modifyVariable v f).constraintAt? c = s.constraintAt? c := rfl

/-- A change of a constraint is a change of this constraint alone. -/
@[simp] theorem constraintAt?_modifyConstraint (c k : ConstraintId)
    (f : Constraint W T → Constraint W T) :
    (s.modifyConstraint c f).constraintAt? k =
      if k = c then (s.constraintAt? c).map f else s.constraintAt? k :=
  Arena.get?_modify s.constraints c k f

/-- A change of a constraint leaves the variables. -/
@[simp] theorem variableAt?_modifyConstraint (c : ConstraintId)
    (f : Constraint W T → Constraint W T) (v : VarId) :
    (s.modifyConstraint c f).variableAt? v = s.variableAt? v := rfl

/-- Change each variable of a list; those that do not exist are passed over. -/
def modifyVariables (vs : List VarId) (f : Variable T → Variable T) : Solver W T :=
  vs.foldl (fun s v => s.modifyVariable v f) s

/-- A change of a list of variables leaves the constraints. -/
@[simp] theorem constraintAt?_modifyVariables (vs : List VarId) (f : Variable T → Variable T)
    (c : ConstraintId) : (s.modifyVariables vs f).constraintAt? c = s.constraintAt? c := by
  unfold modifyVariables
  induction vs generalizing s with
  | nil => rfl
  | cons v vs ih => rw [List.foldl_cons, ih, constraintAt?_modifyVariable]

/-- Of a list without repetition, each variable is changed once. -/
theorem variableAt?_modifyVariables {vs : List VarId} (hvs : vs.Nodup)
    (f : Variable T → Variable T) (u : VarId) :
    (s.modifyVariables vs f).variableAt? u =
      if u ∈ vs then (s.variableAt? u).map f else s.variableAt? u := by
  unfold modifyVariables
  induction vs generalizing s with
  | nil => simp
  | cons v vs ih =>
    obtain ⟨hv, hvs⟩ := List.nodup_cons.1 hvs
    rw [List.foldl_cons, ih _ hvs, variableAt?_modifyVariable]
    -- the head is changed first, and it is not in the rest of the list, which would change it again
    by_cases hu : u = v
    · subst hu
      simp [hv]
    · simp [hu]

/-- A change of a list of variables touches nothing but the variables. -/
theorem modifyVariables_eq (vs : List VarId) (f : Variable T → Variable T) :
    s.modifyVariables vs f = { s with vars := (s.modifyVariables vs f).vars } := by
  unfold modifyVariables
  induction vs generalizing s with
  | nil => rfl
  | cons v vs ih => rw [List.foldl_cons, ih, modifyVariable]

end Solver

end DeltaBlue
