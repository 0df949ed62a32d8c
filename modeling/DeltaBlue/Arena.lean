import DeltaBlue.Key

/-!
# Slot arenas

An arena keeps values in numbered slots and hands out an identifier for each value inserted. A
vacated slot is used again, most recently vacated first, under the next generation, so indices stay
dense while an identifier from before its slot was vacated finds nothing.

The invariant is part of the type: the free list holds exactly the vacant slots, each once, and the
number of slots is at most `Arena.maxSlots`.
-/

namespace DeltaBlue

/-- One slot and its occupant. -/
structure Slot (α : Type) where
  /-- How many times the slot was vacated. -/
  vacated : Nat
  /-- The occupant; a vacant slot has none. -/
  value : Option α

/-- The generation of the identifier under which a slot is, or will be, occupied. -/
def Slot.generation {α : Type} (slot : Slot α) : UInt32 := UInt32.ofNat slot.vacated

/-- Why a value could not be stored. -/
inductive ArenaError
  /-- Every slot is occupied and no more can be allocated. -/
  | capacityExceeded (slots : Nat)
  deriving DecidableEq

/-- The message of an arena error. -/
def ArenaError.message : ArenaError → String
  | capacityExceeded slots => s!"arena capacity exceeded: {slots} slots allocated"

/-- The largest number of slots of an arena. -/
def Arena.maxSlots : Nat := UInt32.size - 1

/-- Values of type `α` addressed by identifiers of kind `k`. -/
structure Arena (k : Kind) (α : Type) where
  /-- The slots, by index. -/
  slots : Array (Slot α)
  /-- The vacant slots, most recently vacated first. -/
  free : List Nat
  /-- The free list holds exactly the vacant slots. -/
  mem_free : ∀ i, i ∈ free ↔ ∃ n, slots[i]? = some ⟨n, none⟩
  /-- No slot is free twice. -/
  free_nodup : free.Nodup
  /-- The number of slots is bounded. -/
  size_le : slots.size ≤ Arena.maxSlots

namespace Arena

variable {k : Kind} {α : Type}

/-- The arena without slots. -/
def empty : Arena k α where
  slots := #[]
  free := []
  mem_free := by simp
  free_nodup := List.nodup_nil
  size_le := Nat.zero_le _

/-- The value stored under `key`. -/
def get? (a : Arena k α) (key : Key k) : Option α :=
  match a.slots[key.index]? with
  | some slot => if slot.generation = key.generation then slot.value else none
  | none => none

/-- Whether a value is stored under `key`. -/
def contains (a : Arena k α) (key : Key k) : Bool := (a.get? key).isSome

/-- A key finds its value exactly when its slot is occupied under the key's generation. -/
theorem get?_eq_some_iff {a : Arena k α} {key : Key k} {x : α} :
    a.get? key = some x ↔
      ∃ slot, a.slots[key.index]? = some slot ∧ slot.generation = key.generation ∧
        slot.value = some x := by
  unfold get?
  split
  · next slot h =>
    rw [h]
    by_cases hg : slot.generation = key.generation <;> simp [hg]
  · next h => simp [h]

/-- The slot of a key that finds something is not free. -/
theorem not_mem_free {a : Arena k α} {key : Key k} {x : α} (h : a.get? key = some x) :
    key.index ∉ a.free := by
  obtain ⟨slot, hslot, _, hx⟩ := get?_eq_some_iff.1 h
  rw [a.mem_free, hslot]
  rintro ⟨n, hn⟩
  rw [Option.some.inj hn] at hx
  simp at hx

/-- Store `x` in the vacant slot `i` under the slot's generation. -/
def fill (a : Arena k α) (i : Nat) (rest : List Nat) (h : a.free = i :: rest) (x : α) :
    Arena k α where
  slots := a.slots.modify i fun slot => ⟨slot.vacated, some x⟩
  free := rest
  mem_free := by
    intro j
    have nodup := a.free_nodup
    have spec := a.mem_free j
    rw [h] at nodup spec
    rw [Array.getElem?_modify]
    by_cases hj : i = j
    · subst hj
      have hi : i ∉ rest := (List.nodup_cons.1 nodup).1
      simp [hi]
    · have hj' : j ≠ i := fun e => hj e.symm
      simpa [hj, hj'] using spec
  free_nodup := by
    have nodup := a.free_nodup
    rw [h] at nodup
    exact (List.nodup_cons.1 nodup).2
  size_le := by simpa using a.size_le

/-- Store `x` in a new slot, in its first generation. -/
def grow (a : Arena k α) (h : a.slots.size < maxSlots) (x : α) : Arena k α where
  slots := a.slots.push ⟨0, some x⟩
  free := a.free
  mem_free := by
    intro j
    rw [a.mem_free, Array.getElem?_push]
    by_cases hj : j = a.slots.size
    · subst hj
      simp
    · simp [hj]
  free_nodup := a.free_nodup
  size_le := by
    rw [Array.size_push]
    exact h

/-- Store a value and give its key: in the slot vacated last, else in a new one. -/
def insert (a : Arena k α) (x : α) : Except ArenaError (Key k × Arena k α) :=
  match h : a.free with
  | i :: rest =>
    let generation := match a.slots[i]? with
      | some slot => slot.generation
      | none => 0
    .ok (⟨i, generation⟩, a.fill i rest h x)
  | [] =>
    if h : a.slots.size < maxSlots then .ok (⟨a.slots.size, 0⟩, a.grow h x)
    else .error (.capacityExceeded a.slots.size)

/-- Replace the value under `key` by its image under `f`; a key that finds nothing changes
nothing. -/
def modify (a : Arena k α) (key : Key k) (f : α → α) : Arena k α :=
  match h : a.get? key with
  | none => a
  | some x =>
    { a with
      slots := a.slots.modify key.index fun slot => ⟨slot.vacated, some (f x)⟩
      mem_free := by
        intro j
        rw [Array.getElem?_modify]
        by_cases hj : key.index = j
        · subst hj
          simp [not_mem_free h]
        · simpa [hj] using a.mem_free j
      size_le := by simpa using a.size_le }

/-- Replace the value under `key`; a key that finds nothing changes nothing. -/
def set (a : Arena k α) (key : Key k) (x : α) : Arena k α := a.modify key fun _ => x

/-- Take the value under `key` away and vacate its slot; a key that finds nothing changes
nothing. -/
def erase (a : Arena k α) (key : Key k) : Arena k α :=
  match h : a.get? key with
  | none => a
  | some _ =>
    { slots := a.slots.modify key.index fun slot => ⟨slot.vacated + 1, none⟩
      free := key.index :: a.free
      mem_free := by
        intro j
        obtain ⟨slot, hk, _, _⟩ := get?_eq_some_iff.1 h
        rw [Array.getElem?_modify]
        by_cases hj : key.index = j
        · subst hj
          simp [hk]
        · have hj' : j ≠ key.index := fun e => hj e.symm
          simpa [hj, hj'] using a.mem_free j
      free_nodup := List.nodup_cons.2 ⟨not_mem_free h, a.free_nodup⟩
      size_le := by simpa using a.size_le }

/-- The occupied slots of a list of slots that starts at index `i`, with their keys. -/
def occupied (i : Nat) : List (Slot α) → List (Key k × α)
  | [] => []
  | slot :: rest =>
    match slot.value with
    | none => occupied (i + 1) rest
    | some x => (⟨i, slot.generation⟩, x) :: occupied (i + 1) rest

/-- The stored values with their keys, by slot. -/
def toList (a : Arena k α) : List (Key k × α) := occupied 0 a.slots.toList

/-- The keys in use, by slot. -/
def keys (a : Arena k α) : List (Key k) := a.toList.map (·.1)

/-- The stored values, by slot. -/
def values (a : Arena k α) : List α := a.toList.map (·.2)

/-- The number of stored values. -/
def size (a : Arena k α) : Nat := a.slots.size - a.free.length

/-- Whether no value is stored. -/
def isEmpty (a : Arena k α) : Bool := a.size == 0

end Arena

end DeltaBlue
