/-!
# Ordered sets

A set that remembers the order in which its members were first inserted. It serves as the incidence
set of a variable, as the list of variables of a constraint, and as a worklist: `pop?` takes the
oldest member, and inserting a member that is already present changes nothing.
-/

namespace DeltaBlue

/-- A finite set with its members in order of first insertion. -/
@[ext] structure OrderedSet (α : Type) where
  /-- The members, oldest first. -/
  toList : List α
  /-- No member is listed twice. -/
  nodup : toList.Nodup

namespace OrderedSet

variable {α : Type}

/-- The set without members. -/
def empty : OrderedSet α := ⟨[], List.nodup_nil⟩

/-- The set with one member. -/
def singleton (a : α) : OrderedSet α := ⟨[a], by simp⟩

instance : Membership α (OrderedSet α) := ⟨fun s a => a ∈ s.toList⟩

/-- The members of a set are those of its list. -/
theorem mem_def {a : α} {s : OrderedSet α} : a ∈ s ↔ a ∈ s.toList := Iff.rfl

instance [DecidableEq α] (a : α) (s : OrderedSet α) : Decidable (a ∈ s) :=
  inferInstanceAs (Decidable (a ∈ s.toList))

/-- The oldest member and the set of the others. -/
def pop? (s : OrderedSet α) : Option (α × OrderedSet α) :=
  match s with
  | ⟨[], _⟩ => none
  | ⟨a :: rest, h⟩ => some (a, ⟨rest, (List.nodup_cons.1 h).2⟩)

variable [DecidableEq α]

/-- Insert a member as the newest one, unless it is present. -/
def insert (s : OrderedSet α) (a : α) : OrderedSet α :=
  if h : a ∈ s.toList then s
  else ⟨s.toList ++ [a], by
    rw [List.nodup_append]
    refine ⟨s.nodup, by simp, ?_⟩
    intro x hx y hy hxy
    rw [List.mem_singleton.1 hy] at hxy
    exact h (hxy ▸ hx)⟩

/-- Insert the members of a list, from its head on. -/
def insertAll (s : OrderedSet α) (as : List α) : OrderedSet α := as.foldl insert s

/-- The set of the members of a list, in order of first occurrence. -/
def ofList (as : List α) : OrderedSet α := empty.insertAll as

/-- Take a member away; the others keep their order. -/
def erase (s : OrderedSet α) (a : α) : OrderedSet α := ⟨s.toList.erase a, s.nodup.erase a⟩

/-- Inserting adds one member, if it is a new one. -/
theorem mem_insert {s : OrderedSet α} {a b : α} : b ∈ s.insert a ↔ b ∈ s ∨ b = a := by
  unfold insert
  split
  · next h => exact ⟨Or.inl, fun hb => hb.elim id fun e => e ▸ h⟩
  · simp [mem_def]

/-- Inserting a list adds the members of the list. -/
theorem mem_insertAll {s : OrderedSet α} {as : List α} {b : α} :
    b ∈ s.insertAll as ↔ b ∈ s ∨ b ∈ as := by
  unfold insertAll
  -- one after the other; the set grows on the way
  induction as generalizing s with
  | nil => simp
  | cons a as ih => rw [List.foldl_cons, ih, mem_insert, List.mem_cons, or_assoc]

/-- A set that is made of a list has the members of the list. -/
theorem mem_ofList {as : List α} {b : α} : b ∈ ofList as ↔ b ∈ as := by
  rw [ofList, mem_insertAll]
  simp [empty, mem_def]

/-- A list without repetition that lies within a set and is no shorter has all its members. -/
theorem mem_of_length_le {s : OrderedSet α} {as : List α} (has : as.Nodup) (hsub : ∀ a ∈ as, a ∈ s)
    (hlen : s.toList.length ≤ as.length) {a : α} (ha : a ∈ s) : a ∈ as := by
  refine Decidable.byContradiction fun hnot => ?_
  -- if `a` were not in the list, the list would have room for it, and be longer than the set
  have hle : (a :: as).length ≤ s.toList.length :=
    (List.nodup_cons.2 ⟨hnot, has⟩).length_le_of_subset (List.cons_subset.2 ⟨ha, hsub⟩)
  rw [List.length_cons] at hle
  omega

/-- Erasing takes one member away. -/
theorem mem_erase {s : OrderedSet α} {a b : α} : b ∈ s.erase a ↔ b ≠ a ∧ b ∈ s :=
  s.nodup.mem_erase_iff

end OrderedSet

end DeltaBlue
