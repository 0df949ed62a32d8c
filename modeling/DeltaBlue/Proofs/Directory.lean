import Mathlib.Algebra.Group.Nat.Defs
import Mathlib.Data.Finset.Card
import Mathlib.Data.List.Perm.Lattice
import DeltaBlue.Proofs.Lookup

/-!
# An arena is a map with fresh keys

A directory is a map from keys to values that remembers the keys it has handed out. It says nothing
about slots: a value may be stored under any key that was not handed out before, a look-up under a
key finds what was stored under it last, and a listing holds every pair once. The module shows that
an arena answers every sequence of requests as a directory does (`Arena.run_refines`), whatever keys
the requests name.

Two facts carry the proof. A slot only ages: it is vacated more often, or as often as before and then
it does not lose its value (`Slot.Ages`). And a key that was handed out is spent: its slot has been
vacated since, or it is in use under the key's generation (`Arena.Spent`). Ageing keeps spent keys
spent, and the key of an insertion is not spent before it as long as the slot's generation has not
come round, that is as long as the slot was vacated fewer than `2 ^ 32` times.
-/

namespace DeltaBlue

/-! ## Requests -/

/-- What an arena can be asked. -/
inductive Arena.Request (k : Kind) (α : Type)
  | insert (x : α)
  | get (key : Key k)
  /-- Look a value up and change it in place. -/
  | update (key : Key k) (f : α → α)
  | remove (key : Key k)
  | contains (key : Key k)
  | iter
  | keys
  | values
  | size

/-- What an arena replies. -/
inductive Arena.Reply (k : Kind) (α : Type)
  | inserted (key : Key k)
  | refused (e : ArenaError)
  /-- The value under the key of the request, as it was before the request. -/
  | found (x : Option α)
  | verdict (live : Bool)
  | pairs (l : List (Key k × α))
  | keys (l : List (Key k))
  | values (l : List α)
  | count (n : Nat)
  deriving DecidableEq

namespace Arena

variable {k : Kind} {α : Type}

/-- The reply to a request, and the arena afterwards. -/
def answer (a : Arena k α) : Request k α → Reply k α × Arena k α
  | .insert x =>
    match a.insert x with
    | .ok (key, a') => (.inserted key, a')
    | .error e => (.refused e, a)
  | .get key => (.found (a.get? key), a)
  | .update key f => (.found (a.get? key), a.modify key f)
  | .remove key => (.found (a.get? key), a.erase key)
  | .contains key => (.verdict (a.contains key), a)
  | .iter => (.pairs a.toList, a)
  | .keys => (.keys a.keys, a)
  | .values => (.values a.values, a)
  | .size => (.count a.size, a)

/-- The requests of a list with their replies, and the arena afterwards. -/
def run (a : Arena k α) : List (Request k α) → List (Request k α × Reply k α) × Arena k α
  | [] => ([], a)
  | request :: rest =>
    let (reply, a') := a.answer request
    let (log, last) := run a' rest
    ((request, reply) :: log, last)

end Arena

/-! ## Directories -/

/-- A map from keys to values that knows the keys it has handed out. -/
structure Directory (k : Kind) (α : Type) where
  /-- The keys handed out so far. -/
  issued : List (Key k)
  /-- The value stored under a key. -/
  find : Key k → Option α

namespace Directory

open Arena (Request Reply)

variable {k : Kind} {α : Type}

/-- The directory that stores nothing and has handed out nothing. -/
def empty : Directory k α := ⟨[], fun _ => none⟩

/-- Store `x` under `key`, which counts as handed out from now on. -/
def put (d : Directory k α) (key : Key k) (x : α) : Directory k α :=
  ⟨key :: d.issued, fun key' => if key' = key then some x else d.find key'⟩

/-- Replace the value under `key`, if there is one, by its image under `f`. -/
def adjust (d : Directory k α) (key : Key k) (f : α → α) : Directory k α :=
  { d with find := fun key' => if key' = key then (d.find key).map f else d.find key' }

/-- Forget what is stored under `key`. The key stays handed out. -/
def drop (d : Directory k α) (key : Key k) : Directory k α :=
  { d with find := fun key' => if key' = key then none else d.find key' }

/-- The list holds the pairs of the directory, each once, in the order of the slots. -/
structure Lists (d : Directory k α) (l : List (Key k × α)) : Prop where
  /-- A pair is listed exactly if the directory stores it. -/
  mem_iff : ∀ key x, (key, x) ∈ l ↔ d.find key = some x
  /-- The slots strictly increase along the list. -/
  increasing : l.Pairwise fun p q => p.1.index < q.1.index

/-- What a directory may reply to a request, and the directory afterwards. -/
inductive Step : Directory k α → Request k α → Reply k α → Directory k α → Prop
  | inserted {d : Directory k α} {key : Key k} (x : α) (hnew : key ∉ d.issued) :
    Step d (.insert x) (.inserted key) (d.put key x)
  | refused {d : Directory k α} {l : List (Key k × α)} (x : α) (hlists : d.Lists l)
    (hfull : l.length = Arena.maxSlots) :
    Step d (.insert x) (.refused (.capacityExceeded Arena.maxSlots)) d
  | get (d : Directory k α) (key : Key k) : Step d (.get key) (.found (d.find key)) d
  | update (d : Directory k α) (key : Key k) (f : α → α) :
    Step d (.update key f) (.found (d.find key)) (d.adjust key f)
  | remove (d : Directory k α) (key : Key k) :
    Step d (.remove key) (.found (d.find key)) (d.drop key)
  | contains (d : Directory k α) (key : Key k) :
    Step d (.contains key) (.verdict (d.find key).isSome) d
  | iter {d : Directory k α} {l : List (Key k × α)} (hlists : d.Lists l) :
    Step d .iter (.pairs l) d
  | keys {d : Directory k α} {l : List (Key k × α)} (hlists : d.Lists l) :
    Step d .keys (.keys (l.map (·.1))) d
  | values {d : Directory k α} {l : List (Key k × α)} (hlists : d.Lists l) :
    Step d .values (.values (l.map (·.2))) d
  | size {d : Directory k α} {l : List (Key k × α)} (hlists : d.Lists l) :
    Step d .size (.count l.length) d

/-- The directory `d` may give the replies of a log one after the other, and ends as `d'`. -/
inductive Explains : Directory k α → List (Request k α × Reply k α) → Directory k α → Prop
  | done (d : Directory k α) : Explains d [] d
  | next {d d₁ d' : Directory k α} {request : Request k α} {reply : Reply k α}
    {log : List (Request k α × Reply k α)} (hstep : Step d request reply d₁)
    (hrest : Explains d₁ log d') : Explains d ((request, reply) :: log) d'

end Directory

namespace Arena

variable {k : Kind} {α : Type}

/-! ## Listings -/

/-- The occupied slots of a list are listed in the order of the slots. -/
theorem pairwise_occupied (i : Nat) (slots : List (Slot α)) :
    (occupied i slots : List (Key k × α)).Pairwise fun p q => p.1.index < q.1.index := by
  induction slots generalizing i with
  | nil => exact List.Pairwise.nil
  | cons slot rest ih =>
    cases hv : slot.value with
    | none => simpa only [occupied, hv] using ih (i + 1)
    | some x =>
      simp only [occupied, hv, List.pairwise_cons]
      refine ⟨fun q hq => ?_, ih (i + 1)⟩
      -- what is listed after the head stands in a later slot
      obtain ⟨j, _, _, hindex, _, _⟩ := mem_occupied.1 (show (q.1, q.2) ∈ _ from hq)
      omega

/-- The slots in use and the vacant ones are all the slots, each once. -/
theorem perm_range (a : Arena k α) :
    (a.toList.map (·.1.index) ++ a.free).Perm (List.range a.slots.size) := by
  have hused : (a.toList.map (·.1.index)).Nodup := by
    rw [List.Nodup, List.pairwise_map]
    exact (pairwise_occupied 0 _).imp Nat.ne_of_lt
  have hapart : ∀ i ∈ a.toList.map (·.1.index), i ∉ a.free := by
    intro i hi
    obtain ⟨⟨key, x⟩, hmem, rfl⟩ := List.mem_map.1 hi
    exact not_mem_free (mem_toList.1 hmem)
  have hnodup : (a.toList.map (·.1.index) ++ a.free).Nodup :=
    hused.append a.free_nodup (List.disjoint_left.2 fun i hi hfree => hapart i hi hfree)
  rw [List.perm_ext_iff_of_nodup hnodup List.nodup_range]
  intro i
  rw [List.mem_append, List.mem_range, List.mem_map]
  constructor
  · rintro (⟨⟨key, x⟩, hmem, rfl⟩ | hi)
    · obtain ⟨slot, hslot, _⟩ := get?_eq_some_iff.1 (mem_toList.1 hmem)
      exact (Array.getElem?_eq_some_iff.1 hslot).1
    · obtain ⟨n, hn⟩ := (a.mem_free i).1 hi
      exact (Array.getElem?_eq_some_iff.1 hn).1
  · intro hi
    have hslot : a.slots[i]? = some a.slots[i] := Array.getElem?_eq_getElem hi
    cases hv : a.slots[i].value with
    | none => exact .inr ((a.mem_free i).2 ⟨a.slots[i].vacated, by rw [hslot, ← hv]⟩)
    | some x =>
      have hget : a.get? ⟨i, a.slots[i].generation⟩ = some x :=
        get?_eq_some_iff.2 ⟨_, hslot, rfl, hv⟩
      exact .inl ⟨(_, x), mem_toList.2 hget, rfl⟩

/-- The size of an arena is the length of its listing. -/
theorem length_toList (a : Arena k α) : a.toList.length = a.size := by
  have hlength := a.perm_range.length_eq
  rw [List.length_append, List.length_map, List.length_range] at hlength
  unfold size
  omega

/-- The keys of an arena are distinct. -/
theorem nodup_keys (a : Arena k α) : a.keys.Nodup := by
  have hindices : (a.keys.map Key.index).Nodup := by
    rw [keys, List.map_map]
    exact (a.perm_range.nodup_iff.2 List.nodup_range).of_append_left
  exact hindices.of_map _

/-- As many values are stored as there are keys that find one. -/
theorem size_eq_card {a : Arena k α} {keys : Finset (Key k)}
    (h : ∀ key, key ∈ keys ↔ (a.get? key).isSome) : a.size = keys.card := by
  have hkeys : a.keys.toFinset = keys := Finset.ext fun key =>
    List.mem_toFinset.trans (mem_keys.trans (h key).symm)
  rw [← hkeys, List.toFinset_card_of_nodup a.nodup_keys, Arena.keys, List.length_map, length_toList]

/-- At least as many values are stored as there are keys known to find one. -/
theorem card_le_size {a : Arena k α} {keys : Finset (Key k)}
    (h : ∀ key ∈ keys, (a.get? key).isSome) : keys.card ≤ a.size := by
  have hkeys : keys ⊆ a.keys.toFinset := fun key hkey => List.mem_toFinset.2 (mem_keys.2 (h key hkey))
  refine (Finset.card_le_card hkeys).trans ?_
  rw [List.toFinset_card_of_nodup a.nodup_keys, Arena.keys, List.length_map, length_toList]

/-- No more values are stored than there can be slots. -/
theorem size_le_maxSlots (a : Arena k α) : a.size ≤ maxSlots :=
  Nat.le_trans (Nat.sub_le _ _) a.size_le

/-- No slot is free exactly if every slot is in use. -/
theorem free_eq_nil_iff {a : Arena k α} :
    a.free = [] ↔ ∀ slot ∈ a.slots, slot.value.isSome := by
  constructor
  · intro hfree slot hslot
    obtain ⟨i, hi, rfl⟩ := Array.mem_iff_getElem.1 hslot
    cases hv : a.slots[i].value with
    | some x => rfl
    | none =>
      have hmem : i ∈ a.free :=
        (a.mem_free i).2 ⟨a.slots[i].vacated, by rw [Array.getElem?_eq_getElem hi, ← hv]⟩
      rw [hfree] at hmem
      exact absurd hmem List.not_mem_nil
  · intro hused
    refine List.eq_nil_iff_forall_not_mem.2 fun i hi => ?_
    obtain ⟨n, hn⟩ := (a.mem_free i).1 hi
    have hsome := hused _ (Array.mem_of_getElem? hn)
    exact absurd hsome (by simp)

/-- A value is refused exactly if every slot is in use and no more slots can be allocated. -/
theorem insert_eq_error_iff {a : Arena k α} {x : α} {e : ArenaError} :
    a.insert x = .error e ↔
      (a.free = [] ∧ a.slots.size = maxSlots) ∧ e = .capacityExceeded maxSlots := by
  have hle := a.size_le
  unfold insert
  split
  · next hfree => simp [hfree]
  · next hfree =>
    split
    · next hsize => simp [Nat.ne_of_lt hsize]
    · next hsize =>
      have hfull : a.slots.size = maxSlots := by omega
      simp [hfree, hfull, eq_comm]

/-- A value is refused exactly if as many values are stored as there can be slots. -/
theorem insert_eq_error_iff_size {a : Arena k α} {x : α} {e : ArenaError} :
    a.insert x = .error e ↔ a.size = maxSlots ∧ e = .capacityExceeded maxSlots := by
  have hle := a.size_le
  have hpos : 0 < maxSlots := by decide
  rw [insert_eq_error_iff, ← List.length_eq_zero_iff, size]
  refine and_congr_left fun _ => ?_
  omega

/-! ## Ageing -/

/-- The second slot is a later state of the first. -/
def LaterSlot (slot slot' : Slot α) : Prop :=
  slot.vacated < slot'.vacated ∨
    slot.vacated = slot'.vacated ∧ (slot.value.isSome → slot'.value.isSome)

/-- Every slot of the first arena is there in the second, in a later state. -/
def Ages (a a' : Arena k α) : Prop :=
  ∀ (i : Nat) (slot : Slot α), a.slots[i]? = some slot →
    ∃ slot', a'.slots[i]? = some slot' ∧ LaterSlot slot slot'

/-- If nothing is done, no slot ages. -/
theorem Ages.refl (a : Arena k α) : a.Ages a :=
  fun _ slot hslot => ⟨slot, hslot, .inr ⟨rfl, id⟩⟩

/-- An arena ages when one slot is changed into a later state. -/
theorem ages_of_slots_eq_modify {a a' : Arena k α} {i : Nat} {f : Slot α → Slot α}
    (hslots : a'.slots = a.slots.modify i f) (hf : ∀ slot, LaterSlot slot (f slot)) :
    a.Ages a' := by
  intro j slot hslot
  rw [hslots, Array.getElem?_modify, hslot]
  by_cases hj : i = j
  · rw [if_pos hj]
    exact ⟨f slot, rfl, hf slot⟩
  · rw [if_neg hj]
    exact ⟨slot, rfl, .inr ⟨rfl, id⟩⟩

/-- An insertion takes a vacant slot into use, or adds one. -/
theorem ages_of_insert {a a' : Arena k α} {x : α} {key : Key k}
    (h : a.insert x = .ok (key, a')) : a.Ages a' := by
  unfold insert at h
  split at h
  · next i rest hfree =>
    simp only [Except.ok.injEq, Prod.mk.injEq] at h
    rw [← h.2]
    exact ages_of_slots_eq_modify (f := fun slot => ⟨slot.vacated, some x⟩) rfl
      fun slot => .inr ⟨rfl, fun _ => rfl⟩
  · split at h
    · next hsize =>
      simp only [Except.ok.injEq, Prod.mk.injEq] at h
      rw [← h.2]
      intro j slot hslot
      have hj := (Array.getElem?_eq_some_iff.1 hslot).1
      refine ⟨slot, ?_, .inr ⟨rfl, id⟩⟩
      show (a.slots.push _)[j]? = some slot
      rw [Array.getElem?_push, if_neg (Nat.ne_of_lt hj), hslot]
    · cases h

/-- A change in place leaves the slot in use. -/
theorem ages_modify (a : Arena k α) (key : Key k) (f : α → α) : a.Ages (a.modify key f) := by
  unfold modify
  split
  · exact .refl a
  · next x _ =>
    exact ages_of_slots_eq_modify (f := fun slot => ⟨slot.vacated, some (f x)⟩) rfl
      fun slot => .inr ⟨rfl, fun _ => rfl⟩

/-- A removal vacates the slot once more. -/
theorem ages_erase (a : Arena k α) (key : Key k) : a.Ages (a.erase key) := by
  unfold erase
  split
  · exact .refl a
  · exact ages_of_slots_eq_modify (f := fun slot => ⟨slot.vacated + 1, none⟩) rfl
      fun slot => .inl (Nat.lt_succ_self slot.vacated)

/-- An arena ages with every request. -/
theorem ages_answer (a : Arena k α) (request : Request k α) : a.Ages (a.answer request).2 := by
  cases request with
  | insert x =>
    cases h : a.insert x with
    | ok result =>
      simp only [answer, h]
      exact ages_of_insert h
    | error e =>
      simp only [answer, h]
      exact .refl a
  | update key f => exact ages_modify a key f
  | remove key => exact ages_erase a key
  | get | contains | iter | keys | values | size => exact .refl a

/-- No generation has come round. -/
def Unworn (a : Arena k α) : Prop := ∀ slot ∈ a.slots, slot.vacated < UInt32.size

instance (a : Arena k α) : Decidable a.Unworn :=
  inferInstanceAs (Decidable (∀ slot ∈ a.slots, slot.vacated < UInt32.size))

/-- If no generation has come round afterwards, none had before. -/
theorem Unworn.of_ages {a a' : Arena k α} (hages : a.Ages a') (h : a'.Unworn) : a.Unworn := by
  intro slot hslot
  obtain ⟨i, hi, rfl⟩ := Array.mem_iff_getElem.1 hslot
  obtain ⟨slot', hslot', hlater⟩ := hages i _ (Array.getElem?_eq_getElem hi)
  have hlt := h slot' (Array.mem_of_getElem? hslot')
  rcases hlater with hlater | ⟨heq, _⟩ <;> omega

/-- An arena whose generations have not come round after some requests had none that had come
round before them. -/
theorem Unworn.of_run {a : Arena k α} {requests : List (Request k α)}
    (h : (a.run requests).2.Unworn) : a.Unworn := by
  induction requests generalizing a with
  | nil => exact h
  | cons request rest ih => exact .of_ages (ages_answer a request) (ih h)

/-- The key was handed out: its slot has been vacated since, or is in use under the key's
generation. -/
def Spent (a : Arena k α) (key : Key k) : Prop :=
  ∃ slot, a.slots[key.index]? = some slot ∧
    (key.generation.toNat < slot.vacated ∨
      key.generation.toNat = slot.vacated ∧ slot.value.isSome)

/-- What is spent stays spent. -/
theorem Spent.of_ages {a a' : Arena k α} {key : Key k} (hages : a.Ages a') (h : a.Spent key) :
    a'.Spent key := by
  obtain ⟨slot, hslot, hspent⟩ := h
  obtain ⟨slot', hslot', hlater⟩ := hages _ _ hslot
  refine ⟨slot', hslot', ?_⟩
  -- either the slot has been vacated since, or it still holds a value if it did
  rcases hlater with hlater | ⟨heq, hvalue⟩
  · exact .inl (by omega)
  · rcases hspent with hlt | ⟨hgen, hsome⟩
    · exact .inl (by omega)
    · exact .inr ⟨by omega, hvalue hsome⟩

/-- The key of an insertion is spent by it and not before it. -/
theorem spent_of_insert {a a' : Arena k α} {x : α} {key : Key k} (hwear : a.Unworn)
    (h : a.insert x = .ok (key, a')) : ¬ a.Spent key ∧ a'.Spent key := by
  unfold insert at h
  split at h
  · next i rest hfree =>
    obtain ⟨n, hslot⟩ := (a.mem_free i).1 (by rw [hfree]; exact List.mem_cons_self)
    simp only [hslot, Except.ok.injEq, Prod.mk.injEq] at h
    obtain ⟨rfl, rfl⟩ := h
    have hn : (UInt32.ofNat n).toNat = n :=
      UInt32.toNat_ofNat_of_lt' (hwear _ (Array.mem_of_getElem? hslot))
    constructor
    · -- the slot is vacant, and was not vacated more often than the generation says
      rintro ⟨slot, hslot', hspent⟩
      obtain rfl : ⟨n, none⟩ = slot := Option.some.inj (hslot.symm.trans hslot')
      rcases hspent with hlt | ⟨_, hsome⟩
      · exact absurd hlt (Nat.not_lt.2 (Nat.le_of_eq hn.symm))
      · exact absurd hsome (by simp)
    · refine ⟨⟨n, some x⟩, ?_, .inr ⟨hn, rfl⟩⟩
      show (a.slots.modify i _)[i]? = _
      rw [Array.getElem?_modify, if_pos rfl, hslot, Option.map_some]
  · split at h
    · next hsize =>
      simp only [Except.ok.injEq, Prod.mk.injEq] at h
      obtain ⟨rfl, rfl⟩ := h
      constructor
      · -- the slot is a new one
        rintro ⟨slot, hslot, _⟩
        exact absurd (Array.getElem?_eq_some_iff.1 hslot).1 (Nat.lt_irrefl _)
      · refine ⟨⟨0, some x⟩, ?_, .inr ⟨rfl, rfl⟩⟩
        show (a.slots.push _)[a.slots.size]? = _
        rw [Array.getElem?_push, if_pos rfl]
    · cases h

/-! ## The refinement -/

/-- The arena stores what the directory stores, and every key the directory has handed out is
spent. -/
structure Tracks (a : Arena k α) (d : Directory k α) : Prop where
  /-- Look-ups agree. -/
  get? : ∀ key, a.get? key = d.find key
  /-- Keys that were handed out do not come again. -/
  spent : ∀ key ∈ d.issued, a.Spent key

/-- At the start nothing is stored and no key is spent. -/
theorem tracks_empty : (empty : Arena k α).Tracks .empty where
  get? := get?_empty
  spent _ hkey := absurd hkey List.not_mem_nil

namespace Tracks

variable {a : Arena k α} {d : Directory k α}

/-- The listing of the arena is one of the directory. -/
theorem lists (h : a.Tracks d) : d.Lists a.toList where
  mem_iff key x := by rw [mem_toList, h.get?]
  increasing := pairwise_occupied 0 _

/-- An insertion hands out a key that was never handed out before and stores the value under it. -/
theorem put (h : a.Tracks d) (hwear : a.Unworn) {a' : Arena k α} {x : α} {key : Key k}
    (hinsert : a.insert x = .ok (key, a')) : key ∉ d.issued ∧ a'.Tracks (d.put key x) := by
  obtain ⟨hnew, hspent⟩ := spent_of_insert hwear hinsert
  refine ⟨fun hkey => hnew (h.spent key hkey), fun key' => ?_, fun key' hkey' => ?_⟩
  · rw [(get?_of_insert hinsert).2, h.get?]
    rfl
  · rcases List.mem_cons.1 hkey' with rfl | hkey'
    · exact hspent
    · exact (h.spent key' hkey').of_ages (ages_of_insert hinsert)

/-- A change in place replaces the value under its key only. -/
theorem adjust (h : a.Tracks d) (key : Key k) (f : α → α) :
    (a.modify key f).Tracks (d.adjust key f) where
  get? key' := by
    rw [get?_modify, h.get?, h.get?]
    rfl
  spent key' hkey' := (h.spent key' hkey').of_ages (ages_modify a key f)

/-- A removal forgets the value under its key only. -/
theorem drop (h : a.Tracks d) (key : Key k) : (a.erase key).Tracks (d.drop key) where
  get? key' := by
    rw [get?_erase, h.get?]
    rfl
  spent key' hkey' := (h.spent key' hkey').of_ages (ages_erase a key)

/-- One request: the directory may give the arena's reply and is tracked afterwards. -/
theorem answer (h : a.Tracks d) (hwear : a.Unworn) (request : Request k α) :
    ∃ d', Directory.Step d request (a.answer request).1 d' ∧ (a.answer request).2.Tracks d' := by
  cases request with
  | insert x =>
    cases hinsert : a.insert x with
    | ok result =>
      obtain ⟨hnew, htracks⟩ := h.put hwear hinsert
      simp only [Arena.answer, hinsert]
      exact ⟨_, .inserted x hnew, htracks⟩
    | error e =>
      obtain ⟨⟨hfree, hsize⟩, rfl⟩ := insert_eq_error_iff.1 hinsert
      have hlength : a.toList.length = maxSlots := by
        rw [length_toList, size, hfree, hsize, List.length_nil, Nat.sub_zero]
      simp only [Arena.answer, hinsert]
      exact ⟨d, .refused x h.lists hlength, h⟩
  | get key =>
    simp only [Arena.answer, h.get?]
    exact ⟨d, .get d key, h⟩
  | update key f =>
    simp only [Arena.answer, h.get?]
    exact ⟨_, .update d key f, h.adjust key f⟩
  | remove key =>
    simp only [Arena.answer, h.get?]
    exact ⟨_, .remove d key, h.drop key⟩
  | contains key =>
    simp only [Arena.answer, Arena.contains, h.get?]
    exact ⟨d, .contains d key, h⟩
  | iter => exact ⟨d, .iter h.lists, h⟩
  | keys => exact ⟨d, .keys h.lists, h⟩
  | values => exact ⟨d, .values h.lists, h⟩
  | size =>
    simp only [Arena.answer, ← length_toList]
    exact ⟨d, .size h.lists, h⟩

/-- Any number of requests, by induction on the list of requests. -/
theorem run (h : a.Tracks d) (requests : List (Request k α)) (hwear : (a.run requests).2.Unworn) :
    ∃ d', Directory.Explains d (a.run requests).1 d' ∧ (a.run requests).2.Tracks d' := by
  induction requests generalizing a d with
  | nil => exact ⟨d, .done d, h⟩
  | cons request rest ih =>
    obtain ⟨d₁, hstep, h₁⟩ := h.answer (.of_run hwear) request
    obtain ⟨d', hrest, h'⟩ := ih h₁ hwear
    exact ⟨d', .next hstep hrest, h'⟩

end Tracks

/-- Every request gets a reply. -/
theorem map_fst_run (a : Arena k α) (requests : List (Request k α)) :
    (a.run requests).1.map (·.1) = requests := by
  induction requests generalizing a with
  | nil => rfl
  | cons request rest ih => exact congrArg (request :: ·) (ih _)

/-- A request that finds nothing under its key, or is refused, leaves the arena as it is. -/
theorem answer_eq_self {a : Arena k α} {request : Request k α}
    (h : (a.answer request).1 = .found none ∨ ∃ e, (a.answer request).1 = .refused e) :
    (a.answer request).2 = a := by
  cases request with
  | insert x =>
    cases hinsert : a.insert x with
    | ok result => simp [answer, hinsert] at h
    | error e => simp only [answer, hinsert]
  | update key f =>
    have hnone : a.get? key = none := by simpa [answer] using h
    exact modify_eq_self hnone f
  | remove key =>
    have hnone : a.get? key = none := by simpa [answer] using h
    exact erase_eq_self hnone
  | get | contains | iter | keys | values | size => rfl

/-- Started from the empty arena, with any keys in the requests and no slot vacated `2 ^ 32` times:
the replies are those of a directory, and look-ups in the arena that is left find what the directory
stores. In the arena that is left, a value is refused exactly if every slot is in use and
`2 ^ 32 - 1` slots are allocated, and a request that is refused or finds nothing changes nothing. -/
theorem run_refines (requests : List (Request k α)) {log : List (Request k α × Reply k α)}
    {a : Arena k α} (hrun : (empty : Arena k α).run requests = (log, a)) (hwear : a.Unworn) :
    (log.map (·.1) = requests ∧
      ∃ d, Directory.Explains .empty log d ∧ ∀ key, a.get? key = d.find key) ∧
    (∀ x, (∃ e, a.insert x = .error e) ↔
      (∀ slot ∈ a.slots, slot.value.isSome) ∧ a.slots.size = 2 ^ 32 - 1) ∧
    ∀ request, ((a.answer request).1 = .found none ∨ ∃ e, (a.answer request).1 = .refused e) →
      (a.answer request).2 = a := by
  obtain rfl : ((empty : Arena k α).run requests).1 = log := by rw [hrun]
  obtain rfl : ((empty : Arena k α).run requests).2 = a := by rw [hrun]
  obtain ⟨d, hexplains, htracks⟩ := tracks_empty.run requests hwear
  refine ⟨⟨map_fst_run empty requests, d, hexplains, htracks.get?⟩, fun x => ?_,
    fun request => answer_eq_self⟩
  -- all slots are in use if none is free
  rw [← free_eq_nil_iff]
  constructor
  · rintro ⟨e, he⟩
    exact (insert_eq_error_iff.1 he).1
  · intro hfull
    exact ⟨_, insert_eq_error_iff.2 ⟨hfull, rfl⟩⟩

/-- A slot is used again under the next generation; its old key and a key that was never handed out
find nothing. -/
theorem run_refines_reuse :
    let requests : List (Request .var Nat) :=
      [.insert 5, .insert 6, .remove ⟨0, 0⟩, .insert 7, .update ⟨0, 0⟩ (· + 1), .remove ⟨9, 3⟩,
        .update ⟨0, 1⟩ (· * 2), .contains ⟨0, 0⟩, .iter, .size]
    ((empty : Arena .var Nat).run requests).2.Unworn ∧
      ((empty : Arena .var Nat).run requests).1.map (·.2) =
        [.inserted ⟨0, 0⟩, .inserted ⟨1, 0⟩, .found (some 5), .inserted ⟨0, 1⟩, .found none,
          .found none, .found (some 7), .verdict false, .pairs [(⟨0, 1⟩, 14), (⟨1, 0⟩, 6)],
          .count 2] ∧
      ∃ d, Directory.Explains .empty ((empty : Arena .var Nat).run requests).1 d ∧
        ∀ key, ((empty : Arena .var Nat).run requests).2.get? key = d.find key := by
  intro requests
  have hwear : ((empty : Arena .var Nat).run requests).2.Unworn := by decide
  exact ⟨hwear, by decide, (run_refines requests rfl hwear).1.2⟩

end Arena

end DeltaBlue
