/-!
# Stamps

Two counts label moments in a solver's life. A `Mark` is drawn for every pass over the graph; a
variable that carries the mark of the running pass has been claimed in it. A `Generation` is drawn
for every change of the set of enabled constraints; a plan is valid only at the generation it was
built at. Both are 64-bit words, so that in the long run they come back.
-/

namespace DeltaBlue

/-- The label of a pass over the constraint graph. -/
@[ext] structure Mark where
  /-- The word drawn. -/
  value : UInt64
  deriving DecidableEq

namespace Mark

/-- The mark of a variable that no pass has claimed; no pass draws it. -/
def none : Mark := ⟨0⟩

/-- The mark of the next pass. After the largest word it starts again above `none`. -/
def next (m : Mark) : Mark := if m.value + 1 = 0 then ⟨1⟩ else ⟨m.value + 1⟩

/-- The mark of the `n`th pass, counted from one, and `none` before the first. -/
def ofPass (n : Nat) : Mark :=
  ⟨UInt64.ofNat (if n = 0 then 0 else (n - 1) % 0xffffffffffffffff + 1)⟩

/-- Before the first pass nothing is claimed. -/
theorem ofPass_zero : ofPass 0 = none := rfl

/-- Each pass draws the mark after the one before. -/
theorem ofPass_succ (n : Nat) : ofPass (n + 1) = (ofPass n).next := by
  unfold ofPass next
  cases n with
  | zero => decide
  | succ k =>
    have hlt : k % 0xffffffffffffffff < 0xffffffffffffffff := Nat.mod_lt _ (by decide)
    by_cases hk : k % 0xffffffffffffffff = 0xfffffffffffffffe
    · -- the largest word, after which the marks start again
      have h0 : (k + 1) % 0xffffffffffffffff = 0 := by omega
      simp only [Nat.add_one_ne_zero, if_false, Nat.add_sub_cancel, hk, h0]
      decide
    · have hs : (k + 1) % 0xffffffffffffffff = k % 0xffffffffffffffff + 1 := by omega
      have hadd : UInt64.ofNat (k % 0xffffffffffffffff + 1) + 1 =
          UInt64.ofNat (k % 0xffffffffffffffff + 1 + 1) := by
        simp [UInt64.ofNat_add]
      have hne : UInt64.ofNat (k % 0xffffffffffffffff + 1 + 1) ≠ 0 := by
        intro h
        have hn := congrArg UInt64.toNat h
        rw [UInt64.toNat_ofNat', Nat.mod_eq_of_lt (by omega)] at hn
        simp at hn
      simp only [Nat.add_one_ne_zero, if_false, Nat.add_sub_cancel, hs, hadd, if_neg hne]

/-- Up to the largest word, the mark of a pass is its number. -/
theorem toNat_ofPass {n : Nat} (h : n ≤ 0xffffffffffffffff) : (ofPass n).value.toNat = n := by
  unfold ofPass
  rw [UInt64.toNat_ofNat']
  split <;> omega

instance : ToString Mark := ⟨fun m => toString m.value⟩

end Mark

/-- The label of a state of the set of enabled constraints. -/
@[ext] structure Generation where
  /-- The word drawn. -/
  value : UInt64
  deriving DecidableEq

namespace Generation

/-- The generation of a graph that never changed. -/
def zero : Generation := ⟨0⟩

/-- The generation after one more change. After the largest word it starts again at zero. -/
def next (g : Generation) : Generation := ⟨g.value + 1⟩

/-- The generation after `n` changes. -/
def ofChanges (n : Nat) : Generation := ⟨UInt64.ofNat n⟩

/-- A graph that never changed is in generation zero. -/
theorem ofChanges_zero : ofChanges 0 = zero := rfl

/-- Each change draws the generation after the one before. -/
theorem ofChanges_succ (n : Nat) : ofChanges (n + 1) = (ofChanges n).next := by
  simp [ofChanges, next, UInt64.ofNat_add]

instance : ToString Generation := ⟨fun g => toString g.value⟩

end Generation

end DeltaBlue
