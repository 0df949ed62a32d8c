import DeltaBlue.Proofs.Drafting

/-!
# What a refused registration leaves behind

A registration that is refused adds no method and leaves strength and label alone. The volatile mark is
the exception: a volatile formula marks the draft before its method is looked at, and the mark stays when
the method is refused. Nothing else depends on the mark. A draft with the mark accepts the same methods
and builds the same definitions, only volatile ones (`build_registerEach_mark`), so all that can be told
of a refusal later on is that the definition is volatile.
-/

namespace DeltaBlue

variable {W T : Type}

/-- Whether a registration marks the draft as volatile. -/
def Registration.marksVolatile : Registration W T → Bool
  | .volatile | .volatileFormula .. => true
  | _ => false

/-- The same definition, volatile if it is to be marked. -/
def Definition.mark (d : Definition W T) (b : Bool) : Definition W T :=
  { d with volatile := d.volatile || b }

namespace Draft

/-- The same draft, volatile if it is to be marked. -/
def mark (d : Draft W T) (b : Bool) : Draft W T := { d with volatile := d.volatile || b }

variable {d d' : Draft W T} {r : Registration W T} {m : Method W T} {e : BuildError} {b : Bool}

/-- Drafts with the same parts are equal, since what else they carry are proofs. -/
theorem eq_of_parts (hs : d'.strength = d.strength) (hv : d'.volatile = d.volatile)
    (hl : d'.label = d.label) (hm : d'.methods = d.methods) : d' = d := by
  cases d
  cases d'
  simp_all only

/-- A mark that is not set makes no difference. -/
theorem mark_false (d : Draft W T) : d.mark false = d :=
  eq_of_parts rfl (Bool.or_false _) rfl rfl

/-- The mark makes a difference unless the draft has it already. -/
theorem mark_eq_self_iff : d.mark b = d ↔ (b = true → d.volatile = true) := by
  constructor
  · intro h hb
    rw [← h, mark, hb, Bool.or_true]
  · intro h
    refine eq_of_parts rfl ?_ rfl rfl
    -- without a mark nothing changes, and with one the draft has it already
    cases b with
    | false => exact Bool.or_false _
    | true => rw [mark, h rfl, Bool.or_true]

/-- Whether a method is accepted does not depend on the mark. -/
theorem offer_mark (d : Draft W T) (m : Method W T) (b : Bool) :
    (d.mark b).offer m = ((d.offer m).1.mark b, (d.offer m).2) := by
  -- the check reads the methods only
  have hfault : (d.mark b).fault? m = d.fault? m := rfl
  cases hm : d.fault? m with
  | some e =>
    rw [offer, push_eq_error (hfault.trans hm), offer, push_eq_error hm]
  | none =>
    obtain ⟨d', hpush⟩ := exists_push hm
    obtain ⟨d'', hpush'⟩ := exists_push (hfault.trans hm)
    obtain ⟨hs, hv, hl, hms⟩ := parts_of_push hpush
    obtain ⟨hs', hv', hl', hms'⟩ := parts_of_push hpush'
    rw [offer, hpush', offer, hpush]
    refine congrArg (·, none) (eq_of_parts (hs'.trans hs.symm) ?_ (hl'.trans hl.symm)
      (hms'.trans hms.symm))
    rw [hv', mark, mark, hv]

/-- Registrations do not depend on the mark. -/
theorem register_mark (d : Draft W T) (r : Registration W T) (b : Bool) :
    (d.mark b).register r = ((d.register r).1.mark b, (d.register r).2) := by
  cases r with
  | volatile => exact congrArg (·, none) (eq_of_parts rfl (Bool.true_or b).symm rfl rfl)
  | label text => rfl
  -- the draft marks itself before it is offered the method, and the two marks commute
  | volatileFormula output inputs f =>
    have hcomm : ({ d.mark b with volatile := true } : Draft W T) =
        Draft.mark { d with volatile := true } b := eq_of_parts rfl (Bool.true_or b).symm rfl rfl
    rw [register, hcomm, offer_mark, register]
  | passThrough output inputs =>
    match inputs with
    | [] | [_] => exact d.offer_mark _ b
    | _ :: _ :: _ => rfl
  | _ => exact d.offer_mark _ b

/-- A list of registrations does not depend on the mark. -/
theorem registerEach_mark (d : Draft W T) (rs : List (Registration W T)) (b : Bool) :
    (d.mark b).registerEach rs = (d.registerEach rs).mark b := by
  induction rs generalizing d with
  | nil => rfl
  | cons r rs ih =>
    have hcons (d : Draft W T) : d.registerEach (r :: rs) = (d.register r).1.registerEach rs := rfl
    rw [hcons, hcons, register_mark, ih]

/-- The definition that a marked draft amounts to is the marked definition. -/
theorem build_mark (d : Draft W T) (b : Bool) :
    (d.mark b).build = d.build.map (·.mark b) := by
  obtain ⟨strength, volatile, label, methods, _, _⟩ := d
  unfold build mark
  dsimp only
  by_cases hne : methods = []
  · rw [dif_pos hne, dif_pos hne]
    rfl
  · rw [dif_neg hne, dif_neg hne]
    split <;> rfl

/-- What is built after further registrations tells of the mark by the volatility only. -/
theorem build_registerEach_mark (d : Draft W T) (rs : List (Registration W T)) (b : Bool) :
    ((d.mark b).registerEach rs).build = (d.registerEach rs).build.map (·.mark b) := by
  rw [registerEach_mark, build_mark]

/-- A method that is refused leaves nothing behind but the mark. -/
theorem fst_register_of_refused (h : (d.register r).2 = some e) :
    (d.register r).1 = d.mark r.marksVolatile := by
  -- a method that is refused is not stored
  have hoffer : ∀ (d : Draft W T) m, (d.offer m).2 = some e → (d.offer m).1 = d := by
    intro d m h
    obtain ⟨-, hnone, -⟩ | ⟨_, -, herr⟩ := d.offer_cases m
    · rw [hnone] at h
      cases h
    · rw [herr]
  cases r with
  | volatile => cases h
  | label text => cases h
  | volatileFormula output inputs f =>
    -- the mark was set before the method was refused
    refine (hoffer _ _ h).trans (eq_of_parts rfl ?_ rfl rfl)
    exact (Bool.or_true _).symm
  | passThrough output inputs =>
    refine Eq.trans ?_ (mark_false d).symm
    match inputs with
    | [] | [_] => exact hoffer d _ h
    | _ :: _ :: _ => rfl
  | _ => exact (hoffer d _ h).trans (mark_false d).symm

/-- What a refused registration leaves behind. Strength, label and methods are as before, and the draft is
volatile if it was or if the registration is of a volatile formula; so the draft is as before exactly if
this makes no difference. Whatever is registered then and built amounts to what it would without the
refused registration, only that the definition is volatile as well. -/
theorem register_refused (h : (d.register r).2 = some e) :
    ((d.register r).1.strength = d.strength ∧ (d.register r).1.label = d.label ∧
      (d.register r).1.methods = d.methods ∧
      (d.register r).1.volatile = (d.volatile || r.marksVolatile)) ∧
    ((d.register r).1 = d ↔ (r.marksVolatile = true → d.volatile = true)) ∧
    ∀ more, ((d.register r).1.registerEach more).build =
      (d.registerEach more).build.map (·.mark r.marksVolatile) := by
  rw [fst_register_of_refused h]
  exact ⟨⟨rfl, rfl, rfl, rfl⟩, mark_eq_self_iff, fun more => d.build_registerEach_mark more _⟩

/-- A second method for one output is refused and leaves the draft as it is. -/
theorem register_refused_stayTwice :
    let d := ((empty .medium : Draft Unit Int).register (.stay ⟨0, 0⟩)).1
    (d.register (.stay ⟨0, 0⟩)).2 = some (.duplicateOutput ⟨0, 0⟩) ∧
      (d.register (.stay ⟨0, 0⟩)).1 = d := by
  intro d
  have h : (d.register (.stay ⟨0, 0⟩)).2 = some (.duplicateOutput ⟨0, 0⟩) := rfl
  exact ⟨h, (register_refused h).2.1.2 nofun⟩

/-- A volatile formula for an output that has a method is refused, and yet the draft is volatile then, and
so is what is built of it. -/
theorem volatileFormula_refused_marks :
    let d := ((empty .medium : Draft Unit Int).register (.stay ⟨0, 0⟩)).1
    let d' := d.register (.volatileFormula ⟨0, 0⟩ [⟨1, 0⟩] fun values w => (values.headD 0, w))
    d'.2 = some (.duplicateOutput ⟨0, 0⟩) ∧ d.volatile = false ∧ d'.1.volatile = true ∧
      d.build.map Definition.volatile = .ok false ∧ d'.1.build.map Definition.volatile = .ok true :=
  ⟨rfl, rfl, rfl, rfl, rfl⟩

end Draft

end DeltaBlue
