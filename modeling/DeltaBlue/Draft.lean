import DeltaBlue.Definition

/-!
# Drafts

A draft collects the parts of a definition. Each method is checked when it is registered: it must
determine a variable that no earlier method determines, and it must be proper. `Draft.build` checks
the relation as a whole and makes the definition. A method that is refused is not added.
-/

namespace DeltaBlue

/-- A definition under construction. -/
structure Draft (W T : Type) where
  /-- The strength of the constraint to be. -/
  strength : Strength
  /-- Whether the constraint is to be volatile. -/
  volatile : Bool
  /-- The label of the constraint to be. -/
  label : Option String
  /-- The methods accepted so far. -/
  methods : List (Method W T)
  /-- No two methods determine one variable. -/
  outputs_nodup : (methods.map Method.output).Nodup
  /-- No method reads its output or lists an input twice. -/
  proper : ∀ m ∈ methods, m.Proper

/-- A registration: one step of building a draft. -/
inductive Registration (W T : Type)
  /-- Make the constraint volatile. -/
  | volatile
  /-- Set the label. -/
  | label (text : String)
  /-- A computation of fixed arity that cannot fail. -/
  | formula (output : VarId) (inputs : List VarId) (f : List T → W → T × W)
  /-- A computation of fixed arity. -/
  | fallibleFormula (output : VarId) (inputs : List VarId) (f : Compute W T)
  /-- A computation of fixed arity that cannot fail and makes the constraint volatile. -/
  | volatileFormula (output : VarId) (inputs : List VarId) (f : List T → W → T × W)
  /-- A computation over any number of values. -/
  | variadicFormula (output : VarId) (inputs : List VarId) (f : Compute W T)
  /-- A copy of the only input; without an input, the output keeps its value. -/
  | passThrough (output : VarId) (inputs : List VarId)
  /-- The output keeps its value. -/
  | stay (output : VarId)
  /-- The output has a constant value. -/
  | constant (output : VarId) (value : T)
  /-- The inputs are shown to an observer. -/
  | observer (output : VarId) (inputs : List VarId) (f : Observe W T)
  /-- Any method. -/
  | method (m : Method W T)

namespace Draft

variable {W T : Type}

/-- The draft without methods. -/
def empty (strength : Strength) : Draft W T where
  strength := strength
  volatile := false
  label := none
  methods := []
  outputs_nodup := by simp
  proper := by simp

instance : Inhabited (Draft W T) := ⟨empty default⟩

/-- The number of methods accepted so far. -/
def size (d : Draft W T) : Nat := d.methods.length

/-- Whether no method has been accepted. -/
def isEmpty (d : Draft W T) : Bool := d.methods.isEmpty

/-- The first fault in a list of inputs, given the inputs before it: the output among them, or one
that was listed before. -/
def inputFault? (output : VarId) : List VarId → List VarId → Option BuildError
  | _, [] => none
  | seen, v :: rest =>
    if v = output then some (.inputIsOutput output)
    else if v ∈ seen then some (.duplicateInput output v)
    else inputFault? output (v :: seen) rest

/-- A list of inputs is without fault exactly when it has no repetition, avoids the output, and
avoids the inputs before it. -/
theorem inputFault?_eq_none_iff {output : VarId} {seen inputs : List VarId} :
    inputFault? output seen inputs = none ↔
      inputs.Nodup ∧ output ∉ inputs ∧ ∀ v ∈ inputs, v ∉ seen := by
  induction inputs generalizing seen with
  | nil => simp [inputFault?]
  | cons v rest ih =>
    unfold inputFault?
    split
    · next h => simp [h]
    · next hout =>
      split
      · next hseen => simp [hseen]
      · next hseen =>
        rw [ih]
        simp only [List.nodup_cons, List.mem_cons, not_or, forall_eq_or_imp]
        constructor
        · rintro ⟨hn, ho, hr⟩
          exact ⟨⟨fun hv => (hr v hv).1 rfl, hn⟩, ⟨fun e => hout e.symm, ho⟩, hseen,
            fun a ha => (hr a ha).2⟩
        · rintro ⟨⟨hv, hn⟩, ⟨_, ho⟩, _, hr⟩
          exact ⟨hn, ho, fun a ha => ⟨fun e => hv (e ▸ ha), hr a ha⟩⟩

/-- Why a draft refuses a method, if it does. -/
def fault? (d : Draft W T) (m : Method W T) : Option BuildError :=
  if m.output ∈ d.methods.map Method.output then some (.duplicateOutput m.output)
  else inputFault? m.output [] m.inputs

/-- A draft refuses no method that is proper and determines a new variable, and every other. -/
theorem fault?_eq_none_iff {d : Draft W T} {m : Method W T} :
    d.fault? m = none ↔ m.output ∉ d.methods.map Method.output ∧ m.Proper := by
  unfold fault?
  split
  · next h => simp [h]
  · next h =>
    rw [inputFault?_eq_none_iff]
    exact ⟨fun ⟨hn, ho, _⟩ => ⟨h, hn, ho⟩, fun ⟨_, hn, ho⟩ => ⟨hn, ho, by simp⟩⟩

/-- Add a method, if the draft accepts it. -/
def push (d : Draft W T) (m : Method W T) : Except BuildError (Draft W T) :=
  match h : d.fault? m with
  | some e => .error e
  | none => .ok { d with
      methods := d.methods ++ [m]
      outputs_nodup := by
        have hm := (fault?_eq_none_iff.1 h).1
        rw [List.map_append, List.nodup_append]
        refine ⟨d.outputs_nodup, by simp, ?_⟩
        intro x hx y hy hxy
        rw [List.map_singleton, List.mem_singleton] at hy
        exact hm (hy ▸ hxy ▸ hx)
      proper := by
        intro m' hm'
        rcases List.mem_append.1 hm' with hd | hs
        · exact d.proper m' hd
        · rw [List.mem_singleton.1 hs]
          exact (fault?_eq_none_iff.1 h).2 }

/-- A draft without fault to find accepts. -/
theorem exists_push {d : Draft W T} {m : Method W T} (h : d.fault? m = none) :
    ∃ d', d.push m = .ok d' := by
  unfold push
  split
  · next hsome =>
    rw [h] at hsome
    cases hsome
  · exact ⟨_, rfl⟩

/-- A draft that finds a fault refuses the method with this error. -/
theorem push_eq_error {d : Draft W T} {m : Method W T} {e : BuildError} (h : d.fault? m = some e) :
    d.push m = .error e := by
  unfold push
  split
  · next hsome =>
    rw [h] at hsome
    rw [Option.some.inj hsome]
  · next hnone =>
    rw [h] at hnone
    cases hnone

/-- A draft that accepts a method has it as the last one. -/
theorem methods_of_push {d d' : Draft W T} {m : Method W T} (h : d.push m = .ok d') :
    d'.methods = d.methods ++ [m] := by
  unfold push at h
  split at h
  · cases h
  · obtain rfl := Except.ok.inj h
    rfl

/-- Adding a method leaves the rest of a draft as it is. -/
theorem heads_of_push {d d' : Draft W T} {m : Method W T} (h : d.push m = .ok d') :
    d'.strength = d.strength ∧ d'.volatile = d.volatile := by
  unfold push at h
  split at h
  · cases h
  · obtain rfl := Except.ok.inj h
    exact ⟨rfl, rfl⟩

/-- Add a method, if the draft accepts it, and tell the fault otherwise. -/
def offer (d : Draft W T) (m : Method W T) : Draft W T × Option BuildError :=
  match d.push m with
  | .ok d' => (d', none)
  | .error e => (d, some e)

/-- A method that is offered and accepted is the last one. -/
theorem methods_of_offer {d d' : Draft W T} {m : Method W T} (h : d.offer m = (d', none)) :
    d'.methods = d.methods ++ [m] := by
  unfold offer at h
  cases hpush : d.push m with
  | error e => rw [hpush] at h; cases h
  | ok x =>
    rw [hpush] at h
    obtain ⟨rfl, _⟩ := Prod.mk.inj h
    exact methods_of_push hpush

/-- Carry out a registration and tell the fault, if there is one. -/
def register (d : Draft W T) : Registration W T → Draft W T × Option BuildError
  | .volatile => ({ d with volatile := true }, none)
  | .label text => ({ d with label := some text }, none)
  | .formula output inputs f =>
    d.offer (.compute output inputs (.fixed inputs.length (.total f)))
  | .fallibleFormula output inputs f =>
    d.offer (.compute output inputs (.fixed inputs.length f))
  | .volatileFormula output inputs f =>
    { d with volatile := true }.offer (.compute output inputs (.fixed inputs.length (.total f)))
  | .variadicFormula output inputs f => d.offer (.compute output inputs f)
  | .passThrough output [] => d.offer (.stay output)
  | .passThrough output [input] => d.offer (.compute output [input] (.fixed 1 .first))
  | .passThrough output inputs => (d, some (.arityMismatch output 1 inputs.length))
  | .stay output => d.offer (.stay output)
  | .constant output value => d.offer (.edit output value)
  | .observer output inputs f => d.offer (.observe output inputs f)
  | .method m => d.offer m

/-- Carry out registrations up to the first fault. -/
def registerAll (d : Draft W T) : List (Registration W T) → Except BuildError (Draft W T)
  | [] => .ok d
  | r :: rest =>
    match d.register r with
    | (d', none) => d'.registerAll rest
    | (_, some e) => .error e

/-- The first variable of the relation that a method leaves out. A method with as many variables as
the relation is not searched. -/
def missing? (methods : List (Method W T)) (m : Method W T) : Option VarId :=
  if m.inputs.length + 1 = (mentioned methods).toList.length then none
  else (mentioned methods).toList.find? fun v => v ∉ m.vars

/-- The first method that leaves out a variable of the relation, with the first variable that it
leaves out. One method alone is not checked. -/
def gap? (methods : List (Method W T)) : Option (VarId × VarId) :=
  if methods.length ≤ 1 then none
  else methods.findSome? fun m => (missing? methods m).map fun v => (m.output, v)

/-- To count the variables is enough: a proper method of the relation that has as many leaves none
out. -/
theorem missing?_eq_find? {methods : List (Method W T)} {m : Method W T} (hm : m.Proper)
    (hmem : m ∈ methods) :
    missing? methods m = (mentioned methods).toList.find? fun v => v ∉ m.vars := by
  unfold missing?
  split
  · next hlen =>
    have hall : ∀ v ∈ mentioned methods, v ∈ m.vars :=
      fun _ => OrderedSet.mem_of_length_le hm.vars_nodup
        (fun _ hv => mem_mentioned.2 ⟨m, hmem, hv⟩) (Nat.le_of_eq hlen.symm)
    exact (List.find?_eq_none.2 fun v hv => by simpa using hall v hv).symm
  · rfl

/-- A relation has no gap exactly when every method mentions every variable. -/
theorem gap?_eq_none_iff {methods : List (Method W T)} (hproper : ∀ m ∈ methods, m.Proper) :
    gap? methods = none ↔ ∀ m ∈ methods, ∀ v ∈ mentioned methods, v ∈ m.vars := by
  unfold gap?
  split
  · next hlen =>
    refine iff_of_true rfl fun m hm v hv => ?_
    obtain ⟨n, hn, hv⟩ := mem_mentioned.1 hv
    match methods, hlen with
    | [_], _ => rwa [List.mem_singleton.1 hm, ← List.mem_singleton.1 hn]
  · rw [List.findSome?_eq_none_iff]
    refine forall₂_congr fun m hm => ?_
    rw [Option.map_eq_none_iff, missing?_eq_find? (hproper m hm) hm, List.find?_eq_none]
    simp [OrderedSet.mem_def]

/-- The definition that a draft amounts to, if the relation is complete. -/
def build (d : Draft W T) : Except BuildError (Definition W T) :=
  if hne : d.methods = [] then .error .emptyConstraint
  else match hgap : gap? d.methods with
    | some (output, missing) => .error (.disconnectedFormula output missing)
    | none => .ok
      { strength := d.strength
        volatile := d.volatile
        label := d.label
        methods := d.methods
        nonempty := hne
        outputs_nodup := d.outputs_nodup
        proper := d.proper
        covers := (gap?_eq_none_iff d.proper).1 hgap }

/-- The definition that a draft amounts to has the methods of the draft. -/
theorem methods_of_build {draft : Draft W T} {d : Definition W T} (h : draft.build = .ok d) :
    d.methods = draft.methods := by
  unfold build at h
  split at h
  · cases h
  · split at h
    · cases h
    · obtain rfl := Except.ok.inj h
      rfl

/-- Strength and volatility are those of the draft. -/
theorem heads_of_build {draft : Draft W T} {d : Definition W T} (h : draft.build = .ok d) :
    d.strength = draft.strength ∧ d.volatile = draft.volatile := by
  unfold build at h
  split at h
  · cases h
  · split at h
    · cases h
    · obtain rfl := Except.ok.inj h
      exact ⟨rfl, rfl⟩

/-- The definition that registrations amount to, if none of them has a fault and the relation is
complete. -/
def define (strength : Strength) (parts : List (Registration W T)) :
    Except BuildError (Definition W T) := do
  (← (empty strength).registerAll parts).build

/-- Add methods up to the first that is refused. -/
def pushAll (d : Draft W T) : List (Method W T) → Except BuildError (Draft W T)
  | [] => .ok d
  | m :: rest => do (← d.push m).pushAll rest

end Draft

namespace Definition

variable {W T : Type}

/-- The same constraint on renamed variables, checked anew. -/
def substitute (d : Definition W T) (f : VarId → VarId) : Except BuildError (Definition W T) := do
  let draft : Draft W T := { Draft.empty d.strength with volatile := d.volatile, label := d.label }
  (← draft.pushAll (d.methods.map (·.rename f))).build

/-- The renaming that a list of pairs describes. A variable that is not renamed keeps its name, and
of two pairs for one variable the later counts. -/
def renamingOf (pairs : List (VarId × VarId)) (v : VarId) : VarId :=
  (pairs.reverse.lookup v).getD v

end Definition

end DeltaBlue
