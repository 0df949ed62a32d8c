import DeltaBlue.Draft
import Mathlib.Data.List.Basic
import Mathlib.Data.List.Induction

/-!
# What a draft accepts

A draft checks each method on its own when it is registered and the relation as a whole when it is
built. Registering is a matter of the output and the inputs that are asked for (`register_accepts`),
and what was registered is the list of the accepted methods (`methods_registerEach`).

Building compares numbers: a method covers the relation if it has as many variables as the relation.
Because accepted methods are proper, this is the same as to look for a variable that is left out
(`missing?_eq_find?`), so a definition is made exactly when no method leaves one out, and otherwise
the error is about the first that does (`FirstGap`).
-/

namespace DeltaBlue

/-! ## Order of first mention -/

/-- A list has the members of another without repetition, in the order in which they first occur
there. -/
structure InFirstMention {α : Type} [DecidableEq α] (members mentions : List α) : Prop where
  /-- No member is listed twice. -/
  nodup : members.Nodup
  /-- The members are those of the other list. -/
  mem_iff : ∀ a, a ∈ members ↔ a ∈ mentions
  /-- What stands earlier is mentioned first earlier. -/
  ordered : members.Pairwise fun a b => mentions.idxOf a < mentions.idxOf b

namespace OrderedSet

variable {α : Type} [DecidableEq α]

/-- To add a member at the end of a list is to insert it last. -/
theorem ofList_append_singleton (as : List α) (a : α) :
    ofList (as ++ [a]) = (ofList as).insert a := by
  rw [ofList, insertAll, List.foldl_append]
  rfl

/-- The set of the members of a list keeps them in order of first occurrence. -/
theorem inFirstMention_ofList (as : List α) : InFirstMention (ofList as).toList as where
  nodup := (ofList as).nodup
  mem_iff _ := mem_ofList
  ordered := by
    -- from the end of the list: a member that was there before keeps its first place
    induction as using List.reverseRecOn with
    | nil => exact List.Pairwise.nil
    | append_singleton as a ih =>
      have hold : (ofList as).toList.Pairwise
          fun b c => (as ++ [a]).idxOf b < (as ++ [a]).idxOf c := by
        refine ih.imp_of_mem fun {b c} hb hc hlt => ?_
        rwa [List.idxOf_append_of_mem (mem_ofList.1 hb), List.idxOf_append_of_mem (mem_ofList.1 hc)]
      rw [ofList_append_singleton, insert]
      split
      · exact hold
      · next hnew =>
        -- a new member is first mentioned after all the others
        refine List.pairwise_append.2 ⟨hold, List.pairwise_singleton _ _, fun b hb c hc => ?_⟩
        have hb : b ∈ as := mem_ofList.1 hb
        have hnew : a ∉ as := fun ha => hnew (mem_ofList.2 ha)
        rw [List.mem_singleton.1 hc, List.idxOf_append_of_mem hb, List.idxOf_append_of_notMem hnew]
        exact Nat.lt_add_right _ (List.idxOf_lt_length_iff.2 hb)

end OrderedSet

namespace Registration

variable {W T : Type} {r : Registration W T} {m : Method W T}

/-- The output and the inputs that a registration asks for, if it asks for a method. -/
def heading? : Registration W T → Option (VarId × List VarId)
  | .volatile | .label _ => none
  | .formula output inputs _ | .volatileFormula output inputs _ => some (output, inputs)
  | .fallibleFormula output inputs _ | .variadicFormula output inputs _ => some (output, inputs)
  | .passThrough output inputs => some (output, inputs)
  | .stay output | .constant output _ => some (output, [])
  | .observer output inputs _ => some (output, inputs)
  | .method m => some (m.output, m.inputs)

/-- The method that a registration asks for. A copy of several inputs is none. -/
def method? : Registration W T → Option (Method W T)
  | .volatile | .label _ => none
  | .formula output inputs f | .volatileFormula output inputs f =>
    some (.compute output inputs (.fixed inputs.length (.total f)))
  | .fallibleFormula output inputs f => some (.compute output inputs (.fixed inputs.length f))
  | .variadicFormula output inputs f => some (.compute output inputs f)
  | .passThrough output [] | .stay output => some (.stay output)
  | .passThrough output [input] => some (.compute output [input] (.fixed 1 .first))
  | .passThrough _ _ => none
  | .constant output value => some (.edit output value)
  | .observer output inputs f => some (.observe output inputs f)
  | .method m => some m

/-- The method that a registration asks for has the output and the inputs that are asked for. -/
theorem heading?_of_method? (h : r.method? = some m) : r.heading? = some (m.output, m.inputs) := by
  unfold method? at h
  split at h <;> cases h <;> rfl

/-- A copy of several inputs asks for no method. -/
theorem length_le_one_of_method? {output : VarId} {inputs : List VarId}
    (h : (passThrough output inputs : Registration W T).method? = some m) : inputs.length ≤ 1 := by
  rcases inputs with _ | ⟨_, _ | ⟨_, _⟩⟩
  · exact Nat.zero_le 1
  · exact Nat.le_refl 1
  · cases h

end Registration

namespace Draft

variable {W T : Type} {d : Draft W T} {r : Registration W T} {m : Method W T}
  {output : VarId} {inputs : List VarId}

/-! ## Registering -/

/-- A draft is offered the method of a registration, if there is one. -/
theorem register_of_method? (h : r.method? = some m) :
    ∃ d' : Draft W T, d'.methods = d.methods ∧ d.register r = d'.offer m := by
  unfold Registration.method? at h
  split at h <;> cases h
  case h_4 => exact ⟨{ d with volatile := true }, rfl, rfl⟩
  all_goals exact ⟨d, rfl, rfl⟩

/-- A registration without a method sets an attribute, or it is a copy of several inputs and is
refused. -/
theorem register_of_method?_eq_none (h : r.method? = none) :
    (d.register r).1.methods = d.methods ∧
      (r.heading? = none ∧ (d.register r).2 = none ∨
        ∃ output inputs, r = .passThrough output inputs ∧ 1 < inputs.length ∧
          (d.register r).2 = some (.arityMismatch output 1 inputs.length)) := by
  unfold Registration.method? at h
  split at h <;> cases h
  · exact ⟨rfl, .inl ⟨rfl, rfl⟩⟩
  · exact ⟨rfl, .inl ⟨rfl, rfl⟩⟩
  · next output inputs hnil hone =>
    -- without an input, or with one, a copy would ask for a method
    rcases inputs with _ | ⟨first, _ | ⟨second, rest⟩⟩
    · exact (hnil rfl).elim
    · exact (hone first rfl).elim
    · exact ⟨rfl, .inr ⟨output, _, rfl, Nat.one_lt_succ_succ rest.length, rfl⟩⟩

/-- What a draft is that has accepted a method. -/
theorem parts_of_push {d' : Draft W T} (h : d.push m = .ok d') :
    d'.strength = d.strength ∧ d'.volatile = d.volatile ∧ d'.label = d.label ∧
      d'.methods = d.methods ++ [m] := by
  unfold push at h
  split at h
  · cases h
  · obtain rfl := Except.ok.inj h
    exact ⟨rfl, rfl, rfl, rfl⟩

/-- A method that is offered is accepted exactly when the draft finds no fault with it, and then it
becomes the last one. -/
theorem offer_cases (d : Draft W T) (m : Method W T) :
    d.fault? m = none ∧ (d.offer m).2 = none ∧ (d.offer m).1.methods = d.methods ++ [m] ∨
      ∃ e, d.fault? m = some e ∧ d.offer m = (d, some e) := by
  cases hfault : d.fault? m with
  | some e =>
    refine .inr ⟨e, rfl, ?_⟩
    rw [offer, push_eq_error hfault]
  | none =>
    obtain ⟨d', hpush⟩ := exists_push hfault
    refine .inl ⟨rfl, ?_⟩
    rw [offer, hpush]
    exact ⟨rfl, methods_of_push hpush⟩

/-- A registration that asks for a method is carried out exactly when the output is new, the inputs are
distinct, and the output is not one of them; a copy moreover has at most one input. -/
theorem register_accepts (h : r.heading? = some (output, inputs)) :
    (d.register r).2 = none ↔
      output ∉ d.methods.map Method.output ∧ inputs.Nodup ∧ output ∉ inputs ∧
        (r = .passThrough output inputs → inputs.length ≤ 1) := by
  cases hm : r.method? with
  | none =>
    -- what has a heading but no method is a copy of several inputs
    obtain ⟨-, ⟨hnone, -⟩ | ⟨output', inputs', rfl, hlen, herr⟩⟩ :=
      register_of_method?_eq_none (d := d) hm
    · rw [hnone] at h
      cases h
    · obtain ⟨rfl, rfl⟩ := Prod.mk.inj (Option.some.inj h)
      rw [herr]
      exact iff_of_false nofun fun hall => absurd (hall.2.2.2 rfl) (Nat.not_le_of_lt hlen)
  | some m =>
    obtain ⟨rfl, rfl⟩ : m.output = output ∧ m.inputs = inputs := by
      rw [Registration.heading?_of_method? hm] at h
      exact Prod.mk.inj (Option.some.inj h)
    have hcopy : r = .passThrough m.output m.inputs → m.inputs.length ≤ 1 := by
      intro hr
      rw [hr] at hm
      exact Registration.length_le_one_of_method? hm
    obtain ⟨d', hmethods, hregister⟩ := register_of_method? (d := d) hm
    -- the draft finds fault with a repeated output and with an improper method
    have hfault : d'.fault? m = none ↔ m.output ∉ d.methods.map Method.output ∧ m.Proper := by
      rw [fault?_eq_none_iff, hmethods]
    rw [hregister]
    constructor
    · intro hok
      obtain ⟨hnone, -⟩ | ⟨e, -, herr⟩ := d'.offer_cases m
      · obtain ⟨hnew, hproper⟩ := hfault.1 hnone
        exact ⟨hnew, hproper.inputs_nodup, hproper.output_not_mem, hcopy⟩
      · rw [herr] at hok
        cases hok
    · rintro ⟨hnew, hnodup, hnot, -⟩
      obtain ⟨-, hok, -⟩ | ⟨e, herr, -⟩ := d'.offer_cases m
      · exact hok
      · rw [hfault.2 ⟨hnew, hnodup, hnot⟩] at herr
        cases herr

/-- A registration that is carried out adds its method, and one that is refused adds none. -/
theorem methods_register (d : Draft W T) (r : Registration W T) :
    (d.register r).1.methods =
      d.methods ++ if (d.register r).2 = none then r.method?.toList else [] := by
  cases hm : r.method? with
  | none => rw [(register_of_method?_eq_none hm).1]; simp
  | some m =>
    obtain ⟨d', hmethods, hregister⟩ := register_of_method? (d := d) hm
    rw [hregister, ← hmethods]
    obtain ⟨-, hok, happend⟩ | ⟨e, -, herr⟩ := d'.offer_cases m
    · rw [if_pos hok, happend]
      rfl
    · rw [herr, if_neg nofun, List.append_nil]

/-- Carry out registrations, each that is refused being passed over. -/
def registerEach (d : Draft W T) (rs : List (Registration W T)) : Draft W T :=
  rs.foldl (fun d r => (d.register r).1) d

/-- The registrations of a list that are carried out. -/
def accepted (d : Draft W T) : List (Registration W T) → List (Registration W T)
  | [] => []
  | r :: rs =>
    (if (d.register r).2 = none then [r] else []) ++ (d.register r).1.accepted rs

/-- The methods of a draft are those of the registrations that were carried out, in their order. -/
theorem methods_registerEach (d : Draft W T) (rs : List (Registration W T)) :
    (d.registerEach rs).methods =
      d.methods ++ (d.accepted rs).filterMap Registration.method? := by
  -- along the registrations, with the draft that they have led to as a parameter
  induction rs generalizing d with
  | nil => simp [registerEach, accepted]
  | cons r rs ih =>
    have hcons : d.registerEach (r :: rs) = (d.register r).1.registerEach rs := rfl
    have hfirst : (if (d.register r).2 = none then r.method?.toList else []) =
        (if (d.register r).2 = none then [r] else []).filterMap Registration.method? := by
      split
      · cases hm : r.method? <;> simp [hm]
      · rfl
    rw [hcons, ih, methods_register, accepted, List.filterMap_append, ← hfirst, List.append_assoc]

/-! ## Building -/

/-- Each of several methods involves exactly the variables that any of them involves. -/
def Connected (methods : List (Method W T)) : Prop :=
  1 < methods.length → ∀ m ∈ methods, ∀ v, v ∈ m.vars ↔ ∃ n ∈ methods, v ∈ n.vars

/-- The first method that leaves out a variable has this output, and this is the first variable in
order of mention that it leaves out. -/
def FirstGap (methods : List (Method W T)) (output missing : VarId) : Prop :=
  ∃ before m after, methods = before ++ m :: after ∧ m.output = output ∧
    (∀ n ∈ before, ∀ v ∈ mentioned methods, v ∈ n.vars) ∧
    ∃ earlier later, (mentioned methods).toList = earlier ++ missing :: later ∧
      missing ∉ m.vars ∧ ∀ v ∈ earlier, v ∈ m.vars

/-- Several methods without a gap are connected; one method is. -/
theorem gap?_eq_none_iff_connected {methods : List (Method W T)}
    (hproper : ∀ m ∈ methods, m.Proper) : gap? methods = none ↔ Connected methods := by
  rw [gap?_eq_none_iff hproper]
  constructor
  · intro hall _ m hm v
    exact ⟨fun hv => ⟨m, hm, hv⟩, fun hv => hall m hm v (mem_mentioned.2 hv)⟩
  · intro hconnected m hm v hv
    by_cases hlen : 1 < methods.length
    · exact (hconnected hlen m hm v).2 (mem_mentioned.1 hv)
    · exact (gap?_eq_none_iff hproper).1 (if_pos (Nat.le_of_not_lt hlen)) m hm v hv

/-- The gap that is found is the first one. -/
theorem firstGap_of_gap?_eq_some {methods : List (Method W T)} {missing : VarId}
    (hproper : ∀ m ∈ methods, m.Proper) (h : gap? methods = some (output, missing)) :
    FirstGap methods output missing := by
  unfold gap? at h
  split at h
  · cases h
  · obtain ⟨before, m, after, hmethods, hm, hbefore⟩ := List.findSome?_eq_some_iff.1 h
    -- the methods up to the one found belong to the draft, so they are proper
    have hmem : ∀ n ∈ before ++ [m], n ∈ methods := by
      intro n hn
      rw [hmethods, List.append_cons]
      exact List.mem_append_left _ hn
    obtain ⟨v, hv, hpair⟩ := Option.map_eq_some_iff.1 hm
    obtain ⟨rfl, rfl⟩ := Prod.mk.inj hpair
    have hm : m ∈ methods := hmem m (by simp)
    rw [missing?_eq_find? (hproper m hm) hm, List.find?_eq_some_iff_append] at hv
    obtain ⟨hnot, earlier, later, hvars, hearlier⟩ := hv
    refine ⟨before, m, after, hmethods, rfl, fun n hn v hv => ?_, earlier, later, hvars,
      by simpa using hnot, fun v hv => by simpa using hearlier v hv⟩
    have hn' : n ∈ methods := hmem n (List.mem_append_left _ hn)
    have hnone := hbefore n hn
    rw [Option.map_eq_none_iff, missing?_eq_find? (hproper n hn') hn', List.find?_eq_none] at hnone
    simpa using hnone v hv

example : gap? [(.compute ⟨0, 0⟩ [⟨1, 0⟩] .first : Method Unit Nat),
    .compute ⟨1, 0⟩ [⟨0, 0⟩, ⟨2, 0⟩] .first] = some (⟨0, 0⟩, ⟨2, 0⟩) := by decide

/-- What building a draft gives: the definition with its methods, the error for a draft without
methods, or the error about the first gap. -/
theorem build_cases (d : Draft W T) :
    (∃ definition, d.build = .ok definition ∧ d.methods ≠ [] ∧ Connected d.methods) ∨
      d.build = .error .emptyConstraint ∧ d.methods = [] ∨
      ∃ output missing, d.build = .error (.disconnectedFormula output missing) ∧
        ¬ Connected d.methods ∧ FirstGap d.methods output missing := by
  unfold build
  split
  · next hnil => exact .inr (.inl ⟨rfl, hnil⟩)
  · next hne =>
    split
    · next output missing hgap =>
      refine .inr (.inr ⟨output, missing, rfl, fun hconnected => ?_,
        firstGap_of_gap?_eq_some d.proper hgap⟩)
      rw [(gap?_eq_none_iff_connected d.proper).2 hconnected] at hgap
      cases hgap
    · next hgap => exact .inl ⟨_, rfl, hne, (gap?_eq_none_iff_connected d.proper).1 hgap⟩

/-- What a definition is that a draft amounts to. -/
theorem parts_of_build {definition : Definition W T} (h : d.build = .ok definition) :
    definition.strength = d.strength ∧ definition.volatile = d.volatile ∧
      definition.label = d.label ∧ definition.methods = d.methods := by
  unfold build at h
  split at h
  · cases h
  · split at h
    · cases h
    · obtain rfl := Except.ok.inj h
      exact ⟨rfl, rfl, rfl, rfl⟩

/-- If every method mentions all variables, a draft with methods amounts to a definition. -/
theorem exists_build (hne : d.methods ≠ [])
    (hcovers : ∀ m ∈ d.methods, ∀ n ∈ d.methods, ∀ v ∈ n.vars, v ∈ m.vars) :
    ∃ definition, d.build = .ok definition := by
  obtain ⟨definition, hbuild, -⟩ | ⟨-, hnil⟩ | ⟨_, _, -, hnot, -⟩ := d.build_cases
  · exact ⟨definition, hbuild⟩
  · exact absurd hnil hne
  · exact absurd (fun _ m hm v => ⟨fun hv => ⟨m, hm, hv⟩, fun ⟨n, hn, hv⟩ => hcovers m hm n hn v hv⟩) hnot

/-- What a draft accepts, after any registrations. A further method is accepted exactly when its
output is new, its inputs are distinct, and the output is not one of them, a copy having at most one
input; the methods are those that were accepted, in order. A definition is made exactly when there
is a method and several methods involve the same variables. It has the methods of the draft, and it
lists their variables in order of first mention. An error about a variable that is left out names the
first method that leaves one out and the first variable that it leaves out. -/
theorem accepts_exactly (strength : Strength) (rs : List (Registration W T)) :
    let d := (empty strength : Draft W T).registerEach rs
    (∀ r output inputs, r.heading? = some (output, inputs) →
      ((d.register r).2 = none ↔
        output ∉ d.methods.map Method.output ∧ inputs.Nodup ∧ output ∉ inputs ∧
          (r = .passThrough output inputs → inputs.length ≤ 1))) ∧
    d.methods = ((empty strength : Draft W T).accepted rs).filterMap Registration.method? ∧
    ((∃ definition, d.build = .ok definition) ↔ d.methods ≠ [] ∧ Connected d.methods) ∧
    (∀ definition, d.build = .ok definition →
      definition.methods = d.methods ∧
        InFirstMention definition.vars (d.methods.flatMap Method.vars)) ∧
    (d.build = .error .emptyConstraint ↔ d.methods = []) ∧
    ∀ output missing, d.build = .error (.disconnectedFormula output missing) →
      FirstGap d.methods output missing := by
  intro d
  refine ⟨fun r output inputs => register_accepts, ?_, ?_, fun definition hbuild => ?_, ?_,
    fun output missing hbuild => ?_⟩
  · rw [methods_registerEach]
    rfl
  · obtain ⟨definition, hbuild, hwhole⟩ | ⟨hbuild, hnil⟩ | ⟨_, _, hbuild, hnot, -⟩ := d.build_cases
    · exact iff_of_true ⟨definition, hbuild⟩ hwhole
    · refine iff_of_false ?_ fun hwhole => hwhole.1 hnil
      rintro ⟨definition, hok⟩
      rw [hbuild] at hok
      cases hok
    · refine iff_of_false ?_ fun hwhole => hnot hwhole.2
      rintro ⟨definition, hok⟩
      rw [hbuild] at hok
      cases hok
  · have hmethods := methods_of_build hbuild
    refine ⟨hmethods, ?_⟩
    rw [← hmethods]
    exact OrderedSet.inFirstMention_ofList _
  · obtain ⟨_, hbuild, hne, -⟩ | ⟨hbuild, hnil⟩ | ⟨_, _, hbuild, hnot, -⟩ := d.build_cases
    · exact iff_of_false (by rw [hbuild]; nofun) hne
    · exact iff_of_true hbuild hnil
    · refine iff_of_false (by rw [hbuild]; nofun) fun hnil => hnot fun hlen => ?_
      rw [hnil] at hlen
      cases hlen
  · obtain ⟨_, hok, -⟩ | ⟨hempty, -⟩ | ⟨output', missing', herr, -, hgap⟩ := d.build_cases
    · rw [hok] at hbuild
      cases hbuild
    · rw [hempty] at hbuild
      cases hbuild
    · rw [herr] at hbuild
      obtain ⟨rfl, rfl⟩ := BuildError.disconnectedFormula.inj (Except.error.inj hbuild)
      exact hgap

end Draft

end DeltaBlue
