import DeltaBlue.Proofs.Drafting
import DeltaBlue.Proofs.Structure
import Mathlib.Data.List.Forall2
import Mathlib.Data.List.Nodup
import Mathlib.Data.Set.Function

/-!
# Substitution is renaming

A definition is substituted into by registering its methods anew on other variables, so whether this
succeeds is decided by the checks of a draft: outputs, inputs and coverage. Together they come to one
condition. Every method of a definition mentions every variable, so a renaming that takes two variables
of the definition to one gives each method a repeated variable, and the first of them is refused
(`proper_rename_iff`). A renaming that keeps the variables apart keeps everything that a draft asks for,
and the copy differs from the definition in nothing but the names.
-/

namespace DeltaBlue

namespace OrderedSet

variable {α β : Type} [DecidableEq α] [DecidableEq β]

/-- Where a function keeps members apart it keeps the order in which they first occur. -/
theorem toList_ofList_map {f : α → β} {as : List α} (hf : Set.InjOn f {a | a ∈ as}) :
    (ofList (as.map f)).toList = (ofList as).toList.map f := by
  induction as using List.reverseRecOn with
  | nil => rfl
  | append_singleton as a ih =>
    have hold : Set.InjOn f {b | b ∈ as} := hf.mono fun b hb => List.mem_append_left [a] hb
    have hmem : f a ∈ (ofList (as.map f)).toList ↔ a ∈ (ofList as).toList := by
      rw [← mem_def, ← mem_def, mem_ofList, mem_ofList, List.mem_map]
      refine ⟨fun ⟨b, hb, he⟩ => ?_, fun ha => ⟨a, ha, rfl⟩⟩
      exact hf (List.mem_append_left [a] hb) (List.mem_append_right as List.mem_cons_self) he ▸ hb
    rw [List.map_append, List.map_singleton, ofList_append_singleton, ofList_append_singleton,
      insert, insert]
    -- a member that is there already has its image there, and a new one has a new image
    by_cases ha : a ∈ (ofList as).toList
    · rw [dif_pos ha, dif_pos (hmem.2 ha)]
      exact ih hold
    · rw [dif_neg ha, dif_neg fun h => ha (hmem.1 h), List.map_append, List.map_singleton]
      exact congrArg (· ++ [f a]) (ih hold)

end OrderedSet

namespace Method

variable {W T : Type} {m : Method W T} {f g : VarId → VarId}

/-- The variables of a renamed method are the images of its variables. -/
theorem vars_rename (m : Method W T) (f : VarId → VarId) : (m.rename f).vars = m.vars.map f := rfl

/-- To rename twice is to rename by the composite. -/
theorem rename_rename (m : Method W T) (f g : VarId → VarId) :
    (m.rename f).rename g = m.rename (g ∘ f) := by
  simp only [rename, List.map_map, Function.comp_apply]

/-- A method does the same under other names: it is the number of its inputs that a computation is
checked against. -/
theorem run_rename (m : Method W T) (f : VarId → VarId) (values : List T) (w : W) :
    (m.rename f).run values w = m.run values w := by
  unfold run
  simp only [rename, List.length_map]

/-- A method is proper if it mentions no variable twice. -/
theorem proper_iff : m.Proper ↔ m.vars.Nodup :=
  ⟨Proper.vars_nodup, fun h => ⟨(List.nodup_cons.1 h).2, (List.nodup_cons.1 h).1⟩⟩

/-- A proper method stays proper exactly under the renamings that keep its variables apart. -/
theorem proper_rename_iff (h : m.Proper) :
    (m.rename f).Proper ↔ Set.InjOn f {v | v ∈ m.vars} := by
  rw [proper_iff, vars_rename, List.nodup_map_iff_inj_on h.vars_nodup]
  rfl

end Method

namespace Draft

variable {W T : Type} {d d' : Draft W T} {ms : List (Method W T)}

/-- What a draft is that has accepted several methods. -/
theorem parts_of_pushAll (h : d.pushAll ms = .ok d') :
    d'.strength = d.strength ∧ d'.volatile = d.volatile ∧ d'.label = d.label ∧
      d'.methods = d.methods ++ ms := by
  -- along the methods, with the draft that they have led to as a parameter
  induction ms generalizing d with
  | nil =>
    obtain rfl := Except.ok.inj h
    exact ⟨rfl, rfl, rfl, (List.append_nil _).symm⟩
  | cons m ms ih =>
    unfold pushAll at h
    cases hpush : d.push m with
    | error e =>
      rw [hpush] at h
      cases h
    | ok d₁ =>
      rw [hpush] at h
      obtain ⟨hs, hv, hl, hm⟩ := parts_of_push hpush
      obtain ⟨hs', hv', hl', hm'⟩ := ih h
      refine ⟨hs'.trans hs, hv'.trans hv, hl'.trans hl, ?_⟩
      rw [hm', hm, List.append_assoc]
      rfl

/-- A draft accepts several methods exactly if all are proper and no two methods that it then has
determine one variable. -/
theorem exists_pushAll_iff :
    (∃ d', d.pushAll ms = .ok d') ↔
      ((d.methods ++ ms).map Method.output).Nodup ∧ ∀ m ∈ ms, m.Proper := by
  induction ms generalizing d with
  | nil =>
    refine iff_of_true ⟨d, rfl⟩ ⟨?_, by simp⟩
    rw [List.append_nil]
    exact d.outputs_nodup
  | cons m ms ih =>
    unfold pushAll
    cases hfault : d.fault? m with
    | some e =>
      rw [push_eq_error hfault]
      refine iff_of_false (fun ⟨_, h⟩ => nomatch h) fun ⟨hnodup, hproper⟩ => ?_
      -- the outputs before the method do not contain its output
      have hnew : m.output ∉ d.methods.map Method.output := by
        rw [List.map_append, List.map_cons, List.nodup_append] at hnodup
        exact fun hmem => hnodup.2.2 _ hmem _ List.mem_cons_self rfl
      rw [fault?_eq_none_iff.2 ⟨hnew, hproper m List.mem_cons_self⟩] at hfault
      cases hfault
    | none =>
      obtain ⟨d₁, hpush⟩ := exists_push hfault
      rw [hpush]
      change (∃ d', d₁.pushAll ms = .ok d') ↔ _
      rw [ih, methods_of_push hpush, List.append_assoc, List.singleton_append, List.forall_mem_cons]
      exact and_congr_right fun _ => (and_iff_right (fault?_eq_none_iff.1 hfault).2).symm

end Draft

namespace Definition

variable {W T : Type} {d d' : Definition W T} {f : VarId → VarId}

/-- The draft of a copy, before it has methods. -/
def heads (d : Definition W T) : Draft W T :=
  { Draft.empty d.strength with volatile := d.volatile, label := d.label }

/-- A copy is made by registering the renamed methods anew and building. -/
theorem substitute_eq (d : Definition W T) (f : VarId → VarId) :
    d.substitute f = (d.heads.pushAll (d.methods.map (·.rename f))).bind Draft.build := rfl

/-- What the copy is: the same definition with renamed methods. -/
theorem parts_of_substitute (h : d.substitute f = .ok d') :
    d'.strength = d.strength ∧ d'.volatile = d.volatile ∧ d'.label = d.label ∧
      d'.methods = d.methods.map (·.rename f) := by
  rw [substitute_eq] at h
  cases hpush : d.heads.pushAll (d.methods.map (·.rename f)) with
  | error e =>
    rw [hpush] at h
    cases h
  | ok draft =>
    rw [hpush] at h
    obtain ⟨hs, hv, hl, hm⟩ := Draft.parts_of_pushAll hpush
    obtain ⟨hs', hv', hl', hm'⟩ := Draft.parts_of_build h
    exact ⟨hs'.trans hs, hv'.trans hv, hl'.trans hl, hm'.trans hm⟩

/-- The variables of a method are those of its definition. -/
theorem setOf_mem_vars {m : Method W T} (hm : m ∈ d.methods) :
    {v | v ∈ d.vars} = {v | v ∈ m.vars} :=
  Set.ext fun _ => (mem_vars_iff hm).trans List.mem_cons.symm

/-- A definition can be substituted into exactly along the renamings that keep its variables apart. -/
theorem exists_substitute_iff :
    (∃ d', d.substitute f = .ok d') ↔ Set.InjOn f {v | v ∈ d.vars} := by
  rw [substitute_eq]
  constructor
  · rintro ⟨d', h⟩
    cases hpush : d.heads.pushAll (d.methods.map (·.rename f)) with
    | error e =>
      rw [hpush] at h
      cases h
    | ok draft =>
      -- any one method mentions all variables, and it was accepted
      obtain ⟨m, hm⟩ := List.exists_mem_of_ne_nil _ d.nonempty
      obtain ⟨-, hproper⟩ := Draft.exists_pushAll_iff.1 ⟨draft, hpush⟩
      rw [setOf_mem_vars hm, ← Method.proper_rename_iff (d.proper m hm)]
      exact hproper _ (List.mem_map_of_mem hm)
  · intro hf
    have hproper : ∀ m ∈ d.methods.map (·.rename f), m.Proper := by
      intro m' hm'
      obtain ⟨m, hm, rfl⟩ := List.mem_map.1 hm'
      rw [Method.proper_rename_iff (d.proper m hm), ← setOf_mem_vars hm]
      exact hf
    -- outputs are variables of the definition, so they are kept apart as well
    have houtputs : ((d.methods.map (·.rename f)).map Method.output).Nodup := by
      have hcomp : (d.methods.map (·.rename f)).map Method.output =
          (d.methods.map Method.output).map f := by
        rw [List.map_map, List.map_map]
        rfl
      rw [hcomp, List.nodup_map_iff_inj_on d.outputs_nodup]
      intro v hv w hw
      obtain ⟨m, hm, rfl⟩ := List.mem_map.1 hv
      obtain ⟨n, hn, rfl⟩ := List.mem_map.1 hw
      exact hf (output_mem_vars hm) (output_mem_vars hn)
    have haccepted : ∃ draft, d.heads.pushAll (d.methods.map (·.rename f)) = .ok draft :=
      Draft.exists_pushAll_iff.2 ⟨houtputs, hproper⟩
    obtain ⟨draft, hpush⟩ := haccepted
    have hmethods : draft.methods = d.methods.map (·.rename f) := (Draft.parts_of_pushAll hpush).2.2.2
    rw [hpush]
    refine Draft.exists_build ?_ ?_
    · rw [hmethods]
      exact fun hnil => d.nonempty (List.map_eq_nil_iff.1 hnil)
    · -- the image of a method has the images of all variables
      rw [hmethods]
      intro m' hm' n' hn' v hv
      obtain ⟨m, hm, rfl⟩ := List.mem_map.1 hm'
      obtain ⟨n, hn, rfl⟩ := List.mem_map.1 hn'
      rw [Method.vars_rename] at hv
      obtain ⟨u, hu, rfl⟩ := List.mem_map.1 hv
      have hu' : u ∈ {v | v ∈ m.vars} := setOf_mem_vars hm ▸ mem_vars.2 ⟨n, hn, hu⟩
      exact List.mem_map_of_mem hu'

/-- The variables of the copy are the images of the variables, in the same order. -/
theorem vars_of_substitute (h : d.substitute f = .ok d') : d'.vars = d.vars.map f := by
  have hf := exists_substitute_iff.1 ⟨d', h⟩
  unfold vars mentioned
  rw [(parts_of_substitute h).2.2.2, List.flatMap_map]
  simp only [Method.vars_rename]
  rw [← List.map_flatMap]
  refine OrderedSet.toList_ofList_map (hf.mono fun v hv => ?_)
  obtain ⟨m, hm, hv⟩ := List.mem_flatMap.1 hv
  exact mem_vars.2 ⟨m, hm, hv⟩

/-- To rename the copy is to rename the definition by both renamings at once. -/
theorem substitute_of_substitute (h : d.substitute f = .ok d') (g : VarId → VarId) :
    d'.substitute g = d.substitute (g ∘ f) := by
  obtain ⟨hs, hv, hl, hm⟩ := parts_of_substitute h
  -- the copy begins with the same draft and has the renamed methods
  have hheads : d'.heads = d.heads := by rw [heads, heads, hs, hv, hl]
  rw [substitute_eq, substitute_eq, hheads, hm, List.map_map]
  simp only [Function.comp_def, Method.rename_rename]

/-- The renaming that comes of two, one after the other, each described by pairs: a variable that the
first renames goes where the second takes the new name. -/
theorem renamingOf_comp (pairs more : List (VarId × VarId)) :
    renamingOf more ∘ renamingOf pairs =
      renamingOf (more ++ pairs.map fun p => (p.1, renamingOf more p.2)) := by
  -- the first renaming decides where a variable goes, and only then the second
  have hlookup : ∀ (ps : List (VarId × VarId)) (v : VarId),
      (ps.map fun p => (p.1, renamingOf more p.2)).lookup v =
        (ps.lookup v).map (renamingOf more) := by
    intro ps v
    induction ps with
    | nil => rfl
    | cons p ps ih =>
      rw [List.map_cons, List.lookup_cons, List.lookup_cons, ih]
      split <;> rfl
  funext v
  simp only [Function.comp_apply, renamingOf, List.reverse_append, List.lookup_append,
    ← List.map_reverse]
  have h := hlookup pairs.reverse v
  unfold renamingOf at h
  rw [h]
  cases pairs.reverse.lookup v <;> rfl

/-- Substitution is renaming. It succeeds exactly if the renaming keeps the variables of the definition
apart. Then the copy has the same strength, volatility and label, its variables are the images of the
variables in the same order, and its methods have the images of the outputs and inputs, the same actions,
and the same outcome on the same values. To substitute into the copy is the same, whether it succeeds or
not, as to substitute the composite into the definition. -/
theorem substitute_renames (d : Definition W T) (f : VarId → VarId) :
    ((∃ d', d.substitute f = .ok d') ↔ Set.InjOn f {v | v ∈ d.vars}) ∧
    ∀ d', d.substitute f = .ok d' →
      (d'.strength = d.strength ∧ d'.volatile = d.volatile ∧ d'.label = d.label) ∧
      d'.vars = d.vars.map f ∧
      List.Forall₂ (fun m m' : Method W T => m'.output = f m.output ∧ m'.inputs = m.inputs.map f ∧
        m'.action = m.action ∧ ∀ values w, m'.run values w = m.run values w) d.methods d'.methods ∧
      ∀ g, d'.substitute g = d.substitute (g ∘ f) := by
  refine ⟨exists_substitute_iff, fun d' h => ?_⟩
  obtain ⟨hs, hv, hl, hm⟩ := parts_of_substitute h
  refine ⟨⟨hs, hv, hl⟩, vars_of_substitute h, ?_, substitute_of_substitute h⟩
  rw [hm, List.forall₂_map_right_iff, List.forall₂_same]
  exact fun m _ => ⟨rfl, rfl, rfl, m.run_rename f⟩

end Definition

end DeltaBlue
